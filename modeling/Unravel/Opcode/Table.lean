import Unravel.Opcode.Basic

/-! The instruction table: mnemonic, encoding, operand kind, flow and fixed stack effect of every
   opcode, the branch forms, and the list of all opcodes in the order of their encodings. -/
namespace Unravel

def Form.suffix : Form → String
  | .short => ".s"
  | .long => ""

def Slot.suffix : Slot → String
  | .fixed n => "." ++ toString n.val
  | .short => ".s"
  | .long => ""

def Slot.operand : Slot → OperandKind
  | .fixed _ => .none
  | .short => .shortVar
  | .long => .var

def Form.slotOperand : Form → OperandKind
  | .short => .shortVar
  | .long => .var

def Form.branchOperand : Form → OperandKind
  | .short => .shortBranch
  | .long => .branch

/-- Encodings of a family of slots from the code of slot 0, the short and the long code. -/
def Slot.encode (first short long : UInt8) : Slot → Encoding
  | .fixed n => ⟨0x00, first + UInt8.ofNat n.val⟩
  | .short => ⟨0x00, short⟩
  | .long => ⟨0xFE, long⟩

namespace Condition

def mnemonic : Condition → String
  | isFalse => "brfalse"
  | isTrue => "brtrue"
  | eq => "beq"
  | ge => "bge"
  | gt => "bgt"
  | le => "ble"
  | lt => "blt"
  | neUn => "bne.un"
  | geUn => "bge.un"
  | gtUn => "bgt.un"
  | leUn => "ble.un"
  | ltUn => "blt.un"

/-- Place among the branch opcodes, which follow the unconditional branch of their form. -/
def position : Condition → UInt8
  | isFalse => 1
  | isTrue => 2
  | eq => 3
  | ge => 4
  | gt => 5
  | le => 6
  | lt => 7
  | neUn => 8
  | geUn => 9
  | gtUn => 10
  | leUn => 11
  | ltUn => 12

def arity : Condition → Nat
  | isFalse | isTrue => 1
  | _ => 2

end Condition

namespace BinaryOp

def mnemonic : BinaryOp → String
  | add => "add"
  | sub => "sub"
  | mul => "mul"
  | div => "div"
  | divUn => "div.un"
  | rem => "rem"
  | remUn => "rem.un"
  | and => "and"
  | or => "or"
  | xor => "xor"
  | shl => "shl"
  | shr => "shr"
  | shrUn => "shr.un"
  | ceq => "ceq"
  | cgt => "cgt"
  | cgtUn => "cgt.un"
  | clt => "clt"
  | cltUn => "clt.un"

def encoding : BinaryOp → Encoding
  | add => ⟨0x00, 0x58⟩
  | sub => ⟨0x00, 0x59⟩
  | mul => ⟨0x00, 0x5A⟩
  | div => ⟨0x00, 0x5B⟩
  | divUn => ⟨0x00, 0x5C⟩
  | rem => ⟨0x00, 0x5D⟩
  | remUn => ⟨0x00, 0x5E⟩
  | and => ⟨0x00, 0x5F⟩
  | or => ⟨0x00, 0x60⟩
  | xor => ⟨0x00, 0x61⟩
  | shl => ⟨0x00, 0x62⟩
  | shr => ⟨0x00, 0x63⟩
  | shrUn => ⟨0x00, 0x64⟩
  | ceq => ⟨0xFE, 0x01⟩
  | cgt => ⟨0xFE, 0x02⟩
  | cgtUn => ⟨0xFE, 0x03⟩
  | clt => ⟨0xFE, 0x04⟩
  | cltUn => ⟨0xFE, 0x05⟩

end BinaryOp

namespace Plain

/-- What is known of a plain instruction. `acts` holds if it may touch more than the stack. -/
structure Row where
  mnemonic : String
  encoding : Encoding
  operand : OperandKind
  stack : StackEffect
  acts : Bool

def row : Plain → Row
  | .breakpoint => ⟨"break", ⟨0x00, 0x01⟩, .none, ⟨0, 0⟩, true⟩
  | .ldnull => ⟨"ldnull", ⟨0x00, 0x14⟩, .none, ⟨0, 1⟩, false⟩
  | .ldcR4 => ⟨"ldc.r4", ⟨0x00, 0x22⟩, .float32, ⟨0, 1⟩, false⟩
  | .ldcR8 => ⟨"ldc.r8", ⟨0x00, 0x23⟩, .float64, ⟨0, 1⟩, false⟩
  | .ldindI1 => ⟨"ldind.i1", ⟨0x00, 0x46⟩, .none, ⟨1, 1⟩, false⟩
  | .ldindU1 => ⟨"ldind.u1", ⟨0x00, 0x47⟩, .none, ⟨1, 1⟩, false⟩
  | .ldindI2 => ⟨"ldind.i2", ⟨0x00, 0x48⟩, .none, ⟨1, 1⟩, false⟩
  | .ldindU2 => ⟨"ldind.u2", ⟨0x00, 0x49⟩, .none, ⟨1, 1⟩, false⟩
  | .ldindI4 => ⟨"ldind.i4", ⟨0x00, 0x4A⟩, .none, ⟨1, 1⟩, false⟩
  | .ldindU4 => ⟨"ldind.u4", ⟨0x00, 0x4B⟩, .none, ⟨1, 1⟩, false⟩
  | .ldindI8 => ⟨"ldind.i8", ⟨0x00, 0x4C⟩, .none, ⟨1, 1⟩, false⟩
  | .ldindI => ⟨"ldind.i", ⟨0x00, 0x4D⟩, .none, ⟨1, 1⟩, false⟩
  | .ldindR4 => ⟨"ldind.r4", ⟨0x00, 0x4E⟩, .none, ⟨1, 1⟩, false⟩
  | .ldindR8 => ⟨"ldind.r8", ⟨0x00, 0x4F⟩, .none, ⟨1, 1⟩, false⟩
  | .ldindRef => ⟨"ldind.ref", ⟨0x00, 0x50⟩, .none, ⟨1, 1⟩, false⟩
  | .stindRef => ⟨"stind.ref", ⟨0x00, 0x51⟩, .none, ⟨2, 0⟩, true⟩
  | .stindI1 => ⟨"stind.i1", ⟨0x00, 0x52⟩, .none, ⟨2, 0⟩, true⟩
  | .stindI2 => ⟨"stind.i2", ⟨0x00, 0x53⟩, .none, ⟨2, 0⟩, true⟩
  | .stindI4 => ⟨"stind.i4", ⟨0x00, 0x54⟩, .none, ⟨2, 0⟩, true⟩
  | .stindI8 => ⟨"stind.i8", ⟨0x00, 0x55⟩, .none, ⟨2, 0⟩, true⟩
  | .stindR4 => ⟨"stind.r4", ⟨0x00, 0x56⟩, .none, ⟨2, 0⟩, true⟩
  | .stindR8 => ⟨"stind.r8", ⟨0x00, 0x57⟩, .none, ⟨2, 0⟩, true⟩
  | .convI1 => ⟨"conv.i1", ⟨0x00, 0x67⟩, .none, ⟨1, 1⟩, false⟩
  | .convI2 => ⟨"conv.i2", ⟨0x00, 0x68⟩, .none, ⟨1, 1⟩, false⟩
  | .convI4 => ⟨"conv.i4", ⟨0x00, 0x69⟩, .none, ⟨1, 1⟩, false⟩
  | .convI8 => ⟨"conv.i8", ⟨0x00, 0x6A⟩, .none, ⟨1, 1⟩, false⟩
  | .convR4 => ⟨"conv.r4", ⟨0x00, 0x6B⟩, .none, ⟨1, 1⟩, false⟩
  | .convR8 => ⟨"conv.r8", ⟨0x00, 0x6C⟩, .none, ⟨1, 1⟩, false⟩
  | .convU4 => ⟨"conv.u4", ⟨0x00, 0x6D⟩, .none, ⟨1, 1⟩, false⟩
  | .convU8 => ⟨"conv.u8", ⟨0x00, 0x6E⟩, .none, ⟨1, 1⟩, false⟩
  | .cpobj => ⟨"cpobj", ⟨0x00, 0x70⟩, .type, ⟨2, 0⟩, true⟩
  | .ldobj => ⟨"ldobj", ⟨0x00, 0x71⟩, .type, ⟨1, 1⟩, false⟩
  | .ldstr => ⟨"ldstr", ⟨0x00, 0x72⟩, .string, ⟨0, 1⟩, false⟩
  | .castclass => ⟨"castclass", ⟨0x00, 0x74⟩, .type, ⟨1, 1⟩, false⟩
  | .isinst => ⟨"isinst", ⟨0x00, 0x75⟩, .type, ⟨1, 1⟩, false⟩
  | .convRUn => ⟨"conv.r.un", ⟨0x00, 0x76⟩, .none, ⟨1, 1⟩, false⟩
  | .unbox => ⟨"unbox", ⟨0x00, 0x79⟩, .type, ⟨1, 1⟩, false⟩
  | .ldflda => ⟨"ldflda", ⟨0x00, 0x7C⟩, .field, ⟨1, 1⟩, true⟩
  | .stfld => ⟨"stfld", ⟨0x00, 0x7D⟩, .field, ⟨2, 0⟩, true⟩
  | .ldsflda => ⟨"ldsflda", ⟨0x00, 0x7F⟩, .field, ⟨0, 1⟩, true⟩
  | .stsfld => ⟨"stsfld", ⟨0x00, 0x80⟩, .field, ⟨1, 0⟩, true⟩
  | .stobj => ⟨"stobj", ⟨0x00, 0x81⟩, .type, ⟨2, 0⟩, true⟩
  | .convOvfI1Un => ⟨"conv.ovf.i1.un", ⟨0x00, 0x82⟩, .none, ⟨1, 1⟩, false⟩
  | .convOvfI2Un => ⟨"conv.ovf.i2.un", ⟨0x00, 0x83⟩, .none, ⟨1, 1⟩, false⟩
  | .convOvfI4Un => ⟨"conv.ovf.i4.un", ⟨0x00, 0x84⟩, .none, ⟨1, 1⟩, false⟩
  | .convOvfI8Un => ⟨"conv.ovf.i8.un", ⟨0x00, 0x85⟩, .none, ⟨1, 1⟩, false⟩
  | .convOvfU1Un => ⟨"conv.ovf.u1.un", ⟨0x00, 0x86⟩, .none, ⟨1, 1⟩, false⟩
  | .convOvfU2Un => ⟨"conv.ovf.u2.un", ⟨0x00, 0x87⟩, .none, ⟨1, 1⟩, false⟩
  | .convOvfU4Un => ⟨"conv.ovf.u4.un", ⟨0x00, 0x88⟩, .none, ⟨1, 1⟩, false⟩
  | .convOvfU8Un => ⟨"conv.ovf.u8.un", ⟨0x00, 0x89⟩, .none, ⟨1, 1⟩, false⟩
  | .convOvfIUn => ⟨"conv.ovf.i.un", ⟨0x00, 0x8A⟩, .none, ⟨1, 1⟩, false⟩
  | .convOvfUUn => ⟨"conv.ovf.u.un", ⟨0x00, 0x8B⟩, .none, ⟨1, 1⟩, false⟩
  | .box => ⟨"box", ⟨0x00, 0x8C⟩, .type, ⟨1, 1⟩, false⟩
  | .newarr => ⟨"newarr", ⟨0x00, 0x8D⟩, .type, ⟨1, 1⟩, true⟩
  | .ldlen => ⟨"ldlen", ⟨0x00, 0x8E⟩, .none, ⟨1, 1⟩, false⟩
  | .ldelema => ⟨"ldelema", ⟨0x00, 0x8F⟩, .type, ⟨2, 1⟩, true⟩
  | .ldelemI1 => ⟨"ldelem.i1", ⟨0x00, 0x90⟩, .none, ⟨2, 1⟩, false⟩
  | .ldelemU1 => ⟨"ldelem.u1", ⟨0x00, 0x91⟩, .none, ⟨2, 1⟩, false⟩
  | .ldelemI2 => ⟨"ldelem.i2", ⟨0x00, 0x92⟩, .none, ⟨2, 1⟩, false⟩
  | .ldelemU2 => ⟨"ldelem.u2", ⟨0x00, 0x93⟩, .none, ⟨2, 1⟩, false⟩
  | .ldelemI4 => ⟨"ldelem.i4", ⟨0x00, 0x94⟩, .none, ⟨2, 1⟩, false⟩
  | .ldelemU4 => ⟨"ldelem.u4", ⟨0x00, 0x95⟩, .none, ⟨2, 1⟩, false⟩
  | .ldelemI8 => ⟨"ldelem.i8", ⟨0x00, 0x96⟩, .none, ⟨2, 1⟩, false⟩
  | .ldelemI => ⟨"ldelem.i", ⟨0x00, 0x97⟩, .none, ⟨2, 1⟩, false⟩
  | .ldelemR4 => ⟨"ldelem.r4", ⟨0x00, 0x98⟩, .none, ⟨2, 1⟩, false⟩
  | .ldelemR8 => ⟨"ldelem.r8", ⟨0x00, 0x99⟩, .none, ⟨2, 1⟩, false⟩
  | .ldelemRef => ⟨"ldelem.ref", ⟨0x00, 0x9A⟩, .none, ⟨2, 1⟩, false⟩
  | .stelemI => ⟨"stelem.i", ⟨0x00, 0x9B⟩, .none, ⟨3, 0⟩, true⟩
  | .stelemI1 => ⟨"stelem.i1", ⟨0x00, 0x9C⟩, .none, ⟨3, 0⟩, true⟩
  | .stelemI2 => ⟨"stelem.i2", ⟨0x00, 0x9D⟩, .none, ⟨3, 0⟩, true⟩
  | .stelemI4 => ⟨"stelem.i4", ⟨0x00, 0x9E⟩, .none, ⟨3, 0⟩, true⟩
  | .stelemI8 => ⟨"stelem.i8", ⟨0x00, 0x9F⟩, .none, ⟨3, 0⟩, true⟩
  | .stelemR4 => ⟨"stelem.r4", ⟨0x00, 0xA0⟩, .none, ⟨3, 0⟩, true⟩
  | .stelemR8 => ⟨"stelem.r8", ⟨0x00, 0xA1⟩, .none, ⟨3, 0⟩, true⟩
  | .stelemRef => ⟨"stelem.ref", ⟨0x00, 0xA2⟩, .none, ⟨3, 0⟩, true⟩
  | .ldelem => ⟨"ldelem", ⟨0x00, 0xA3⟩, .type, ⟨2, 1⟩, false⟩
  | .stelem => ⟨"stelem", ⟨0x00, 0xA4⟩, .type, ⟨3, 0⟩, true⟩
  | .unboxAny => ⟨"unbox.any", ⟨0x00, 0xA5⟩, .type, ⟨1, 1⟩, false⟩
  | .convOvfI1 => ⟨"conv.ovf.i1", ⟨0x00, 0xB3⟩, .none, ⟨1, 1⟩, false⟩
  | .convOvfU1 => ⟨"conv.ovf.u1", ⟨0x00, 0xB4⟩, .none, ⟨1, 1⟩, false⟩
  | .convOvfI2 => ⟨"conv.ovf.i2", ⟨0x00, 0xB5⟩, .none, ⟨1, 1⟩, false⟩
  | .convOvfU2 => ⟨"conv.ovf.u2", ⟨0x00, 0xB6⟩, .none, ⟨1, 1⟩, false⟩
  | .convOvfI4 => ⟨"conv.ovf.i4", ⟨0x00, 0xB7⟩, .none, ⟨1, 1⟩, false⟩
  | .convOvfU4 => ⟨"conv.ovf.u4", ⟨0x00, 0xB8⟩, .none, ⟨1, 1⟩, false⟩
  | .convOvfI8 => ⟨"conv.ovf.i8", ⟨0x00, 0xB9⟩, .none, ⟨1, 1⟩, false⟩
  | .convOvfU8 => ⟨"conv.ovf.u8", ⟨0x00, 0xBA⟩, .none, ⟨1, 1⟩, false⟩
  | .refanyval => ⟨"refanyval", ⟨0x00, 0xC2⟩, .type, ⟨1, 1⟩, false⟩
  | .ckfinite => ⟨"ckfinite", ⟨0x00, 0xC3⟩, .none, ⟨1, 1⟩, false⟩
  | .mkrefany => ⟨"mkrefany", ⟨0x00, 0xC6⟩, .type, ⟨1, 1⟩, false⟩
  | .ldtoken => ⟨"ldtoken", ⟨0x00, 0xD0⟩, .token, ⟨0, 1⟩, false⟩
  | .convU2 => ⟨"conv.u2", ⟨0x00, 0xD1⟩, .none, ⟨1, 1⟩, false⟩
  | .convU1 => ⟨"conv.u1", ⟨0x00, 0xD2⟩, .none, ⟨1, 1⟩, false⟩
  | .convI => ⟨"conv.i", ⟨0x00, 0xD3⟩, .none, ⟨1, 1⟩, false⟩
  | .convOvfI => ⟨"conv.ovf.i", ⟨0x00, 0xD4⟩, .none, ⟨1, 1⟩, false⟩
  | .convOvfU => ⟨"conv.ovf.u", ⟨0x00, 0xD5⟩, .none, ⟨1, 1⟩, false⟩
  | .addOvf => ⟨"add.ovf", ⟨0x00, 0xD6⟩, .none, ⟨2, 1⟩, false⟩
  | .addOvfUn => ⟨"add.ovf.un", ⟨0x00, 0xD7⟩, .none, ⟨2, 1⟩, false⟩
  | .mulOvf => ⟨"mul.ovf", ⟨0x00, 0xD8⟩, .none, ⟨2, 1⟩, false⟩
  | .mulOvfUn => ⟨"mul.ovf.un", ⟨0x00, 0xD9⟩, .none, ⟨2, 1⟩, false⟩
  | .subOvf => ⟨"sub.ovf", ⟨0x00, 0xDA⟩, .none, ⟨2, 1⟩, false⟩
  | .subOvfUn => ⟨"sub.ovf.un", ⟨0x00, 0xDB⟩, .none, ⟨2, 1⟩, false⟩
  | .stindI => ⟨"stind.i", ⟨0x00, 0xDF⟩, .none, ⟨2, 0⟩, true⟩
  | .convU => ⟨"conv.u", ⟨0x00, 0xE0⟩, .none, ⟨1, 1⟩, false⟩
  | .arglist => ⟨"arglist", ⟨0xFE, 0x00⟩, .none, ⟨0, 1⟩, true⟩
  | .ldftn => ⟨"ldftn", ⟨0xFE, 0x06⟩, .method, ⟨0, 1⟩, false⟩
  | .ldvirtftn => ⟨"ldvirtftn", ⟨0xFE, 0x07⟩, .method, ⟨1, 1⟩, false⟩
  | .localloc => ⟨"localloc", ⟨0xFE, 0x0F⟩, .none, ⟨1, 1⟩, true⟩
  | .unaligned => ⟨"unaligned.", ⟨0xFE, 0x12⟩, .uint8, ⟨0, 0⟩, true⟩
  | .volatile => ⟨"volatile.", ⟨0xFE, 0x13⟩, .none, ⟨0, 0⟩, true⟩
  | .initobj => ⟨"initobj", ⟨0xFE, 0x15⟩, .type, ⟨1, 0⟩, true⟩
  | .constrained => ⟨"constrained.", ⟨0xFE, 0x16⟩, .type, ⟨0, 0⟩, true⟩
  | .cpblk => ⟨"cpblk", ⟨0xFE, 0x17⟩, .none, ⟨3, 0⟩, true⟩
  | .initblk => ⟨"initblk", ⟨0xFE, 0x18⟩, .none, ⟨3, 0⟩, true⟩
  | .sizeof => ⟨"sizeof", ⟨0xFE, 0x1C⟩, .type, ⟨0, 1⟩, false⟩
  | .refanytype => ⟨"refanytype", ⟨0xFE, 0x1D⟩, .none, ⟨1, 1⟩, false⟩
  | .readonly => ⟨"readonly.", ⟨0xFE, 0x1E⟩, .none, ⟨0, 0⟩, true⟩

end Plain

namespace Opcode

def mnemonic : Opcode → String
  | nop => "nop"
  | dup => "dup"
  | pop => "pop"
  | tail => "tail."
  | ldarg s => "ldarg" ++ s.suffix
  | ldloc s => "ldloc" ++ s.suffix
  | stloc s => "stloc" ++ s.suffix
  | ldarga f => "ldarga" ++ f.suffix
  | starg f => "starg" ++ f.suffix
  | ldloca f => "ldloca" ++ f.suffix
  | ldcI4Fixed n => if n = 0 then "ldc.i4.m1" else "ldc.i4." ++ toString (n.val - 1)
  | ldcI4S => "ldc.i4.s"
  | ldcI4 => "ldc.i4"
  | ldcI8 => "ldc.i8"
  | unary .neg => "neg"
  | unary .not => "not"
  | binary op => op.mnemonic
  | br f => "br" ++ f.suffix
  | leave f => "leave" ++ f.suffix
  | branch c f => c.mnemonic ++ f.suffix
  | switch => "switch"
  | call => "call"
  | callvirt => "callvirt"
  | calli => "calli"
  | newobj => "newobj"
  | jmp => "jmp"
  | ret => "ret"
  | throw => "throw"
  | rethrow => "rethrow"
  | endfinally => "endfinally"
  | endfilter => "endfilter"
  | ldfld => "ldfld"
  | ldsfld => "ldsfld"
  | plain op => op.row.mnemonic

def encoding : Opcode → Encoding
  | nop => ⟨0x00, 0x00⟩
  | dup => ⟨0x00, 0x25⟩
  | pop => ⟨0x00, 0x26⟩
  | tail => ⟨0xFE, 0x14⟩
  | ldarg s => s.encode 0x02 0x0E 0x09
  | ldloc s => s.encode 0x06 0x11 0x0C
  | stloc s => s.encode 0x0A 0x13 0x0E
  | ldarga .short => ⟨0x00, 0x0F⟩
  | ldarga .long => ⟨0xFE, 0x0A⟩
  | starg .short => ⟨0x00, 0x10⟩
  | starg .long => ⟨0xFE, 0x0B⟩
  | ldloca .short => ⟨0x00, 0x12⟩
  | ldloca .long => ⟨0xFE, 0x0D⟩
  | ldcI4Fixed n => ⟨0x00, 0x15 + UInt8.ofNat n.val⟩
  | ldcI4S => ⟨0x00, 0x1F⟩
  | ldcI4 => ⟨0x00, 0x20⟩
  | ldcI8 => ⟨0x00, 0x21⟩
  | unary .neg => ⟨0x00, 0x65⟩
  | unary .not => ⟨0x00, 0x66⟩
  | binary op => op.encoding
  | br .short => ⟨0x00, 0x2B⟩
  | br .long => ⟨0x00, 0x38⟩
  | leave .long => ⟨0x00, 0xDD⟩
  | leave .short => ⟨0x00, 0xDE⟩
  | branch c .short => ⟨0x00, 0x2B + c.position⟩
  | branch c .long => ⟨0x00, 0x38 + c.position⟩
  | switch => ⟨0x00, 0x45⟩
  | call => ⟨0x00, 0x28⟩
  | callvirt => ⟨0x00, 0x6F⟩
  | calli => ⟨0x00, 0x29⟩
  | newobj => ⟨0x00, 0x73⟩
  | jmp => ⟨0x00, 0x27⟩
  | ret => ⟨0x00, 0x2A⟩
  | throw => ⟨0x00, 0x7A⟩
  | rethrow => ⟨0xFE, 0x1A⟩
  | endfinally => ⟨0x00, 0xDC⟩
  | endfilter => ⟨0xFE, 0x11⟩
  | ldfld => ⟨0x00, 0x7B⟩
  | ldsfld => ⟨0x00, 0x7E⟩
  | plain op => op.row.encoding

def operandKind : Opcode → OperandKind
  | ldarg s | ldloc s | stloc s => s.operand
  | ldarga f | starg f | ldloca f => f.slotOperand
  | ldcI4S => .int8
  | ldcI4 => .int32
  | ldcI8 => .int64
  | br f | leave f | branch _ f => f.branchOperand
  | switch => .switch
  | call | callvirt | newobj | jmp => .method
  | calli => .signature
  | ldfld | ldsfld => .field
  | plain op => op.row.operand
  | _ => .none

def flow : Opcode → Flow
  | br _ => .unconditional
  | leave _ => .leave
  | branch _ _ => .conditional
  | switch => .switch
  | call | callvirt | calli | newobj => .call
  | jmp | ret => .returns
  | throw | rethrow => .throw
  | endfinally => .endFinally
  | endfilter => .endFilter
  | _ => .sequential

/-- Stack effect as far as the opcode fixes it; zero where the operand or the method decides. -/
def fixedStack : Opcode → StackEffect
  | dup => ⟨1, 2⟩
  | pop => ⟨1, 0⟩
  | ldarg _ | ldloc _ | ldarga _ | ldloca _ => ⟨0, 1⟩
  | stloc _ | starg _ => ⟨1, 0⟩
  | ldcI4Fixed _ | ldcI4S | ldcI4 | ldcI8 => ⟨0, 1⟩
  | unary _ => ⟨1, 1⟩
  | binary _ => ⟨2, 1⟩
  | branch c _ => ⟨c.arity, 0⟩
  | switch | throw | endfilter => ⟨1, 0⟩
  | ldfld => ⟨1, 1⟩
  | ldsfld => ⟨0, 1⟩
  | plain op => op.row.stack
  | _ => ⟨0, 0⟩

/-- The same opcode with its operand in one byte, for branches; all else is unchanged. -/
def shortForm : Opcode → Opcode
  | br _ => br .short
  | leave _ => leave .short
  | branch c _ => branch c .short
  | op => op

/-- The same opcode with a wide operand, for branches; all else is unchanged. -/
def longForm : Opcode → Opcode
  | br _ => br .long
  | leave _ => leave .long
  | branch c _ => branch c .long
  | op => op

def isBrTrue : Opcode → Bool
  | branch .isTrue _ => true
  | _ => false

def isBrFalse : Opcode → Bool
  | branch .isFalse _ => true
  | _ => false

def takesArgument : Opcode → Bool
  | ldarg .short | ldarg .long | ldarga _ | starg _ => true
  | _ => false

def fixedInt? : Opcode → Option Int
  | ldcI4Fixed n => some ((n.val : Int) - 1)
  | _ => none

/-- The instruction may do more than compute on the stack: transfer control, write or expose a
   variable or memory, allocate, or change how its successor behaves. Reading a static field
   does not count. -/
def acts : Opcode → Bool
  | stloc _ | ldarga _ | starg _ | ldloca _ | tail => true
  | plain op => op.row.acts
  | op => op.flow != .sequential

def all : List Opcode :=
  [.nop, .plain .breakpoint, .ldarg (.fixed 0), .ldarg (.fixed 1), .ldarg (.fixed 2),
   .ldarg (.fixed 3), .ldloc (.fixed 0), .ldloc (.fixed 1), .ldloc (.fixed 2), .ldloc (.fixed 3),
   .stloc (.fixed 0), .stloc (.fixed 1), .stloc (.fixed 2), .stloc (.fixed 3), .ldarg .short,
   .ldarga .short, .starg .short, .ldloc .short, .ldloca .short, .stloc .short, .plain .ldnull,
   .ldcI4Fixed 0, .ldcI4Fixed 1, .ldcI4Fixed 2, .ldcI4Fixed 3, .ldcI4Fixed 4, .ldcI4Fixed 5,
   .ldcI4Fixed 6, .ldcI4Fixed 7, .ldcI4Fixed 8, .ldcI4Fixed 9, .ldcI4S, .ldcI4, .ldcI8,
   .plain .ldcR4, .plain .ldcR8, .dup, .pop, .jmp, .call, .calli, .ret, .br .short,
   .branch .isFalse .short, .branch .isTrue .short, .branch .eq .short, .branch .ge .short,
   .branch .gt .short, .branch .le .short, .branch .lt .short, .branch .neUn .short,
   .branch .geUn .short, .branch .gtUn .short, .branch .leUn .short, .branch .ltUn .short,
   .br .long, .branch .isFalse .long, .branch .isTrue .long, .branch .eq .long, .branch .ge .long,
   .branch .gt .long, .branch .le .long, .branch .lt .long, .branch .neUn .long,
   .branch .geUn .long, .branch .gtUn .long, .branch .leUn .long, .branch .ltUn .long, .switch,
   .plain .ldindI1, .plain .ldindU1, .plain .ldindI2, .plain .ldindU2, .plain .ldindI4,
   .plain .ldindU4, .plain .ldindI8, .plain .ldindI, .plain .ldindR4, .plain .ldindR8,
   .plain .ldindRef, .plain .stindRef, .plain .stindI1, .plain .stindI2, .plain .stindI4,
   .plain .stindI8, .plain .stindR4, .plain .stindR8, .binary .add, .binary .sub, .binary .mul,
   .binary .div, .binary .divUn, .binary .rem, .binary .remUn, .binary .and, .binary .or,
   .binary .xor, .binary .shl, .binary .shr, .binary .shrUn, .unary .neg, .unary .not,
   .plain .convI1, .plain .convI2, .plain .convI4, .plain .convI8, .plain .convR4, .plain .convR8,
   .plain .convU4, .plain .convU8, .callvirt, .plain .cpobj, .plain .ldobj, .plain .ldstr,
   .newobj, .plain .castclass, .plain .isinst, .plain .convRUn, .plain .unbox, .throw, .ldfld,
   .plain .ldflda, .plain .stfld, .ldsfld, .plain .ldsflda, .plain .stsfld, .plain .stobj,
   .plain .convOvfI1Un, .plain .convOvfI2Un, .plain .convOvfI4Un, .plain .convOvfI8Un,
   .plain .convOvfU1Un, .plain .convOvfU2Un, .plain .convOvfU4Un, .plain .convOvfU8Un,
   .plain .convOvfIUn, .plain .convOvfUUn, .plain .box, .plain .newarr, .plain .ldlen,
   .plain .ldelema, .plain .ldelemI1, .plain .ldelemU1, .plain .ldelemI2, .plain .ldelemU2,
   .plain .ldelemI4, .plain .ldelemU4, .plain .ldelemI8, .plain .ldelemI, .plain .ldelemR4,
   .plain .ldelemR8, .plain .ldelemRef, .plain .stelemI, .plain .stelemI1, .plain .stelemI2,
   .plain .stelemI4, .plain .stelemI8, .plain .stelemR4, .plain .stelemR8, .plain .stelemRef,
   .plain .ldelem, .plain .stelem, .plain .unboxAny, .plain .convOvfI1, .plain .convOvfU1,
   .plain .convOvfI2, .plain .convOvfU2, .plain .convOvfI4, .plain .convOvfU4, .plain .convOvfI8,
   .plain .convOvfU8, .plain .refanyval, .plain .ckfinite, .plain .mkrefany, .plain .ldtoken,
   .plain .convU2, .plain .convU1, .plain .convI, .plain .convOvfI, .plain .convOvfU,
   .plain .addOvf, .plain .addOvfUn, .plain .mulOvf, .plain .mulOvfUn, .plain .subOvf,
   .plain .subOvfUn, .endfinally, .leave .long, .leave .short, .plain .stindI, .plain .convU,
   .plain .arglist, .binary .ceq, .binary .cgt, .binary .cgtUn, .binary .clt, .binary .cltUn,
   .plain .ldftn, .plain .ldvirtftn, .ldarg .long, .ldarga .long, .starg .long, .ldloc .long,
   .ldloca .long, .stloc .long, .plain .localloc, .endfilter, .plain .unaligned, .plain .volatile,
   .tail, .plain .initobj, .plain .constrained, .plain .cpblk, .plain .initblk, .rethrow,
   .plain .sizeof, .plain .refanytype, .plain .readonly]

def byMnemonic : List (String × Opcode) := all.map fun op => (op.mnemonic, op)

def ofMnemonic? (name : String) : Option Opcode := byMnemonic.lookup name

/-- The mnemonic as one word: its parts between dots, each with a capital. -/
def identifier (op : Opcode) : String :=
  String.join ((op.mnemonic.splitOn ".").map String.capitalize)

end Opcode
end Unravel
