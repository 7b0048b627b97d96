import Unravel.Graph.Basic
import Unravel.Proofs.Integer

/-!
Execution of blocks. Integers, variables, copies and jumps have their meaning here; every other
instruction means what an interpretation says. An interpretation sees the values that the
instruction takes off the stack and all of the frame, and may leave an instruction without meaning.
-/
namespace Unravel

/-- What a stack slot or a variable holds: an integer or something else. -/
inductive Value (O : Type) where
  | int (c : Constant)
  | other (o : O)

structure Frame (O H : Type) where
  locals : Nat → Value O
  args : Nat → Value O
  heap : H

/-- A frame with its stack, whose top comes first. -/
structure Machine (O H : Type) where
  stack : List (Value O)
  frame : Frame O H

/-- Where a branch goes: to one of its targets, or on to what follows it. -/
inductive Way where
  | target (n : Nat)
  | onward
deriving DecidableEq, Repr

inductive Effect (O H X : Type) where
  | yields (values : List (Value O)) (frame : Frame O H)
  | raises (exception : X) (frame : Frame O H)

/-- `effect` is what an instruction makes of the values it takes, the top first; `way` tells where
    a branch goes on values that are not integers. -/
structure Interp (O H X : Type) where
  effect : Instr → List (Value O) → Frame O H → Option (Effect O H X)
  way : Instr → List (Value O) → Frame O H → Option Way

/-- A run that goes on with a result, or ends in one of three ways. -/
inductive Run (O H X α : Type) where
  | goes (result : α)
  | raised (exception : X) (frame : Frame O H)
  | undefined
  | underflow

def Run.bind {O H X α β : Type} (r : Run O H X α) (f : α → Run O H X β) : Run O H X β :=
  match r with
  | .goes a => f a
  | .raised x frame => .raised x frame
  | .undefined => .undefined
  | .underflow => .underflow

def Frame.setLocal {O H : Type} (f : Frame O H) (n : Nat) (v : Value O) : Frame O H :=
  { f with locals := fun k => if k = n then v else f.locals k }

def Instr.constant? (i : Instr) : Option Constant :=
  match i.opcode, i.operand with
  | .ldcI4Fixed n, _ => some (.int32 (.ofInt 32 (n.val - 1)))
  | .ldcI4S, .immediate v | .ldcI4, .immediate v => v.toInt?.map fun n => .int32 (.ofInt 32 n)
  | .ldcI8, .immediate v => v.toInt?.map fun n => .int64 (.ofInt 64 n)
  | _, _ => none

theorem Instr.constant?_eq_literal? (i : Instr) :
    i.constant? = i.literal?.map (Constant.ofLoad i.opcode) := by
  obtain ⟨id, opcode, operand, offset⟩ := i
  cases opcode with
  | ldcI4Fixed n => simp [Instr.constant?, Instr.literal?, Opcode.fixedInt?, Constant.ofLoad]
  | ldcI4S | ldcI4 | ldcI8 => cases operand <;> rfl
  | _ => rfl

theorem ofInt_setWidth_of_small {v : BitVec 32} (low : -128 ≤ v.toInt) (high : v.toInt ≤ 127) :
    BitVec.ofInt 32 (v.setWidth 8).toInt = v := by
  have same : (v.setWidth 8).toInt = v.toInt := by
    rw [BitVec.toInt_setWidth, BitVec.toInt_eq_toNat_bmod] at *
    simp only [Int.bmod] at *
    omega
  rw [same, BitVec.ofInt_toInt]

theorem Instr.constant?_load (i : Instr) (c : Constant) :
    ({ i with opcode := c.load.1, operand := c.load.2 } : Instr).constant? = some c := by
  cases c with
  | int64 v => simp [Constant.load, Instr.constant?, Immediate.toInt?]
  | int32 v =>
    simp only [Constant.load, loadInt32]
    split
    · have back : (((v.toInt + 1).toNat : Int)) - 1 = v.toInt := by omega
      simp only [Instr.constant?]
      rw [back, BitVec.ofInt_toInt]
    · split
      · rename_i small
        simp only [Instr.constant?, Immediate.toInt?, Option.map_some]
        rw [ofInt_setWidth_of_small small.1 small.2]
      · simp [Instr.constant?, Immediate.toInt?]

def Block.follow (b : Block) : Way → Option BlockId
  | .target n => b.targets[n]?
  | .onward => b.fall

def Block.Straight (b : Block) : Prop := ∀ i ∈ b.instrs.dropLast, i.isTerminal = false

namespace Interp
variable {O H X : Type}

/-- Run an instruction as the interpretation says. Without a known effect it takes all of the
    stack. -/
def call (interp : Interp O H X) (returns : Bool) (i : Instr) (m : Machine O H) :
    Run O H X (Machine O H) :=
  let pops := ((i.stackEffect? returns).map StackEffect.pops).getD m.stack.length
  if m.stack.length < pops then .underflow
  else
    match interp.effect i (m.stack.take pops) m.frame with
    | some (.yields values frame) => .goes ⟨values ++ m.stack.drop pops, frame⟩
    | some (.raises x frame) => .raised x frame
    | none => .undefined

/-- Run an instruction that only moves or combines values on the stack, if it is one. -/
def compute (interp : Interp O H X) (returns : Bool) (i : Instr) (m : Machine O H) :
    Run O H X (Machine O H) :=
  match i.opcode, m.stack with
  | .nop, _ => .goes m
  | .pop, _ :: stack => .goes { m with stack }
  | .dup, v :: stack => .goes { m with stack := v :: v :: stack }
  | .unary op, .int c :: stack => .goes { m with stack := .int (Integer.unary op c) :: stack }
  | .binary op, .int y :: .int x :: stack =>
    match Integer.binary? op x y with
    | some c => .goes { m with stack := .int c :: stack }
    | none => interp.call returns i m
  | _, _ => interp.call returns i m

def step (interp : Interp O H X) (returns : Bool) (i : Instr) (m : Machine O H) :
    Run O H X (Machine O H) :=
  match i.constant?, i.loadedLocal?, i.storedLocal? with
  | some c, _, _ => .goes { m with stack := .int c :: m.stack }
  | none, some n, _ => .goes { m with stack := m.frame.locals n :: m.stack }
  | none, none, some n =>
    match m.stack with
    | [] => .underflow
    | v :: stack => .goes ⟨stack, m.frame.setLocal n v⟩
  | none, none, none => interp.compute returns i m

theorem step_constant {i : Instr} {c : Constant} (load : i.constant? = some c)
    (interp : Interp O H X) (returns : Bool) (m : Machine O H) :
    interp.step returns i m = .goes { m with stack := .int c :: m.stack } := by
  simp only [step, load]

theorem step_loaded {i : Instr} {n : Nat} (value : i.constant? = none)
    (access : i.loadedLocal? = some n) (interp : Interp O H X) (returns : Bool)
    (m : Machine O H) :
    interp.step returns i m = .goes { m with stack := m.frame.locals n :: m.stack } := by
  simp only [step, value, access]

theorem step_computed {i : Instr} (value : i.constant? = none) (load : i.loadedLocal? = none)
    (store : i.storedLocal? = none) (interp : Interp O H X) (returns : Bool) (m : Machine O H) :
    interp.step returns i m = interp.compute returns i m := by
  simp only [step, value, load, store]

theorem step_erase (i : Instr) (interp : Interp O H X) (returns : Bool) (m : Machine O H) :
    interp.step returns i.erase m = .goes m := rfl

/-- Where a branch on integers goes. The top of the stack is the right-hand side. -/
def integerWay? (b : Block) (i : Instr) (values : List (Value O)) : Option Way :=
  match i.opcode, values with
  | .branch .isTrue _, [.int c] => some (if Integer.isZero c then .onward else .target 0)
  | .branch .isFalse _, [.int c] => some (if Integer.isZero c then .target 0 else .onward)
  | .branch condition _, [.int y, .int x] =>
    (Integer.branch? condition x y).map fun taken => if taken then .target 0 else .onward
  | .switch, [.int c] =>
    some (if Integer.caseIndex c < b.targets.length then .target (Integer.caseIndex c)
      else .onward)
  | _, _ => none

def choose (interp : Interp O H X) (b : Block) (i : Instr) (m : Machine O H) :
    Run O H X (Machine O H × Option BlockId) :=
  let pops := i.opcode.fixedStack.pops
  if m.stack.length < pops then .underflow
  else
    match (integerWay? b i (m.stack.take pops)).or (interp.way i (m.stack.take pops) m.frame) with
    | some way => .goes ({ m with stack := m.stack.drop pops }, b.follow way)
    | none => .undefined

/-- Run an instruction that ends its block, and tell the block that comes next. -/
def terminate (interp : Interp O H X) (returns : Bool) (b : Block) (i : Instr)
    (m : Machine O H) : Run O H X (Machine O H × Option BlockId) :=
  match i.opcode with
  | .br _ => .goes (m, b.targets.head?)
  | .leave _ => .goes ({ m with stack := [] }, b.targets.head?)
  | .branch _ _ | .switch => interp.choose b i m
  | _ => (interp.call returns i m).bind fun m => .goes (m, none)

def runCode (interp : Interp O H X) (returns : Bool) (b : Block) :
    List Instr → Machine O H → Run O H X (Machine O H × Option BlockId)
  | [], m => .goes (m, b.fall)
  | i :: rest, m =>
    if rest.isEmpty && i.isTerminal then interp.terminate returns b i m
    else (interp.step returns i m).bind (interp.runCode returns b rest)

def runBlock (interp : Interp O H X) (returns : Bool) (b : Block) (m : Machine O H) :
    Run O H X (Machine O H × Option BlockId) :=
  interp.runCode returns b b.instrs m

/-- Effects push as many values as the instruction set says, and write no variable but those that
    `exposed` names. -/
structure Lawful (interp : Interp O H X) (returns : Bool) (exposed : Nat → Prop) : Prop where
  arity : ∀ {i taken frame pushed after effect},
    interp.effect i taken frame = some (.yields pushed after) →
    i.stackEffect? returns = some effect → pushed.length = effect.pushes
  keeps : ∀ {i taken frame pushed after n},
    interp.effect i taken frame = some (.yields pushed after) →
    ¬ exposed n → after.locals n = frame.locals n

end Interp

def Graph.Exposes (g : Graph) (n : Nat) : Prop :=
  ∃ b ∈ g.blocks, ∃ i ∈ b.instrs, ∃ form, i.opcode = .ldloca form ∧ i.operand = .localVar n

end Unravel
