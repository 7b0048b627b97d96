import Mathlib
import Unravel.Constant

/-!
Integer instructions as operations on numbers. A word of `w` bits is read with sign by `toInt` and
without sign by `toNat`; a result is the word that stands for the number modulo two to the `w`.
These definitions use no word arithmetic. The evaluators of constants are shown to agree with them.
-/
namespace Unravel.Integer

/-- Arithmetic and logic. A division has no result if the divisor is zero or if the signed quotient
    of the least number by minus one is asked for. -/
def arith? {w : Nat} (op : BinaryOp) (x y : BitVec w) : Option (BitVec w) :=
  match op with
  | .add => some (.ofInt w (x.toInt + y.toInt))
  | .sub => some (.ofInt w (x.toInt - y.toInt))
  | .mul => some (.ofInt w (x.toInt * y.toInt))
  | .div => if y.toInt = 0 ∨ (x = .intMin w ∧ y.toInt = -1) then none
    else some (.ofInt w (x.toInt.tdiv y.toInt))
  | .rem => if y.toInt = 0 ∨ (x = .intMin w ∧ y.toInt = -1) then none
    else some (.ofInt w (x.toInt.tmod y.toInt))
  | .divUn => if y.toNat = 0 then none else some (.ofNat w (x.toNat / y.toNat))
  | .remUn => if y.toNat = 0 then none else some (.ofNat w (x.toNat % y.toNat))
  | .and => some (.ofNat w (x.toNat &&& y.toNat))
  | .or => some (.ofNat w (x.toNat ||| y.toNat))
  | .xor => some (.ofNat w (x.toNat ^^^ y.toNat))
  | _ => none

/-- Shifts multiply or divide by a power of two; the amount counts modulo the width. -/
def shift? {w : Nat} (op : BinaryOp) (x : BitVec w) (amount : Nat) : Option (BitVec w) :=
  match op with
  | .shl => some (.ofNat w (x.toNat * 2 ^ (amount % w)))
  | .shr => some (.ofInt w (x.toInt / 2 ^ (amount % w)))
  | .shrUn => some (.ofNat w (x.toNat / 2 ^ (amount % w)))
  | _ => none

def compare? {w : Nat} (op : BinaryOp) (x y : BitVec w) : Option Bool :=
  match op with
  | .ceq => some (decide (x.toInt = y.toInt))
  | .cgt => some (decide (x.toInt > y.toInt))
  | .cgtUn => some (decide (x.toNat > y.toNat))
  | .clt => some (decide (x.toInt < y.toInt))
  | .cltUn => some (decide (x.toNat < y.toNat))
  | _ => none

/-- Two integers of one width. Comparisons give the 32-bit numbers 0 and 1. -/
def sameWidth? {w : Nat} (wrap : BitVec w → Constant) (op : BinaryOp) (x y : BitVec w) :
    Option Constant :=
  match arith? op x y, shift? op x y.toNat, compare? op x y with
  | some z, _, _ | none, some z, _ => some (wrap z)
  | none, none, some true => some (.int32 1)
  | none, none, some false => some (.int32 0)
  | none, none, none => none

/-- What a binary operator computes; only shifts mix widths. -/
def binary? (op : BinaryOp) : Constant → Constant → Option Constant
  | .int32 x, .int32 y => sameWidth? .int32 op x y
  | .int64 x, .int64 y => sameWidth? .int64 op x y
  | .int32 x, .int64 y => (shift? op x y.toNat).map .int32
  | .int64 x, .int32 y => (shift? op x y.toNat).map .int64

def negate {w : Nat} (op : UnaryOp) (x : BitVec w) : BitVec w :=
  match op with
  | .neg => .ofInt w (-x.toInt)
  | .not => .ofInt w (-1 - x.toInt)

def unary (op : UnaryOp) : Constant → Constant
  | .int32 x => .int32 (negate op x)
  | .int64 x => .int64 (negate op x)

def holds? {w : Nat} (c : Condition) (x y : BitVec w) : Option Bool :=
  match c with
  | .eq => some (decide (x.toInt = y.toInt))
  | .neUn => some (decide (x.toNat ≠ y.toNat))
  | .ge => some (decide (x.toInt ≥ y.toInt))
  | .gt => some (decide (x.toInt > y.toInt))
  | .le => some (decide (x.toInt ≤ y.toInt))
  | .lt => some (decide (x.toInt < y.toInt))
  | .geUn => some (decide (x.toNat ≥ y.toNat))
  | .gtUn => some (decide (x.toNat > y.toNat))
  | .leUn => some (decide (x.toNat ≤ y.toNat))
  | .ltUn => some (decide (x.toNat < y.toNat))
  | .isFalse | .isTrue => none

def branch? (c : Condition) : Constant → Constant → Option Bool
  | .int32 x, .int32 y => holds? c x y
  | .int64 x, .int64 y => holds? c x y
  | _, _ => none

def isZero : Constant → Bool
  | .int32 x => decide (x.toInt = 0)
  | .int64 x => decide (x.toInt = 0)

def caseIndex : Constant → Nat
  | .int32 x => x.toNat
  | .int64 x => x.toNat % 4294967296

theorem toInt_eq_zero_iff {w : Nat} (x : BitVec w) : x.toInt = 0 ↔ x = 0 := by
  rw [← BitVec.toInt_inj, BitVec.ofNat_eq_ofNat, BitVec.toInt_zero]

theorem toNat_eq_zero_iff {w : Nat} (x : BitVec w) : x.toNat = 0 ↔ x = 0 := by
  rw [← BitVec.toNat_inj, BitVec.ofNat_eq_ofNat, BitVec.toNat_ofNat, Nat.zero_mod]

theorem toInt_eq_neg_one_iff {w : Nat} (wide : 0 < w) (x : BitVec w) :
    x.toInt = -1 ↔ x = -1 := by
  have word : (-1 : BitVec w) = .ofInt w (-1) := by
    simp [BitVec.ofInt_neg]
  have pos : (0 : Int) < 2 ^ (w - 1) := by positivity
  rw [← BitVec.toInt_inj, word, BitVec.toInt_ofInt_eq_self wide (by omega) (by omega)]

theorem divides_iff {w : Nat} (wide : 0 < w) (x y : BitVec w) :
    BinaryOp.divides x y = true ↔ ¬ (y.toInt = 0 ∨ (x = .intMin w ∧ y.toInt = -1)) := by
  rw [toInt_eq_zero_iff, toInt_eq_neg_one_iff wide]
  simp only [BinaryOp.divides, Bool.and_eq_true, Bool.not_eq_true', bne_iff_ne]
  grind

theorem sdiv_eq {w : Nat} {x y : BitVec w} (wide : 0 < w)
    (exact : ¬ (y.toInt = 0 ∨ (x = .intMin w ∧ y.toInt = -1))) :
    x.sdiv y = .ofInt w (x.toInt.tdiv y.toInt) := by
  rw [← BitVec.toInt_sdiv_of_ne_or_ne, BitVec.ofInt_toInt]
  rw [toInt_eq_neg_one_iff wide] at exact
  grind

theorem srem_eq {w : Nat} (x y : BitVec w) : x.srem y = .ofInt w (x.toInt.tmod y.toInt) := by
  rw [← BitVec.toInt_srem, BitVec.ofInt_toInt]

theorem arith?_eq {w : Nat} (wide : 0 < w) (op : BinaryOp) (x y : BitVec w) :
    op.arith? x y = arith? op x y := by
  cases op
  case add => simp [BinaryOp.arith?, arith?, BitVec.ofInt_add]
  case sub =>
    simp [BinaryOp.arith?, arith?, Int.sub_eq_add_neg, BitVec.ofInt_add, BitVec.ofInt_neg,
      BitVec.sub_eq_add_neg]
  case mul => simp [BinaryOp.arith?, arith?, BitVec.ofInt_mul]
  case div =>
    simp only [BinaryOp.arith?, arith?, divides_iff wide]
    rw [ite_not]
    split
    · rfl
    · rename_i exact
      rw [sdiv_eq wide exact]
  case rem =>
    simp only [BinaryOp.arith?, arith?, divides_iff wide, srem_eq]
    rw [ite_not]
  case divUn =>
    simp only [BinaryOp.arith?, arith?, toNat_eq_zero_iff, beq_iff_eq]
    rw [← BitVec.toNat_udiv, BitVec.ofNat_toNat, BitVec.setWidth_eq]
    rfl
  case remUn =>
    simp only [BinaryOp.arith?, arith?, toNat_eq_zero_iff, beq_iff_eq]
    rw [← BitVec.toNat_umod, BitVec.ofNat_toNat, BitVec.setWidth_eq]
    rfl
  case and => simp [BinaryOp.arith?, arith?]
  case or => simp [BinaryOp.arith?, arith?]
  case xor => simp [BinaryOp.arith?, arith?]
  all_goals rfl

theorem shift?_eq {w : Nat} (op : BinaryOp) (x : BitVec w) (amount : Nat) :
    op.shift? x amount = shift? op x amount := by
  cases op
  case shl =>
    simp only [BinaryOp.shift?, shift?]
    congr 1
    apply BitVec.eq_of_toNat_eq
    rw [BitVec.toNat_shiftLeft, BitVec.toNat_ofNat, Nat.shiftLeft_eq]
  case shr =>
    simp only [BinaryOp.shift?, shift?]
    rw [← BitVec.ofInt_toInt (x := x.sshiftRight (amount % w)), BitVec.toInt_sshiftRight,
      Int.shiftRight_eq_div_pow]
    norm_cast
  case shrUn =>
    simp only [BinaryOp.shift?, shift?]
    congr 1
    apply BitVec.eq_of_toNat_eq
    rw [BitVec.toNat_ushiftRight, BitVec.toNat_ofNat, Nat.shiftRight_eq_div_pow]
    exact (Nat.mod_eq_of_lt (Nat.lt_of_le_of_lt (Nat.div_le_self _ _) x.isLt)).symm
  all_goals rfl

theorem compare?_eq {w : Nat} (op : BinaryOp) (x y : BitVec w) :
    op.compare? x y = compare? op x y := by
  cases op
  case ceq =>
    simp only [BinaryOp.compare?, compare?, BitVec.toInt_inj]
    rfl
  case cgt | clt => simp only [BinaryOp.compare?, compare?, BitVec.slt_eq_decide]
  case cgtUn | cltUn => simp only [BinaryOp.compare?, compare?, BitVec.ult_eq_decide]
  all_goals rfl

theorem negate_eq {w : Nat} (op : UnaryOp) (x : BitVec w) :
    (match op with | UnaryOp.neg => -x | .not => ~~~x) = negate op x := by
  cases op
  case neg => simp [negate, BitVec.ofInt_neg]
  case not =>
    simp only [negate, Int.sub_eq_add_neg, BitVec.ofInt_add, BitVec.ofInt_neg, BitVec.ofInt_toInt]
    rw [BitVec.not_eq_neg_add, BitVec.sub_eq_add_neg, BitVec.add_comm]
    simp

theorem holds?_eq {w : Nat} (c : Condition) (x y : BitVec w) : c.compare? x y = holds? c x y := by
  cases c
  case eq => simp only [Condition.compare?, holds?, BitVec.toInt_inj]; rfl
  case neUn => simp only [Condition.compare?, holds?, ne_eq, BitVec.toNat_inj, decide_not]; rfl
  case ge | le => simp only [Condition.compare?, holds?, BitVec.sle_eq_decide]
  case gt | lt => simp only [Condition.compare?, holds?, BitVec.slt_eq_decide]
  case geUn | leUn => simp only [Condition.compare?, holds?, BitVec.ule_eq_decide]
  case gtUn | ltUn => simp only [Condition.compare?, holds?, BitVec.ult_eq_decide]
  all_goals rfl

theorem sameWidth?_eq {w : Nat} (wide : 0 < w) (wrap : BitVec w → Constant) (op : BinaryOp)
    (x y : BitVec w) :
    (((op.arith? x y <|> op.shift? x y.toNat).map wrap) <|>
      (op.compare? x y).map Constant.ofBool) = sameWidth? wrap op x y := by
  rw [arith?_eq wide, shift?_eq, compare?_eq, sameWidth?]
  cases arith? op x y with
  | some z => rfl
  | none =>
    cases shift? op x y.toNat with
    | some z => rfl
    | none =>
      match compare? op x y with
      | some true => rfl
      | some false => rfl
      | none => rfl

theorem constant_binary?_eq (op : BinaryOp) (a b : Constant) :
    a.binary? op b = binary? op a b := by
  match a, b with
  | .int32 x, .int32 y => exact sameWidth?_eq (by decide) .int32 op x y
  | .int64 x, .int64 y => exact sameWidth?_eq (by decide) .int64 op x y
  | .int32 x, .int64 y => exact congrArg (Option.map Constant.int32) (shift?_eq op x y.toNat)
  | .int64 x, .int32 y => exact congrArg (Option.map Constant.int64) (shift?_eq op x y.toNat)

theorem constant_unary_eq (op : UnaryOp) (a : Constant) : a.unary op = unary op a := by
  match a with
  | .int32 x => exact congrArg Constant.int32 (negate_eq op x)
  | .int64 x => exact congrArg Constant.int64 (negate_eq op x)

theorem constant_branch?_eq (c : Condition) (a b : Constant) :
    Constant.branch? c a b = branch? c a b := by
  cases a <;> cases b <;> simp only [Constant.branch?, branch?, holds?_eq]

theorem constant_isZero_eq (a : Constant) : a.isZero = isZero a := by
  cases a <;> simp only [Constant.isZero, isZero, toInt_eq_zero_iff] <;> rfl

theorem constant_caseIndex_eq (a : Constant) : a.caseIndex = caseIndex a := by
  cases a <;> simp [Constant.caseIndex, caseIndex]

end Unravel.Integer
