import Unravel.Pass.Fold
import Unravel.Proofs.Integer

/-!
Integer arithmetic on constants, said in numbers. An operator either has no result, for one of three
reasons, or its result stands for the number it asks for, modulo two to the width. A constant is
held in a word of 64 bits, a narrow one with its sign extended; evaluating on words that are held so
is evaluating on the constants, and a branch on two words agrees with the comparison of its kind.
-/
namespace Unravel

namespace Constant

def width : Constant → Nat
  | int32 _ => 32
  | int64 _ => 64

end Constant

namespace BinaryOp

def shifts : BinaryOp → Bool
  | shl | shr | shrUn => true
  | _ => false

def compares : BinaryOp → Bool
  | ceq | cgt | cgtUn | clt | cltUn => true
  | _ => false

/-- The number that an operator asks for. The operands are `x` and `y` with sign and `ux` and `uy`
   without; the left one has `w` bits. -/
def number (op : BinaryOp) (w : Nat) (x y : Int) (ux uy : Nat) : Int :=
  match op with
  | add => x + y
  | sub => x - y
  | mul => x * y
  | div => x.tdiv y
  | rem => x.tmod y
  | divUn => (ux / uy : Nat)
  | remUn => (ux % uy : Nat)
  | and => (ux &&& uy : Nat)
  | or => (ux ||| uy : Nat)
  | xor => (ux ^^^ uy : Nat)
  | shl => (ux * 2 ^ (uy % w) : Nat)
  | shr => x / 2 ^ (uy % w)
  | shrUn => (ux / 2 ^ (uy % w) : Nat)
  | ceq => if x = y then 1 else 0
  | cgt => if x > y then 1 else 0
  | cgtUn => if ux > uy then 1 else 0
  | clt => if x < y then 1 else 0
  | cltUn => if ux < uy then 1 else 0

inductive Undefined (op : BinaryOp) (a b : Constant) : Prop
  | mixed (widths : a.width ≠ b.width) (other : op.shifts = false)
  | zero (divides : op ∈ [div, rem, divUn, remUn]) (divisor : b.toInt = 0)
  | overflow (signed : op ∈ [div, rem]) (least : a.toInt = -2 ^ (a.width - 1))
      (divisor : b.toInt = -1)

end BinaryOp

namespace UnaryOp

def number (op : UnaryOp) (x : Int) : Int :=
  match op with
  | neg => -x
  | not => -1 - x

def onWord {w : Nat} (op : UnaryOp) (x : BitVec w) : BitVec w :=
  match op with
  | neg => -x
  | not => ~~~x

end UnaryOp

/-- The comparison that decides a branch, and whether the branch is taken where it fails. -/
def Condition.comparison? : Condition → Option (BinaryOp × Bool)
  | eq => some (.ceq, false)
  | gt => some (.cgt, false)
  | lt => some (.clt, false)
  | gtUn => some (.cgtUn, false)
  | ltUn => some (.cltUn, false)
  | neUn => some (.ceq, true)
  | le => some (.cgt, true)
  | ge => some (.clt, true)
  | leUn => some (.cgtUn, true)
  | geUn => some (.cltUn, true)
  | isFalse | isTrue => none

structure Held where
  word : BitVec 64
  wide : Bool
deriving DecidableEq

def Constant.held : Constant → Held
  | int32 v => ⟨v.signExtend 64, false⟩
  | int64 v => ⟨v, true⟩

namespace Held

/-- A narrow constant keeps its low half, whose sign is extended again. -/
def track (word : BitVec 64) (wide : Bool) : Held :=
  ⟨if wide then word else (word.setWidth 32).signExtend 64, wide⟩

def unary (op : UnaryOp) (a : Held) : Held := track (op.onWord a.word) a.wide

def onWords? {w : Nat} (hold : BitVec w → Held) (op : BinaryOp) (x y : BitVec w) (amount : Nat) :
    Option Held :=
  ((op.arith? x y <|> op.shift? x amount).map hold) <|>
    (op.compare? x y).map fun holds => track (if holds then 1 else 0) false

/-- An operator on held constants. Narrow operands are cut to their half of the word, and the
   amount of a shift is masked. -/
def binary? (op : BinaryOp) (a b : Held) : Option Held :=
  if !op.shifts && a.wide != b.wide then none
  else if a.wide then
    onWords? (track · true) op a.word b.word (b.word &&& 63).toNat
  else
    onWords? (fun z => track (z.signExtend 64) false) op (a.word.setWidth 32) (b.word.setWidth 32)
      (b.word &&& 31).toNat

/-- A branch on two held constants of one width: the words are compared with sign, or without sign
   and cut to the width. -/
def branch? (c : Condition) (a b : Held) : Option Bool :=
  let unsigned (h : Held) : BitVec 64 := if h.wide then h.word else (h.word.setWidth 32).setWidth 64
  match c with
  | .eq | .neUn | .ge | .gt | .le | .lt => c.compare? a.word b.word
  | _ => c.compare? (unsigned a) (unsigned b)

end Held

namespace Integer
variable {w : Nat} {op : BinaryOp} {x y z : BitVec w}

theorem toInt_of_arith? (result : arith? op x y = some z) :
    z.toInt = (op.number w x.toInt y.toInt x.toNat y.toNat).bmod (2 ^ w) := by
  cases op
  case add | sub | mul =>
    cases result
    exact BitVec.toInt_ofInt ..
  case and | or | xor =>
    cases result
    exact BitVec.toInt_ofNat ..
  case div | rem =>
    obtain ⟨-, result⟩ := Option.ite_none_left_eq_some.mp result
    cases result
    exact BitVec.toInt_ofInt ..
  case divUn | remUn =>
    obtain ⟨-, result⟩ := Option.ite_none_left_eq_some.mp result
    cases result
    exact BitVec.toInt_ofNat ..
  all_goals cases result

theorem toInt_of_shift? {v : Nat} {y : BitVec v} (result : shift? op x y.toNat = some z) :
    z.toInt = (op.number w x.toInt y.toInt x.toNat y.toNat).bmod (2 ^ w) := by
  cases op
  case shr =>
    cases result
    exact BitVec.toInt_ofInt ..
  case shl | shrUn =>
    cases result
    exact BitVec.toInt_ofNat ..
  all_goals cases result

theorem number_of_compare? {holds : Bool} (result : compare? op x y = some holds) :
    op.number w x.toInt y.toInt x.toNat y.toNat = if holds then 1 else 0 := by
  cases op
  case ceq | cgt | cgtUn | clt | cltUn =>
    cases result
    simp only [BinaryOp.number, decide_eq_true_eq]
  all_goals cases result

theorem compares_of_arith? (result : arith? op x y = some z) : op.compares = false := by
  cases op <;> first | rfl | cases result

theorem compares_of_shift? {amount : Nat} (result : shift? op x amount = some z) :
    op.compares = false := by
  cases op <;> first | rfl | cases result

theorem compares_of_compare? {holds : Bool} (result : compare? op x y = some holds) :
    op.compares = true := by
  cases op <;> first | rfl | cases result

theorem sameWidth?_some {wrap : BitVec w → Constant} {c : Constant}
    (result : sameWidth? wrap op x y = some c) :
    (op.compares = false ∧ ∃ z, c = wrap z ∧
      z.toInt = (op.number w x.toInt y.toInt x.toNat y.toNat).bmod (2 ^ w)) ∨
    (op.compares = true ∧ ∃ holds : Bool, c = .ofBool holds ∧
      op.number w x.toInt y.toInt x.toNat y.toNat = if holds then 1 else 0) := by
  unfold sameWidth? at result
  split at result
  · rename_i z arith
    cases result
    exact .inl ⟨compares_of_arith? arith, z, rfl, toInt_of_arith? arith⟩
  · rename_i z _ shift
    cases result
    exact .inl ⟨compares_of_shift? shift, z, rfl, toInt_of_shift? shift⟩
  · rename_i compare
    cases result
    exact .inr ⟨compares_of_compare? compare, true, rfl, number_of_compare? compare⟩
  · rename_i compare
    cases result
    exact .inr ⟨compares_of_compare? compare, false, rfl, number_of_compare? compare⟩
  · cases result

theorem sameWidth?_of_compare? {wrap : BitVec w → Constant} {holds : Bool}
    (compared : compare? op x y = some holds) : sameWidth? wrap op x y = some (.ofBool holds) := by
  have arith : arith? op x y = none := by
    cases op <;> first | rfl | cases compared
  have shift : shift? op x y.toNat = none := by
    cases op <;> first | rfl | cases compared
  rw [sameWidth?, arith, shift, compared]
  cases holds <;> rfl

theorem toInt_ofBool (holds : Bool) :
    (Constant.ofBool holds).toInt = (if holds then 1 else 0 : Int).bmod (2 ^ 32) := by
  cases holds <;> decide

theorem binary?_some {a b c : Constant} (result : binary? op a b = some c) :
    c.width = (if op.compares then 32 else a.width) ∧
      c.toInt = (op.number a.width a.toInt b.toInt a.toNat b.toNat).bmod (2 ^ c.width) := by
  match a, b, result with
  | .int32 x, .int32 y, result | .int64 x, .int64 y, result =>
    obtain ⟨kind, z, rfl, number⟩ | ⟨kind, holds, rfl, number⟩ := sameWidth?_some result
    · rw [kind]
      exact ⟨rfl, number⟩
    · rw [kind]
      refine ⟨rfl, ?_⟩
      rw [toInt_ofBool, ← number]
      rfl
  | .int32 x, .int64 y, result | .int64 x, .int32 y, result =>
    obtain ⟨z, shift, rfl⟩ := Option.map_eq_some_iff.mp result
    rw [compares_of_shift? shift]
    exact ⟨rfl, toInt_of_shift? shift⟩

theorem eq_intMin_iff {x : BitVec w} (wide : 0 < w) : x = .intMin w ↔ x.toInt = -2 ^ (w - 1) := by
  rw [← BitVec.toInt_inj, BitVec.toInt_intMin_of_pos wide]

theorem sameWidth?_eq_none_iff {wrap : BitVec w → Constant} : sameWidth? wrap op x y = none ↔
    arith? op x y = none ∧ shift? op x y.toNat = none ∧ compare? op x y = none := by
  unfold sameWidth?
  split <;> simp_all

theorem sameWidth?_eq_none_iff_divides {wrap : BitVec w → Constant} (wide : 0 < w) :
    sameWidth? wrap op x y = none ↔ (op ∈ [.div, .rem, .divUn, .remUn] ∧ y.toInt = 0) ∨
      (op ∈ [.div, .rem] ∧ x.toInt = -2 ^ (w - 1) ∧ y.toInt = -1) := by
  have zero : y.toNat = 0 ↔ y.toInt = 0 := by rw [toNat_eq_zero_iff, toInt_eq_zero_iff]
  rw [sameWidth?_eq_none_iff]
  cases op
  case div | rem =>
    simp [arith?, shift?, compare?, eq_intMin_iff wide, or_iff_not_imp_left]
  case divUn | remUn => simp [arith?, shift?, compare?, zero]
  all_goals simp [arith?, shift?, compare?]

theorem shift?_eq_none_iff {amount : Nat} : shift? op x amount = none ↔ op.shifts = false := by
  cases op <;> simp [shift?, BinaryOp.shifts]

theorem binary?_eq_none_iff {a b : Constant} : binary? op a b = none ↔ op.Undefined a b := by
  match a, b with
  | .int32 x, .int32 y | .int64 x, .int64 y =>
    refine (sameWidth?_eq_none_iff_divides (by decide)).trans ⟨?_, ?_⟩
    · rintro (⟨divides, zero⟩ | ⟨signed, least, minus⟩)
      · exact .zero divides zero
      · exact .overflow signed least minus
    · rintro (⟨mixed, -⟩ | ⟨divides, zero⟩ | ⟨signed, least, minus⟩)
      · exact absurd rfl mixed
      · exact .inl ⟨divides, zero⟩
      · exact .inr ⟨signed, least, minus⟩
  | .int32 x, .int64 y | .int64 x, .int32 y =>
    refine Option.map_eq_none_iff.trans (shift?_eq_none_iff.trans ⟨?_, ?_⟩)
    · exact .mixed (by simp [Constant.width])
    · rintro (⟨-, other⟩ | ⟨divides, -⟩ | ⟨signed, -, -⟩)
      · exact other
      · revert op
        decide
      · revert op
        decide

theorem unary_number (op : UnaryOp) (a : Constant) :
    (unary op a).width = a.width ∧
      (unary op a).toInt = (op.number a.toInt).bmod (2 ^ a.width) := by
  cases a <;> cases op <;> exact ⟨rfl, BitVec.toInt_ofInt ..⟩

theorem holds?_comparison {c : Condition} {negated : Bool}
    (matched : c.comparison? = some (op, negated)) (x y : BitVec w) :
    ∃ holds, compare? op x y = some holds ∧ holds? c x y = some (holds != negated) := by
  cases c <;> cases matched
  case eq | gt | lt | gtUn | ltUn => exact ⟨_, rfl, by simp [holds?]⟩
  case neUn =>
    refine ⟨_, rfl, ?_⟩
    simp [holds?, BitVec.toInt_inj, BitVec.toNat_inj]
  case le | ge | leUn | geUn =>
    refine ⟨_, rfl, ?_⟩
    simp only [holds?, Bool.bne_true, ← decide_not, gt_iff_lt, ge_iff_le, not_lt]

end Integer

namespace Held
variable {op : BinaryOp}

theorem setWidth_signExtend (v : BitVec 32) : (v.signExtend 64).setWidth 32 = v := by
  ext i inside
  simp only [BitVec.getElem_setWidth, BitVec.getLsbD_signExtend, inside, if_true,
    BitVec.getLsbD_eq_getElem]
  simp [Nat.lt_trans inside (show 32 < 64 by decide)]

theorem track_int32 (word : BitVec 64) :
    track word false = (Constant.int32 (word.setWidth 32)).held := rfl

theorem track_int64 (word : BitVec 64) : track word true = (Constant.int64 word).held := rfl

theorem track_signExtend (v : BitVec 32) :
    track (v.signExtend 64) false = (Constant.int32 v).held := by
  rw [track_int32, setWidth_signExtend]

theorem tracked_iff (h : Held) : track h.word h.wide = h ↔ ∃ c : Constant, c.held = h := by
  constructor
  · intro tracked
    obtain ⟨word, wide⟩ := h
    cases wide with
    | true => exact ⟨.int64 word, rfl⟩
    | false => exact ⟨.int32 (word.setWidth 32), tracked⟩
  · rintro ⟨c, rfl⟩
    cases c with
    | int32 v => exact track_signExtend v
    | int64 v => rfl

theorem unary_held (op : UnaryOp) (a : Constant) : unary op a.held = (a.unary op).held := by
  cases a with
  | int32 v =>
    have low : ((op.onWord (v.signExtend 64)).setWidth 32) = op.onWord v := by
      cases op with
      | neg =>
        rw [UnaryOp.onWord, BitVec.setWidth_neg_of_le (by decide), setWidth_signExtend]
        rfl
      | not =>
        rw [UnaryOp.onWord, BitVec.setWidth_not (by decide), setWidth_signExtend]
        rfl
    exact (track_int32 _).trans (congrArg (fun z => (Constant.int32 z).held) low)
  | int64 v => cases op <;> rfl

theorem toNat_and_low (y : BitVec 64) : (y &&& 63).toNat = y.toNat % 64 ∧
    (y &&& 31).toNat = y.toNat % 32 := by
  rw [BitVec.toNat_and, BitVec.toNat_and]
  exact ⟨Nat.and_two_pow_sub_one_eq_mod _ 6, Nat.and_two_pow_sub_one_eq_mod _ 5⟩

theorem toNat_signExtend_mod (v : BitVec 32) {k : Nat} (divides : k ∣ 2 ^ 32) :
    (v.signExtend 64).toNat % k = v.toNat % k := by
  have low : (v.signExtend 64).toNat % 2 ^ 32 = v.toNat := by
    rw [← BitVec.toNat_setWidth, setWidth_signExtend]
  rw [← low, Nat.mod_mod_of_dvd _ divides]

theorem onWords?_eq {w : Nat} {wrap : BitVec w → Constant} {hold : BitVec w → Held}
    (held : ∀ z, hold z = (wrap z).held) (op : BinaryOp) (x y : BitVec w) {amount n : Nat}
    (same : amount % w = n % w) :
    onWords? hold op x y amount =
      (((op.arith? x y <|> op.shift? x n).map wrap) <|>
        (op.compare? x y).map Constant.ofBool).map Constant.held := by
  have shift : op.shift? x amount = op.shift? x n := by simp only [BinaryOp.shift?, same]
  have truth : (fun holds : Bool => track (if holds then 1 else 0) false) =
      Constant.held ∘ Constant.ofBool := by
    funext holds
    cases holds <;> rfl
  rw [onWords?, shift, truth, funext held]
  cases op.arith? x y <;> cases op.shift? x n <;> cases op.compare? x y <;> rfl

theorem onWords?_of_shifts {w : Nat} {wrap : BitVec w → Constant} {hold : BitVec w → Held}
    (held : ∀ z, hold z = (wrap z).held) (shifts : op.shifts = true) (x y : BitVec w)
    {amount n : Nat} (same : amount % w = n % w) :
    onWords? hold op x y amount = ((op.shift? x n).map wrap).map Constant.held := by
  rw [onWords?_eq held op x y same]
  cases op <;> cases shifts <;> rfl

theorem shift?_of_not_shifts {w : Nat} (other : op.shifts = false) (x : BitVec w) (n : Nat) :
    op.shift? x n = none := by
  rw [Integer.shift?_eq, Integer.shift?_eq_none_iff, other]

theorem binary?_held (op : BinaryOp) (a b : Constant) :
    binary? op a.held b.held = (a.binary? op b).map Constant.held := by
  match a, b with
  | .int32 x, .int32 y =>
    have amount : (y.signExtend 64 &&& 31).toNat % 32 = y.toNat % 32 := by
      rw [(toNat_and_low _).2, Nat.mod_mod, toNat_signExtend_mod y (by decide)]
    simp only [binary?, Constant.held, bne_self_eq_false, Bool.and_false, Bool.false_eq_true,
      if_false, setWidth_signExtend]
    exact onWords?_eq track_signExtend op x y amount
  | .int64 x, .int64 y =>
    have amount : (y &&& 63).toNat % 64 = y.toNat % 64 := by
      rw [(toNat_and_low _).1, Nat.mod_mod]
    simp only [binary?, Constant.held, bne_self_eq_false, Bool.and_false, Bool.false_eq_true,
      if_false, if_true]
    exact onWords?_eq track_int64 op x y amount
  | .int32 x, .int64 y =>
    have amount : (y &&& 31).toNat % 32 = y.toNat % 32 := by
      rw [(toNat_and_low _).2, Nat.mod_mod]
    rw [Constant.binary?, binary?]
    cases shifts : op.shifts with
    | false =>
      rw [shift?_of_not_shifts shifts]
      rfl
    | true =>
      simp only [Constant.held, setWidth_signExtend]
      exact onWords?_of_shifts track_signExtend shifts x _ amount
  | .int64 x, .int32 y =>
    have amount : (y.signExtend 64 &&& 63).toNat % 64 = y.toNat % 64 := by
      rw [(toNat_and_low _).1, Nat.mod_mod, toNat_signExtend_mod y (by decide)]
    rw [Constant.binary?, binary?]
    cases shifts : op.shifts with
    | false =>
      rw [shift?_of_not_shifts shifts]
      rfl
    | true => exact onWords?_of_shifts track_int64 shifts x _ amount

theorem branch?_held {a b : Constant} (c : Condition) (widths : a.width = b.width) :
    branch? c a.held b.held = Constant.branch? c a b := by
  match a, b with
  | .int64 x, .int64 y => cases c <;> rfl
  | .int32 x, .int64 y | .int64 x, .int32 y => cases widths
  | .int32 x, .int32 y =>
    have signed : ∀ v : BitVec 32, (v.signExtend 64).toInt = v.toInt :=
      fun v => BitVec.toInt_signExtend_of_le (by decide)
    have unsigned : ∀ v : BitVec 32, (v.setWidth 64).toNat = v.toNat :=
      fun v => BitVec.toNat_setWidth_of_le (by decide)
    simp only [branch?, Constant.branch?, Constant.held, Integer.holds?_eq]
    cases c
    case eq | ge | gt | le | lt => simp only [Integer.holds?, signed]
    case neUn => simp only [Integer.holds?, ne_eq, BitVec.toNat_inj, ← BitVec.toInt_inj, signed]
    case geUn | gtUn | leUn | ltUn =>
      simp only [Integer.holds?, Bool.false_eq_true, if_false, setWidth_signExtend, unsigned]
    case isFalse | isTrue => rfl

end Held

namespace Fold.State
variable {s : State} {a b : Held} {rest : List (Option Held)}

def held (s : State) : List (Option Held) := s.stack.map (Option.map fun k => k.value.held)

theorem held_fold (extra : Bool) (index : Nat) (s : State) (value : Constant)
    (sources : List Source) :
    (s.fold extra index value sources).held = some value.held :: s.held := by
  cases extra <;> rfl

theorem held_foldUnary (top : s.held = some a :: rest) (extra : Bool) (index : Nat)
    (op : UnaryOp) : (s.foldUnary extra index op).held = some (Held.unary op a) :: rest := by
  obtain ⟨slot, below, stack, known, rfl⟩ := List.map_eq_cons_iff.mp top
  obtain ⟨k, rfl, rfl⟩ := Option.map_eq_some_iff.mp known
  have pops : s.pop = (some k, { s with stack := below }) := by rw [pop, stack]; rfl
  rw [foldUnary, pops]
  exact (held_fold ..).trans (by rw [Held.unary_held]; rfl)

theorem held_foldBinary (top : s.held = some b :: some a :: rest) (extra : Bool) (index : Nat)
    (op : BinaryOp) : (s.foldBinary extra index op).held = Held.binary? op a b :: rest := by
  obtain ⟨slot, below, stack, known, more⟩ := List.map_eq_cons_iff.mp top
  obtain ⟨kb, rfl, rfl⟩ := Option.map_eq_some_iff.mp known
  obtain ⟨slot, deep, rfl, known, rfl⟩ := List.map_eq_cons_iff.mp more
  obtain ⟨ka, rfl, rfl⟩ := Option.map_eq_some_iff.mp known
  simp only [foldBinary, pop, stack, List.headD_cons, List.tail_cons, Held.binary?_held]
  cases ka.value.binary? op kb.value with
  | none => rfl
  | some value => exact held_fold ..

theorem tracked {h : Held} (among : some h ∈ s.held) : Held.track h.word h.wide = h := by
  obtain ⟨slot, -, known⟩ := List.mem_map.mp among
  obtain ⟨k, -, rfl⟩ := Option.map_eq_some_iff.mp known
  exact (Held.tracked_iff _).mpr ⟨k.value, rfl⟩

end Fold.State

structure Computes (a b : Constant) : Prop where
  undefined : ∀ op, a.binary? op b = none ↔ op.Undefined a b
  result : ∀ op c, a.binary? op b = some c →
    c.width = (if op.compares then 32 else a.width) ∧
      c.toInt = (op.number a.width a.toInt b.toInt a.toNat b.toNat).bmod (2 ^ c.width)
  negated : ∀ op, (a.unary op).width = a.width ∧
    (a.unary op).toInt = (op.number a.toInt).bmod (2 ^ a.width)
  held : (∀ op, Held.binary? op a.held b.held = (a.binary? op b).map Constant.held) ∧
    ∀ op, Held.unary op a.held = (a.unary op).held
  branches : a.width = b.width → ∀ c op negated, c.comparison? = some (op, negated) →
    ∃ holds, a.binary? op b = some (.ofBool holds) ∧
      Constant.branch? c a b = some (holds != negated) ∧
      Held.branch? c a.held b.held = some (holds != negated)

structure Folds (s : Fold.State) (extra : Bool) (index : Nat) : Prop where
  unary : ∀ op a rest, s.held = some a :: rest →
    (s.foldUnary extra index op).held = some (Held.unary op a) :: rest
  binary : ∀ op a b rest, s.held = some b :: some a :: rest →
    (s.foldBinary extra index op).held = Held.binary? op a b :: rest
  tracked : ∀ h, some h ∈ s.held → Held.track h.word h.wide = h

theorem branch_agrees {a b : Constant} {c : Condition} {op : BinaryOp} {negated : Bool}
    (widths : a.width = b.width) (matched : c.comparison? = some (op, negated)) :
    ∃ holds, a.binary? op b = some (.ofBool holds) ∧
      Constant.branch? c a b = some (holds != negated) := by
  match a, b with
  | .int32 x, .int64 y | .int64 x, .int32 y => cases widths
  | .int32 x, .int32 y | .int64 x, .int64 y =>
    obtain ⟨holds, compared, decided⟩ := Integer.holds?_comparison matched x y
    rw [Integer.constant_binary?_eq, Integer.constant_branch?_eq]
    exact ⟨holds, Integer.sameWidth?_of_compare? compared, decided⟩

theorem constants_computed :
    (∀ h : Held, Held.track h.word h.wide = h ↔ ∃ c : Constant, c.held = h) ∧
      (∀ a b, Computes a b) ∧ ∀ s extra index, Folds s extra index := by
  refine ⟨Held.tracked_iff, fun a b => ?_, fun s extra index => ?_⟩
  · refine ⟨fun op => ?_, fun op c => ?_, fun op => ?_, ?_, ?_⟩
    · rw [Integer.constant_binary?_eq]
      exact Integer.binary?_eq_none_iff
    · rw [Integer.constant_binary?_eq]
      exact Integer.binary?_some
    · rw [Integer.constant_unary_eq]
      exact Integer.unary_number op a
    · exact ⟨fun op => Held.binary?_held op a b, fun op => Held.unary_held op a⟩
    · intro widths c op negated matched
      obtain ⟨holds, compared, decided⟩ := branch_agrees widths matched
      exact ⟨holds, compared, decided, (Held.branch?_held c widths).trans decided⟩
  · exact ⟨fun op a rest top => Fold.State.held_foldUnary top extra index op,
      fun op a b rest top => Fold.State.held_foldBinary top extra index op,
      fun h => Fold.State.tracked⟩

end Unravel
