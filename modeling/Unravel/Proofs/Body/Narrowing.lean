import Mathlib
import Unravel.Body.Branches
import Unravel.Opcode.Forms

namespace Unravel

def offsetAt (instrs : List Instr) (n : Nat) : Nat := ((instrs.take n).map Instr.size).sum

theorem offsetAt_succ {instrs : List Instr} {n : Nat} {i : Instr} (here : instrs[n]? = some i) :
    offsetAt instrs (n + 1) = offsetAt instrs n + i.size := by
  simp [offsetAt, List.take_add_one, here]

theorem offsetAt_beyond {instrs : List Instr} {n : Nat} (beyond : instrs[n]? = none) :
    offsetAt instrs (n + 1) = offsetAt instrs n := by
  simp [offsetAt, List.take_add_one, beyond]

theorem getElem?_place (start : Nat) (instrs : List Instr) (n : Nat) :
    (place start instrs)[n]? =
      instrs[n]?.map fun i => { i with offset := start + offsetAt instrs n } := by
  induction instrs generalizing start n with
  | nil => simp [place]
  | cons i rest ih =>
    cases n with
    | zero => simp [place, offsetAt]
    | succ n =>
      rw [place, List.getElem?_cons_succ, List.getElem?_cons_succ, ih]
      simp [offsetAt, Nat.add_assoc]

theorem lastIndex?_of_ids {xs ys : List Instr} (same : ys.map Instr.id = xs.map Instr.id)
    (id : InstrId) : lastIndex? id ys = lastIndex? id xs := by
  induction xs generalizing ys with
  | nil => rw [List.map_eq_nil_iff.mp same]
  | cons x xs ih =>
    cases ys with
    | nil => cases same
    | cons y ys =>
      rw [List.map_cons, List.map_cons, List.cons.injEq] at same
      simp only [lastIndex?, ih same.2, same.1]

/-- Two instructions that differ at most in their offsets and in the width of a branch. -/
structure Kin (i j : Instr) : Prop where
  id : j.id = i.id
  operand : j.operand = i.operand
  longForm : j.opcode.longForm = i.opcode.longForm

namespace Kin
variable {i j k : Instr}

theorem refl (i : Instr) : Kin i i := ⟨rfl, rfl, rfl⟩

theorem trans (first : Kin i j) (second : Kin j k) : Kin i k :=
  ⟨second.id.trans first.id, second.operand.trans first.operand,
    second.longForm.trans first.longForm⟩

theorem flow (kin : Kin i j) : j.flow = i.flow := by
  rw [Instr.flow, Instr.flow, ← Opcode.flow_longForm, kin.longForm, Opcode.flow_longForm]

theorem isSwitch (kin : Kin i j) : j.opcode = .switch ↔ i.opcode = .switch := by
  have flow : j.opcode.flow = i.opcode.flow := kin.flow
  constructor
  · intro switches
    exact Opcode.eq_switch_of_flow (by rw [← flow, switches]; rfl)
  · intro switches
    exact Opcode.eq_switch_of_flow (by rw [flow, switches]; rfl)

theorem targets (kin : Kin i j) : j.targets = i.targets := by
  unfold Instr.targets Instr.isJump
  rw [kin.operand, kin.flow]
  cases i.operand with
  | switch ids => exact if_congr kin.isSwitch rfl rfl
  | _ => rfl

end Kin

def Recoded (xs ys : List Instr) : Prop := List.Forall₂ Kin xs ys

namespace Recoded
variable {xs ys zs : List Instr}

theorem trans (first : Recoded xs ys) (second : Recoded ys zs) : Recoded xs zs := by
  induction first generalizing zs with
  | nil => exact second
  | cons kin _ ih =>
    cases second with
    | cons kin' rest => exact .cons (kin.trans kin') (ih rest)

theorem map {f : Instr → Instr} (kin : ∀ i, Kin i (f i)) (xs : List Instr) :
    Recoded xs (xs.map f) := by
  rw [Recoded, List.forall₂_map_right_iff]
  exact List.forall₂_same.mpr fun i _ => kin i

theorem place (start : Nat) (xs : List Instr) : Recoded xs (place start xs) := by
  induction xs generalizing start with
  | nil => exact .nil
  | cons i rest ih => exact .cons ⟨rfl, rfl, rfl⟩ (ih _)

theorem ids (recoded : Recoded xs ys) : ys.map Instr.id = xs.map Instr.id := by
  induction recoded with
  | nil => rfl
  | cons kin _ ih => rw [List.map_cons, List.map_cons, kin.id, ih]

theorem lastIndex? (recoded : Recoded xs ys) (id : InstrId) :
    lastIndex? id ys = lastIndex? id xs :=
  lastIndex?_of_ids recoded.ids id

theorem getElem? (recoded : Recoded xs ys) {n : Nat} {j : Instr} (here : ys[n]? = some j) :
    ∃ i, xs[n]? = some i ∧ Kin i j := by
  induction recoded generalizing n with
  | nil => cases here
  | @cons x y _ _ kin _ ih =>
    cases n with
    | zero =>
      cases here
      exact ⟨x, rfl, kin⟩
    | succ n => exact ih here

end Recoded

theorem kin_shorten (instrs : List Instr) (i : Instr) : Kin i (shorten instrs i) := by
  unfold shorten
  split
  · exact ⟨rfl, rfl, Opcode.longForm_shortForm i.opcode⟩
  · exact .refl i

theorem recoded_narrowRounds (rounds : Nat) (instrs : List Instr) :
    Recoded instrs (narrowRounds rounds instrs) := by
  induction rounds generalizing instrs with
  | zero => exact .place 0 instrs
  | succ rounds ih =>
    rw [narrowRounds]
    split
    · exact .place 0 instrs
    · exact ((Recoded.place 0 instrs).trans (.map (kin_shorten _) _)).trans (ih _)

def Placed (instrs : List Instr) : Prop :=
  ∀ ⦃n i⦄, instrs[n]? = some i → i.offset = offsetAt instrs n

theorem size_offset (i : Instr) (offset : Nat) : ({ i with offset } : Instr).size = i.size := rfl

theorem offsetAt_place (start : Nat) (instrs : List Instr) (n : Nat) :
    offsetAt (place start instrs) n = offsetAt instrs n := by
  induction n with
  | zero => rfl
  | succ n ih =>
    cases here : instrs[n]? with
    | none =>
      have there : (place start instrs)[n]? = none := by rw [getElem?_place, here]; rfl
      rw [offsetAt_beyond here, offsetAt_beyond there, ih]
    | some i =>
      have there := getElem?_place start instrs n
      rw [here, Option.map_some] at there
      rw [offsetAt_succ here, offsetAt_succ there, ih, size_offset]

theorem placed_place (instrs : List Instr) : Placed (place 0 instrs) := by
  intro n i here
  rw [getElem?_place] at here
  obtain ⟨j, -, rfl⟩ := Option.map_eq_some_iff.mp here
  rw [offsetAt_place]
  exact Nat.zero_add _

theorem placed_narrowRounds (rounds : Nat) (instrs : List Instr) :
    Placed (narrowRounds rounds instrs) := by
  induction rounds generalizing instrs with
  | zero => exact placed_place instrs
  | succ rounds ih =>
    rw [narrowRounds]
    split
    · exact placed_place instrs
    · exact ih _

theorem offsetAt_mono (instrs : List Instr) {a z : Nat} (le : a ≤ z) :
    offsetAt instrs a ≤ offsetAt instrs z := by
  induction le with
  | refl => exact Nat.le_refl _
  | @step z _ ih =>
    cases here : instrs[z]? with
    | none => rwa [offsetAt_beyond here]
    | some i =>
      rw [offsetAt_succ here]
      omega

def Shrinks (xs ys : List Instr) : Prop := List.Forall₂ (fun i j => j.size ≤ i.size) xs ys

theorem offsetAt_shrinks {xs ys : List Instr} (shrinks : Shrinks xs ys) {a z : Nat} (le : a ≤ z) :
    offsetAt ys z + offsetAt xs a ≤ offsetAt xs z + offsetAt ys a := by
  induction le with
  | refl => omega
  | @step z _ ih =>
    cases here : xs[z]? with
    | none =>
      have there : ys[z]? = none := by
        rw [List.getElem?_eq_none_iff, ← shrinks.length_eq]
        exact List.getElem?_eq_none_iff.mp here
      rwa [offsetAt_beyond here, offsetAt_beyond there]
    | some i =>
      have inside := (List.getElem?_eq_some_iff.mp here).1
      have inside' : z < ys.length := by rwa [← shrinks.length_eq]
      have smaller := (List.forall₂_iff_get.mp shrinks).2 z inside inside'
      have there : ys[z]? = some ys[z] := List.getElem?_eq_getElem inside'
      rw [List.getElem?_eq_getElem inside, Option.some.injEq] at here
      simp only [List.get_eq_getElem, here] at smaller
      rw [offsetAt_succ (List.getElem?_eq_some_iff.mpr ⟨inside, here⟩), offsetAt_succ there]
      omega

/-- A target lies within reach of a short branch, counted from the end of the branch. -/
def Near (instrs : List Instr) (n m : Nat) : Prop :=
  offsetAt instrs m ≤ offsetAt instrs (n + 1) + 127 ∧
    offsetAt instrs (n + 1) ≤ offsetAt instrs m + 128

theorem Near.shrinks {xs ys : List Instr} {n m : Nat} (near : Near xs n m)
    (shrinks : Shrinks xs ys) : Near ys n m := by
  obtain ⟨ahead, behind⟩ := near
  rcases Nat.le_total (n + 1) m with forward | back
  · have shorter := offsetAt_shrinks shrinks forward
    have longer := offsetAt_mono ys forward
    exact ⟨by omega, by omega⟩
  · have shorter := offsetAt_shrinks shrinks back
    have longer := offsetAt_mono ys back
    exact ⟨by omega, by omega⟩

def ShortsReach (instrs : List Instr) : Prop :=
  ∀ ⦃n i⦄, instrs[n]? = some i → i.opcode.operandKind = .shortBranch →
    ∃ t m, i.targets.head? = some t ∧ lastIndex? t instrs = some m ∧ Near instrs n m

theorem size_of_isLongBranch {i : Instr} (long : isLongBranch i = true) :
    i.size = 5 ∧ ({ i with opcode := i.opcode.shortForm } : Instr).size = 2 := by
  have wide : i.opcode.operandKind = .branch := by simpa [isLongBranch] using long
  obtain ⟨form, branch, kind⟩ := Opcode.isBranch_of_operandKind (.inl wide)
  have form_ : form = .long := by
    cases form with
    | long => rfl
    | short => rw [wide] at kind; cases kind
  subst form_
  rcases branch with opcode | opcode | ⟨c, opcode⟩
  · simp only [Instr.size, Instr.operandSize, opcode]
    exact ⟨rfl, rfl⟩
  · simp only [Instr.size, Instr.operandSize, opcode]
    exact ⟨rfl, rfl⟩
  · simp only [Instr.size, Instr.operandSize, opcode]
    exact ⟨rfl, rfl⟩

theorem size_shorten_le (instrs : List Instr) (i : Instr) : (shorten instrs i).size ≤ i.size := by
  unfold shorten
  split
  · rename_i fits
    rw [Bool.and_eq_true] at fits
    have sizes := size_of_isLongBranch fits.1
    omega
  · exact Nat.le_refl _

theorem shrinks_shorten (instrs : List Instr) : Shrinks instrs (instrs.map (shorten instrs)) := by
  rw [Shrinks, List.forall₂_map_right_iff]
  exact List.forall₂_same.mpr fun i _ => size_shorten_le instrs i

theorem offset?_some {instrs : List Instr} (placed : Placed instrs) {t : InstrId} {target : Nat}
    (found : offset? instrs t = some target) :
    ∃ m, lastIndex? t instrs = some m ∧ target = offsetAt instrs m := by
  obtain ⟨x, there, rfl⟩ := Option.map_eq_some_iff.mp found
  obtain ⟨m, index, there⟩ := Option.bind_eq_some_iff.mp there
  exact ⟨m, index, placed there⟩

theorem near_of_fitsShort {instrs ys : List Instr} (placed : Placed instrs)
    (shrinks : Shrinks instrs ys) {n : Nat} {i j : Instr} (here : instrs[n]? = some i)
    (there : ys[n]? = some j) (long : i.size = 5) (short : j.size = 2)
    (fits : fitsShort instrs i = true) :
    ∃ t m, i.targets.head? = some t ∧ lastIndex? t instrs = some m ∧ Near ys n m := by
  unfold fitsShort at fits
  split at fits
  · cases fits
  · rename_i target found
    obtain ⟨t, first, found⟩ := Option.bind_eq_some_iff.mp found
    obtain ⟨m, index, rfl⟩ := offset?_some placed found
    refine ⟨t, m, first, index, ?_⟩
    rw [placed here] at fits
    have next := offsetAt_succ here
    have next' := offsetAt_succ there
    unfold Near
    rcases Nat.lt_or_ge m (n + 1) with before | forward
    · have back : m ≤ n := Nat.le_of_lt_succ before
      have order := offsetAt_mono instrs back
      have order' := offsetAt_mono ys back
      have shorter := offsetAt_shrinks shrinks back
      rw [if_neg (by omega)] at fits
      simp only [Bool.and_eq_true, decide_eq_true_eq] at fits
      exact ⟨by omega, by omega⟩
    · have order := offsetAt_mono instrs forward
      have order' := offsetAt_mono ys forward
      have shorter := offsetAt_shrinks shrinks forward
      rw [if_pos (by omega)] at fits
      simp only [Bool.and_eq_true, decide_eq_true_eq] at fits
      exact ⟨by omega, by omega⟩

theorem ShortsReach.place {instrs : List Instr} (reach : ShortsReach instrs) :
    ShortsReach (place 0 instrs) := by
  intro n i here short
  rw [getElem?_place] at here
  obtain ⟨j, was, rfl⟩ := Option.map_eq_some_iff.mp here
  obtain ⟨t, m, first, index, near⟩ := reach was short
  refine ⟨t, m, first, ?_, ?_⟩
  · rw [(Recoded.place 0 instrs).lastIndex?, index]
  · simpa only [Near, offsetAt_place] using near

theorem ShortsReach.shorten {instrs : List Instr} (reach : ShortsReach instrs)
    (placed : Placed instrs) : ShortsReach (instrs.map (shorten instrs)) := by
  intro n j here short
  have shrinks := shrinks_shorten instrs
  have recoded := Recoded.map (kin_shorten instrs) instrs
  rw [List.getElem?_map] at here
  obtain ⟨i, was, rfl⟩ := Option.map_eq_some_iff.mp here
  rw [(kin_shorten instrs i).targets]
  simp only [recoded.lastIndex?]
  by_cases changed : (isLongBranch i && fitsShort instrs i) = true
  · have made : Unravel.shorten instrs i = { i with opcode := i.opcode.shortForm } := by
      rw [Unravel.shorten, if_pos changed]
    rw [Bool.and_eq_true] at changed
    obtain ⟨long, small⟩ := size_of_isLongBranch changed.1
    refine near_of_fitsShort placed shrinks was ?_ long small changed.2
    rw [List.getElem?_map, was, Option.map_some, made]
  · rw [Unravel.shorten, if_neg changed] at short
    obtain ⟨t, m, first, index, near⟩ := reach was short
    exact ⟨t, m, first, index, near.shrinks shrinks⟩

theorem ShortsReach.narrowRounds (rounds : Nat) {instrs : List Instr}
    (reach : ShortsReach instrs) : ShortsReach (narrowRounds rounds instrs) := by
  induction rounds generalizing instrs with
  | zero => exact reach.place
  | succ rounds ih =>
    rw [Unravel.narrowRounds]
    split
    · exact reach.place
    · exact ih (reach.place.shorten (placed_place instrs))

theorem shortsReach_widen (body : Body) : ShortsReach body.widen.instrs := by
  intro n i here short
  rw [Body.widen, getElem?_place, List.getElem?_map] at here
  obtain ⟨j, was, rfl⟩ := Option.map_eq_some_iff.mp here
  obtain ⟨k, -, rfl⟩ := Option.map_eq_some_iff.mp was
  exact absurd short (Opcode.operandKind_longForm k.opcode)

theorem recoded_widen (body : Body) : Recoded body.instrs body.widen.instrs := by
  have kin : ∀ i, Kin i (widenInstr i) := fun i => ⟨rfl, rfl, Opcode.longForm_longForm i.opcode⟩
  exact (Recoded.map kin _).trans (.place 0 _)

namespace Body

theorem placed_narrow (body : Body) : Placed body.narrow.instrs := placed_narrowRounds _ _

theorem shortsReach_narrow (body : Body) : ShortsReach body.widen.narrow.instrs :=
  (shortsReach_widen body).narrowRounds _

theorem recoded_narrow (body : Body) : Recoded body.instrs body.widen.narrow.instrs :=
  (recoded_widen body).trans (recoded_narrowRounds _ _)

end Body
end Unravel
