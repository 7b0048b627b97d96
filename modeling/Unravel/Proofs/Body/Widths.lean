import Unravel.Proofs.Body.Narrowing

/-!
The widths that branches end up with. Rounds of shortening come to an end, since each one that
changes something leaves fewer long branches. What is left then is as short as single branches can
make it, and does not depend on the widths and offsets that the code had before.
-/
namespace Unravel
namespace Opcode
variable {op other : Opcode}

theorem eq_longForm_or_shortForm (op : Opcode) : op = op.longForm ∨ op = op.shortForm := by
  cases op with
  | br form | leave form | branch _ form => cases form with
    | short => exact .inr rfl
    | long => exact .inl rfl
  | _ => exact .inl rfl

theorem form_of_longForm (same : other.longForm = op.longForm) :
    other = op.longForm ∨ other = op.shortForm := by
  refine other.eq_longForm_or_shortForm.imp (·.trans same) fun short => ?_
  rw [short, ← shortForm_longForm, same, shortForm_longForm]

theorem eq_of_longForm (same : other.longForm = op.longForm) (wide : op.operandKind ≠ .branch)
    (narrow : op.operandKind ≠ .shortBranch) : other = op := by
  have one : op.longForm = op ∧ op.shortForm = op := by
    cases op with
    | br form | leave form | branch _ form => cases form with
      | short => exact absurd rfl narrow
      | long => exact absurd rfl wide
    | _ => exact ⟨rfl, rfl⟩
  rcases form_of_longForm same with long | short
  · exact long.trans one.1
  · exact short.trans one.2

end Opcode

variable {xs instrs result : List Instr} {n m : Nat} {i j : Instr}

theorem isLongBranch_iff : isLongBranch i = true ↔ i.opcode.operandKind = .branch := by
  simp [isLongBranch]

theorem isLongBranch_shortForm (long : isLongBranch i = true) :
    isLongBranch { i with opcode := i.opcode.shortForm } = false := by
  rw [isLongBranch, Opcode.operandKind_shortForm (isLongBranch_iff.mp long)]
  rfl

theorem shorten_cases (instrs : List Instr) (i : Instr) :
    shorten instrs i = i ∨ isLongBranch i = true ∧
      isLongBranch (shorten instrs i) = false := by
  by_cases fits : (isLongBranch i && fitsShort instrs i) = true
  · have long := (Bool.and_eq_true_iff.mp fits).1
    rw [shorten, if_pos fits]
    exact .inr ⟨long, isLongBranch_shortForm long⟩
  · exact .inl (by rw [shorten, if_neg fits])

theorem fitsShort_of_shorten (long : isLongBranch i = true) (same : shorten instrs i = i) :
    fitsShort instrs i = false := by
  by_contra fits
  have made : shorten instrs i = { i with opcode := i.opcode.shortForm } := by
    rw [shorten, long, Bool.not_eq_false _ |>.mp fits]
    rfl
  have short := isLongBranch_shortForm long
  rw [← made, same, long] at short
  cases short

theorem countP_place (start : Nat) (instrs : List Instr) :
    (place start instrs).countP isLongBranch = instrs.countP isLongBranch := by
  induction instrs generalizing start with
  | nil => rfl
  | cons i rest ih =>
    rw [place, List.countP_cons, List.countP_cons, ih]
    rfl

theorem countP_shorten_le (instrs xs : List Instr) :
    (xs.map (shorten instrs)).countP isLongBranch ≤ xs.countP isLongBranch := by
  rw [List.countP_map]
  refine List.countP_mono_left fun i _ long => ?_
  rcases shorten_cases instrs i with same | ⟨was, -⟩
  · rwa [Function.comp_apply, same] at long
  · exact was

theorem countP_shorten_lt (changed : xs.map (shorten instrs) ≠ xs) :
    (xs.map (shorten instrs)).countP isLongBranch < xs.countP isLongBranch := by
  induction xs with
  | nil => exact absurd rfl changed
  | cons i rest ih =>
    rw [List.map_cons, List.countP_cons, List.countP_cons]
    rcases shorten_cases instrs i with same | ⟨long, short⟩
    · have more : rest.map (shorten instrs) ≠ rest := by
        intro idle
        exact changed (by rw [List.map_cons, same, idle])
      have fewer := ih more
      rw [same]
      omega
    · have fewer := countP_shorten_le instrs rest
      rw [long, short, if_pos rfl, if_neg Bool.false_ne_true]
      omega

/-- Shortening round by round, without a bound on rounds, until a round changes nothing. -/
inductive Narrows : List Instr → List Instr → Prop where
  | done {instrs : List Instr}
      (idle : (place 0 instrs).map (shorten (place 0 instrs)) = place 0 instrs) :
      Narrows instrs (place 0 instrs)
  | again {instrs result : List Instr}
      (changed : (place 0 instrs).map (shorten (place 0 instrs)) ≠ place 0 instrs)
      (more : Narrows ((place 0 instrs).map (shorten (place 0 instrs))) result) :
      Narrows instrs result

theorem narrows_narrowRounds {rounds : Nat} (enough : instrs.countP isLongBranch ≤ rounds) :
    Narrows instrs (narrowRounds rounds instrs) := by
  induction rounds generalizing instrs with
  | zero =>
    have idle : (place 0 instrs).map (shorten (place 0 instrs)) = place 0 instrs := by
      by_contra changed
      have fewer := countP_shorten_lt changed
      rw [countP_place] at fewer
      omega
    exact .done idle
  | succ rounds ih =>
    rw [narrowRounds]
    split
    · rename_i idle
      exact .done idle
    · rename_i changed
      refine .again changed (ih ?_)
      have fewer := countP_shorten_lt changed
      rw [countP_place] at fewer
      omega

theorem Narrows.idle (narrows : Narrows instrs result) (inside : i ∈ result) :
    shorten result i = i := by
  induction narrows with
  | done idle => exact List.map_inj_left.mp (idle.trans (List.map_id _).symm) i inside
  | again _ _ ih => exact ih inside

def shortenAt (code : List Instr) (n : Nat) : List Instr :=
  place 0 (code.modify n fun i => { i with opcode := i.opcode.shortForm })

/-- The displacement between two instructions, counted from the end of a short branch, fits a
    signed byte. -/
def Reaches (code : List Instr) (n m : Nat) : Prop :=
  ∃ i x, code[n]? = some i ∧ code[m]? = some x ∧
    -128 ≤ (x.offset : Int) - (i.offset + 2) ∧ (x.offset : Int) - (i.offset + 2) ≤ 127

theorem offsetAt_modify_le (f : Instr → Instr) (le : m ≤ n) :
    offsetAt (instrs.modify n f) m = offsetAt instrs m := by
  rw [offsetAt, offsetAt, List.take_modify, List.modify_eq_self]
  rw [List.length_take]
  omega

theorem offsetAt_shorten_gt (here : instrs[n]? = some i) (long : isLongBranch i = true)
    (lt : n < m) :
    offsetAt (instrs.modify n fun i => { i with opcode := i.opcode.shortForm }) m + 3 =
      offsetAt instrs m := by
  obtain ⟨wide, narrow⟩ := size_of_isLongBranch long
  induction lt with
  | refl =>
    have there : (instrs.modify n fun i => { i with opcode := i.opcode.shortForm })[n]? =
        some { i with opcode := i.opcode.shortForm } := by
      rw [List.getElem?_modify_eq, here]
      rfl
    rw [offsetAt_succ here, offsetAt_succ there, offsetAt_modify_le _ (Nat.le_refl n)]
    omega
  | @step m lt ih =>
    have same : (instrs.modify n fun i => { i with opcode := i.opcode.shortForm })[m]? =
        instrs[m]? := List.getElem?_modify_ne _ _ (Nat.ne_of_lt lt)
    cases there : instrs[m]? with
    | none => rw [offsetAt_beyond there, offsetAt_beyond (same.trans there), ih]
    | some x =>
      rw [offsetAt_succ there, offsetAt_succ (same.trans there)]
      omega

theorem fitsShort_of_reaches {t : InstrId} (placed : Placed instrs) (here : instrs[n]? = some i)
    (long : isLongBranch i = true) (first : i.targets.head? = some t)
    (index : lastIndex? t instrs = some m) (reaches : Reaches (shortenAt instrs n) n m) :
    fitsShort instrs i = true := by
  obtain ⟨j, y, atBranch, atTarget, behind, ahead⟩ := reaches
  obtain ⟨wide, -⟩ := size_of_isLongBranch long
  have from_ : j.offset = i.offset := by
    rw [placed_place _ atBranch, offsetAt_place, offsetAt_modify_le _ (Nat.le_refl n), placed here]
  have goal : y.offset = offsetAt (instrs.modify n fun i =>
      { i with opcode := i.opcode.shortForm }) m := by
    rw [placed_place _ atTarget, offsetAt_place]
  obtain ⟨x, there, -⟩ := Option.map_eq_some_iff.mp (id_of_lastIndex? index)
  have target : i.targets.head?.bind (offset? instrs) = some (offsetAt instrs m) := by
    rw [first, Option.bind_some, offset?, index, Option.bind_some, there, Option.map_some,
      placed there]
  have start := placed here
  simp only [fitsShort, target, Bool.and_eq_true, decide_eq_true_eq]
  rcases Nat.lt_or_ge n m with forward | back
  · have nearer := offsetAt_shorten_gt here long forward
    have order := offsetAt_mono instrs (show n + 1 ≤ m from forward)
    rw [offsetAt_succ here] at order
    rw [if_pos (by omega)]
    omega
  · rw [offsetAt_modify_le _ back] at goal
    have order := offsetAt_mono instrs back
    rw [if_neg (by omega)]
    omega

theorem size_of_shortBranch (short : i.opcode.operandKind = .shortBranch) : i.size = 2 := by
  obtain ⟨form, branch, kind⟩ := Opcode.isBranch_of_operandKind (.inr short)
  cases form with
  | long => rw [short] at kind; cases kind
  | short =>
    rcases branch with opcode | opcode | ⟨c, opcode⟩ <;>
      simp only [Instr.size, Instr.operandSize, opcode] <;> rfl

theorem Near.reaches {t : InstrId} (near : Near instrs n m) (placed : Placed instrs)
    (here : instrs[n]? = some i) (short : i.opcode.operandKind = .shortBranch)
    (index : lastIndex? t instrs = some m) : Reaches instrs n m := by
  obtain ⟨x, there, -⟩ := Option.map_eq_some_iff.mp (id_of_lastIndex? index)
  obtain ⟨ahead, behind⟩ := near
  rw [offsetAt_succ here, size_of_shortBranch short] at ahead behind
  refine ⟨i, x, here, there, ?_, ?_⟩
  · rw [placed here, placed there]
    omega
  · rw [placed here, placed there]
    omega

theorem place_widen_of_recoded {xs ys : List Instr} (recoded : Recoded xs ys) (start : Nat) :
    place start (ys.map widenInstr) = place start (xs.map widenInstr) := by
  induction recoded generalizing start with
  | nil => rfl
  | @cons i j _ _ kin _ ih =>
    have same : ({ widenInstr j with offset := start } : Instr) =
        { widenInstr i with offset := start } := by
      simp only [widenInstr, kin.id, kin.operand, kin.longForm]
    have size : (widenInstr j).size = (widenInstr i).size := by
      rw [← size_offset (widenInstr j) start, same, size_offset]
    rw [List.map_cons, List.map_cons, place, place, same, size, ih]

namespace Body
variable {old new body other : Body}

/-- Two bodies that differ at most in the widths of their branches and in their offsets. -/
structure Rewidens (old new : Body) : Prop where
  code : Recoded old.instrs new.instrs
  rest : new = { old with instrs := new.instrs }

theorem Rewidens.widen (rewidens : old.Rewidens new) : new.widen = old.widen := by
  rw [Body.widen, Body.widen, place_widen_of_recoded rewidens.code, rewidens.rest]

/-- What tidying the branches of a body comes to. -/
structure Tidied (old new : Body) : Prop where
  /-- The rounds come to an end, and end there. -/
  ends : Narrows old.widen.instrs new.instrs
  offsets : Placed new.instrs
  /-- Every short branch reaches its target. -/
  short : ∀ ⦃n i⦄, new.instrs[n]? = some i → i.opcode.operandKind = .shortBranch →
    ∃ t m, i.targets.head? = some t ∧ lastIndex? t new.instrs = some m ∧ Reaches new.instrs n m
  /-- No long branch would, were it alone shortened. -/
  long : ∀ ⦃n i t m⦄, new.instrs[n]? = some i → i.opcode.operandKind = .branch →
    i.targets.head? = some t → lastIndex? t new.instrs = some m →
    ¬ Reaches (shortenAt new.instrs n) n m
  /-- Nothing but widths and offsets changes. -/
  kept : old.Rewidens new
  plain : ∀ ⦃n : Nat⦄ ⦃i j : Instr⦄, old.instrs[n]? = some i → new.instrs[n]? = some j →
    i.opcode.operandKind ≠ .branch → i.opcode.operandKind ≠ .shortBranch → j.opcode = i.opcode
  forms : ∀ ⦃n : Nat⦄ ⦃i j : Instr⦄, old.instrs[n]? = some i → new.instrs[n]? = some j →
    j.opcode = i.opcode.longForm ∨ j.opcode = i.opcode.shortForm

theorem Rewidens.kin (rewidens : old.Rewidens new) (was : old.instrs[n]? = some i)
    (here : new.instrs[n]? = some j) : Kin i j := by
  obtain ⟨i', was', kin⟩ := rewidens.code.getElem? here
  cases was.symm.trans was'
  exact kin

theorem rewidens_narrow (body : Body) : body.Rewidens body.widen.narrow :=
  ⟨body.recoded_narrow, rfl⟩

theorem tidied (body : Body) : body.Tidied body.widen.narrow := by
  have ends : Narrows body.widen.instrs body.widen.narrow.instrs :=
    narrows_narrowRounds (Nat.le_refl _)
  have placed := body.widen.placed_narrow
  have kept := body.rewidens_narrow
  refine ⟨ends, placed, ?_, ?_, kept, ?_, ?_⟩
  · intro n i here short
    obtain ⟨t, m, first, index, near⟩ := body.shortsReach_narrow here short
    exact ⟨t, m, first, index, near.reaches placed here short index⟩
  · intro n i t m here long first index reaches
    have branch := isLongBranch_iff.mpr long
    have fits := fitsShort_of_reaches placed here branch first index reaches
    have idle := fitsShort_of_shorten branch (ends.idle (List.mem_of_getElem? here))
    rw [fits] at idle
    cases idle
  · intro n i j was here wide narrow
    exact Opcode.eq_of_longForm (kept.kin was here).longForm wide narrow
  · intro n i j was here
    exact Opcode.form_of_longForm (kept.kin was here).longForm

/-- Widening and then narrowing the branches of a body tidies them, the same way for all bodies
    that differ in widths and offsets alone, and so once and for all. -/
theorem branches_settle (body : Body) :
    body.Tidied body.widen.narrow ∧
      (∀ other, body.Rewidens other → other.widen.narrow = body.widen.narrow) ∧
      body.widen.narrow.widen.narrow = body.widen.narrow := by
  have canonical : ∀ other, body.Rewidens other → other.widen.narrow = body.widen.narrow := by
    intro other rewidens
    rw [rewidens.widen]
  exact ⟨body.tidied, canonical, canonical _ body.rewidens_narrow⟩

end Body
end Unravel
