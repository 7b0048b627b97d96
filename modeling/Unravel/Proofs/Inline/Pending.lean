import Unravel.Proofs.Graph.Weight
import Unravel.Proofs.Pass.Inlining

namespace Unravel.Inline
variable {ctx : PassContext}

theorem isSpliceable_mono {accepts accepts' : Token → Bool}
    (more : ∀ t, accepts t = true → accepts' t = true) {i : Instr}
    (fine : isSpliceable ctx accepts i = true) : isSpliceable ctx accepts' i = true := by
  unfold isSpliceable at fine ⊢
  split
  · rename_i barred
    rw [if_pos barred] at fine
    exact fine
  · rename_i free
    rw [if_neg free] at fine
    split at fine <;> simp_all

theorem accepts_of_isSpliceable {accepts : Token → Bool} {i : Instr} {t : Token}
    (fine : isSpliceable ctx accepts i = true) (calls : callee? i = some t) : accepts t = true := by
  unfold callee? at calls
  split at calls
  · rename_i m op operand
    cases calls
    unfold isSpliceable at fine
    split at fine
    · cases fine
    · rw [op, operand] at fine
      exact fine
  · cases calls

theorem splice?_mono {n m : Nat} (le : n ≤ m) {chain chain' : List Token} (sub : chain' ⊆ chain)
    {t : Token} {code : List Instr} (spliced : splice? ctx n chain t = some code) :
    splice? ctx m chain' t = some code := by
  induction n generalizing m chain chain' t code with
  | zero => cases spliced
  | succ n ih =>
    obtain ⟨m, rfl⟩ : ∃ k, m = k + 1 := ⟨m - 1, by omega⟩
    rw [splice?] at spliced ⊢
    split at spliced
    · cases spliced
    · rename_i free
      simp only [Bool.or_eq_true, not_or, decide_eq_true_eq, List.contains_iff_mem] at free
      rw [if_neg (by simpa using ⟨free.1, fun inside => free.2 (sub inside)⟩)]
      obtain ⟨callee, resolved, spliced⟩ := Option.bind_eq_some_iff.mp spliced
      obtain ⟨whole, straight, spliced⟩ := Option.bind_eq_some_iff.mp spliced
      refine Option.bind_eq_some_iff.mpr ⟨callee, resolved, ?_⟩
      refine Option.bind_eq_some_iff.mpr ⟨whole, straight, ?_⟩
      dsimp only at spliced ⊢
      split at spliced
      · cases spliced
      · rename_i fits
        simp only [Bool.or_eq_true, not_or, Bool.not_eq_true', Bool.not_eq_false] at fits
        rw [if_neg ?_]
        · exact spliced
        · simp only [Bool.or_eq_true, not_or, Bool.not_eq_true', Bool.not_eq_false]
          refine ⟨fits.1, List.all_eq_true.mpr fun i inside => ?_⟩
          refine isSpliceable_mono (fun other accepted => ?_) (List.all_eq_true.mp fits.2 i inside)
          obtain ⟨code', spliced'⟩ := Option.isSome_iff_exists.mp accepted
          rw [ih (Nat.le_of_succ_le_succ le) (List.cons_subset_cons t sub) spliced']
          rfl

theorem splice?_calls {n : Nat} {chain : List Token} {t other : Token} {code : List Instr}
    (spliced : splice? ctx (n + 1) chain t = some code) {i : Instr} (inside : i ∈ code)
    (calls : callee? i = some other) : (splice? ctx n [] other).isSome = true := by
  obtain ⟨-, -, -, -, -, -, fine⟩ := splice?_succ spliced
  have accepted := accepts_of_isSpliceable (fine i inside) calls
  obtain ⟨code', spliced'⟩ := Option.isSome_iff_exists.mp accepted
  rw [splice?_mono (Nat.le_refl n) (List.nil_subset _) spliced']
  rfl

/-- The number of expansions that a call stands for: its own and those of the calls in its code. -/
def pending (ctx : PassContext) : Nat → Token → Nat
  | 0, _ => 0
  | n + 1, t =>
    match splice? ctx (n + 1) [] t with
    | none => 0
    | some code => 1 + weigh (fun i => ((callee? i).map (pending ctx n)).getD 0) code

def pendingAt (ctx : PassContext) (i : Instr) : Nat :=
  ((callee? i).map (pending ctx depthLimit)).getD 0

theorem pendingAt_eq_zero {i : Instr} (other : i.opcode ≠ .call) : pendingAt ctx i = 0 := by
  have plain : callee? i = none := by
    unfold callee?
    split
    · exact absurd ‹_› other
    · rfl
  rw [pendingAt, plain]
  rfl

theorem pending_stable {n m : Nat} (le : n ≤ m) {t : Token}
    (accepted : (splice? ctx n [] t).isSome = true) : pending ctx m t = pending ctx n t := by
  induction n generalizing m t with
  | zero => cases accepted
  | succ n ih =>
    obtain ⟨m, rfl⟩ : ∃ k, m = k + 1 := ⟨m - 1, by omega⟩
    obtain ⟨code, spliced⟩ := Option.isSome_iff_exists.mp accepted
    rw [pending, pending, spliced, splice?_mono le (List.Subset.refl []) spliced]
    refine congrArg (1 + ·) (weigh_congr fun i inside => ?_)
    cases calls : callee? i with
    | none => rfl
    | some other => simp [ih (Nat.le_of_succ_le_succ le) (splice?_calls spliced inside calls)]

theorem pending_spliced {n : Nat} {t : Token} {code : List Instr}
    (spliced : splice? ctx (n + 1) [] t = some code) :
    pending ctx (n + 1) t =
      1 + weigh (fun i => ((callee? i).map (pending ctx (n + 1))).getD 0) code := by
  rw [pending, spliced]
  refine congrArg (1 + ·) (weigh_congr fun i inside => ?_)
  cases calls : callee? i with
  | none => rfl
  | some other =>
    have accepted := splice?_calls spliced inside calls
    simp only [Option.map_some, Option.getD_some, pending_stable (Nat.le_succ n) accepted]

theorem weigh_renumber (fresh : InstrId) (code : List Instr) :
    weigh (pendingAt ctx) (renumber fresh code) = weigh (pendingAt ctx) code := by
  induction code generalizing fresh with
  | nil => rfl
  | cons i rest ih =>
    rw [renumber, weigh_cons, weigh_cons, ih]
    rfl

theorem weigh_expand (fresh : InstrId) (call : Instr) (code : List Instr) :
    weigh (pendingAt ctx) (expand fresh call code) = weigh (pendingAt ctx) code := by
  cases code with
  | nil => rfl
  | cons first rest =>
    rw [expand, weigh_cons, weigh_cons, weigh_renumber]
    rfl

theorem weigh_expandAll (ctx : PassContext) (fresh : InstrId) (code : List Instr) :
    weigh (pendingAt ctx) (expandAll ctx fresh code).1 + (expandAll ctx fresh code).2.2.length =
      weigh (pendingAt ctx) code := by
  induction code generalizing fresh with
  | nil => rfl
  | cons i rest ih =>
    rcases expandAll_first ctx fresh i rest with ⟨-, same⟩ | ⟨token, spliced, calls, isCode, same⟩
    · rw [same, weigh_cons, weigh_cons, ← ih fresh, Nat.add_assoc]
    · have own : pendingAt ctx i = 1 + weigh (pendingAt ctx) spliced := by
        rw [pendingAt, calls, Option.map_some, Option.getD_some]
        exact pending_spliced (n := 7) isCode
      have counted := ih (fresh.after (spliced.length - 1))
      simp only [same, weigh_append, weigh_expand, weigh_cons, List.length_cons, own]
      omega

theorem expandAll_unchanged {fresh : InstrId} {code : List Instr}
    (none : (expandAll ctx fresh code).2.2 = []) :
    expandAll ctx fresh code = (code, fresh, []) := by
  induction code with
  | nil => rfl
  | cons i rest ih =>
    rw [expandAll] at none ⊢
    split at none
    · simp only at none ⊢
      rw [ih none]
    · cases none

end Unravel.Inline
