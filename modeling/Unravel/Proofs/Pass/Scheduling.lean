import Unravel.Pass.Schedule
import Unravel.Proofs.Graph.Regions

namespace Unravel.Schedule
variable {P : Graph → Prop} {ctx : PassContext} {passes : List Pass} {g : Graph}

theorem runPasses_keeps (each : ∀ p ∈ passes, ∀ round {g}, P g → P (p.run round ctx g).graph)
    (round : Nat) (holds : P g) : P (runPasses round ctx passes g).graph := by
  induction passes generalizing g with
  | nil => exact holds
  | cons p rest ih =>
    refine PassRun.andThen_keeps (each p List.mem_cons_self round holds) fun holds => ?_
    exact ih (fun q inside => each q (List.mem_cons_of_mem p inside)) holds

theorem normalize_keeps
    (prunes : ∀ {g n live}, P g → g.removeDead = .ok (n, live) → P live)
    (merges : ∀ {g}, P g → P g.merge.2) (holds : P g) : P (normalize ctx g).graph := by
  unfold normalize
  split
  · exact holds
  · rename_i removed live done
    exact merges (prunes holds done)

theorem runRound_keeps (each : ∀ p ∈ passes, ∀ round {g}, P g → P (p.run round ctx g).graph)
    (prunes : ∀ {g n live}, P g → g.removeDead = .ok (n, live) → P live)
    (merges : ∀ {g}, P g → P g.merge.2) (round : Nat) (holds : P g) :
    P (runRound passes round ctx g).graph :=
  PassRun.andThen_keeps (runPasses_keeps each round holds) (normalize_keeps prunes merges)

theorem runRounds_keeps (each : ∀ p ∈ passes, ∀ round {g}, P g → P (p.run round ctx g).graph)
    (prunes : ∀ {g n live}, P g → g.removeDead = .ok (n, live) → P live)
    (merges : ∀ {g}, P g → P g.merge.2) (rounds round : Nat) (holds : P g) :
    P (runRounds passes ctx rounds round g).graph := by
  induction rounds generalizing g round with
  | zero => exact holds
  | succ rounds ih =>
    have once := runRound_keeps each prunes merges round holds
    rw [runRounds]
    split
    · exact once
    · exact once
    · exact ih (round + 1) once

theorem mem_passes_ofConfig {c : Config} {p : Pass} (inside : p ∈ (ofConfig c).passes) :
    p = Inline.pass ∨ p = Fold.pass := by
  simp only [ofConfig, List.mem_append] at inside
  rcases inside with inside | inside
  · split at inside
    · exact .inl (List.mem_singleton.mp inside)
    · cases inside
  · split at inside
    · exact .inr (List.mem_singleton.mp inside)
    · cases inside

/-- No round makes the id counter overflow. Only inlining takes ids, and it comes first. -/
def Fits (c : Config) (ctx : PassContext) : Nat → Nat → Graph → Prop
  | 0, _, _ => True
  | rounds + 1, round, g =>
    (c.inlining = true → InstrId.Room g.nextInstr (Inline.idsTaken ctx g g.layout)) ∧
      ((runRound (ofConfig c).passes round ctx g).result = .ok true →
        Fits c ctx rounds (round + 1) (runRound (ofConfig c).passes round ctx g).graph)

instance decidableFits (c : Config) (ctx : PassContext) :
    (rounds round : Nat) → (g : Graph) → Decidable (Fits c ctx rounds round g)
  | 0, _, _ => .isTrue trivial
  | rounds + 1, round, g =>
    have := decidableFits c ctx rounds (round + 1) (runRound (ofConfig c).passes round ctx g).graph
    inferInstanceAs (Decidable (_ ∧ _))

theorem runPasses_consistent {c : Config} (round : Nat) (consistent : g.Consistent)
    (room : c.inlining = true → InstrId.Room g.nextInstr (Inline.idsTaken ctx g g.layout)) :
    (runPasses round ctx (ofConfig c).passes g).graph.Consistent := by
  have folds : ∀ {g : Graph}, g.Consistent →
      (runPasses round ctx (if c.folding then [Fold.pass] else []) g).graph.Consistent := by
    intro g consistent
    refine runPasses_keeps ?_ round consistent
    intro p inside round g holds
    split at inside
    · rw [List.mem_singleton.mp inside]
      exact Fold.pass_consistent holds round ctx
    · cases inside
  unfold ofConfig
  dsimp only
  split
  · rename_i inlines
    exact PassRun.andThen_keeps (Inline.pass_consistent consistent round ctx (room inlines)) folds
  · exact folds consistent

theorem runRounds_consistent {c : Config} {rounds round : Nat} (consistent : g.Consistent)
    (fits : Fits c ctx rounds round g) :
    (runRounds (ofConfig c).passes ctx rounds round g).graph.Consistent := by
  induction rounds generalizing g round with
  | zero => exact consistent
  | succ rounds ih =>
    have once : (runRound (ofConfig c).passes round ctx g).graph.Consistent :=
      PassRun.andThen_keeps (runPasses_consistent round consistent fits.1)
        (normalize_keeps (fun holds done => holds.removeDead done) fun holds => holds.mergeUpTo _)
    rw [runRounds]
    split
    · exact once
    · exact once
    · rename_i more
      exact ih once (fits.2 more)

theorem run_consistent (c : Config) (ctx : PassContext) (consistent : g.Consistent)
    (fits : Fits c ctx c.maxIterations 0 g) : ((ofConfig c).run ctx g).graph.Consistent :=
  runRounds_consistent consistent fits

theorem run_guarded (c : Config) (ctx : PassContext) (guarded : g.Guarded) :
    ((ofConfig c).run ctx g).graph.Guarded := by
  refine runRounds_keeps ?_ (fun holds done => holds.removeDead done)
    (fun holds => holds.mergeUpTo _) _ _ guarded
  intro p inside round g holds
  rcases mem_passes_ofConfig inside with rfl | rfl
  · exact holds.inline round ctx
  · exact holds.fold round ctx

end Unravel.Schedule
