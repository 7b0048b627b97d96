import Unravel.Proofs.Flow.Reshaping
import Unravel.Proofs.Graph.StoredEdges
import Unravel.Proofs.Graph.Weight
import Unravel.Proofs.Pass.Recording

/-!
Events tell of all that a schedule takes away. Passes change code and edges alone; blocks and
regions go only where dead blocks are removed and chains are merged, and both are recorded one by
one. After a round control comes to every block that is left, so nothing is left to be removed.
-/
namespace Unravel

structure Tally where
  blocks : Nat
  handlers : Nat

/-- Events tell of the blocks and the handlers that went. -/
structure Journal.Accounts (events : Journal) (before after : Tally) : Prop where
  blocks : before.blocks =
    after.blocks + events.count .blockRemoved + events.count .blocksMerged
  handlers : before.handlers = after.handlers + events.count .handlerRemoved

/-- An event tells neither of a block nor of a handler that went. -/
structure Event.Inner (e : Event) : Prop where
  removed : e.kind ≠ .blockRemoved
  merged : e.kind ≠ .blocksMerged
  handler : e.kind ≠ .handlerRemoved

theorem Event.inner_of_kind {e : Event} {kind : EventKind} (same : e.kind = kind)
    (removed : kind ≠ .blockRemoved) (merged : kind ≠ .blocksMerged)
    (handler : kind ≠ .handlerRemoved) : e.Inner := by
  subst same
  exact ⟨removed, merged, handler⟩

namespace Journal
variable {first second : Journal} {kind : EventKind} {before between after : Tally}

theorem count_append (first second : Journal) (kind : EventKind) :
    Journal.count (first ++ second) kind = first.count kind + second.count kind :=
  List.countP_append

theorem count_replicate (n : Nat) (e : Event) (kind : EventKind) :
    Journal.count (List.replicate n e) kind = if e.kind = kind then n else 0 := by
  simp [count, List.countP_replicate]

theorem count_eq_zero {events : Journal} (none : ∀ e ∈ events, e.kind ≠ kind) :
    events.count kind = 0 := by
  rw [count, List.countP_eq_zero]
  intro e inside
  simpa using none e inside

theorem Accounts.refl (t : Tally) : Journal.Accounts [] t t := ⟨rfl, rfl⟩

theorem Accounts.trans (one : first.Accounts before between)
    (other : second.Accounts between after) :
    Journal.Accounts (first ++ second) before after := by
  obtain ⟨blocks, handlers⟩ := one
  obtain ⟨blocks', handlers'⟩ := other
  refine ⟨?_, ?_⟩
  · rw [count_append, count_append]
    omega
  · rw [count_append]
    omega

theorem accounts_inner {events : Journal} (inner : ∀ e ∈ events, e.Inner) (t : Tally) :
    events.Accounts t t := by
  have removed := count_eq_zero fun e inside => (inner e inside).removed
  have merged := count_eq_zero fun e inside => (inner e inside).merged
  have handler := count_eq_zero fun e inside => (inner e inside).handler
  exact ⟨by rw [removed, merged]; rfl, by rw [handler]; rfl⟩

end Journal

namespace Graph
variable {g g' : Graph} {pred id x : BlockId} {first second joint : Block} {front : List Instr}
variable {n : Nat}

def tally (g : Graph) : Tally := ⟨g.blocks.length, g.regions.length⟩

theorem Laid.tally_eq (l : g.Laid) : g.tally = ⟨g.layout.length, g.regions.length⟩ := by
  have all : g.blocks.length = g.layout.length :=
    List.filterMap_length_eq_length.mpr fun id listed => (l.listed id).mp listed
  rw [tally, all]

theorem SameFrame.tally_eq (frame : g.SameFrame g') (l : g.Laid) (l' : g'.Laid) :
    g'.tally = g.tally := by
  rw [l.tally_eq, l'.tally_eq, frame.layout, frame.regions]

theorem length_regions_removeDead (done : g.removeDead = .ok (n, g')) :
    g'.regions.length ≤ g.regions.length := by
  rcases removeDead_ok done with ⟨-, -, rfl⟩ | ⟨-, done⟩
  · exact Nat.le_refl _
  · obtain ⟨-, -, rfl⟩ := remove_ok done
    rw [List.length_map]
    exact List.length_filter_le _ _

theorem length_regions_merge (g : Graph) : g.merge.2.regions.length = g.regions.length := by
  refine mergeUpTo_keeps (P := fun h => h.regions.length = g.regions.length) ?_ _ rfl
  intro h pred id first second same j
  exact (List.length_map _).trans same

def Alive (g : Graph) : Prop := ∀ id, g.contains id = true → g.Reached id

theorem leadsTo_iff {s : BlockId} : s ∈ g.leadsTo id ↔
    (∃ b kind, g.block? id = some b ∧ (kind, s) ∈ b.exits) ∨ g.Catches id s := by
  have exits : ∀ b : Block, s ∈ b.successors ↔ ∃ kind, (kind, s) ∈ b.exits := by
    intro b
    rw [← Block.map_target_edges]
    simp [Block.exits]
  simp only [mem_leadsTo, exits, Catches, mem_entries]
  refine or_congr_left ⟨?_, ?_⟩
  · rintro ⟨b, live, kind, leads⟩
    exact ⟨b, kind, live, leads⟩
  · rintro ⟨b, kind, live, leads⟩
    exact ⟨b, live, kind, leads⟩

theorem Chained.reached (ch : Chained g g' pred id first second joint front)
    (reached : g.Reached x) : g'.Reached (if x = id then pred else x) := by
  induction reached with
  | entry =>
    rw [if_neg ch.notEntry.symm, ← ch.entry]
    exact .entry
  | @step a t _ leads live ih =>
    rw [leadsTo_iff] at leads
    by_cases here : t = id
    · subst here
      rcases leads with ⟨b, kind, found, exits⟩ | caught
      · rw [ch.unled found exits, if_neg ch.apart] at ih
        rwa [if_pos rfl]
      · exact absurd caught (ch.notCaught a)
    · rw [if_neg here]
      have live' : g'.contains t = true := by
        by_cases first_ : t = pred
        · rw [first_, contains, ch.joined]
          rfl
        · rwa [contains, ch.others t first_ here]
      refine ih.step (leadsTo_iff.mpr ?_) live'
      rcases leads with ⟨b, kind, found, exits⟩ | caught
      · by_cases second_ : a = id
        · subst second_
          cases found.symm.trans ch.behind
          rw [if_pos rfl]
          exact .inl ⟨joint, kind, ch.joined, by rwa [ch.exits]⟩
        · rw [if_neg second_]
          by_cases first_ : a = pred
          · subst first_
            cases found.symm.trans ch.before
            rw [ch.onward, List.mem_singleton] at exits
            cases exits
            exact absurd rfl here
          · exact .inl ⟨b, kind, by rwa [ch.others a first_ second_], exits⟩
      · by_cases second_ : a = id
        · subst second_
          rw [if_pos rfl]
          exact .inr ((ch.catches t ch.apart).mpr ((ch.together t).mp caught))
        · rw [if_neg second_]
          exact .inr ((ch.catches t second_).mpr caught)

theorem Alive.joined (alive : g.Alive) (l : g.Laid) (j : Joinable g pred id first second) :
    ((g.drop id).modify pred fun b => join b second).Alive := by
  intro x live
  obtain ⟨was, stays⟩ := (contains_joined j x).mp live
  have reached := (chained_of_joinable l j).reached (alive x was)
  rwa [if_neg stays] at reached

theorem Alive.merge (alive : g.Alive) (l : g.Laid) : g.merge.2.Alive := by
  refine (mergeUpTo_keeps (P := fun h => h.Laid ∧ h.Alive) ?_ g.layout.length ⟨l, alive⟩).2
  rintro h pred id first second ⟨l, alive⟩ j
  exact ⟨l.joined j, alive.joined l j⟩

theorem Alive.removeDead (alive : g.Alive) (l : g.Laid) : g.removeDead = .ok (0, g) := by
  have none : g.unreachable = [] :=
    (unreachable_eq_nil l).mpr fun id listed => alive id ((l.listed id).mp listed)
  rw [Graph.removeDead, none]
  rfl

end Graph

/-- A run tells of the blocks and the handlers that it took away. -/
structure PassRun.Accounted (g : Graph) (run : PassRun) : Prop where
  laid : run.graph.Laid
  accounts : run.events.Accounts g.tally run.graph.tally

theorem PassRun.Accounted.andThen {g : Graph} {first : PassRun} {next : Graph → PassRun}
    (one : first.Accounted g)
    (other : first.graph.Laid → (next first.graph).Accounted first.graph) :
    (first.andThen next).Accounted g := by
  unfold PassRun.andThen
  split
  · exact one
  · exact ⟨(other one.laid).laid, one.accounts.trans (other one.laid).accounts⟩

theorem PassRun.accounted_of_frame {g : Graph} {run : PassRun} (l : g.Laid) (l' : run.graph.Laid)
    (frame : g.SameFrame run.graph) (inner : ∀ e ∈ run.events, e.Inner) : run.Accounted g := by
  refine ⟨l', ?_⟩
  rw [frame.tally_eq l l']
  exact Journal.accounts_inner inner g.tally

theorem Inline.pass_accounted {g : Graph} (l : g.Laid) (round : Nat) (ctx : PassContext) :
    (pass.run round ctx g).Accounted g := by
  refine PassRun.accounted_of_frame l (pass_laid l round ctx) (pass_frame g round ctx) ?_
  intro e inside
  exact Event.inner_of_kind (pass_events round ctx g e inside).2 nofun nofun nofun

theorem Fold.pass_accounted {g : Graph} (l : g.Laid) (round : Nat) (ctx : PassContext) :
    (pass.run round ctx g).Accounted g := by
  refine PassRun.accounted_of_frame l (pass_laid l round ctx) (pass_frame g round ctx) ?_
  intro e inside
  rcases (pass_events round ctx g e inside).2 with kind | kind
  · exact Event.inner_of_kind kind nofun nofun nofun
  · exact Event.inner_of_kind kind nofun nofun nofun

namespace Schedule
variable {g : Graph} {ctx : PassContext} {passes : List Pass}

theorem normalize_accounted (l : g.Laid) (ctx : PassContext) : (normalize ctx g).Accounted g := by
  obtain ⟨removed, live, done⟩ := l.exists_removeDead
  have laid := l.removeDead done
  have dead := Graph.length_removeDead l done
  have chains := Graph.length_merge laid
  have fewer := Graph.length_regions_removeDead done
  have same := live.length_regions_merge
  simp only [normalize, done]
  refine ⟨laid.merge, ?_⟩
  rw [l.tally_eq, laid.merge.tally_eq]
  refine ⟨?_, ?_⟩
  · simp only [Journal.count_append, Journal.count_replicate]
    simp
    omega
  · simp only [Journal.count_append, Journal.count_replicate]
    simp
    omega

theorem normalize_alive (l : g.Laid) (guarded : g.Guarded) (ctx : PassContext) :
    (normalize ctx g).graph.Alive := by
  obtain ⟨removed, live, done⟩ := l.exists_removeDead
  have alive : live.Alive := fun id => Graph.reached_removeDead l guarded done
  simp only [normalize, done]
  exact alive.merge (l.removeDead done)

theorem runPasses_accounted
    (each : ∀ p ∈ passes, ∀ round {g : Graph}, g.Laid → (p.run round ctx g).Accounted g)
    (round : Nat) (l : g.Laid) : (runPasses round ctx passes g).Accounted g := by
  induction passes generalizing g with
  | nil => exact ⟨l, .refl _⟩
  | cons p rest ih =>
    refine (each p List.mem_cons_self round l).andThen fun l => ?_
    exact ih (fun q inside => each q (List.mem_cons_of_mem p inside)) l

theorem runRounds_accounts
    (each : ∀ p ∈ passes, ∀ round {g : Graph}, g.Laid → (p.run round ctx g).Accounted g)
    (rounds round : Nat) (l : g.Laid) :
    (runRounds passes ctx rounds round g).graph.Laid ∧
      (runRounds passes ctx rounds round g).events.Accounts g.tally
        (runRounds passes ctx rounds round g).graph.tally := by
  induction rounds generalizing g round with
  | zero => exact ⟨l, .refl _⟩
  | succ rounds ih =>
    have once : (runRound passes round ctx g).Accounted g :=
      (runPasses_accounted each round l).andThen fun l => normalize_accounted l ctx
    rw [runRounds]
    split
    · exact ⟨once.laid, once.accounts⟩
    · exact ⟨once.laid, once.accounts⟩
    · obtain ⟨laid, accounts⟩ := ih (round + 1) once.laid
      exact ⟨laid, once.accounts.trans accounts⟩

theorem runRound_alive
    (each : ∀ p ∈ passes, ∀ round {g : Graph}, g.Laid ∧ g.Guarded →
      (p.run round ctx g).graph.Laid ∧ (p.run round ctx g).graph.Guarded)
    {round : Nat} {changed : Bool} (l : g.Laid) (guarded : g.Guarded)
    (ran : (runRound passes round ctx g).result = .ok changed) :
    (runRound passes round ctx g).graph.Alive := by
  obtain ⟨-, -, same⟩ := PassRun.andThen_ok ran
  obtain ⟨laid, guarded⟩ := runPasses_keeps each round ⟨l, guarded⟩
  rw [runRound, same]
  exact normalize_alive laid guarded ctx

theorem runRounds_alive
    (each : ∀ p ∈ passes, ∀ round {g : Graph}, g.Laid ∧ g.Guarded →
      (p.run round ctx g).graph.Laid ∧ (p.run round ctx g).graph.Guarded)
    {rounds round k : Nat} (l : g.Laid) (guarded : g.Guarded) (alive : rounds = 0 → g.Alive)
    (ran : (runRounds passes ctx rounds round g).result = .ok k) :
    (runRounds passes ctx rounds round g).graph.Alive := by
  induction rounds generalizing g round with
  | zero => exact alive rfl
  | succ rounds ih =>
    rw [runRounds] at ran ⊢
    split at ran
    · cases ran
    · rename_i once
      exact runRound_alive each l guarded once
    · rename_i once
      obtain ⟨laid, guarded'⟩ := runRound_keeps each
        (fun holds done => ⟨holds.1.removeDead done, holds.2.removeDead done⟩)
        (fun holds => ⟨holds.1.merge, holds.2.mergeUpTo _⟩) round ⟨l, guarded⟩
      exact ih laid guarded' (fun _ => runRound_alive each l guarded once) ran

theorem run_accounts (c : Config) (ctx : PassContext) (l : g.Laid) :
    ((ofConfig c).run ctx g).graph.Laid ∧
      ((ofConfig c).run ctx g).events.Accounts g.tally ((ofConfig c).run ctx g).graph.tally := by
  refine runRounds_accounts ?_ _ _ l
  intro p inside round g l
  rcases mem_passes_ofConfig inside with rfl | rfl
  · exact Inline.pass_accounted l round ctx
  · exact Fold.pass_accounted l round ctx

theorem run_alive {c : Config} {k : Nat} (ctx : PassContext) (l : g.Laid) (guarded : g.Guarded)
    (some_ : c.maxIterations ≠ 0) (ran : ((ofConfig c).run ctx g).result = .ok k) :
    ((ofConfig c).run ctx g).graph.Alive := by
  refine runRounds_alive ?_ l guarded (fun none => absurd none some_) ran
  rintro p inside round g ⟨l, guarded⟩
  rcases mem_passes_ofConfig inside with rfl | rfl
  · exact ⟨Inline.pass_laid l round ctx, guarded.inline round ctx⟩
  · exact ⟨Fold.pass_laid l round ctx, guarded.fold round ctx⟩

end Schedule
end Unravel
