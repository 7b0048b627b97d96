import Unravel.Proofs.Fold.Progress
import Unravel.Proofs.Inline.Pending

/-!
Schedules converge. The work left in a graph is a pair of numbers: the expansions that its calls
stand for, and the instructions that fold together with the blocks. Expanding a call brings in code
but takes one off the first number. Whatever else changes a graph takes from the second and adds
nothing to the first. So rounds come to one that changes nothing, and after it there is nothing
left to change: a step that tells of no change has made none.
-/
namespace Unravel
variable {ctx : PassContext} {g : Graph} {id : BlockId} {b : Block}

def Graph.work (ctx : PassContext) (g : Graph) : Nat ×ₗ Nat :=
  toLex (g.weight (Inline.pendingAt ctx), g.weight Instr.foldable + g.layout.length)

theorem Graph.work_lt {g g' : Graph}
    (calls : g'.weight (Inline.pendingAt ctx) ≤ g.weight (Inline.pendingAt ctx))
    (rest : g'.weight Instr.foldable + g'.layout.length <
      g.weight Instr.foldable + g.layout.length) : g'.work ctx < g.work ctx :=
  Prod.Lex.toLex_lt_toLex'.mpr ⟨calls, fun _ => rest⟩

/-- A step from a graph went well and told whether it changed the graph. If it did not, nothing was
    recorded either; if it did, less work is left. -/
def PassRun.Advances (ctx : PassContext) (g : Graph) (run : PassRun) : Prop :=
  run.graph.Workable ∧
    (run = ⟨g, [], .ok false⟩ ∨ run.result = .ok true ∧ run.graph.work ctx < g.work ctx)

namespace PassRun.Advances
variable {first : PassRun} {next : Graph → PassRun}

theorem fine (advances : first.Advances ctx g) : first.Fine Graph.Workable := by
  obtain ⟨workable, rfl | ⟨changed, -⟩⟩ := advances
  · exact ⟨⟨false, rfl⟩, workable⟩
  · exact ⟨⟨true, changed⟩, workable⟩

theorem andThen (began : first.Advances ctx g)
    (goes : first.graph.Workable → (next first.graph).Advances ctx first.graph) :
    (first.andThen next).Advances ctx g := by
  obtain ⟨workable, same | ⟨changed, less⟩⟩ := began
  · subst same
    obtain ⟨workable', same | ⟨changed, less⟩⟩ := goes workable
    · simp only [PassRun.andThen, same]
      exact ⟨workable, .inl rfl⟩
    · simp only [PassRun.andThen, changed]
      exact ⟨workable', .inr ⟨rfl, less⟩⟩
  · simp only [PassRun.andThen, changed]
    obtain ⟨workable', same | ⟨changed, less'⟩⟩ := goes workable
    · simp only [same]
      exact ⟨workable, .inr ⟨rfl, less⟩⟩
    · simp only [changed]
      exact ⟨workable', .inr ⟨rfl, less'.trans less⟩⟩

theorem andThen_idle (began : first.Advances ctx g)
    (goes : first.graph.Workable → (next first.graph).Advances ctx first.graph)
    (idle : (first.andThen next).result = .ok false) :
    first = ⟨g, [], .ok false⟩ ∧ next g = ⟨g, [], .ok false⟩ := by
  obtain ⟨workable, rfl | ⟨changed, -⟩⟩ := began
  · obtain ⟨-, same | ⟨changed, -⟩⟩ := goes workable
    · exact ⟨rfl, same⟩
    · simp only [PassRun.andThen, changed] at idle
      cases idle
  · obtain ⟨more, result⟩ := (goes workable).fine.1
    simp only [PassRun.andThen, changed, result] at idle
    cases idle

end PassRun.Advances

namespace Inline

theorem inlineBlock_advances (workable : g.Workable) (live : g.block? id = some b) :
    (inlineBlock ctx g id b).Advances ctx g := by
  refine ⟨inlineBlock_workable workable live, ?_⟩
  by_cases idle : (expandAll ctx g.nextInstr b.instrs).2.2 = []
  · left
    rw [inlineBlock, expandAll_unchanged idle]
    dsimp only
    rw [Graph.modify_same live rfl]
    rfl
  · right
    have layout : (inlineBlock ctx g id b).graph.layout = g.layout := rfl
    have moved := Graph.weight_exchange (w := pendingAt ctx) workable.laid live layout
      (inlineBlock_block? ctx live)
    have counted := weigh_expandAll ctx g.nextInstr b.instrs
    have some_ := List.length_pos_iff.mpr idle
    refine ⟨by simp [inlineBlock, idle], Prod.Lex.toLex_lt_toLex.mpr (.inl ?_)⟩
    change _ + weigh _ b.instrs = _ + weigh _ (expandAll ctx g.nextInstr b.instrs).1 at moved
    dsimp only
    omega

theorem pass_advances (workable : g.Workable) (round : Nat) :
    (pass.run round ctx g).Advances ctx g := by
  have all : ∀ ids, ∀ {g : Graph}, g.Workable → (runAll ctx ids g).Advances ctx g := by
    intro ids
    induction ids with
    | nil => exact fun workable => ⟨workable, .inl rfl⟩
    | cons id rest ih =>
      intro g workable
      rw [runAll]
      split
      · exact ih workable
      · rename_i b live
        exact (inlineBlock_advances workable live).andThen ih
  exact all g.layout workable

end Inline

namespace Fold

theorem foldBlock_advances (ctx : PassContext) (workable : g.Workable)
    (live : g.block? id = some b) (pinned : List Nat) (extra : Bool) :
    ∃ g' loaded decided, foldBlock pinned extra g id b = (g', .ok (loaded, decided)) ∧
      g'.Workable ∧ ((loaded = 0 ∧ decided = false ∧ g' = g) ∨
        (loaded != 0 || decided) = true ∧ g'.work ctx < g.work ctx) := by
  have folded := foldBlock_workable workable live pinned extra
  obtain ⟨laid, tight, forked⟩ := workable
  obtain ⟨g', ⟨loaded, decided⟩, done, -, -⟩ :=
    foldBlock_done tight live (forked live) pinned extra
  rcases ran : simulate pinned extra b 0 b.instrs {} with ⟨final, decision⟩
  rw [done] at folded
  refine ⟨g', loaded, decided, done, folded, ?_⟩
  · cases counted : (loaded != 0 || decided) with
    | false =>
      obtain ⟨rfl, rfl⟩ : loaded = 0 ∧ decided = false := by simpa using counted
      exact .inl ⟨rfl, rfl, foldBlock_idle live done⟩
    | true =>
      have light : ∀ i : Instr, i.Inert → Inline.pendingAt ctx i = 0 :=
        fun i inert => Inline.pendingAt_eq_zero inert.2
      have calls := weight_foldBlock light laid live done
      have less := foldable_foldBlock laid live done counted
      have layout := (foldBlock_counts ran done).2
      exact .inr ⟨rfl, Graph.work_lt calls (by rw [layout]; omega)⟩

theorem runOn_advances (workable : g.Workable) (pinned : List Nat) (id : BlockId) :
    (runOn ctx pinned g id).Advances ctx g := by
  cases live : g.block? id with
  | none =>
    simp only [runOn, live]
    exact ⟨workable, .inl rfl⟩
  | some b =>
    obtain ⟨g', loaded, decided, done, workable', same | ⟨counted, less⟩⟩ :=
      foldBlock_advances ctx workable live pinned ctx.config.foldExtra
    · obtain ⟨rfl, rfl, rfl⟩ := same
      simp only [runOn, live, done]
      exact ⟨workable', .inl rfl⟩
    · simp only [runOn, live, done, counted]
      exact ⟨workable', .inr ⟨rfl, less⟩⟩

theorem pass_advances (workable : g.Workable) (round : Nat) :
    (pass.run round ctx g).Advances ctx g := by
  have all : ∀ pinned ids, ∀ {g : Graph}, g.Workable →
      (runAll ctx pinned ids g).Advances ctx g := by
    intro pinned ids
    induction ids with
    | nil => exact fun workable => ⟨workable, .inl rfl⟩
    | cons id rest ih =>
      intro g workable
      exact (runOn_advances workable pinned id).andThen ih
  exact all (pinnedLocals g) g.layout workable

end Fold

namespace Graph

theorem Workable.removeDead {g' : Graph} {n : Nat} (workable : g.Workable)
    (done : g.removeDead = .ok (n, g')) : g'.Workable := by
  rcases removeDead_ok done with ⟨-, -, rfl⟩ | ⟨-, done⟩
  · exact workable
  · exact workable.remove done

theorem Workable.merge (workable : g.Workable) : g.merge.2.Workable :=
  mergeUpTo_keeps (fun workable j => workable.joined j) g.layout.length workable

end Graph

namespace Schedule
variable {passes : List Pass} {round : Nat}

theorem normalize_cases (ctx : PassContext) (workable : g.Workable) :
    (normalize ctx g = ⟨g, [], .ok false⟩ ∧ g.unreachable = [] ∧ g.mergeOnce? = none) ∨
      (normalize ctx g).result = .ok true ∧ (normalize ctx g).graph.work ctx < g.work ctx := by
  obtain ⟨removed, live, done⟩ := workable.laid.exists_removeDead
  have laid := (workable.removeDead done).laid
  have calls := (Graph.weight_merge (w := Inline.pendingAt ctx) laid).trans
    (Graph.weight_removeDead done)
  have folds := (Graph.weight_merge (w := Instr.foldable) laid).trans (Graph.weight_removeDead done)
  have fewer := Graph.length_merge laid
  simp only [normalize, done]
  rcases Graph.removeDead_cases workable.laid done with ⟨rfl, rfl, reached⟩ | ⟨counted, less⟩
  · by_cases idle : live.merge.1 = 0
    · have none := Graph.merge_idle laid idle
      simp only [Graph.merge_of_none none]
      exact .inl ⟨by simp, reached, none⟩
    · exact .inr ⟨by simp [idle], Graph.work_lt calls (by omega)⟩
  · exact .inr ⟨by simp [counted], Graph.work_lt calls (by omega)⟩

theorem normalize_advances (workable : g.Workable) : (normalize ctx g).Advances ctx g := by
  refine ⟨?_, (normalize_cases ctx workable).imp And.left id⟩
  obtain ⟨removed, live, done⟩ := workable.laid.exists_removeDead
  simp only [normalize, done]
  exact (workable.removeDead done).merge

structure Steady (ctx : PassContext) (p : Pass) : Prop where
  advances : ∀ {g : Graph}, g.Workable → ∀ round, (p.run round ctx g).Advances ctx g
  alike : ∀ g round other, p.run round ctx g = p.run other ctx g

theorem steady_ofConfig (c : Config) (ctx : PassContext) :
    ∀ p ∈ (ofConfig c).passes, Steady ctx p := by
  intro p inside
  rcases mem_passes_ofConfig inside with rfl | rfl
  · exact ⟨Inline.pass_advances, fun _ _ _ => rfl⟩
  · exact ⟨Fold.pass_advances, fun _ _ _ => rfl⟩

theorem runPasses_advances (steady : ∀ p ∈ passes, Steady ctx p) (round : Nat)
    (workable : g.Workable) : (runPasses round ctx passes g).Advances ctx g := by
  induction passes generalizing g with
  | nil => exact ⟨workable, .inl rfl⟩
  | cons p rest ih =>
    refine ((steady p List.mem_cons_self).advances workable round).andThen fun workable => ?_
    exact ih (fun q inside => steady q (List.mem_cons_of_mem p inside)) workable

theorem runRound_advances (steady : ∀ p ∈ passes, Steady ctx p) (round : Nat)
    (workable : g.Workable) : (runRound passes round ctx g).Advances ctx g :=
  (runPasses_advances steady round workable).andThen normalize_advances

theorem runPasses_idle (steady : ∀ p ∈ passes, Steady ctx p) (workable : g.Workable)
    (idle : (runPasses round ctx passes g).result = .ok false) :
    ∀ p ∈ passes, p.run round ctx g = ⟨g, [], .ok false⟩ := by
  induction passes with
  | nil => simp
  | cons p rest ih =>
    have steady' : ∀ q ∈ rest, Steady ctx q :=
      fun q inside => steady q (List.mem_cons_of_mem p inside)
    obtain ⟨same, after⟩ := ((steady p List.mem_cons_self).advances workable round).andThen_idle
      (runPasses_advances steady' round) idle
    rw [List.forall_mem_cons]
    exact ⟨same, ih steady' (by rw [after])⟩

/-- Nothing is left to do: no pass changes the graph, control comes to every block, and no block can
    be joined to another. -/
structure Settled (passes : List Pass) (ctx : PassContext) (g : Graph) : Prop where
  passes : ∀ p ∈ passes, ∀ round, p.run round ctx g = ⟨g, [], .ok false⟩
  reached : g.unreachable = []
  joined : g.mergeOnce? = none

theorem settled_of_idle (steady : ∀ p ∈ passes, Steady ctx p) (workable : g.Workable)
    (idle : (runRound passes round ctx g).result = .ok false) : Settled passes ctx g := by
  obtain ⟨before, after⟩ :=
    (runPasses_advances steady round workable).andThen_idle normalize_advances idle
  have same := runPasses_idle steady workable (by rw [before])
  rcases normalize_cases ctx workable with ⟨-, reached, joined⟩ | ⟨changed, -⟩
  · refine ⟨fun p inside other => ?_, reached, joined⟩
    rw [(steady p inside).alike g other round]
    exact same p inside
  · rw [after] at changed
    cases changed

namespace Settled

theorem runPasses (settled : Settled passes ctx g) (round : Nat) :
    Schedule.runPasses round ctx passes g = ⟨g, [], .ok false⟩ := by
  have same := settled.passes
  clear settled
  induction passes with
  | nil => rfl
  | cons p rest ih =>
    rw [List.forall_mem_cons] at same
    simp only [Schedule.runPasses, PassRun.andThen, same.1 round, ih same.2]
    rfl

theorem normalize (settled : Settled passes ctx g) :
    Schedule.normalize ctx g = ⟨g, [], .ok false⟩ := by
  have live : g.removeDead = .ok (0, g) := by simp [Graph.removeDead, settled.reached]
  simp [Schedule.normalize, live, Graph.merge_of_none settled.joined]

theorem runRound (settled : Settled passes ctx g) (round : Nat) :
    Schedule.runRound passes round ctx g = ⟨g, [], .ok false⟩ := by
  simp only [Schedule.runRound, PassRun.andThen, settled.runPasses round, settled.normalize]
  rfl

theorem runRounds (settled : Settled passes ctx g) {limit : Nat} (some_ : 0 < limit)
    (round : Nat) : Schedule.runRounds passes ctx limit round g = ⟨g, [], .ok (round + 1)⟩ := by
  obtain ⟨n, rfl⟩ := Nat.exists_eq_add_one.mpr some_
  simp only [Schedule.runRounds, settled.runRound round]

end Settled

theorem settled_of_early (steady : ∀ p ∈ passes, Steady ctx p) (workable : g.Workable)
    {limit count : Nat} (ran : (runRounds passes ctx limit round g).result = .ok count)
    (early : count < round + limit) :
    Settled passes ctx (runRounds passes ctx limit round g).graph := by
  induction limit generalizing round g with
  | zero =>
    cases ran
    omega
  | succ n ih =>
    obtain ⟨workable', same | ⟨changed, -⟩⟩ := runRound_advances steady round workable
    · have settled := settled_of_idle steady workable (congrArg PassRun.result same)
      rw [settled.runRounds n.succ_pos round]
      exact settled
    · simp only [runRounds, changed] at ran ⊢
      exact ih workable' ran (by omega)

theorem exists_bound (steady : ∀ p ∈ passes, Steady ctx p) (workable : g.Workable) (round : Nat) :
    ∃ bound, ∀ limit ≥ bound,
      (runRounds passes ctx limit round g).graph = (runRounds passes ctx bound round g).graph ∧
      ∃ count < round + limit, (runRounds passes ctx limit round g).result = .ok count := by
  induction left : g.work ctx using WellFoundedLT.induction generalizing g round with
  | ind work ih =>
    subst left
    obtain ⟨workable', same | ⟨changed, less⟩⟩ := runRound_advances steady round workable
    · -- The count is below the limit only if the limit leaves room for another round.
      have settled := settled_of_idle steady workable (congrArg PassRun.result same)
      refine ⟨2, fun limit enough => ?_⟩
      rw [settled.runRounds (by omega) round, settled.runRounds (by omega) round]
      exact ⟨rfl, round + 1, by omega, rfl⟩
    · obtain ⟨bound, after⟩ := ih _ less workable' (round + 1) rfl
      refine ⟨bound + 1, fun limit enough => ?_⟩
      obtain ⟨n, rfl⟩ : ∃ n, limit = n + 1 := ⟨limit - 1, by omega⟩
      obtain ⟨graph, count, early, result⟩ := after n (by omega)
      simp only [runRounds, changed]
      exact ⟨graph, count, by omega, result⟩

end Schedule

def PassContext.limited (ctx : PassContext) (limit : Nat) : PassContext :=
  { ctx with config := { ctx.config with maxIterations := limit } }

namespace Inline

theorem splice?_limited (limit fuel : Nat) (chain : List Token) (t : Token) :
    splice? (ctx.limited limit) fuel chain t = splice? ctx fuel chain t := by
  induction fuel generalizing chain t with
  | zero => rfl
  | succ fuel ih =>
    simp only [splice?, ih]
    rfl

theorem expandAll_limited (limit : Nat) (fresh : InstrId) (code : List Instr) :
    expandAll (ctx.limited limit) fresh code = expandAll ctx fresh code := by
  induction code generalizing fresh with
  | nil => rfl
  | cons i rest ih => simp only [expandAll, splice?_limited, ih]

theorem runAll_limited (limit : Nat) (ids : List BlockId) (g : Graph) :
    runAll (ctx.limited limit) ids g = runAll ctx ids g := by
  induction ids generalizing g with
  | nil => rfl
  | cons id rest ih =>
    have rest : runAll (ctx.limited limit) rest = runAll ctx rest := funext ih
    simp only [runAll, inlineBlock, expandAll_limited, rest]
    rfl

end Inline

theorem Fold.runAll_limited (limit : Nat) (pinned : List Nat) (ids : List BlockId) (g : Graph) :
    runAll (ctx.limited limit) pinned ids g = runAll ctx pinned ids g := by
  induction ids generalizing g with
  | nil => rfl
  | cons id rest ih =>
    have rest : runAll (ctx.limited limit) pinned rest = runAll ctx pinned rest := funext ih
    simp only [runAll, rest]
    rfl

namespace Schedule

/-- The schedule of a configuration, with a limit of its own in place of the configured one. -/
def runWithin (c : Config) (ctx : PassContext) (limit : Nat) (g : Graph) : ScheduleRun :=
  (ofConfig { c with maxIterations := limit }).run (ctx.limited limit) g

theorem runPasses_congr {passes : List Pass} {ctx ctx' : PassContext} {round : Nat}
    (same : ∀ p ∈ passes, p.run round ctx' = p.run round ctx) :
    runPasses round ctx' passes = runPasses round ctx passes := by
  induction passes with
  | nil => rfl
  | cons p rest ih =>
    rw [List.forall_mem_cons] at same
    funext g
    simp only [runPasses, same.1, ih same.2]

theorem runRounds_congr {passes : List Pass} {ctx ctx' : PassContext}
    (same : ∀ round, runRound passes round ctx' = runRound passes round ctx)
    (rounds round : Nat) (g : Graph) :
    runRounds passes ctx' rounds round g = runRounds passes ctx rounds round g := by
  induction rounds generalizing round g with
  | zero => rfl
  | succ rounds ih => simp only [runRounds, same, ih]

theorem runWithin_eq (c : Config) (ctx : PassContext) (limit : Nat) (g : Graph) :
    runWithin c ctx limit g = runRounds (ofConfig c).passes ctx limit 0 g := by
  change runRounds (ofConfig c).passes (ctx.limited limit) limit 0 g = _
  refine runRounds_congr (fun round => ?_) limit 0 g
  have each : ∀ p ∈ (ofConfig c).passes, p.run round (ctx.limited limit) = p.run round ctx := by
    intro p inside
    rcases mem_passes_ofConfig inside with rfl | rfl
    · exact funext fun g => Inline.runAll_limited limit g.layout g
    · exact funext fun g => Fold.runAll_limited limit (Fold.pinnedLocals g) g.layout g
  funext g
  rw [runRound, runPasses_congr each]
  rfl

/-- From the graph of a body a schedule never fails, whatever its limit. Beyond some bound the limit
    makes no difference and is not reached. Wherever it is not reached nothing is left to do, and
    the schedule does nothing when it is run again. -/
theorem runWithin_converges {body : Body} {g : Graph} (cut : body.toGraph = .ok g) (c : Config)
    (ctx : PassContext) :
    (∀ limit, ∃ count, (runWithin c ctx limit g).result = .ok count) ∧
    (∃ bound, ∀ limit ≥ bound,
      (runWithin c ctx limit g).graph = (runWithin c ctx bound g).graph ∧
      ∃ count < limit, (runWithin c ctx limit g).result = .ok count) ∧
    ∀ limit count, (runWithin c ctx limit g).result = .ok count → count < limit →
      Settled (ofConfig c).passes ctx (runWithin c ctx limit g).graph ∧
      ∀ again > 0, runWithin c ctx again (runWithin c ctx limit g).graph =
        ⟨(runWithin c ctx limit g).graph, [], .ok 1⟩ := by
  have workable : g.Workable :=
    ⟨Body.toGraph_laid cut, Body.toGraph_tight cut, Body.toGraph_forked cut⟩
  have steady := steady_ofConfig c ctx
  simp only [runWithin_eq]
  refine ⟨fun limit => ?_, ?_, fun limit count ran early => ?_⟩
  · have each : ∀ p ∈ (ofConfig c).passes, ∀ round {g : Graph}, g.Workable →
        (p.run round ctx g).Fine Graph.Workable :=
      fun p inside round _ workable => ((steady p inside).advances workable round).fine
    have cleans : ∀ {g : Graph}, g.Workable → (normalize ctx g).Fine Graph.Workable :=
      fun workable => (normalize_advances workable).fine
    exact (runRounds_fine each cleans limit 0 workable).1
  · obtain ⟨bound, after⟩ := exists_bound steady workable 0
    refine ⟨bound, fun limit enough => ?_⟩
    obtain ⟨graph, count, early, result⟩ := after limit enough
    exact ⟨graph, count, by omega, result⟩
  · have settled := settled_of_early steady workable ran (by omega)
    exact ⟨settled, fun again some_ => settled.runRounds some_ 0⟩

/-- A test on what two forwarders make of constants. One calls the other, so that it takes a round
    to expand each. -/
def forwardedTest : Body where
  instrs := [⟨0, .ldcI4S, .immediate (.int8 5#8), 0⟩, ⟨1, .ldcI4S, .immediate (.int8 3#8), 2⟩,
    ⟨2, .call, .method Inline.masker.ref, 4⟩, ⟨3, .branch .isTrue .long, .target 5, 9⟩,
    ⟨4, .ret, .none, 14⟩, ⟨5, .ret, .none, 15⟩]
  nextId := 6

theorem forwardedTest_converges :
    ∃ g, forwardedTest.toGraph = .ok g ∧
      (runWithin {} Inline.maskedContext 20 g).result = .ok 3 ∧
      Settled [Inline.pass, Fold.pass] Inline.maskedContext
        (runWithin {} Inline.maskedContext 20 g).graph ∧
      ∀ again > 0,
        runWithin {} Inline.maskedContext again (runWithin {} Inline.maskedContext 20 g).graph =
          ⟨(runWithin {} Inline.maskedContext 20 g).graph, [], .ok 1⟩ := by
  have cut : forwardedTest.toGraph = .ok _ := rfl
  refine ⟨_, cut, rfl, ?_⟩
  exact (runWithin_converges cut {} Inline.maskedContext).2.2 20 3 rfl (by decide)

end Schedule
end Unravel
