import Unravel.Proofs.Fold.Progress
import Unravel.Proofs.Fold.Refolding

/-!
A flag keeps folding from replacing computations that decide no branch. It does not change what is
decided: a run with the flag and one without it go through graphs whose blocks have the same edges
and the same verdicts. With the flag, a block changes only where its branch is decided.
-/
namespace Unravel

def PassContext.withFlags (ctx : PassContext) (flags : UInt32) : PassContext :=
  { ctx with config := { ctx.config with flags } }

theorem PassContext.foldExtra_set (ctx : PassContext) :
    (ctx.withFlags (ctx.config.flags ||| 2)).config.foldExtra = false := by
  have bit : (ctx.config.flags ||| 2) &&& 2 = 2 := by
    apply UInt32.eq_of_toBitVec_eq
    rw [UInt32.toBitVec_and, UInt32.toBitVec_or]
    ext n below
    rw [BitVec.getElem_and, BitVec.getElem_or]
    cases (2 : UInt32).toBitVec[n] <;> simp
  simp only [Config.foldExtra, withFlags, bit]
  rfl

namespace Fold
variable {pinned : List Nat} {extra extra' : Bool} {b b' : Block} {final final' : State}
  {decision : Option (Option BlockId)} {g g' : Graph} {id : BlockId} {ctx ctx' : PassContext}

def verdict (pinned : List Nat) (b : Block) : Option (Option BlockId) :=
  (simulate pinned true b 0 b.instrs {}).2

theorem verdict_eq (ran : simulate pinned extra b 0 b.instrs {} = (final, decision)) :
    verdict pinned b = decision := by
  have same : verdict pinned b = (simulate pinned extra b 0 b.instrs {}).2 :=
    simulate_decision (.refl {}) b b.instrs
  rw [same, ran]

theorem verdict_folded (ran : simulate pinned extra b 0 b.instrs {} = (final, decision))
    (first : Option InstrId) : verdict pinned (folded first final decision b) = none := by
  cases decision with
  | none =>
    have again : (simulate pinned true b 0 (foldCode final b).instrs {}).2 = none :=
      undecided_again ran
    have edges : simulate pinned true (foldCode final b) 0 (foldCode final b).instrs {} =
        simulate pinned true b 0 (foldCode final b).instrs {} := by
      refine simulate_edges ?_ ?_ _ {} <;> rfl
    exact (congrArg Prod.snd edges).trans again
  | some target =>
    cases again : verdict pinned (folded first final (some target) b) with
    | none => rfl
    | some target' =>
      obtain ⟨front, last, -, -, code, -⟩ := simulate_decides ran
      obtain ⟨front', last', s, d, made, decided, -⟩ := simulate_decides (Prod.ext rfl again)
      have folds := decide?_folds decided
      rw [instrs_folded first final (some target) code] at made
      obtain rfl := List.singleton_inj.mp (List.append_inj' made rfl).2
      cases target <;> cases folds

/-- Two blocks have the same edges, and the same is decided for both. -/
structure BlocksAkin (pinned : List Nat) (b b' : Block) : Prop where
  id : b.id = b'.id
  kind : b.kind = b'.kind
  targets : b.targets = b'.targets
  fall : b.fall = b'.fall
  verdict : verdict pinned b = verdict pinned b'

namespace BlocksAkin

theorem edges (akin : BlocksAkin pinned b b') : b.edges = b'.edges := by
  simp only [Block.edges, akin.id, akin.kind, akin.targets, akin.fall]

theorem folded (akin : BlocksAkin pinned b b')
    (ran : simulate pinned extra b 0 b.instrs {} = (final, decision))
    (ran' : simulate pinned extra' b' 0 b'.instrs {} = (final', decision))
    (first first' : Option InstrId) :
    BlocksAkin pinned (folded first final decision b) (folded first' final' decision b') where
  id := akin.id
  kind := by rw [kind_folded ran, kind_folded ran', akin.kind]
  targets := by
    have same := akin.targets
    cases decision <;> simp [Fold.folded, settle, same]
  fall := by
    have same := akin.fall
    rcases decision with _ | _ | _ <;> simp [Fold.folded, settle, same]
  verdict := by rw [verdict_folded ran, verdict_folded ran']

end BlocksAkin

structure GraphsAkin (pinned : List Nat) (g g' : Graph) : Prop where
  layout : g.layout = g'.layout
  blocks : ∀ id, Option.Rel (BlocksAkin pinned) (g.block? id) (g'.block? id)

namespace GraphsAkin

theorem refl (pinned : List Nat) (g : Graph) : GraphsAkin pinned g g where
  layout := rfl
  blocks id := by
    cases g.block? id with
    | none => exact .none
    | some b => exact .some ⟨rfl, rfl, rfl, rfl, rfl⟩

theorem block? (akin : GraphsAkin pinned g g') (id : BlockId) :
    (g.block? id = none ∧ g'.block? id = none) ∨
      ∃ b b', g.block? id = some b ∧ g'.block? id = some b' ∧ BlocksAkin pinned b b' := by
  have here := akin.blocks id
  revert here
  cases g.block? id <;> cases g'.block? id <;> intro here <;> cases here
  · exact .inl ⟨rfl, rfl⟩
  · rename_i b b' alike
    exact .inr ⟨b, b', rfl, rfl, alike⟩

theorem edges (akin : GraphsAkin pinned g g') : g.edges = g'.edges := by
  unfold Graph.edges Graph.blocks
  rw [akin.layout]
  induction g'.layout with
  | nil => rfl
  | cons id rest ih =>
    rw [List.filterMap_cons, List.filterMap_cons]
    rcases akin.block? id with ⟨gone, gone'⟩ | ⟨b, b', live, live', alike⟩
    · simp only [gone, gone', ih]
    · simp only [live, live', List.flatMap_cons, alike.edges, ih]

theorem contains (akin : GraphsAkin pinned g g') (target : BlockId) :
    g.contains target = g'.contains target := by
  unfold Graph.contains
  rcases akin.block? target with ⟨gone, gone'⟩ | ⟨b, b', live, live', -⟩
  · rw [gone, gone']
  · rw [live, live']
    rfl

theorem feasible (akin : GraphsAkin pinned g g') (alike : BlocksAkin pinned b b')
    (decision : Option (Option BlockId)) : Feasible g b decision ↔ Feasible g' b' decision := by
  rcases decision with _ | _ | target
  · exact Iff.rfl
  · rw [Feasible, Feasible, alike.fall]
  · rw [Feasible, Feasible, akin.contains]

end GraphsAkin

/-- Two runs that fail, or that go well, decide the same and leave akin graphs. -/
inductive RunsAkin (pinned : List Nat) (run run' : PassRun) : Prop
  | failed (e e' : Error) (ends : run.result = .error e) (ends' : run'.result = .error e')
  | went (c c' : Bool) (ends : run.result = .ok c) (ends' : run'.result = .ok c')
    (graphs : GraphsAkin pinned run.graph run'.graph)
    (events : run.events.ofKind .branchSimplified = run'.events.ofKind .branchSimplified)

theorem RunsAkin.andThen {first first' : PassRun} {next next' : Graph → PassRun}
    (began : RunsAkin pinned first first')
    (goes : ∀ {g g' : Graph}, GraphsAkin pinned g g' → RunsAkin pinned (next g) (next' g')) :
    RunsAkin pinned (first.andThen next) (first'.andThen next') := by
  cases began with
  | failed e e' ends ends' =>
    refine .failed e e' ?_ ?_
    · simp only [PassRun.andThen, ends]
    · simp only [PassRun.andThen, ends']
  | went c c' ends ends' graphs events =>
    cases goes graphs with
    | failed e e' stops stops' =>
      refine .failed e e' ?_ ?_
      · simp only [PassRun.andThen, ends, stops, Except.map]
      · simp only [PassRun.andThen, ends', stops', Except.map]
    | went d d' after after' left later =>
      refine .went (c || d) (c' || d') ?_ ?_ ?_ ?_
      · simp only [PassRun.andThen, ends, after, Except.map]
      · simp only [PassRun.andThen, ends', after', Except.map]
      · simpa only [PassRun.andThen, ends, ends'] using left
      · simp only [PassRun.andThen, ends, ends', Journal.ofKind, List.filter_append]
        exact congrArg₂ _ events later

theorem events_ofKind (ctx : PassContext) (id : BlockId) (loaded : Nat) (decided : Bool) :
    (events ctx id loaded decided).ofKind .branchSimplified = events ctx id 0 decided := by
  cases decided <;> simp [events, Journal.ofKind, List.filter_append]

theorem foldBlock_akin (akin : GraphsAkin pinned g g') (alike : BlocksAkin pinned b b')
    (live : g.block? id = some b) (live' : g'.block? id = some b') (extra extra' : Bool) :
    (∃ h e h' e', foldBlock pinned extra g id b = (h, .error e) ∧
        foldBlock pinned extra' g' id b' = (h', .error e')) ∨
      ∃ h loaded h' loaded' decided, foldBlock pinned extra g id b = (h, .ok (loaded, decided)) ∧
        foldBlock pinned extra' g' id b' = (h', .ok (loaded', decided)) ∧
        GraphsAkin pinned h h' := by
  rcases ran : simulate pinned extra b 0 b.instrs {} with ⟨final, decision⟩
  rcases ran' : simulate pinned extra' b' 0 b'.instrs {} with ⟨final', decision'⟩
  obtain rfl : decision = decision' := by
    rw [← verdict_eq ran, ← verdict_eq ran', alike.verdict]
  have ok := foldBlock_ok_iff live ran
  have ok' := foldBlock_ok_iff live' ran'
  rw [← akin.feasible alike] at ok'
  by_cases feasible : Feasible g b decision
  · obtain ⟨h, ⟨loaded, decided⟩, done⟩ := ok.mpr feasible
    obtain ⟨h', ⟨loaded', decided'⟩, done'⟩ := ok'.mpr feasible
    obtain ⟨counts, layout⟩ := foldBlock_counts ran done
    obtain ⟨counts', layout'⟩ := foldBlock_counts ran' done'
    obtain rfl : decided = decided' := (Prod.mk.inj counts).2.trans (Prod.mk.inj counts').2.symm
    obtain ⟨first, blocks⟩ := foldBlock_exchanges live ran done
    obtain ⟨first', blocks'⟩ := foldBlock_exchanges live' ran' done'
    refine .inr ⟨h, loaded, h', loaded', decided, done, done', ?_, fun other => ?_⟩
    · rw [layout, layout', akin.layout]
    · rw [blocks, blocks']
      split
      · exact .some (alike.folded ran ran' first first')
      · exact akin.blocks other
  · rcases done : foldBlock pinned extra g id b with ⟨h, e | counts⟩
    · rcases done' : foldBlock pinned extra' g' id b' with ⟨h', e' | counts'⟩
      · exact .inl ⟨h, e, h', e', rfl, rfl⟩
      · exact absurd (ok'.mp ⟨h', counts', done'⟩) feasible
    · exact absurd (ok.mp ⟨h, counts, done⟩) feasible

theorem runOn_akin (akin : GraphsAkin pinned g g') (method : ctx.method = ctx'.method)
    (id : BlockId) : RunsAkin pinned (runOn ctx pinned g id) (runOn ctx' pinned g' id) := by
  rcases akin.block? id with ⟨gone, gone'⟩ | ⟨b, b', live, live', alike⟩
  · refine .went false false ?_ ?_ ?_ ?_ <;> simp only [runOn, gone, gone']
    exact akin
  · rcases foldBlock_akin akin alike live live' ctx.config.foldExtra ctx'.config.foldExtra with
      ⟨h, e, h', e', done, done'⟩ | ⟨h, loaded, h', loaded', decided, done, done', left⟩
    · refine .failed e e' ?_ ?_ <;> simp only [runOn, live, live', done, done']
    · refine .went (loaded != 0 || decided) (loaded' != 0 || decided) ?_ ?_ ?_ ?_ <;>
        simp only [runOn, live, live', done, done']
      · exact left
      · rw [events_ofKind, events_ofKind, events, events, method]

theorem runAll_akin (akin : GraphsAkin pinned g g') (method : ctx.method = ctx'.method)
    (ids : List BlockId) :
    RunsAkin pinned (runAll ctx pinned ids g) (runAll ctx' pinned ids g') := by
  induction ids generalizing g g' with
  | nil => exact .went false false rfl rfl akin rfl
  | cons id rest ih => exact (runOn_akin akin method id).andThen ih

/-- With computations left alone, folding a block records a decision, and changes that block only,
    or it does nothing. -/
theorem runOn_unloaded (limited : ctx.config.foldExtra = false) {changed : Bool}
    (ran : (runOn ctx pinned g id).result = .ok changed) :
    (runOn ctx pinned g id).events = [] ∧ (runOn ctx pinned g id).graph = g ∨
      (runOn ctx pinned g id).events = events ctx id 0 true ∧
        ∀ other, id ≠ other → (runOn ctx pinned g id).graph.block? other = g.block? other := by
  cases live : g.block? id with
  | none =>
    refine .inl ⟨?_, ?_⟩ <;> simp only [runOn, live]
  | some b =>
    rcases simulated : simulate pinned ctx.config.foldExtra b 0 b.instrs {} with ⟨final, decision⟩
    rcases done : foldBlock pinned ctx.config.foldExtra g id b with ⟨h, e | ⟨loaded, decided⟩⟩
    · simp only [runOn, live, done] at ran
      cases ran
    · simp only [runOn, live, done]
      obtain ⟨counts, -⟩ := foldBlock_counts simulated done
      obtain ⟨first, blocks⟩ := foldBlock_exchanges live simulated done
      obtain rfl : loaded = 0 := by
        rw [limited] at simulated
        simp [(Prod.mk.inj counts).1, simulate_unloaded simulated]
      cases decided with
      | false => exact .inl ⟨rfl, foldBlock_idle live done⟩
      | true =>
        refine .inr ⟨rfl, fun other apart => ?_⟩
        rw [blocks, if_neg apart]

/-- With computations left alone, only decisions are recorded, and every block for which none is
    recorded stays as it is. -/
theorem runAll_unloaded (limited : ctx.config.foldExtra = false) (ids : List BlockId)
    {changed : Bool} (ran : (runAll ctx pinned ids g).result = .ok changed) :
    (∀ e ∈ (runAll ctx pinned ids g).events, e.kind = .branchSimplified) ∧
      ∀ id, (∀ e ∈ (runAll ctx pinned ids g).events, e.location ≠ some id) →
        (runAll ctx pinned ids g).graph.block? id = g.block? id := by
  induction ids generalizing g changed with
  | nil => exact ⟨List.forall_mem_nil _, fun _ _ => rfl⟩
  | cons id rest ih =>
    obtain ⟨⟨c, began⟩, ⟨d, went⟩, -⟩ := PassRun.andThen_ok ran
    obtain ⟨kinds, stays⟩ := ih went
    simp only [runAll, PassRun.andThen, began, List.forall_mem_append]
    rcases runOn_unloaded limited began with ⟨none, same⟩ | ⟨one, apart⟩
    · rw [none]
      refine ⟨⟨List.forall_mem_nil _, kinds⟩, ?_⟩
      rintro other ⟨-, silent⟩
      rw [stays other silent, same]
    · rw [one]
      refine ⟨⟨by simp [events], kinds⟩, ?_⟩
      rintro other ⟨here, silent⟩
      rw [stays other silent]
      exact apart other (by simpa [events] using here)

/-- With the flag set and without it, the pass fails or goes well alike. Where it goes well, the
    same branches are decided in the same way; with the flag set no computation is replaced, and a
    block whose branch is not decided is left alone. -/
theorem flag_keeps_decisions (round : Nat) (ctx : PassContext) (g : Graph) :
    let limited := pass.run round (ctx.withFlags (ctx.config.flags ||| 2)) g
    let full := pass.run round (ctx.withFlags (ctx.config.flags &&& ~~~2)) g
    ((∃ changed, limited.result = .ok changed) ↔ ∃ changed, full.result = .ok changed) ∧
      ∀ changed, limited.result = .ok changed →
        limited.graph.edges = full.graph.edges ∧
        limited.events.ofKind .branchSimplified = full.events.ofKind .branchSimplified ∧
        limited.events.ofKind .constantFolded = [] ∧
        ∀ id, (∀ e ∈ limited.events.ofKind .branchSimplified, e.location ≠ some id) →
          limited.graph.block? id = g.block? id := by
  intro limited full
  have akin : RunsAkin (pinnedLocals g) limited full := by
    refine runAll_akin (.refl (pinnedLocals g) g) ?_ g.layout
    rfl
  cases akin with
  | failed e e' ends ends' => simp [ends, ends']
  | went c c' ends ends' graphs events =>
    refine ⟨iff_of_true ⟨c, ends⟩ ⟨c', ends'⟩, fun _ _ => ⟨graphs.edges, events, ?_⟩⟩
    obtain ⟨kinds, stays⟩ : (∀ e ∈ limited.events, e.kind = .branchSimplified) ∧
        ∀ id, (∀ e ∈ limited.events, e.location ≠ some id) →
          limited.graph.block? id = g.block? id :=
      runAll_unloaded ctx.foldExtra_set g.layout ends
    have all : limited.events.ofKind .branchSimplified = limited.events :=
      List.filter_eq_self.mpr fun e recorded => by simp [kinds e recorded]
    refine ⟨List.filter_eq_nil_iff.mpr fun e recorded => by simp [kinds e recorded], ?_⟩
    rw [all]
    exact stays

def summedTest : Graph where
  slots := [
    some ⟨0, [⟨0, .ldcI4S, .immediate (.int8 2#8), 0⟩, ⟨1, .ldcI4S, .immediate (.int8 3#8), 2⟩,
      ⟨2, .binary .add, .none, 4⟩, ⟨3, .stloc .short, .localVar 0, 5⟩,
      ⟨4, .ldcI4S, .immediate (.int8 1#8), 7⟩,
      ⟨5, .branch .isTrue .long, .target 7, 9⟩], [2], some 1⟩,
    some ⟨1, [⟨6, .ret, .none, 14⟩], [], none⟩,
    some ⟨2, [⟨7, .ret, .none, 15⟩], [], none⟩]
  layout := [0, 1, 2]
  regions := []
  entry := 0
  nextInstr := 8
  locals := 1
  maxStack := 2

theorem summedTest_flag_keeps_decisions :
    let limited := pass.run 0 ((default : PassContext).withFlags 2) summedTest
    let full := pass.run 0 ((default : PassContext).withFlags 0) summedTest
    limited.result = .ok true ∧ full.events.has .constantFolded = true ∧
      full.events.has .branchSimplified = true ∧
      limited.graph.edges = full.graph.edges ∧
      limited.events.ofKind .branchSimplified = full.events.ofKind .branchSimplified ∧
      limited.events.ofKind .constantFolded = [] := by
  obtain ⟨-, agree⟩ := flag_keeps_decisions 0 default summedTest
  obtain ⟨edges, events, unfolded, -⟩ := agree true rfl
  exact ⟨rfl, rfl, rfl, edges, events, unfolded⟩

end Fold
end Unravel
