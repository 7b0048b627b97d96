import Unravel.Engine
import Unravel.Proofs.Flow.Coverage
import Unravel.Proofs.Pass.Scheduling

/-!
Bodies that the engine writes back are valid, whatever the body was that it took up: a body that
cannot be made valid is not replaced. Each stage of the engine hands on what the next one needs, so
this is the sum of what was shown of the stages.
-/
namespace Unravel

/-- What a body is to be before it replaces another one. -/
structure Body.Valid (returnsValue : Bool) (b : Body) : Prop where
  numbered : b.Numbered
  jumps : ∀ i ∈ b.instrs,
    i.flow = .unconditional ∨ i.flow = .leave ∨ i.flow = .conditional →
      ∃ t n, i.operand = .target t ∧ b.index? t = some n
  switches : ∀ i ∈ b.instrs, i.flow = .switch →
    ∃ ts, i.operand = .switch ts ∧ ∀ t ∈ ts, ∃ n, b.index? t = some n
  bounds : ∀ clause ∈ b.clauses, ∀ t ∈ clause.bounds, ∃ n, b.index? t = some n
  clauses : ∀ clause ∈ b.clauses, clause.Proper b
  offsets : ∀ n i, b.instrs[n]? = some i →
    i.offset = ((b.instrs.take n).map Instr.size).sum
  near : ∀ i ∈ b.instrs, i.opcode.operandKind = .shortBranch →
    ∃ t ∈ b.instrs, i.operand = .target t.id ∧
      -128 ≤ (t.offset : Int) - (i.offset + i.size) ∧
      (t.offset : Int) - (i.offset + i.size) ≤ 127
  alive : ∃ g, b.toGraph = .ok g ∧ g.unreachable = []
  depth : b.stackDepth returnsValue = .ok b.maxStack

namespace Body

theorem bounds_of_proper {b : Body} {clause : Clause} (proper : clause.Proper b) :
    ∀ t ∈ clause.bounds, ∃ n, b.index? t = some n := by
  obtain ⟨a, z, tryStart, tryStop, -⟩ := proper.tries
  obtain ⟨h, e, handlerStart, handlerStop, -⟩ := proper.handles
  have stops : ∀ {stop : Option InstrId} {n}, b.stopIndex? stop = some n → ∀ t, stop = some t →
      ∃ n, b.index? t = some n := by
    rintro _ n found t rfl
    exact ⟨n, found⟩
  intro t bound
  simp only [Clause.bounds, List.mem_filterMap, List.mem_cons, List.not_mem_nil, or_false,
    id_eq] at bound
  obtain ⟨o, rfl | rfl | rfl | rfl | rfl, same⟩ := bound
  · cases same
    exact ⟨a, tryStart⟩
  · exact stops tryStop t same
  · cases same
    exact ⟨h, handlerStart⟩
  · exact stops handlerStop t same
  · obtain ⟨f, _, found, -, -⟩ := proper.inFront t same
    exact ⟨f, found⟩

/-- Two bodies have the same ids in the same order, and the same clauses. -/
structure SameNames (old new : Body) : Prop where
  ids : new.instrs.map Instr.id = old.instrs.map Instr.id
  clauses : new.clauses = old.clauses
  nextId : new.nextId = old.nextId

namespace SameNames
variable {old new : Body}

theorem index? (same : SameNames old new) (id : InstrId) : new.index? id = old.index? id :=
  lastIndex?_of_ids same.ids id

theorem length_eq (same : SameNames old new) : new.instrs.length = old.instrs.length := by
  simpa only [List.length_map] using congrArg List.length same.ids

theorem stopIndex? (same : SameNames old new) (stop : Option InstrId) :
    new.stopIndex? stop = old.stopIndex? stop := by
  cases stop with
  | none => simp only [Body.stopIndex?, same.length_eq]
  | some id => exact same.index? id

theorem numbered (same : SameNames old new) (numbered : old.Numbered) : new.Numbered where
  nodup := by
    rw [same.ids]
    exact numbered.nodup
  fresh := by
    intro j inside
    have listed : j.id ∈ old.instrs.map Instr.id := by
      rw [← same.ids]
      exact List.mem_map_of_mem inside
    obtain ⟨i, was, id⟩ := List.mem_map.mp listed
    rw [← id, same.nextId]
    exact numbered.fresh i was

theorem spans (same : SameNames old new) {start : InstrId} {stop : Option InstrId}
    (spans : old.Spans start stop) : new.Spans start stop := by
  unfold Body.Spans
  rw [same.index?, same.stopIndex?]
  exact spans

theorem proper (same : SameNames old new) (proper : ∀ clause ∈ old.clauses, clause.Proper old) :
    ∀ clause ∈ new.clauses, clause.Proper new := by
  rw [same.clauses]
  intro clause inside
  obtain ⟨tries, handles, filters, inFront⟩ := proper clause inside
  exact ⟨same.spans tries, same.spans handles, filters, fun f filter =>
    same.spans (inFront f filter)⟩

end SameNames

/-- A body that differs from another one in the widths of branches, in offsets and in the stack
    depth alone. -/
structure Recodes (old new : Body) : Prop where
  code : Recoded old.instrs new.instrs
  clauses : new.clauses = old.clauses
  nextId : new.nextId = old.nextId

theorem Recodes.names {old new : Body} (recodes : Recodes old new) : SameNames old new :=
  ⟨recodes.code.ids, recodes.clauses, recodes.nextId⟩

theorem Reached.recodes {old new : Body} (recodes : Recodes old new) {n : Nat}
    (reached : old.Reached n) : new.Reached n := by
  induction reached with
  | first => exact .first
  | next _ here falls more ih =>
    obtain ⟨j, there, kin⟩ := getElem?_of_forall₂ recodes.code here
    refine ih.next there (by rw [kin.flow]; exact falls) ?_
    rw [← recodes.code.length_eq]
    exact more
  | jump _ here goes index ih =>
    obtain ⟨j, there, kin⟩ := getElem?_of_forall₂ recodes.code here
    refine ih.jump there (by rw [kin.targets]; exact goes) ?_
    rw [recodes.names.index?]
    exact index
  | caught _ inside start stop above below enters index ih =>
    refine ih.caught ?_ ?_ ?_ above below enters ?_
    · rw [recodes.clauses]
      exact inside
    · rw [recodes.names.index?]
      exact start
    · rw [recodes.names.stopIndex?]
      exact stop
    · rw [recodes.names.index?]
      exact index

theorem explore_maxStack (returnsValue : Bool) (b : Body) (depth fuel : Nat)
    (work seen : List StackState) (peak : Nat) :
    explore returnsValue { b with maxStack := depth } fuel work seen peak =
      explore returnsValue b fuel work seen peak := by
  induction fuel generalizing work seen peak with
  | zero => cases work <;> rfl
  | succ fuel ih =>
    cases work with
    | nil => rfl
    | cons s work =>
      have same : ({ b with maxStack := depth } : Body).advance returnsValue s =
          b.advance returnsValue s := rfl
      simp only [explore, ih, same]

theorem stackDepth_maxStack (returnsValue : Bool) (b : Body) (depth : Nat) :
    stackDepth returnsValue { b with maxStack := depth } = stackDepth returnsValue b := by
  unfold stackDepth
  simp only [explore_maxStack]
  rfl

theorem near_narrow {b : Body} {i : Instr} (inside : i ∈ b.widen.narrow.instrs)
    (short : i.opcode.operandKind = .shortBranch) {t : InstrId} (operand : i.operand = .target t)
    (jump : i.isJump = true) :
    ∃ x ∈ b.widen.narrow.instrs, x.id = t ∧
      -128 ≤ (x.offset : Int) - (i.offset + i.size) ∧
      (x.offset : Int) - (i.offset + i.size) ≤ 127 := by
  obtain ⟨n, here⟩ := List.getElem?_of_mem inside
  obtain ⟨t', m, first, index, near⟩ := b.shortsReach_narrow here short
  have target : i.targets = [t] := by simp [Instr.targets, operand, jump]
  rw [target] at first
  cases first
  obtain ⟨x, there, same⟩ := Option.map_eq_some_iff.mp (id_of_lastIndex? index)
  have placed := b.widen.placed_narrow
  have next := offsetAt_succ here
  refine ⟨x, List.mem_of_getElem? there, same, ?_⟩
  rw [placed here, placed there]
  unfold Near at near
  constructor <;> omega

end Body

namespace Graph.Written
variable {g : Graph} {written : List Piece} {last : Nat} {body : Body}

theorem fall_of_branch (w : Written g written last body) (c : g.Consistent) {id : BlockId}
    {b : Block} (live : g.block? id = some b) (kind : b.kind = .conditional ∨ b.kind = .switch) :
    b.fall ≠ none := by
  obtain ⟨n, begins⟩ := w.exists_begin c live
  obtain ⟨k, p, link, jump, f, -, -, piece, -⟩ := w.piece_at begins live
  intro none
  have behind := piece.behind
  rcases kind with kind | kind <;>
  · simp only [jumpBehind, kind, none] at behind
    cases behind

theorem ends_closed (w : Written g written last body) (c : g.Consistent) {x : Instr}
    (final : body.instrs.getLast? = some x) : x.flow ≠ .conditional ∧ x.flow ≠ .switch := by
  rw [List.getLast?_eq_getElem?] at final
  have more : x.flow = .conditional ∨ x.flow = .switch → False := by
    intro flow
    have falls : x.flow.fallsThrough = true := by rcases flow with flow | flow <;> rw [flow] <;> rfl
    have behind := w.more_behind c final falls fun live kind => w.fall_of_branch c live (by
      rw [kind]
      rcases flow with flow | flow <;> rw [flow] <;> simp [BlockKind.ofFlow])
    omega
  exact ⟨fun flow => more (.inl flow), fun flow => more (.inr flow)⟩

theorem some_instr (w : Written g written last body) (c : g.Consistent) : body.instrs ≠ [] := by
  obtain ⟨rest, layout⟩ := List.head?_eq_some_iff.mp c.entryFirst
  have first := w.begins_lt c (begins_entry (w.blocks.trans layout))
  exact List.ne_nil_of_length_pos first

theorem alive (w : Written g written last body) (c : g.Consistent) (guarded : g.Guarded)
    (alive : ∀ id, g.contains id = true → g.Reached id) {new : Body}
    (recodes : body.Recodes new) : ∃ h, new.toGraph = .ok h ∧ h.unreachable = [] := by
  have proper := recodes.names.proper (w.proper c guarded)
  obtain ⟨h, done⟩ : ∃ h, new.toGraph = .ok h := by
    refine Body.toGraph_accepts ?_ ?_
      (fun clause inside => Body.bounds_of_proper (proper clause inside)) ?_
    · intro empty
      have size := recodes.code.length_eq
      rw [empty, List.length_nil] at size
      exact w.some_instr c (List.eq_nil_of_length_eq_zero size)
    · intro j inside t goes
      obtain ⟨n, here⟩ := List.getElem?_of_mem inside
      obtain ⟨i, was, kin⟩ := recodes.code.getElem? here
      rw [kin.targets] at goes
      rw [recodes.names.index?]
      exact w.targets_found c (List.mem_of_getElem? was) goes
    · intro j final
      rw [List.getLast?_eq_getElem?] at final
      obtain ⟨i, was, kin⟩ := recodes.code.getElem? final
      rw [← recodes.code.length_eq, ← List.getLast?_eq_getElem?] at was
      rw [kin.flow]
      exact w.ends_closed c was
  refine ⟨h, done, Body.unreachable_eq_nil proper done ?_⟩
  intro n inside
  rw [← recodes.code.length_eq] at inside
  exact (w.reached_index c guarded alive inside).recodes recodes

end Graph.Written

namespace Predicate

theorem id_settleTest (form : Form) (test : Instr) (fate : TestFate) :
    (settleTest form test fate).id = test.id := by
  cases fate <;> rfl

theorem map_id_scan (methods : Resolver) (method : Token) (index : Nat) (previous : Instr)
    (rest : List Instr) :
    (scan methods method index previous rest).1.map Instr.id =
      previous.id :: rest.map Instr.id := by
  fun_induction scan methods method index previous rest with
  | case1 index previous test next rest form fate v site settled code events count scanned ih =>
    rw [scanned, id_settleTest] at ih
    rw [List.map_cons, ih]
    rfl
  | case2 index previous test next rest site code events count scanned ih =>
    rw [scanned] at ih
    rw [List.map_cons, ih]
    rfl
  | case3 index previous rest short => rfl

theorem sameNames_simplify (methods : Resolver) (method : Token) (b : Body) :
    b.SameNames (simplify methods method b).1 := by
  change b.SameNames (settle methods method b).1
  unfold settle
  split
  · exact ⟨rfl, rfl, rfl⟩
  · rename_i first rest code
    refine ⟨?_, rfl, rfl⟩
    rw [code]
    exact map_id_scan methods method 1 first rest

end Predicate
namespace Engine
variable {c : Config} {methods : Resolver} {m m' : Method} {g : Graph} {body written : Body}

theorem finish_ok (done : finish m g = .ok body) :
    ∃ code depth, g.toBody = .ok code ∧ code.widen.narrow.stackDepth m.returnsValue = .ok depth ∧
      body = { code.widen.narrow with maxStack := depth } := by
  obtain ⟨code, wrote, done⟩ := bind_ok_iff.mp done
  obtain ⟨depth, measured, rfl⟩ := map_ok_iff.mp done
  exact ⟨code, depth, wrote, measured, rfl⟩

theorem finish_valid (consistent : g.Consistent) (guarded : g.Guarded) (room : g.RoomToWrite)
    (alive : ∀ id, g.contains id = true → g.Reached id) (done : finish m g = .ok body) :
    body.Valid m.returnsValue := by
  obtain ⟨code, depth, wrote, measured, rfl⟩ := finish_ok done
  obtain ⟨pieces, last, w⟩ := Graph.toBody_ok consistent.laid room wrote
  have recodes : code.Recodes { code.widen.narrow with maxStack := depth } :=
    ⟨code.recoded_narrow, rfl, rfl⟩
  have proper := recodes.names.proper (w.proper consistent guarded)
  have jumps : ∀ i ∈ code.widen.narrow.instrs,
      i.flow = .unconditional ∨ i.flow = .leave ∨ i.flow = .conditional →
        ∃ t n, i.operand = .target t ∧ code.index? t = some n := by
    intro i inside flow
    obtain ⟨n, here⟩ := List.getElem?_of_mem inside
    obtain ⟨j, was, kin⟩ := recodes.code.getElem? here
    rw [kin.flow] at flow
    rw [kin.operand]
    exact w.jumps_closed consistent was flow
  refine ⟨recodes.names.numbered (w.numbered consistent), ?_, ?_,
    fun clause inside => Body.bounds_of_proper (proper clause inside), proper, ?_, ?_,
    w.alive consistent guarded alive recodes, ?_⟩
  · intro i inside flow
    simp only [recodes.names.index?]
    exact jumps i inside flow
  · intro i inside flow
    obtain ⟨n, here⟩ := List.getElem?_of_mem inside
    obtain ⟨j, was, kin⟩ := recodes.code.getElem? here
    rw [kin.flow] at flow
    simp only [recodes.names.index?, kin.operand]
    exact w.switches_closed consistent was flow
  · intro n i here
    exact code.widen.placed_narrow here
  · intro i inside short
    have jump := Opcode.flow_of_shortBranch short
    obtain ⟨t, n, operand, index⟩ := jumps i inside jump
    obtain ⟨x, listed, rfl, near⟩ := Body.near_narrow inside short operand (by
      rw [Instr.isJump]
      rcases jump with jump | jump | jump <;>
      · rw [Instr.flow, jump]
        rfl)
    exact ⟨x, listed, operand, near⟩
  · rw [Body.stackDepth_maxStack]
    exact measured

/-- The stages of cleaning a method: the graph that is cut, the one that the schedule leaves, the
    one that is written out, and what comes of it. -/
structure Stages (e : Engine) (methods : Resolver) (m : Method) (b : Body)
    (first ran last : Graph) (new : Body) : Prop where
  stored : m.body = some b
  cut : (simplified e.config methods m b).1.toGraph = .ok first
  scheduled : ((Schedule.ofConfig e.config).run ⟨m, methods, e.config⟩ first).graph = ran
  pruned : ∃ n, ran.removeDead = .ok (n, last)
  wrote : finish m last = .ok new

theorem transform_ok {b : Body} {events : Journal}
    (done : transform c methods m b = .ok (body, events)) :
    ∃ cut live n, (simplified c methods m b).1.toGraph = .ok cut ∧
      (∃ rounds, ((Schedule.ofConfig c).run ⟨m, methods, c⟩ cut).result = .ok rounds) ∧
      ((Schedule.ofConfig c).run ⟨m, methods, c⟩ cut).graph.removeDead = .ok (n, live) ∧
      finish m live = .ok body ∧
      events = (simplified c methods m b).2 ++
        ((Schedule.ofConfig c).run ⟨m, methods, c⟩ cut).events := by
  obtain ⟨cut, made, done⟩ := bind_ok_iff.mp done
  obtain ⟨rounds, ran, done⟩ := bind_ok_iff.mp done
  obtain ⟨⟨n, live⟩, pruned, done⟩ := bind_ok_iff.mp done
  obtain ⟨body, finished, done⟩ := bind_ok_iff.mp done
  cases done
  exact ⟨cut, live, n, made, ⟨rounds, ran⟩, pruned, finished, rfl⟩

theorem sameNames_simplified (c : Config) (methods : Resolver) (m : Method) (b : Body) :
    b.SameNames (simplified c methods m b).1 := by
  unfold simplified
  split
  · exact Predicate.sameNames_simplify methods m.token b
  · exact ⟨rfl, rfl, rfl⟩

/-- No id counter overflows while a body is transformed: not in the rounds of the schedule, and not
    when what they leave is written out. -/
def Fits (c : Config) (methods : Resolver) (m : Method) (b : Body) : Prop :=
  ∀ cut ∈ (simplified c methods m b).1.toGraph.toOption,
    Schedule.Fits c ⟨m, methods, c⟩ c.maxIterations 0 cut ∧
      ∀ live ∈ ((Schedule.ofConfig c).run ⟨m, methods, c⟩ cut).graph.removeDead.toOption,
        live.2.RoomToWrite

instance (c : Config) (methods : Resolver) (m : Method) (b : Body) :
    Decidable (Fits c methods m b) := by
  unfold Fits
  infer_instance

theorem Fits.rounds {b : Body} {cut : Graph} (fits : Fits c methods m b)
    (made : (simplified c methods m b).1.toGraph = .ok cut) :
    Schedule.Fits c ⟨m, methods, c⟩ c.maxIterations 0 cut :=
  (fits cut (by rw [made]; rfl)).1

theorem Fits.room {b : Body} {cut live : Graph} {n : Nat} (fits : Fits c methods m b)
    (made : (simplified c methods m b).1.toGraph = .ok cut)
    (pruned : ((Schedule.ofConfig c).run ⟨m, methods, c⟩ cut).graph.removeDead = .ok (n, live)) :
    live.RoomToWrite :=
  (fits cut (by rw [made]; rfl)).2 (n, live) (by rw [pruned]; rfl)

theorem transform_valid {b : Body} {events : Journal} (numbered : b.Numbered)
    (proper : ∀ clause ∈ b.clauses, clause.Proper b) (fits : Fits c methods m b)
    (done : transform c methods m b = .ok (body, events)) : body.Valid m.returnsValue := by
  obtain ⟨cut, live, n, made, -, pruned, finished, -⟩ := transform_ok done
  have names := sameNames_simplified c methods m b
  have consistent := Schedule.run_consistent c ⟨m, methods, c⟩
    (Body.toGraph_consistent (names.numbered numbered) made) (fits.rounds made)
  have guarded := Schedule.run_guarded c ⟨m, methods, c⟩
    (Body.toGraph_guarded (names.proper proper) made)
  exact finish_valid (consistent.removeDead pruned) (guarded.removeDead pruned)
    (fits.room made pruned) (fun id => Graph.reached_removeDead consistent.laid guarded pruned)
    finished

theorem code?_some (has : m.code? = some body) : m.body = some body ∧ body.instrs ≠ [] := by
  obtain ⟨stored, filled⟩ := Option.filter_eq_some_iff.mp has
  exact ⟨stored, by simpa using filled⟩

theorem code?_of_filled (stored : m.body = some body) (filled : body.instrs ≠ []) :
    m.code? = some body :=
  Option.filter_eq_some_iff.mpr ⟨stored, by simpa using filled⟩

theorem code?_none (lacks : m.code? = none) :
    m.body = none ∨ ∃ b, m.body = some b ∧ b.instrs = [] := by
  cases stored : m.body with
  | none => exact .inl rfl
  | some b =>
    refine .inr ⟨b, rfl, ?_⟩
    by_contra filled
    rw [code?_of_filled stored filled] at lacks
    cases lacks

theorem gate?_some {e marked : Engine} (passes : e.gate? m = some (body, marked)) :
    m.code? = some body ∧ e.registry.check m.token taken = false ∧
      marked = { e with registry := e.registry.mark m.token taken } := by
  unfold gate? Registry.take at passes
  cases has : m.code? with
  | none =>
    rw [has] at passes
    cases passes
  | some b =>
    cases free : e.registry.check m.token taken with
    | true =>
      rw [has, free] at passes
      cases passes
    | false =>
      rw [has, free] at passes
      cases passes
      exact ⟨rfl, rfl, rfl⟩

/-- A method that is cleaned gets a valid body or stays as it was. -/
theorem cleaned_valid {e e' : Engine} {outcome : Outcome} (stored : m.body = some body)
    (numbered : body.Numbered) (proper : ∀ clause ∈ body.clauses, clause.Proper body)
    (fits : Fits e.config methods m body) (done : e.cleaned methods m = .ok (outcome, e', m')) :
    (outcome ≠ .transformed ∧ m' = m) ∨
      (outcome = .transformed ∧ ∃ written : Body, written.Valid m.returnsValue ∧
        m' = { m with body := some written }) := by
  unfold cleaned at done
  split at done
  · cases done
  · split at done
    · cases done
      exact .inl ⟨by simp, rfl⟩
    · rename_i passes
      obtain ⟨has, -, rfl⟩ := gate?_some passes
      cases stored.symm.trans (code?_some has).1
      dsimp only at done
      cases ran : transform e.config methods m body with
      | error cause =>
        rw [ran] at done
        cases done
        exact .inl ⟨by simp [settle], rfl⟩
      | ok result =>
        obtain ⟨written, events⟩ := result
        rw [ran] at done
        cases done
        exact .inr ⟨rfl, written, transform_valid numbered proper fits ran, rfl⟩

/-- A decided test in front of dead code, protected by a handler with a filter. -/
def filteredTest : Body where
  instrs := [⟨0, .ldcI4S, .immediate (.int8 1#8), 0⟩, ⟨1, .branch .isTrue .long, .target 3, 2⟩,
    ⟨2, .throw, .none, 7⟩, ⟨3, .leave .long, .target 9, 8⟩, ⟨4, .pop, .none, 13⟩,
    ⟨5, .ldcI4S, .immediate (.int8 1#8), 14⟩, ⟨6, .endfilter, .none, 16⟩, ⟨7, .pop, .none, 18⟩,
    ⟨8, .leave .long, .target 9, 19⟩, ⟨9, .ret, .none, 24⟩]
  clauses := [⟨.filter, 0, some 4, 7, some 9, some 4, none⟩]
  nextId := 10

theorem filteredTest_cleaned_valid :
    filteredTest.Numbered ∧ (∀ clause ∈ filteredTest.clauses, clause.Proper filteredTest) ∧
      Fits {} default { body := some filteredTest } filteredTest ∧
      ∃ e' m', ({} : Engine).cleaned default { body := some filteredTest } =
          .ok (.transformed, e', m') ∧
        ∃ written : Body, written.Valid false ∧ m' = { body := some written } := by
  have numbered : filteredTest.Numbered := ⟨by decide, by decide⟩
  have proper : ∀ clause ∈ filteredTest.clauses, clause.Proper filteredTest := by
    intro clause inside
    rw [List.mem_singleton.mp inside]
    refine ⟨⟨0, 4, rfl, rfl, by decide⟩, ⟨7, 9, rfl, rfl, by decide⟩, rfl, ?_⟩
    rintro f ⟨⟩
    exact ⟨4, 7, rfl, rfl, by decide⟩
  have fits : Fits {} default { body := some filteredTest } filteredTest := by decide +kernel
  have ran : ((({} : Engine).cleaned default
      { body := some filteredTest }).toOption.map Prod.fst) = some .transformed := by decide +kernel
  refine ⟨numbered, proper, fits, ?_⟩
  cases cleaned : ({} : Engine).cleaned default { body := some filteredTest } with
  | error cause =>
    rw [cleaned] at ran
    cases ran
  | ok result =>
    obtain ⟨outcome, e', m'⟩ := result
    rw [cleaned] at ran
    cases ran
    refine ⟨e', m', rfl, ?_⟩
    rcases cleaned_valid rfl numbered proper fits cleaned with
      ⟨stays, -⟩ | ⟨-, written, valid, same⟩
    · exact absurd rfl stays
    · exact ⟨written, valid, same⟩

end Engine
end Unravel
