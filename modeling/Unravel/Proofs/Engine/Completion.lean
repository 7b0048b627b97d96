import Unravel.Proofs.Engine.Validity
import Unravel.Proofs.Pass.Recording
import Unravel.Proofs.Stack.Bodies

/-!
Methods that are in order are cleaned to the end. A body that is cut into blocks and measured gives
them levels, the schedule keeps the levels, and blocks with levels are written out as a body that
is measured again. So no stage fails, and the engine never gives such a method up.
-/
namespace Unravel
variable {methods : Resolver} {returns : Bool} {entered : BlockId → Nat → Prop}

namespace Kin
variable {i j : Instr}

theorem isReturn (kin : Kin i j) : j.opcode = .ret ↔ i.opcode = .ret := by
  have long : ∀ {op : Opcode}, op.longForm = .ret ↔ op = .ret := by
    intro op
    cases op <;> simp [Opcode.longForm]
  rw [← long, kin.longForm, long]

theorem stackEffect? (kin : Kin i j) : j.stackEffect? returns = i.stackEffect? returns := by
  have long : ∀ i : Instr, ({ i with opcode := i.opcode.longForm } : Instr).stackEffect? returns =
      i.stackEffect? returns := by
    intro i
    cases op : i.opcode <;>
      simp [Instr.stackEffect?, Instr.method?, op, Opcode.longForm, Opcode.fixedStack]
  rw [← long j, ← long i]
  exact Instr.stackEffect?_congr kin.longForm kin.operand

end Kin

namespace Body
variable {old new : Body} {s s' : StackState}

theorem Leads.recodes (recodes : Recodes old new) (leads : Leads returns new s s') :
    Leads returns old s s' := by
  cases leads with
  | jump here effect enough goes index =>
    obtain ⟨i, there, kin⟩ := recodes.code.getElem? here
    rw [kin.stackEffect?] at effect
    rw [kin.targets] at goes
    rw [recodes.names.index?] at index
    rw [kin.flow]
    exact .jump there effect enough goes index
  | next here effect enough falls more =>
    obtain ⟨i, there, kin⟩ := recodes.code.getElem? here
    rw [kin.stackEffect?] at effect
    rw [kin.flow] at falls
    rw [← recodes.code.length_eq] at more
    exact .next there effect enough falls more

theorem Enters.recodes (recodes : Recodes old new) (enters : Enters new s) : Enters old s := by
  cases enters with
  | start => exact .start
  | handler inside index =>
    rw [recodes.clauses] at inside
    rw [recodes.names.index?] at index
    exact .handler inside index
  | filter inside filtered index =>
    rw [recodes.clauses] at inside
    rw [recodes.names.index?] at index
    exact .filter inside filtered index

theorem Meets.recodes (recodes : Recodes old new) (met : Meets returns new s) :
    Meets returns old s := by
  induction met with
  | enter enters => exact .enter (enters.recodes recodes)
  | step _ leads ih => exact ih.step (leads.recodes recodes)

theorem Runs.recodes (recodes : Recodes old new) {i j : Instr} (kin : Kin i j)
    (runs : Runs returns old s i) : Runs returns new s j where
  effect := by
    obtain ⟨effect, taken, enough, returned⟩ := runs.effect
    exact ⟨effect, kin.stackEffect?.trans taken, enough, fun op => returned (kin.isReturn.mp op)⟩
  targets t goes := by
    rw [recodes.names.index?]
    rw [kin.targets] at goes
    exact runs.targets t goes
  onward falls := by
    rw [← recodes.code.length_eq]
    rw [kin.flow] at falls
    exact runs.onward falls

theorem Balanced.recodes (recodes : Recodes old new) (balanced : Balanced returns old) :
    Balanced returns new where
  handlers clause inside := by
    rw [recodes.clauses] at inside
    rw [recodes.names.index?]
    exact balanced.handlers clause inside
  filters clause inside f filtered := by
    rw [recodes.clauses] at inside
    rw [recodes.names.index?]
    exact balanced.filters clause inside f filtered
  runs met here := by
    obtain ⟨i, there, kin⟩ := recodes.code.getElem? here
    exact (balanced.runs (met.recodes recodes) there).recodes recodes kin
  agrees met met' same := balanced.agrees (met.recodes recodes) (met'.recodes recodes) same

theorem filled_of_toGraph {body : Body} {g : Graph} (done : body.toGraph = .ok g) :
    body.instrs ≠ [] := by
  obtain ⟨starts, cut, -⟩ := toGraph_ok done
  have here : starts[0]? = some 0 := by rw [← List.head?_eq_getElem?, cut.first]
  obtain ⟨before, inside, -⟩ := cut.gap here
  exact List.ne_nil_of_length_pos (by omega)

end Body

def Journal.Quiet (events : Journal) : Prop := ∀ event ∈ events, event.kind ≠ .warning

theorem Journal.Inside.quiet {token : Token} {events : Journal} (inside : events.Inside token) :
    events.Quiet := by
  intro event among warns
  have changes := (inside event among).changes
  rw [warns] at changes
  cases changes

namespace Engine
variable {c : Config} {m : Method} {g : Graph} {body : Body}

theorem finish_completes (consistent : g.Consistent)
    (levelled : g.Levelled methods m.returnsValue entered) (guarded : g.Guarded)
    (room : g.RoomToWrite) (single : ∀ ⦃id d e⦄, entered id d → entered id e → d = e)
    (alive : ∀ id, g.contains id = true → g.Reached id) :
    ∃ written, finish m g = .ok written := by
  have complete := levelled.complete alive
  obtain ⟨code, wrote⟩ := Graph.toBody_of_complete consistent complete
  obtain ⟨pieces, last, w⟩ := Graph.toBody_ok consistent.laid room wrote
  have recodes : code.Recodes code.widen.narrow := ⟨code.recoded_narrow, rfl, rfl⟩
  have filled : code.widen.narrow.instrs ≠ [] := by
    have some_ := List.length_pos_of_ne_nil (w.some_instr consistent)
    rw [recodes.code.length_eq] at some_
    exact List.ne_nil_of_length_pos some_
  obtain ⟨depth, measured⟩ := (Body.stackDepth_ok_iff filled).mpr
    ((w.balanced consistent levelled guarded complete single).recodes recodes)
  refine ⟨{ code.widen.narrow with maxStack := depth }, ?_⟩
  rw [finish, wrote]
  change code.widen.narrow.measured m.returnsValue = _
  rw [Body.measured, measured]
  rfl

theorem transform_completes {e : Engine} (stored : m.body = some body)
    (plain : e.config.equations = false ∨ body.hasSwitch = false)
    (coherent : methods.Coherent) (agrees : methods.Agrees body.instrs) (numbered : body.Numbered)
    (linked : body.Linked) (proper : ∀ clause ∈ body.clauses, clause.Proper body)
    (fits : Fits e.config methods m body) (cut : body.toGraph = .ok g)
    (measured : ∃ depth, body.stackDepth m.returnsValue = .ok depth) :
    ∃ ran last written events, Stages e methods m body g ran last written ∧
      transform e.config methods m body = .ok (written, events) ∧ events.Quiet := by
  have same : simplified e.config methods m body = (body, []) := by
    rcases plain with off | none
    · simp [simplified, off]
    · simp [simplified, none]
  have made : (simplified e.config methods m body).1.toGraph = .ok g := by rw [same, cut]
  have balanced := (Body.stackDepth_ok_iff (Body.filled_of_toGraph cut)).mp measured
  obtain ⟨starts, levelled⟩ := Body.toGraph_levelled numbered linked proper agrees balanced cut
  have consistent := Schedule.run_consistent e.config ⟨m, methods, e.config⟩
    (Body.toGraph_consistent numbered cut) (fits.rounds made)
  obtain ⟨⟨rounds, ran⟩, levelled⟩ :=
    Schedule.run_levelled e.config ⟨m, methods, e.config⟩ coherent levelled
  have guarded := Schedule.run_guarded e.config ⟨m, methods, e.config⟩
    (Body.toGraph_guarded proper cut)
  obtain ⟨n, live, pruned⟩ := consistent.laid.exists_removeDead
  obtain ⟨written, finished⟩ := finish_completes (consistent.removeDead pruned)
    (levelled.removeDead pruned) (guarded.removeDead pruned) (fits.room made pruned)
    (fun _ _ _ => Body.EnteredAt.unique balanced)
    fun id => Graph.reached_removeDead consistent.laid guarded pruned
  refine ⟨_, live, written, _, ⟨stored, made, rfl, ⟨n, pruned⟩, finished⟩, ?_,
    (Schedule.run_inside e.config ⟨m, methods, e.config⟩ g).quiet⟩
  simp only [transform, same, cut, bind, Except.bind, ran, pruned, finished, pure, Except.pure,
    List.nil_append]

/-- A method in order that passes the gate is cleaned: it gets the body that the schedule and the
    removal of dead blocks leave to be written out. -/
theorem cleaned_completes {e marked : Engine} {depth : Nat} (readable : m.broken = false)
    (passes : e.gate? m = some (body, marked))
    (plain : e.config.equations = false ∨ body.hasSwitch = false) (coherent : methods.Coherent)
    (agrees : methods.Agrees body.instrs) (numbered : body.Numbered) (linked : body.Linked)
    (proper : ∀ clause ∈ body.clauses, clause.Proper body) (fits : Fits e.config methods m body)
    (cut : body.toGraph = .ok g) (measured : body.stackDepth m.returnsValue = .ok depth) :
    ∃ (ran last : Graph) (written : Body) (events : Journal),
      Stages e methods m body g ran last written ∧ events.Quiet ∧
      e.cleaned methods m = .ok (.transformed,
        marked.record (events ++ [{ kind := .codeRegenerated, method := some m.token }]),
        { m with body := some written }) := by
  obtain ⟨has, -, same⟩ := gate?_some passes
  have stored := (code?_some has).1
  obtain ⟨ran, last, written, events, stages, done, quiet⟩ :=
    transform_completes stored plain coherent agrees numbered linked proper fits cut
      ⟨depth, measured⟩
  refine ⟨ran, last, written, events, stages, quiet, ?_⟩
  have config : marked.config = e.config := by rw [same]
  simp only [cleaned, readable, Bool.false_eq_true, if_false, passes, config, done, settle]

/-- A test on what a call returns, in front of dead code, protected by a handler with a filter. -/
def calledTest : Body where
  instrs := [⟨0, .ldcI4S, .immediate (.int8 5#8), 0⟩, ⟨1, .ldcI4S, .immediate (.int8 3#8), 2⟩,
    ⟨2, .call, .method Inline.masker.ref, 4⟩, ⟨3, .branch .isTrue .long, .target 6, 9⟩,
    ⟨4, .plain .ldnull, .none, 14⟩, ⟨5, .throw, .none, 15⟩, ⟨6, .leave .long, .target 12, 16⟩,
    ⟨7, .pop, .none, 21⟩, ⟨8, .ldcI4S, .immediate (.int8 1#8), 22⟩, ⟨9, .endfilter, .none, 24⟩,
    ⟨10, .pop, .none, 26⟩, ⟨11, .leave .long, .target 12, 27⟩, ⟨12, .ret, .none, 32⟩]
  clauses := [⟨.filter, 0, some 7, 10, some 12, some 7, none⟩]
  nextId := 13

def calledTable : MethodTable :=
  ⟨[{ body := some calledTest }, Inline.adder, Inline.masker]⟩

theorem calledTest_completes :
    calledTest.Numbered ∧ (∀ clause ∈ calledTest.clauses, clause.Proper calledTest) ∧
      calledTable.resolver.Coherent ∧
      Fits {} calledTable { body := some calledTest } calledTest ∧
      ∃ (first ran last : Graph) (written : Body) (events : Journal),
        Stages {} calledTable { body := some calledTest } calledTest first ran last written ∧
        events.Quiet ∧
        ({} : Engine).cleaned calledTable { body := some calledTest } = .ok (.transformed,
          ({ registry := ⟨[(.methodDef 1, taken)]⟩ } : Engine).record
            (events ++ [{ kind := .codeRegenerated, method := some (.methodDef 1) }]),
          { body := some written }) := by
  have numbered : calledTest.Numbered := ⟨by decide, by decide⟩
  have proper : ∀ clause ∈ calledTest.clauses, clause.Proper calledTest := by
    intro clause inside
    rw [List.mem_singleton.mp inside]
    refine ⟨⟨0, 7, rfl, rfl, by decide⟩, ⟨10, 12, rfl, rfl, by decide⟩, rfl, ?_⟩
    rintro f ⟨⟩
    exact ⟨7, 10, rfl, rfl, by decide⟩
  have coherent : calledTable.resolver.Coherent := MethodTable.coherent (by decide)
  have fits : Fits {} calledTable { body := some calledTest } calledTest := by decide +kernel
  have linked : calledTest.Linked := by
    simp [Body.Linked, calledTest, Instr.flow, Opcode.flow]
  have measured : calledTest.stackDepth false = .ok 2 := by decide +kernel
  obtain ⟨ran, last, written, events, stages, quiet, done⟩ := cleaned_completes
    (e := {}) (m := { body := some calledTest }) rfl rfl (.inr (by decide)) coherent (by decide)
    numbered linked proper fits rfl measured
  exact ⟨numbered, proper, coherent, fits, _, ran, last, written, events, stages, quiet, done⟩

end Engine
end Unravel
