import Unravel.Proofs.Body.Widths
import Unravel.Proofs.Engine.Requests
import Unravel.Proofs.Graph.Pruning

/-!
Pruning a method. Written code is read back as it was written, whatever the widths of its branches,
and narrowing it again gives the same widths. So pruning writes the live code of a body, and writes
it once and for all.
-/
namespace Unravel

theorem Placed.place_eq {instrs : List Instr} (placed : Placed instrs) :
    place 0 instrs = instrs := by
  refine List.ext_getElem? fun n => ?_
  rw [getElem?_place]
  cases here : instrs[n]? with
  | none => rfl
  | some i => rw [Option.map_some, Nat.zero_add, ← placed here]

namespace Body
variable {old new : Body}

theorem Wired.recodes (recodes : Recodes old new) (wired : old.Wired) : new.Wired where
  jumps := by
    intro j inside flow
    obtain ⟨n, here⟩ := List.getElem?_of_mem inside
    obtain ⟨i, was, kin⟩ := recodes.code.getElem? here
    rw [kin.flow] at flow
    rw [kin.operand]
    exact wired.jumps i (List.mem_of_getElem? was) flow
  switches := by
    intro j inside flow
    obtain ⟨n, here⟩ := List.getElem?_of_mem inside
    obtain ⟨i, was, kin⟩ := recodes.code.getElem? here
    rw [kin.flow] at flow
    rw [kin.operand]
    exact wired.switches i (List.mem_of_getElem? was) flow

theorem Prunes.recodes {body : Body} (prunes : body.Prunes old) (recodes : Recodes old new) :
    body.Prunes new := by
  obtain ⟨kept, part, live, code⟩ := prunes
  exact ⟨kept, part, live, code.trans recodes.code⟩

end Body

/-- Two tables differ in the body of one method alone. -/
def MethodTable.Rebodied (old : MethodTable) (token : Token) (body : Body) (new : MethodTable) :
    Prop :=
  ∀ other, new.get? other =
    (old.get? other).map fun m => if other = token then { m with body := some body } else m

theorem MethodTable.names_modify (token key : Token) (body : Body) :
    ((fun m : Method => m.token == key) ∘ fun m : Method =>
      if m.token = token then { m with body := some body } else m) = fun m => m.token == key := by
  funext m
  by_cases named : m.token = token <;> simp [named]

theorem MethodTable.get?_setBody {methods : MethodTable} {token : Token} {held : Method}
    (found : methods.get? token = some held) (body : Body) :
    (methods.setBody token body).get? token = some { held with body := some body } := by
  have named : held.token = token := (get?_some found).2
  rw [MethodTable.get?] at found
  rw [setBody, modify, MethodTable.get?, List.find?_map, names_modify, found, Option.map_some,
    if_pos named]

theorem MethodTable.rebodied_setBody (methods : MethodTable) (token : Token) (body : Body) :
    methods.Rebodied token body (methods.setBody token body) := by
  intro other
  by_cases same : other = token
  · subst same
    simp only [if_true]
    cases found : methods.get? other with
    | some held => rw [get?_setBody found]; rfl
    | none =>
      simp only [get?, List.find?_eq_none, setBody, modify] at found ⊢
      simp only [Option.map_none, List.find?_eq_none, List.mem_map]
      rintro x ⟨m, inside, rfl⟩
      have away := found m inside
      split <;> simpa using away
  · rw [get?, setBody, modify, List.find?_map, names_modify]
    cases found : methods.methods.find? fun m => m.token == other with
    | none => simp [get?, found]
    | some held =>
      have held_ : methods.get? other = some held := found
      have named : held.token = other := (get?_some held_).2
      simp [get?, found, named, same]

theorem MethodTable.setBody_setBody (methods : MethodTable) (token : Token) (first second : Body) :
    (methods.setBody token first).setBody token second = methods.setBody token second := by
  simp only [setBody, modify, List.map_map]
  congr 1
  refine List.map_congr_left fun m _ => ?_
  by_cases named : m.token = token <;> simp [named]

namespace Engine
variable {e e' : Engine} {methods methods' : MethodTable} {m : Method} {body code written : Body}
variable {g again : Graph}

theorem finish_again {depth : Nat}
    (measured : code.widen.narrow.stackDepth m.returnsValue = .ok depth)
    (wrote : g.toBody = .ok { code.widen.narrow with maxStack := depth }) :
    finish m g = .ok { code.widen.narrow with maxStack := depth } := by
  have widened : ({ code.widen.narrow with maxStack := depth } : Body).widen =
      { code.widen with maxStack := depth } :=
    congrArg (fun instrs => ({ code with instrs, maxStack := depth } : Body))
      (place_widen_of_recoded code.recoded_narrow 0)
  have narrowed : ({ code.widen.narrow with maxStack := depth } : Body).widen.narrow =
      { code.widen.narrow with maxStack := depth } := by
    rw [widened]
    rfl
  simp only [finish, wrote, bind, Except.bind, narrowed, Body.measured, Body.stackDepth_maxStack,
    measured, Except.map]

/-- What cutting a graph anew and finishing it writes is cut, without dead blocks, and written
    again as it is. -/
theorem finish_settles (c : g.Consistent) (guarded : g.Guarded) (room : g.RoomToWrite)
    (alive : ∀ id, g.contains id = true → g.Reached id) (anew : g.repartition = .ok again)
    (done : finish m again = .ok written) :
    (∃ code, g.toBody = .ok code ∧ code.Recodes written) ∧
      ∃ h, written.toGraph = .ok h ∧ h.removeDead = .ok (0, h) ∧ h.repartition = .ok h ∧
        finish m h = .ok written := by
  obtain ⟨code, wrote, cut⟩ := Graph.repartition_ok anew
  obtain ⟨pieces, last, w⟩ := Graph.toBody_ok c.laid room wrote
  have proper := w.proper c guarded
  have back : again.toBody = .ok code := by
    rw [Body.toBody_toGraph cut (w.wired c) (w.numbered c).fresh proper,
      Graph.placed_of_toBody c.laid wrote]
  obtain ⟨code', depth, wrote', measured, rfl⟩ := finish_ok done
  cases back.symm.trans wrote'
  have recodes : code.Recodes { code.widen.narrow with maxStack := depth } :=
    ⟨code.recoded_narrow, rfl, rfl⟩
  obtain ⟨h, cut', whole⟩ := w.alive c guarded alive recodes
  have placed : ({ code.widen.narrow with maxStack := depth } : Body).placed =
      { code.widen.narrow with maxStack := depth } :=
    congrArg (fun instrs => ({ code.widen.narrow with instrs, maxStack := depth } : Body))
      code.widen.placed_narrow.place_eq
  have back' : h.toBody = .ok { code.widen.narrow with maxStack := depth } := by
    rw [Body.toBody_toGraph cut' ((w.wired c).recodes recodes)
      (recodes.names.numbered (w.numbered c)).fresh (recodes.names.proper proper), placed]
  refine ⟨⟨code, wrote, recodes⟩, h, cut', ?_, ?_, finish_again measured back'⟩
  · rw [Graph.removeDead, whole]
    rfl
  · simp only [Graph.repartition, back', bind, Except.bind, cut']

def tell (event : Event) : Nat → EStateM Error (Engine × MethodTable) Unit
  | 0 => return
  | n + 1 => do
    modify fun (e, methods) => (e.record [event], methods)
    tell event n

/-- Prune a method in place. All that can fail comes before the new body is stored, and the events
    come after that. -/
def pruning (m : Method) : EStateM Error (Engine × MethodTable) Unit :=
  if m.broken then throw .locked
  else
    match m.code? with
    | none => return
    | some body => do
      let graph ← ofExcept body.toGraph
      let (removed, live) ← ofExcept graph.removeDead
      let again ← ofExcept live.repartition
      let body ← ofExcept (finish m again)
      modify fun (e, methods) => (e, methods.setBody m.token body)
      tell { kind := .blockRemoved, method := some m.token } removed

def prune (e : Engine) (methods : MethodTable) (m : Method) :
    Except Error Unit × Engine × MethodTable :=
  match (pruning m).run (e, methods) with
  | .ok _ after => (.ok (), after)
  | .error cause after => (.error cause, after)

theorem tell_run (event : Event) (n : Nat) (e : Engine) (methods : MethodTable) :
    (tell event n).run (e, methods) = .ok () (e.record (List.replicate n event), methods) := by
  induction n generalizing e with
  | zero =>
    rw [List.replicate_zero, record, List.append_nil]
    rfl
  | succ n ih =>
    have journal : (e.record [event]).record (List.replicate n event) =
        e.record (List.replicate (n + 1) event) := by
      simp only [record, List.append_assoc, List.singleton_append, List.replicate_succ]
    rw [← journal]
    exact ih (e.record [event])

theorem pruning_run (e : Engine) (methods : MethodTable) (m : Method) :
    (pruning m).run (e, methods) = match e.pruneMethod methods m with
      | .ok after => .ok () after
      | .error cause => .error cause (e, methods) := by
  unfold pruning pruneMethod pruned
  split
  · rfl
  · cases has : m.code? with
    | none => rfl
    | some body =>
      dsimp only
      rw [ofExcept_bind]
      cases cut : body.toGraph with
      | error cause => simp only [bind, Except.bind]
      | ok g =>
        dsimp only
        rw [ofExcept_bind]
        cases removed : g.removeDead with
        | error cause => simp only [bind, Except.bind, removed]
        | ok result =>
          dsimp only
          rw [ofExcept_bind]
          cases anew : result.2.repartition with
          | error cause => simp only [bind, Except.bind, removed, anew]
          | ok again =>
            dsimp only
            rw [ofExcept_bind]
            cases wrote : finish m again with
            | error cause => simp only [bind, Except.bind, removed, anew, wrote]
            | ok written =>
              simp only [bind, Except.bind, removed, anew, wrote]
              exact tell_run _ result.1 e (methods.setBody m.token written)

theorem prune_ok {done : Unit} : e.prune methods m = (.ok done, e', methods') ↔
    e.pruneMethod methods m = .ok (e', methods') := by
  rw [prune, pruning_run]
  cases e.pruneMethod methods m <;> simp

theorem prune_error {cause : Error} (failed : (e.prune methods m).1 = .error cause) :
    (e.prune methods m).2 = (e, methods) := by
  rw [prune, pruning_run] at failed ⊢
  cases result : e.pruneMethod methods m with
  | ok after =>
    rw [result] at failed
    cases failed
  | error cause => rfl

theorem pruneMethod_empty (e : Engine) (methods : MethodTable) (readable : m.broken = false)
    (lacks : m.code? = none) : e.pruneMethod methods m = .ok (e, methods) := by
  simp [pruneMethod, pruned, readable, lacks, bind, Except.bind, pure, Except.pure]

theorem pruneMethod_settled (e : Engine) (readable : m.broken = false)
    (has : m.code? = some body) (kept : methods.setBody m.token body = methods)
    (cut : body.toGraph = .ok g) (alive : g.removeDead = .ok (0, g))
    (same : g.repartition = .ok g) (done : finish m g = .ok body) :
    e.pruneMethod methods m = .ok (e, methods) := by
  simp only [pruneMethod, pruned, readable, Bool.false_eq_true, if_false, has, cut, alive, same,
    done, record, List.replicate_zero, List.append_nil, Option.isSome_some, if_true, bind,
    Except.bind, pure, Except.pure]
  exact congrArg (fun after => Except.ok (e, after)) kept

theorem pruneMethod_ok (done : e.pruneMethod methods m = .ok (e', methods')) :
    m.broken = false ∧
      (m.code? = none ∧ e' = e ∧ methods' = methods ∨
        ∃ body g n live again written, m.code? = some body ∧ body.toGraph = .ok g ∧
          g.removeDead = .ok (n, live) ∧ live.repartition = .ok again ∧
          finish m again = .ok written ∧ methods' = methods.setBody m.token written) := by
  obtain ⟨⟨e₁, m'⟩, ran, rest⟩ := bind_ok_iff.mp done
  obtain ⟨readable, ⟨lacks, rfl, rfl⟩ |
    ⟨body, g, n, live, again, written, has, cut, removed, anew, wrote, rfl, rfl⟩⟩ := pruned_ok ran
  · rw [lacks] at rest
    cases rest
    exact ⟨readable, .inl ⟨lacks, rfl, rfl⟩⟩
  · rw [has] at rest
    cases rest
    exact ⟨readable, .inr ⟨body, g, n, live, again, written, has, cut, removed, anew, wrote, rfl⟩⟩

theorem rebodied_held (held : methods.get? m.token = some m) (stored : m.body = some body) :
    methods.Rebodied m.token body methods := by
  intro other
  by_cases same : other = m.token
  · subst same
    rw [held, Option.map_some, if_pos rfl, ← stored]
  · simp [same]

/-- Pruning a method changes nothing if it fails. If it succeeds, it leaves the live code of the
    method, and there is nothing to do the next time. -/
theorem prune_once_and_for_all (e : Engine) (held : methods.get? m.token = some m)
    (stored : m.body = some body) (numbered : body.Numbered) (wired : body.Wired)
    (proper : ∀ clause ∈ body.clauses, clause.Proper body) :
    (∀ cause, (e.prune methods m).1 = .error cause → (e.prune methods m).2 = (e, methods)) ∧
      ∀ e' methods', e.prune methods m = (.ok (), e', methods') →
        ∃ written, methods.Rebodied m.token written methods' ∧ body.Prunes written ∧
          e'.prune methods' { m with body := some written } = (.ok (), e', methods') := by
  refine ⟨fun cause failed => prune_error failed, fun e' methods' pruned => ?_⟩
  obtain ⟨readable, ⟨lacks, rfl, rfl⟩ |
    ⟨body', g, n, live, again, written, has, cut, removed, anew, done, rfl⟩⟩ :=
    pruneMethod_ok (prune_ok.mp pruned)
  · have empty : body.instrs = [] := by
      by_contra filled
      rw [code?_of_filled stored filled] at lacks
      cases lacks
    have same : { m with body := some body } = m := by rw [← stored]
    refine ⟨body, rebodied_held held stored, ⟨[], by simp [empty], by simp [empty], ?_⟩, ?_⟩
    · rw [empty]
      exact .nil
    · rw [same]
      exact prune_ok.mpr (pruneMethod_empty _ _ readable lacks)
  · cases stored.symm.trans (code?_some has).1
    have c := Body.toGraph_consistent numbered cut
    have guarded := Body.toGraph_guarded proper cut
    have room := (Body.verbatim_of_removeDead numbered wired cut removed).roomToWrite
      (c.removeDead removed).laid
    obtain ⟨⟨code, wrote, recodes⟩, h, cut', alive, same, done'⟩ :=
      finish_settles (c.removeDead removed) (guarded.removeDead removed) room
        (fun id => Graph.reached_removeDead c.laid guarded removed) anew done
    have keeps := Body.prunes_of_removeDead numbered wired cut removed wrote
    refine ⟨written, methods.rebodied_setBody m.token written, keeps.recodes recodes,
      prune_ok.mpr ?_⟩
    exact pruneMethod_settled _ readable (code?_of_filled rfl (Body.filled_of_toGraph cut'))
      (methods.setBody_setBody m.token written written) cut' alive same done'

/-- Dead code behind a jump, the dead handler of a dead range, and a live range that is protected
    by a filter. -/
def strayTest : Body where
  instrs := [⟨0, .br .long, .target 4, 0⟩, ⟨1, .nop, .none, 5⟩, ⟨2, .leave .long, .target 4, 6⟩,
    ⟨3, .leave .long, .target 4, 11⟩, ⟨4, .nop, .none, 16⟩, ⟨5, .leave .long, .target 12, 17⟩,
    ⟨6, .nop, .none, 22⟩, ⟨7, .pop, .none, 23⟩, ⟨8, .ldcI4S, .immediate (.int8 1#8), 24⟩,
    ⟨9, .endfilter, .none, 26⟩, ⟨10, .pop, .none, 28⟩, ⟨11, .leave .long, .target 12, 29⟩,
    ⟨12, .ret, .none, 34⟩]
  clauses := [⟨.typed, 1, some 3, 3, some 4, none, none⟩,
    ⟨.filter, 4, some 7, 10, some 12, some 7, none⟩]
  nextId := 13

def stray : Method := { body := some strayTest }

theorem stray_prune_once_and_for_all :
    strayTest.Numbered ∧ strayTest.Wired ∧ (∀ clause ∈ strayTest.clauses, clause.Proper strayTest) ∧
      ∃ e' methods', ({} : Engine).prune ⟨[stray]⟩ stray = (.ok (), e', methods') ∧
        ∃ written, MethodTable.Rebodied ⟨[stray]⟩ stray.token written methods' ∧
          strayTest.Prunes written ∧
          e'.prune methods' { stray with body := some written } = (.ok (), e', methods') := by
  have numbered : strayTest.Numbered := ⟨by decide, by decide⟩
  have wired : strayTest.Wired := by
    refine ⟨?_, ?_⟩ <;> simp [Body.Linked, strayTest, Instr.flow, Opcode.flow]
  have proper : ∀ clause ∈ strayTest.clauses, clause.Proper strayTest := by
    intro clause inside
    rcases List.mem_pair.mp inside with rfl | rfl
    · refine ⟨⟨1, 3, rfl, rfl, by decide⟩, ⟨3, 4, rfl, rfl, by decide⟩, rfl, ?_⟩
      rintro f ⟨⟩
    · refine ⟨⟨4, 7, rfl, rfl, by decide⟩, ⟨10, 12, rfl, rfl, by decide⟩, rfl, ?_⟩
      rintro f ⟨⟩
      exact ⟨7, 10, rfl, rfl, by decide⟩
  have held : MethodTable.get? ⟨[stray]⟩ stray.token = some stray := rfl
  obtain ⟨-, pruned⟩ := prune_once_and_for_all {} held rfl numbered wired proper
  have ran : ({} : Engine).prune ⟨[stray]⟩ stray = (.ok (), _, _) := prune_ok.mpr rfl
  exact ⟨numbered, wired, proper, _, _, ran, pruned _ _ ran⟩

end Engine
end Unravel
