import Unravel.Proofs.Graph.Complete
import Unravel.Proofs.Graph.Reachability

/-!
Stack depths are measured exactly. Control meets an instruction at a depth if some path brings it
there; a body is balanced if every instruction can run at every depth at which it is met, and is
met at one depth only. The measurement stops at the first state that breaks a rule, yet it accepts
just the balanced bodies, and what it returns is the greatest depth on any path.
-/
namespace Unravel.Body
variable {returns : Bool} {b : Body} {s s' : StackState} {i : Instr}

/-- Control goes from a state to another one: to a target of the instruction, or to the next one.
    Leaving a protected range empties the stack. -/
inductive Leads (returns : Bool) (b : Body) (s : StackState) : StackState → Prop where
  | jump {i : Instr} {e : StackEffect} {t : InstrId} {m : Nat} (here : b.instrs[s.index]? = some i)
      (effect : i.stackEffect? returns = some e) (enough : e.pops ≤ s.depth)
      (goes : t ∈ i.targets) (index : b.index? t = some m) :
      Leads returns b s ⟨m, if i.flow = .leave then 0 else s.depth - e.pops + e.pushes⟩
  | next {i : Instr} {e : StackEffect} (here : b.instrs[s.index]? = some i)
      (effect : i.stackEffect? returns = some e) (enough : e.pops ≤ s.depth)
      (falls : i.flow.fallsThrough = true) (more : s.index + 1 < b.instrs.length) :
      Leads returns b s ⟨s.index + 1, s.depth - e.pops + e.pushes⟩

/-- States at which control can enter a body: at the start, and at the entries of its clauses. -/
inductive Enters (b : Body) : StackState → Prop where
  | start : Enters b ⟨0, 0⟩
  | handler {c : Clause} {n : Nat} (inside : c ∈ b.clauses)
      (index : b.index? c.handlerStart = some n) : Enters b ⟨n, c.flags.entryDepth⟩
  | filter {c : Clause} {f : InstrId} {n : Nat} (inside : c ∈ b.clauses)
      (filtered : c.filterStart = some f) (index : b.index? f = some n) : Enters b ⟨n, 1⟩

/-- Some path brings control to a state. -/
inductive Meets (returns : Bool) (b : Body) : StackState → Prop where
  | enter {s : StackState} (enters : Enters b s) : Meets returns b s
  | step {s s' : StackState} (from_ : Meets returns b s) (leads : Leads returns b s s') :
      Meets returns b s'

/-- An instruction can run in a state: its effect is known, it takes no more than there is, a
    return leaves nothing behind, its targets exist, and it does not run off the end. -/
structure Runs (returns : Bool) (b : Body) (s : StackState) (i : Instr) : Prop where
  effect : ∃ e, i.stackEffect? returns = some e ∧ e.pops ≤ s.depth ∧
    (i.opcode = .ret → s.depth - e.pops + e.pushes = 0)
  targets : ∀ t ∈ i.targets, ∃ m, b.index? t = some m
  onward : i.flow.fallsThrough = true → s.index + 1 < b.instrs.length

/-- All paths through a body keep the rules of the stack. -/
structure Balanced (returns : Bool) (b : Body) : Prop where
  handlers : ∀ c ∈ b.clauses, ∃ n, b.index? c.handlerStart = some n
  filters : ∀ c ∈ b.clauses, ∀ f, c.filterStart = some f → ∃ n, b.index? f = some n
  runs : ∀ {s i}, Meets returns b s → b.instrs[s.index]? = some i → Runs returns b s i
  agrees : ∀ {s s'}, Meets returns b s → Meets returns b s' → s.index = s'.index →
    s.depth = s'.depth

/-- A depth occurs before or after an instruction on some path. -/
def Occurs (returns : Bool) (b : Body) (depth : Nat) : Prop :=
  ∃ s i e, Meets returns b s ∧ b.instrs[s.index]? = some i ∧ i.stackEffect? returns = some e ∧
    (depth = s.depth ∨ depth = s.depth - e.pops + e.pushes)

/-- The measurement in place. The depth is put on record once exploration has come to its end. -/
def measuring (returns : Bool) : EStateM Error Body Nat := do
  let b ← get
  if b.instrs.isEmpty then
    modify fun b => { b with maxStack := 0 }
    return 0
  let entered ← ofExcept b.entries
  let peak ← ofExcept (explore returns b b.stateBudget entered.reverse [] 0)
  modify fun b => { b with maxStack := peak }
  return peak

/-- The body that a measurement in place leaves, whether it ends well or not. -/
def remeasured (returns : Bool) (b : Body) : Body :=
  match (measuring returns).run b with
  | .ok _ after => after
  | .error _ after => after

theorem Enters.inside (filled : b.instrs ≠ []) (enters : Enters b s) :
    s.index < b.instrs.length := by
  cases enters with
  | start => exact List.length_pos_of_ne_nil filled
  | handler _ index => exact lastIndex?_lt index
  | filter _ _ index => exact lastIndex?_lt index

theorem Meets.inside (filled : b.instrs ≠ []) (met : Meets returns b s) :
    s.index < b.instrs.length := by
  cases met with
  | enter enters => exact enters.inside filled
  | step _ leads =>
    cases leads with
    | jump _ _ _ _ index => exact lastIndex?_lt index
    | next _ _ _ _ more => exact more

section Advance

theorem depthAfter_ok {after : Nat} : depthAfter returns i s = .ok after ↔
    ∃ e, i.stackEffect? returns = some e ∧ e.pops ≤ s.depth ∧
      after = s.depth - e.pops + e.pushes ∧ (i.opcode = .ret → after = 0) := by
  unfold depthAfter
  cases i.stackEffect? returns with
  | none => simp
  | some e =>
    simp only [Option.some.injEq, exists_eq_left']
    by_cases short : s.depth < e.pops
    · simp [short]
    · simp only [short, if_false]
      split
      · rename_i leftOver
        constructor
        · rintro ⟨⟩
        · rintro ⟨-, rfl, returned⟩
          exact absurd (returned leftOver.1) leftOver.2
      · rename_i fine
        simp only [Except.ok.injEq]
        constructor
        · rintro rfl
          exact ⟨by omega, rfl, fun op => by_contra fun left => fine ⟨op, left⟩⟩
        · rintro ⟨-, rfl, -⟩
          rfl

theorem seekAll_ok {f : InstrId → BodyFault} {ids : List InstrId} {goals : List Nat} :
    ids.mapM (b.seekIndex f) = .ok goals ↔
      List.Forall₂ (fun t m => b.index? t = some m) ids goals := by
  simp only [mapM_ok_iff, seekIndex_ok]

theorem statesAfter_ok {n after : Nat} {found : List StackState} :
    b.statesAfter i n after = .ok found ↔
      ∃ goals, List.Forall₂ (fun t m => b.index? t = some m) i.targets goals ∧
        (i.flow.fallsThrough = true → n + 1 < b.instrs.length) ∧
        found = goals.map (fun m => ⟨m, if i.flow = .leave then 0 else after⟩) ++
          if i.flow.fallsThrough then [⟨n + 1, after⟩] else [] := by
  simp only [← seekAll_ok (f := .missingTarget)]
  unfold statesAfter
  cases i.targets.mapM (b.seekIndex .missingTarget) with
  | error e => simp [bind, Except.bind]
  | ok goals =>
    simp only [bind, Except.bind, pure, Except.pure, throw, throwThe, MonadExceptOf.throw,
      Except.ok.injEq, exists_eq_left']
    cases i.flow.fallsThrough with
    | false => simp [eq_comm]
    | true =>
      by_cases more : n + 1 < b.instrs.length
      · simp [more, Nat.not_le.mpr more, eq_comm]
      · simp [more, Nat.not_lt.mp more]

theorem mem_states_iff {e : StackEffect} {goals : List Nat} (here : b.instrs[s.index]? = some i)
    (effect : i.stackEffect? returns = some e) (enough : e.pops ≤ s.depth)
    (all : List.Forall₂ (fun t m => b.index? t = some m) i.targets goals)
    (onward : i.flow.fallsThrough = true → s.index + 1 < b.instrs.length) (s' : StackState) :
    s' ∈ (goals.map fun m => ⟨m, if i.flow = .leave then 0 else s.depth - e.pops + e.pushes⟩) ++
        (if i.flow.fallsThrough then [⟨s.index + 1, s.depth - e.pops + e.pushes⟩] else []) ↔
      Leads returns b s s' := by
  rw [List.mem_append, List.mem_map]
  constructor
  · rintro (⟨m, listed, rfl⟩ | next)
    · obtain ⟨t, goes, index⟩ := exists_of_forall₂_mem all.flip listed
      exact .jump here effect enough goes index
    · split at next
      · rename_i falls
        rw [List.mem_singleton.mp next]
        exact .next here effect enough falls (onward falls)
      · cases next
  · intro leads
    cases leads with
    | jump here' effect' _ goes index =>
      cases here.symm.trans here'
      cases effect.symm.trans effect'
      obtain ⟨m, listed, index'⟩ := exists_of_forall₂_mem all goes
      cases index.symm.trans index'
      exact .inl ⟨_, listed, rfl⟩
    | next here' effect' _ falls more =>
      cases here.symm.trans here'
      cases effect.symm.trans effect'
      right
      rw [if_pos falls]
      exact List.mem_cons_self

theorem advance_ok {after : Nat} {found : List StackState} (here : b.instrs[s.index]? = some i)
    (done : b.advance returns s = .ok (after, found)) :
    Runs returns b s i ∧ found.length ≤ i.targets.length + 1 ∧
      (∃ e, i.stackEffect? returns = some e ∧ after = s.depth - e.pops + e.pushes) ∧
      ∀ s', s' ∈ found ↔ Leads returns b s s' := by
  rw [advance, here] at done
  obtain ⟨after', depth, done⟩ := bind_ok_iff.mp done
  obtain ⟨found', states, done⟩ := bind_ok_iff.mp done
  cases done
  obtain ⟨e, effect, enough, rfl, returned⟩ := depthAfter_ok.mp depth
  obtain ⟨goals, all, onward, rfl⟩ := statesAfter_ok.mp states
  refine ⟨⟨⟨e, effect, enough, returned⟩, ?_, onward⟩, ?_, ⟨e, effect, rfl⟩,
    mem_states_iff here effect enough all onward⟩
  · intro t goes
    obtain ⟨m, -, index⟩ := exists_of_forall₂_mem all goes
    exact ⟨m, index⟩
  · rw [List.length_append, List.length_map, ← all.length_eq]
    split <;> simp

theorem advance_of_runs (here : b.instrs[s.index]? = some i) (runs : Runs returns b s i) :
    ∃ result, b.advance returns s = .ok result := by
  obtain ⟨e, effect, enough, returned⟩ := runs.effect
  have depth := depthAfter_ok.mpr ⟨e, effect, enough, rfl, returned⟩
  obtain ⟨goals, sought⟩ := exists_mapM_ok (f := b.seekIndex .missingTarget) fun t goes => by
    obtain ⟨m, index⟩ := runs.targets t goes
    exact ⟨m, seekIndex_ok.mpr index⟩
  have states : b.statesAfter i s.index (s.depth - e.pops + e.pushes) = .ok _ :=
    statesAfter_ok.mpr ⟨goals, seekAll_ok.mp sought, runs.onward, rfl⟩
  simp only [advance, here, bind, Except.bind, pure, Except.pure, depth, states]
  exact ⟨_, rfl⟩

end Advance

theorem clauseEntries_ok {c : Clause} {found : List StackState}
    (done : b.clauseEntries c = .ok found) :
    (∃ n, b.index? c.handlerStart = some n) ∧
      (∀ f, c.filterStart = some f → ∃ n, b.index? f = some n) ∧ found.length ≤ 2 ∧
      ∀ s, s ∈ found ↔
        (∃ n, b.index? c.handlerStart = some n ∧ s = ⟨n, c.flags.entryDepth⟩) ∨
        ∃ f n, c.filterStart = some f ∧ b.index? f = some n ∧ s = ⟨n, 1⟩ := by
  obtain ⟨n, handler, done⟩ := bind_ok_iff.mp done
  have index := seekIndex_ok.mp handler
  cases filtered : c.filterStart with
  | none =>
    rw [filtered] at done
    cases done
    simp [index]
  | some f =>
    rw [filtered] at done
    obtain ⟨m, filter, done⟩ := bind_ok_iff.mp done
    cases done
    simp [index, seekIndex_ok.mp filter]

theorem clauseEntries_of_found {c : Clause} (handler : ∃ n, b.index? c.handlerStart = some n)
    (filter : ∀ f, c.filterStart = some f → ∃ n, b.index? f = some n) :
    ∃ found, b.clauseEntries c = .ok found := by
  obtain ⟨n, index⟩ := handler
  unfold clauseEntries
  rw [seekIndex_ok.mpr index]
  cases filtered : c.filterStart with
  | none => exact ⟨_, rfl⟩
  | some f =>
    obtain ⟨m, there⟩ := filter f filtered
    simp only [bind, Except.bind, seekIndex_ok.mpr there]
    exact ⟨_, rfl⟩

theorem entries_ok {start : List StackState} (done : b.entries = .ok start) :
    (∀ c ∈ b.clauses, ∃ n, b.index? c.handlerStart = some n) ∧
      (∀ c ∈ b.clauses, ∀ f, c.filterStart = some f → ∃ n, b.index? f = some n) ∧
      start.length ≤ 1 + 2 * b.clauses.length ∧ ∀ s, s ∈ start ↔ Enters b s := by
  obtain ⟨lists, each, done⟩ := bind_ok_iff.mp done
  cases done
  have all := mapM_ok_iff.mp each
  have clause : ∀ c ∈ b.clauses, ∃ found ∈ lists, b.clauseEntries c = .ok found :=
    fun c inside => exists_of_forall₂_mem all inside
  refine ⟨?_, ?_, ?_, ?_⟩
  · intro c inside
    obtain ⟨found, -, made⟩ := clause c inside
    exact (clauseEntries_ok made).1
  · intro c inside
    obtain ⟨found, -, made⟩ := clause c inside
    exact (clauseEntries_ok made).2.1
  · have short : ∀ found ∈ lists, found.length ≤ 2 := by
      intro found listed
      obtain ⟨c, -, made⟩ := exists_of_forall₂_mem all.flip listed
      exact (clauseEntries_ok made).2.2.1
    have size := List.sum_le_card_nsmul (lists.map List.length) 2 (by simpa using short)
    rw [← List.length_flatten, List.length_map, ← all.length_eq, smul_eq_mul] at size
    rw [List.length_cons]
    omega
  · intro s
    rw [List.mem_cons, List.mem_flatten]
    constructor
    · rintro (rfl | ⟨found, listed, inside⟩)
      · exact .start
      · obtain ⟨c, among, made⟩ := exists_of_forall₂_mem all.flip listed
        rcases ((clauseEntries_ok made).2.2.2 s).mp inside with
          ⟨n, index, rfl⟩ | ⟨f, n, filtered, index, rfl⟩
        · exact .handler among index
        · exact .filter among filtered index
    · intro enters
      cases enters with
      | start => exact .inl rfl
      | handler among index =>
        obtain ⟨found, listed, made⟩ := clause _ among
        exact .inr ⟨found, listed, ((clauseEntries_ok made).2.2.2 _).mpr (.inl ⟨_, index, rfl⟩)⟩
      | filter among filtered index =>
        obtain ⟨found, listed, made⟩ := clause _ among
        exact .inr ⟨found, listed,
          ((clauseEntries_ok made).2.2.2 _).mpr (.inr ⟨_, _, filtered, index, rfl⟩)⟩

theorem entries_of_found (handlers : ∀ c ∈ b.clauses, ∃ n, b.index? c.handlerStart = some n)
    (filters : ∀ c ∈ b.clauses, ∀ f, c.filterStart = some f → ∃ n, b.index? f = some n) :
    ∃ start, b.entries = .ok start := by
  obtain ⟨lists, done⟩ := exists_mapM_ok fun c inside =>
    clauseEntries_of_found (handlers c inside) (filters c inside)
  unfold entries
  rw [done]
  exact ⟨_, rfl⟩

/-- What exploration has found out so far. States in `seen` were advanced over, states in `work`
    are due, and `peak` is the greatest depth around the states seen. -/
structure Explored (returns : Bool) (b : Body) (work seen : List StackState) (peak : Nat) :
    Prop where
  entered : ∀ s, Enters b s → s ∈ seen ∨ s ∈ work
  met : ∀ s ∈ seen, Meets returns b s
  due : ∀ s ∈ work, Meets returns b s
  single : ∀ s ∈ seen, ∀ s' ∈ seen, s.index = s'.index → s = s'
  runs : ∀ s ∈ seen, ∀ i, b.instrs[s.index]? = some i → Runs returns b s i
  closed : ∀ s ∈ seen, ∀ s', Leads returns b s s' → s' ∈ seen ∨ s' ∈ work
  bound : ∀ s ∈ seen, ∀ i e, b.instrs[s.index]? = some i → i.stackEffect? returns = some e →
    s.depth ≤ peak ∧ s.depth - e.pops + e.pushes ≤ peak
  attained : peak = 0 ∨ Occurs returns b peak

namespace Explored
variable {work seen : List StackState} {peak : Nat}

theorem start {entries : List StackState} (all : ∀ s, s ∈ entries ↔ Enters b s) :
    Explored returns b entries.reverse [] 0 where
  entered s enters := .inr (List.mem_reverse.mpr ((all s).mpr enters))
  met _ inside := absurd inside List.not_mem_nil
  due s inside := .enter ((all s).mp (List.mem_reverse.mp inside))
  single _ inside := absurd inside List.not_mem_nil
  runs _ inside := absurd inside List.not_mem_nil
  closed _ inside := absurd inside List.not_mem_nil
  bound _ inside := absurd inside List.not_mem_nil
  attained := .inl rfl

theorem skip (known : Explored returns b (s :: work) seen peak) (again : s ∈ seen) :
    Explored returns b work seen peak := by
  have still : ∀ {s'}, s' ∈ seen ∨ s' ∈ s :: work → s' ∈ seen ∨ s' ∈ work := by
    rintro s' (old | later)
    · exact .inl old
    · rcases List.mem_cons.mp later with rfl | later
      · exact .inl again
      · exact .inr later
  exact ⟨fun s' enters => still (known.entered s' enters), known.met,
    fun s' later => known.due s' (List.mem_cons_of_mem s later), known.single, known.runs,
    fun s' inside s'' leads => still (known.closed s' inside s'' leads), known.bound,
    known.attained⟩

theorem advance {after : Nat} {found : List StackState}
    (known : Explored returns b (s :: work) seen peak) (here : b.instrs[s.index]? = some i)
    (fresh : ∀ s' ∈ seen, s'.index ≠ s.index) (done : b.advance returns s = .ok (after, found)) :
    Explored returns b (found.reverse ++ work) (s :: seen) (max peak (max s.depth after)) := by
  obtain ⟨runs, -, ⟨e, effect, rfl⟩, follows⟩ := advance_ok here done
  have here_ : Meets returns b s := known.due s List.mem_cons_self
  have still : ∀ {s'}, s' ∈ seen ∨ s' ∈ s :: work →
      s' ∈ s :: seen ∨ s' ∈ found.reverse ++ work := by
    rintro s' (old | later)
    · exact .inl (List.mem_cons_of_mem s old)
    · rcases List.mem_cons.mp later with rfl | later
      · exact .inl List.mem_cons_self
      · exact .inr (List.mem_append_right _ later)
  have only : ∀ {j}, b.instrs[s.index]? = some j → j = i := fun there =>
    Option.some.inj (there.symm.trans here)
  exact {
    entered := fun s' enters => still (known.entered s' enters)
    met := List.forall_mem_cons.mpr ⟨here_, known.met⟩
    due := List.forall_mem_append.mpr
      ⟨fun s' new => here_.step ((follows s').mp (List.mem_reverse.mp new)),
        (List.forall_mem_cons.mp known.due).2⟩
    single := List.forall_mem_cons.mpr
      ⟨List.forall_mem_cons.mpr ⟨fun _ => rfl, fun s' old same => absurd same.symm (fresh s' old)⟩,
        fun s' old => List.forall_mem_cons.mpr
          ⟨fun same => absurd same (fresh s' old), known.single s' old⟩⟩
    runs := List.forall_mem_cons.mpr ⟨fun j there => only there ▸ runs, known.runs⟩
    closed := List.forall_mem_cons.mpr
      ⟨fun s' leads => .inr <| List.mem_append_left _ <|
          List.mem_reverse.mpr ((follows s').mpr leads),
        fun s' old s'' leads => still (known.closed s' old s'' leads)⟩
    bound := by
      refine List.forall_mem_cons.mpr
        ⟨fun j e' there effect' => ?_, fun s' old j e' there effect' => ?_⟩
      · cases only there
        cases effect.symm.trans effect'
        omega
      · have := known.bound s' old j e' there effect'
        omega
    attained := by
      rcases Nat.le_total (max s.depth (s.depth - e.pops + e.pushes)) peak with below | above
      · rw [Nat.max_eq_left below]
        exact known.attained
      · rw [Nat.max_eq_right above]
        exact .inr ⟨s, i, e, here_, here, effect, by omega⟩ }

theorem mem_of_meets (known : Explored returns b [] seen peak) (met : Meets returns b s) :
    s ∈ seen := by
  induction met with
  | enter enters => exact (known.entered _ enters).resolve_right List.not_mem_nil
  | step _ leads ih => exact (known.closed _ ih _ leads).resolve_right List.not_mem_nil

theorem isGreatest (filled : b.instrs ≠ []) (known : Explored returns b [] seen peak) :
    IsGreatest {depth | Occurs returns b depth} peak := by
  constructor
  · rcases known.attained with zero | occurs
    · have first : Meets returns b ⟨0, 0⟩ := .enter .start
      obtain ⟨i, rest, code⟩ := List.exists_cons_of_ne_nil filled
      have here : b.instrs[0]? = some i := by rw [code, List.getElem?_cons_zero]
      obtain ⟨e, effect, -, -⟩ := (known.runs _ (known.mem_of_meets first) i here).effect
      exact ⟨_, _, e, first, here, effect, .inl zero⟩
    · exact occurs
  · rintro depth ⟨s, i, e, met, here, effect, rfl | rfl⟩
    · exact (known.bound s (known.mem_of_meets met) i e here effect).1
    · exact (known.bound s (known.mem_of_meets met) i e here effect).2

end Explored

def dues (b : Body) (n : Nat) : List Nat :=
  n :: ((b.instrs[n]?).map Instr.targets).getD []

theorem length_dues (here : b.instrs[s.index]? = some i) :
    (b.dues s.index).length = i.targets.length + 1 := by
  simp [dues, here]

theorem sum_dues (instrs : List Instr) :
    ((List.range instrs.length).map fun n =>
      ((instrs[n]?.map Instr.targets).getD []).length + 1).sum =
      (instrs.flatMap Instr.targets).length + instrs.length := by
  induction instrs with
  | nil => rfl
  | cons i rest ih =>
    rw [List.length_cons, List.range_succ_eq_map, List.map_cons, List.map_map, List.sum_cons]
    simp only [Function.comp_def, List.getElem?_cons_succ, List.getElem?_cons_zero,
      Option.map_some, Option.getD_some, Nat.succ_eq_add_one, ih, List.flatMap_cons,
      List.length_append]
    omega

theorem pending_dues (b : Body) : pending b.dues (List.range b.instrs.length) [] =
    (b.instrs.flatMap Instr.targets).length + b.instrs.length := by
  rw [← sum_dues]
  simp [pending, dues, List.length_flatMap]

theorem mem_of_seenDepth? {seen : List StackState} {n d : Nat}
    (found : seenDepth? seen n = some d) : ⟨n, d⟩ ∈ seen := by
  obtain ⟨s, first, rfl⟩ := Option.map_eq_some_iff.mp found
  have same : s.index = n := by simpa using List.find?_some first
  subst same
  exact List.mem_of_find?_eq_some first

theorem ne_of_seenDepth? {seen : List StackState} {n : Nat} (none : seenDepth? seen n = none) :
    ∀ s ∈ seen, s.index ≠ n := by
  simpa [seenDepth?] using none

/-- With a step for each state that can become due, exploration comes to an end: all was seen and
    the peak is returned, or a state was met that breaks the rules. -/
theorem explore_ends (filled : b.instrs ≠ []) {fuel : Nat} {work seen : List StackState}
    {peak : Nat} (known : Explored returns b work seen peak)
    (enough : work.length + pending b.dues (List.range b.instrs.length)
      (seen.map StackState.index) ≤ fuel) :
    (∃ m all, explore returns b fuel work seen peak = .ok m ∧ Explored returns b [] all m) ∨
      (∃ e, explore returns b fuel work seen peak = .error e) ∧ ¬ Balanced returns b := by
  fun_induction explore returns b fuel work seen peak with
  | case1 fuel s work seen peak seenBefore ih =>
    have again : s ∈ seen := mem_of_seenDepth? seenBefore
    refine ih (known.skip again) ?_
    rw [List.length_cons] at enough
    omega
  | case2 fuel s work seen peak depth seenBefore other =>
    have met := known.met _ (mem_of_seenDepth? seenBefore)
    refine .inr ⟨⟨_, rfl⟩, fun balanced => other ?_⟩
    exact balanced.agrees met (known.due s List.mem_cons_self) rfl
  | case3 fuel s work seen peak fresh e failed =>
    have met := known.due s List.mem_cons_self
    refine .inr ⟨⟨_, rfl⟩, fun balanced => ?_⟩
    have here := List.getElem?_eq_getElem (met.inside filled)
    obtain ⟨result, done⟩ := advance_of_runs here (balanced.runs met here)
    rw [failed] at done
    cases done
  | case4 fuel s work seen peak fresh after found done ih =>
    have inside := (known.due s List.mem_cons_self).inside filled
    have here := List.getElem?_eq_getElem inside
    have away := ne_of_seenDepth? fresh
    refine ih (known.advance here away done) ?_
    have few := (advance_ok here done).2.1
    have unseen : s.index ∉ seen.map StackState.index := by
      intro listed
      obtain ⟨s', old, same⟩ := List.mem_map.mp listed
      exact away s' old same
    -- The states found are paid for with what is set aside for this index.
    have cost := pending_cons b.dues List.nodup_range (List.mem_range.mpr inside) unseen
    rw [length_dues here] at cost
    rw [List.length_cons] at enough
    rw [List.length_append, List.length_reverse, List.map_cons]
    omega
  | case5 fuel work seen peak stops =>
    cases work with
    | nil => exact .inl ⟨peak, seen, rfl, known⟩
    | cons s work =>
      cases fuel with
      | zero => simp at enough
      | succ fuel => exact (stops fuel s work rfl rfl).elim

theorem Explored.balanced {seen : List StackState} {peak : Nat}
    (known : Explored returns b [] seen peak) {start : List StackState}
    (entered : b.entries = .ok start) : Balanced returns b where
  handlers := (entries_ok entered).1
  filters := (entries_ok entered).2.1
  runs met here := known.runs _ (known.mem_of_meets met) _ here
  agrees met met' same := by
    rw [known.single _ (known.mem_of_meets met) _ (known.mem_of_meets met') same]

theorem stackDepth_ends (filled : b.instrs ≠ []) :
    (∃ m, b.stackDepth returns = .ok m ∧ Balanced returns b ∧
      IsGreatest {depth | Occurs returns b depth} m) ∨
    (∃ e, b.stackDepth returns = .error e) ∧ ¬ Balanced returns b := by
  unfold stackDepth
  rw [if_neg (by simpa using filled)]
  cases entered : b.entries with
  | error e =>
    refine .inr ⟨⟨e, rfl⟩, fun balanced => ?_⟩
    obtain ⟨start, done⟩ := entries_of_found balanced.handlers balanced.filters
    rw [entered] at done
    cases done
  | ok start =>
    obtain ⟨-, -, few, all⟩ := entries_ok entered
    have enough : start.reverse.length + pending b.dues (List.range b.instrs.length)
        (([] : List StackState).map StackState.index) ≤ b.stateBudget := by
      rw [List.length_reverse, List.map_nil, pending_dues, stateBudget]
      omega
    rcases explore_ends filled (Explored.start all) enough with ⟨m, seen, done, known⟩ | failed
    · exact .inl ⟨m, done, known.balanced entered, known.isGreatest filled⟩
    · exact .inr failed

theorem stackDepth_ok_iff (filled : b.instrs ≠ []) :
    (∃ m, b.stackDepth returns = .ok m) ↔ Balanced returns b := by
  rcases stackDepth_ends filled with ⟨m, done, balanced, -⟩ | ⟨⟨e, failed⟩, unbalanced⟩
  · exact ⟨fun _ => balanced, fun _ => ⟨m, done⟩⟩
  · refine ⟨?_, fun balanced => absurd balanced unbalanced⟩
    rintro ⟨m, done⟩
    rw [failed] at done
    cases done

theorem measuring_run (returns : Bool) (b : Body) :
    (measuring returns).run b = match b.stackDepth returns with
      | .ok depth => .ok depth { b with maxStack := depth }
      | .error cause => .error cause b := by
  unfold measuring stackDepth
  simp only [EStateM.run_bind, EStateM.run_get]
  split
  · rfl
  · simp only [ofExcept_bind]
    cases b.entries with
    | error cause => rfl
    | ok entered =>
      have onward : (do
          let start ← Except.ok entered
          explore returns b b.stateBudget start.reverse [] 0) =
            explore returns b b.stateBudget entered.reverse [] 0 := rfl
      rw [onward]
      dsimp only
      cases explore returns b b.stateBudget entered.reverse [] 0 <;> rfl

/-- A body is accepted exactly if it is balanced. The greatest depth that occurs is then put on
    record; a body that is not accepted stays as it was. -/
theorem measured_exactly (returns : Bool) (b : Body) (filled : b.instrs ≠ []) :
    ((∃ m, b.stackDepth returns = .ok m) ↔ Balanced returns b) ∧
      (∀ m, b.stackDepth returns = .ok m →
        IsGreatest {depth | Occurs returns b depth} m ∧
          b.measured returns = .ok { b with maxStack := m } ∧
          b.remeasured returns = { b with maxStack := m }) ∧
      ∀ e, b.stackDepth returns = .error e →
        b.measured returns = .error e ∧ b.remeasured returns = b := by
  refine ⟨stackDepth_ok_iff filled, ?_, ?_⟩
  · intro m done
    have measured : b.measured returns = .ok { b with maxStack := m } := by
      rw [Body.measured, done]
      rfl
    refine ⟨?_, measured, by rw [remeasured, measuring_run, done]⟩
    rcases stackDepth_ends filled with ⟨m', done', -, greatest⟩ | ⟨⟨e, failed⟩, -⟩
    · rw [done] at done'
      cases done'
      exact greatest
    · rw [done] at failed
      cases failed
  · intro e failed
    have measured : b.measured returns = .error e := by
      rw [Body.measured, failed]
      rfl
    exact ⟨measured, by rw [remeasured, measuring_run, failed]⟩

/-- A loop with a value on the stack, protected by a handler with a filter. -/
def loopedTest : Body where
  instrs := [⟨0, .ldcI4S, .immediate (.int8 3#8), 0⟩, ⟨1, .dup, .none, 2⟩,
    ⟨2, .branch .isTrue .long, .target 1, 3⟩, ⟨3, .pop, .none, 8⟩, ⟨4, .leave .long, .target 10, 9⟩,
    ⟨5, .pop, .none, 14⟩, ⟨6, .ldcI4S, .immediate (.int8 1#8), 15⟩, ⟨7, .endfilter, .none, 17⟩,
    ⟨8, .pop, .none, 19⟩, ⟨9, .leave .long, .target 10, 20⟩, ⟨10, .ret, .none, 25⟩]
  clauses := [⟨.filter, 0, some 5, 8, some 10, some 5, none⟩]
  nextId := 11

theorem loopedTest_measured_exactly :
    loopedTest.instrs ≠ [] ∧ Balanced false loopedTest ∧
      IsGreatest {depth | Occurs false loopedTest depth} 2 ∧
      loopedTest.remeasured false = { loopedTest with maxStack := 2 } := by
  have filled : loopedTest.instrs ≠ [] := by decide
  obtain ⟨accepted, recorded, -⟩ := measured_exactly false loopedTest filled
  obtain ⟨greatest, -, new⟩ := recorded 2 rfl
  exact ⟨filled, accepted.mp ⟨2, rfl⟩, greatest, new⟩

end Unravel.Body
