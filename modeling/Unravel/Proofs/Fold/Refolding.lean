import Unravel.Proofs.Fold.Values
import Unravel.Proofs.Pass.Folding

/-!
Folding a block again decides nothing new. A simulation goes as a run does in which nothing is known
of what other instructions push and in which a branch on unknown values goes nowhere. Folded code
runs as the code did, so a simulation of folded code that decided the branch would be a run that
goes on where the run of the code does not.
-/
namespace Unravel.Fold
variable {pinned : List Nat} {extra extra' : Bool} {t : Nat} {i : Instr} {s s' : State} {b : Block}

/-- An interpretation under which nothing is known of what instructions push, and a branch on
    unknown values goes nowhere. -/
def lost : Interp Unit Unit Unit := { unknownValues true with way := fun _ _ _ => none }

theorem lost_lawful (exposed : Nat → Prop) : lost.Lawful true exposed where
  arity {i taken frame _ _ _} yields known :=
    (unknownValues_lawful true exposed).arity
      (show (unknownValues true).effect i taken frame = _ from yields) known
  keeps {i taken frame _ _ _} yields hidden :=
    (unknownValues_lawful true exposed).keeps
      (show (unknownValues true).effect i taken frame = _ from yields) hidden

def Known.shown : Option Known → Value Unit
  | some known => .int known.value
  | none => .other ()

/-- A machine that holds what a state knows; whatever else it holds is unknown, and so are `k` more
    values at the bottom of its stack. -/
def State.machine (s : State) (k : Nat) : Machine Unit Unit where
  stack := s.stack.map Known.shown ++ List.replicate k (.other ())
  frame := ⟨fun n => ((s.locals.lookup n).map Value.int).getD (.other ()), fun _ => .other (), ()⟩

namespace State

theorem machine_pop (s : State) (k : Nat) :
    ∃ k', k ≤ k' ∧ s.machine (k + 1) =
      ⟨Known.shown s.pop.1 :: (s.pop.2.machine k').stack, (s.pop.2.machine k').frame⟩ := by
  unfold machine pop
  cases s.stack with
  | nil => exact ⟨k, Nat.le_refl k, rfl⟩
  | cons slot rest => exact ⟨k + 1, Nat.le_succ k, rfl⟩

theorem machine_two (s : State) (k : Nat) :
    ∃ rest, (s.machine (k + 2)).stack =
      Known.shown s.pop.1 :: Known.shown s.pop.2.pop.1 :: rest := by
  unfold machine pop
  rcases s.stack with _ | ⟨top, _ | ⟨under, rest⟩⟩ <;> exact ⟨_, rfl⟩

theorem known_of_int {stack : List (Option Known)} {k : Nat} {x : Constant}
    {values : List (Value Unit)}
    (shows : stack.map Known.shown ++ List.replicate k (.other ()) = .int x :: values) :
    ∃ a rest, stack = some a :: rest ∧ a.value = x ∧
      rest.map Known.shown ++ List.replicate k (.other ()) = values := by
  rcases stack with _ | ⟨_ | a, rest⟩
  · cases k <;> cases shows
  · cases shows
  · cases shows
    exact ⟨a, rest, rfl, rfl, rfl⟩

theorem machine_fold (s : State) (value : Constant) (sources : List Source) (k : Nat) :
    (s.fold extra t value sources).machine k =
      ⟨.int value :: (s.machine k).stack, (s.machine k).frame⟩ := by
  cases extra <;> rfl

theorem machine_forgetLocal (s : State) (n k : Nat) :
    (s.forgetLocal n).machine k =
      ⟨(s.machine k).stack, (s.machine k).frame.setLocal n (.other ())⟩ := by
  unfold machine forgetLocal Frame.setLocal
  simp only [lookup_filter_ne]
  congr 2
  funext m
  split <;> rfl

theorem machine_setLocal (s : State) (n : Nat) (value : Constant) (k : Nat) :
    (s.setLocal n value).machine k =
      ⟨(s.machine k).stack, (s.machine k).frame.setLocal n (.int value)⟩ := by
  unfold machine setLocal Frame.setLocal
  congr 2
  funext m
  rw [List.lookup_cons, lookup_filter_ne]
  by_cases here : m = n
  · simp [here]
  · have miss : (m == n) = false := by simpa using here
    simp [here, miss]

theorem machine_drop (s : State) (n k : Nat) :
    ∃ k', k ≤ k' ∧ (s.machine (n + k)).stack.drop n =
      (s.stack.drop n).map Known.shown ++ List.replicate k' (.other ()) := by
  refine ⟨n + k - (n - s.stack.length), by omega, ?_⟩
  rw [machine, List.drop_append, List.map_drop, List.length_map, List.drop_replicate]

end State

/-- An instruction runs from what one state knows to what another knows, if there is enough below
    the stack. -/
def Runs (i : Instr) (s s' : State) : Prop :=
  ∃ need, ∀ k, ∃ k', k ≤ k' ∧ lost.step true i (s.machine (need + k)) = .goes (s'.machine k')

theorem lost_call {effect : StackEffect} (known : i.stackEffect? true = some effect) (s : State)
    (k : Nat) :
    ∃ k', k ≤ k' ∧
      lost.call true i (s.machine (effect.pops + k)) = .goes ((s.skip effect).machine k') := by
  obtain ⟨k', more, below⟩ := s.machine_drop effect.pops k
  refine ⟨k', more, ?_⟩
  have enough : ¬ (s.machine (effect.pops + k)).stack.length < effect.pops := by
    simp only [State.machine, List.length_append, List.length_replicate]
    omega
  simp only [Interp.call, known, Option.map_some, Option.getD_some, if_neg enough, below]
  simp [lost, unknownValues, known, State.machine, State.skip, Known.shown]

theorem runs_skipped {effect : StackEffect} (known : i.stackEffect? true = some effect)
    (called : ∀ k, lost.step true i (s.machine (effect.pops + k)) =
      lost.call true i (s.machine (effect.pops + k))) : Runs i s (s.skip effect) := by
  refine ⟨effect.pops, fun k => ?_⟩
  rw [called]
  exact lost_call known s k

theorem runs_loaded {n : Nat} (value : i.constant? = none) (access : i.loadedLocal? = some n) :
    Runs i s (s.loadLocal extra t n) := by
  refine ⟨0, fun k => ⟨k, Nat.le_refl k, ?_⟩⟩
  rw [Nat.zero_add, Interp.step_loaded value access]
  rcases loadLocal_cases extra t s n with ⟨c, known, same⟩ | ⟨unknown, same⟩ <;> rw [same]
  · cases extra <;> simp [State.machine, known, State.push, Known.shown]
  · simp [State.machine, unknown, State.skip, Known.shown]

theorem runs_stored {n : Nat} (value : i.constant? = none) (load : i.loadedLocal? = none)
    (access : i.storedLocal? = some n) (free : n ∉ pinned) :
    Runs i s (s.storeLocal pinned n) := by
  refine ⟨1, fun k => ?_⟩
  obtain ⟨k', more, stack⟩ := s.machine_pop k
  refine ⟨k', more, ?_⟩
  rw [Nat.add_comm, stack]
  simp only [Interp.step, value, load, access, State.storeLocal]
  rcases s.pop with ⟨_ | known, below⟩
  · rw [State.machine_forgetLocal]
    rfl
  · simp only [if_neg (by simpa using free : ¬ pinned.contains n = true),
      State.machine_setLocal, Known.shown]

theorem runs_pop (op : i.opcode = .pop) : Runs i s s.pop.2 := by
  refine ⟨1, fun k => ?_⟩
  obtain ⟨k', more, stack⟩ := s.machine_pop k
  refine ⟨k', more, ?_⟩
  rw [Nat.add_comm, stack, step_eq_compute (by simp [op])]
  simp [Interp.compute, op]

theorem runs_dup (op : i.opcode = .dup) : Runs i s (s.duplicate t) := by
  refine ⟨1, fun k => ?_⟩
  obtain ⟨k', more, stack⟩ := s.machine_pop k
  refine ⟨k', more, ?_⟩
  rw [Nat.add_comm, stack, step_dup op, State.duplicate]
  rcases s.pop with ⟨_ | known, below⟩ <;> rfl

theorem runs_unary {f : UnaryOp} (op : i.opcode = .unary f) : Runs i s (s.foldUnary extra t f) := by
  have moved : ∀ m, lost.step true i m = lost.compute true i m := step_eq_compute (by simp [op])
  rcases foldUnary_cases extra t f s with ⟨a, rest, stack, same⟩ | ⟨unknown, same⟩ <;> rw [same]
  · refine ⟨1, fun k => ⟨1 + k, Nat.le_add_left k 1, ?_⟩⟩
    rw [State.machine_fold, moved, Integer.constant_unary_eq]
    simp [Interp.compute, op, State.machine, stack, Known.shown]
  · refine runs_skipped (by simp [Instr.stackEffect?, op, Opcode.fixedStack]) fun k => ?_
    obtain ⟨k', -, stack⟩ := s.machine_pop k
    rw [moved, Nat.add_comm, stack, show s.pop.1 = none from unknown]
    simp [Interp.compute, op, Known.shown]

theorem runs_binary {f : BinaryOp} (op : i.opcode = .binary f) :
    Runs i s (s.foldBinary extra t f) := by
  have moved : ∀ m, lost.step true i m = lost.compute true i m := step_eq_compute (by simp [op])
  rcases foldBinary_cases extra t f s with ⟨a, c, v, rest, stack, value, same⟩ | ⟨stuck, same⟩ <;>
    rw [same]
  · refine ⟨2, fun k => ⟨2 + k, Nat.le_add_left k 2, ?_⟩⟩
    rw [Integer.constant_binary?_eq] at value
    rw [State.machine_fold, moved]
    simp [Interp.compute, op, State.machine, stack, Known.shown, value]
  · refine runs_skipped (by simp [Instr.stackEffect?, op, Opcode.fixedStack]) fun k => ?_
    have unknown : ∀ x y below, (s.machine (2 + k)).stack = .int y :: .int x :: below →
        Integer.binary? f x y = none := by
      intro x y below stack
      obtain ⟨c, rest, top, rfl, rest_⟩ := State.known_of_int stack
      obtain ⟨a, deep, rfl, rfl, -⟩ := State.known_of_int rest_
      rw [← Integer.constant_binary?_eq]
      exact stuck a c deep top
    simp only [moved, Interp.compute, op]
    split <;> simp_all

/-- A simulated instruction runs, and the state knows exactly what is known after it. Variables that
    are pinned must not be written. -/
theorem Stepped.runs (stepped : Stepped pinned extra t i s s')
    (free : ∀ n, i.storedLocal? = some n → n ∉ pinned) : Runs i s s' := by
  cases stepped with
  | constant c load =>
    refine ⟨0, fun k => ⟨k, Nat.le_refl k, ?_⟩⟩
    rw [Nat.zero_add, Interp.step_constant load]
    rfl
  | loaded n value access => exact runs_loaded value access
  | stored n value load access => exact runs_stored value load access (free n access)
  | nop op =>
    refine ⟨0, fun k => ⟨k, Nat.le_refl k, ?_⟩⟩
    rw [Nat.zero_add, step_eq_compute (by simp [op])]
    simp [Interp.compute, op]
  | pop op => exact runs_pop op
  | dup op => exact runs_dup op
  | unary f op => exact runs_unary op
  | binary f op => exact runs_binary op
  | skipped effect known called => exact runs_skipped known fun k => called lost true _

theorem lost_step_of_none (stuck : step pinned extra t i s = none) (m : Machine Unit Unit) :
    lost.step true i m = .undefined := by
  have constant := i.constant?_eq_literal?
  unfold step at stuck
  split at stuck
  · cases stuck
  · cases stuck
  · cases stuck
  · rename_i literal load store
    split at stuck
    · cases stuck
    · cases stuck
    · cases stuck
    · cases stuck
    · cases stuck
    · rename_i notNop notPop notDup notUnary notBinary
      have unknown : i.stackEffect? true = none := Option.map_eq_none_iff.mp stuck
      have called : lost.compute true i m = lost.call true i m := by
        unfold Interp.compute
        split <;> simp_all
      rw [Interp.step_computed (by rw [constant, literal]; rfl) load store, called]
      simp [Interp.call, unknown, lost, unknownValues]

theorem tracks_machine (s : State) (k : Nat) : s.Tracks (s.machine k) where
  stack := by
    unfold State.machine
    induction s.stack with
    | nil => trivial
    | cons slot rest ih => exact ⟨by rintro known rfl; rfl, ih⟩
  locals n c found := by simp [State.machine, found]

def Chooses (b : Block) (i : Instr) : Prop :=
  (∃ c form, i.opcode = .branch c form) ∧ b.targets ≠ [] ∨ i.opcode = .switch ∧ b.fall ≠ none

theorem chooses_of_decide? {d : Decision} (decided : decide? b i s = some d) : Chooses b i := by
  unfold decide? at decided
  split at decided
  · rename_i op
    obtain ⟨target, first, -⟩ := Option.bind_eq_some_iff.mp decided
    exact .inl ⟨⟨_, _, op⟩, List.ne_nil_of_mem (List.mem_of_head? first)⟩
  · rename_i op
    obtain ⟨top, -, decided⟩ := Option.bind_eq_some_iff.mp decided
    obtain ⟨after, falls, -⟩ := Option.bind_eq_some_iff.mp decided
    exact .inr ⟨op, by simp [falls]⟩
  · cases decided

theorem Chooses.terminal (chooses : Chooses b i) : i.isTerminal = true := by
  rcases chooses with ⟨⟨c, form, op⟩, -⟩ | ⟨op, -⟩ <;>
    simp [Instr.isTerminal, Instr.flow, op, Opcode.flow, Flow.endsBlock]

theorem integerWay?_of_undecided (chooses : Chooses b i) (undecided : decide? b i s = none)
    (k : Nat) :
    Interp.integerWay? b i ((s.machine (k + 2)).stack.take i.opcode.fixedStack.pops) = none := by
  obtain ⟨rest, stack⟩ := s.machine_two k
  rw [stack]
  unfold decide? at undecided
  rcases chooses with ⟨⟨c, form, op⟩, some_⟩ | ⟨op, falls⟩
  · obtain ⟨target, targets, list⟩ := List.exists_cons_of_ne_nil some_
    simp only [op, list, List.head?_cons, Option.bind_eq_bind, Option.bind_some] at undecided
    simp only [Interp.integerWay?, op, Opcode.fixedStack]
    cases top : s.pop.1 with
    | none => cases c <;> simp [Condition.arity, Known.shown]
    | some x =>
      simp only [top, Option.bind_some] at undecided
      cases under : s.pop.2.pop.1 with
      | none => cases c <;> simp_all [Condition.arity, Known.shown]
      | some y =>
        cases taken : Constant.branch? c y.value x.value with
        | none =>
          rw [Integer.constant_branch?_eq] at taken
          cases c <;> simp_all [Condition.arity, Known.shown]
        | some way => cases c <;> simp [under, taken] at undecided
  · obtain ⟨after, fall⟩ := Option.ne_none_iff_exists'.mp falls
    cases top : s.pop.1 with
    | none => simp [Interp.integerWay?, op, Opcode.fixedStack, Known.shown]
    | some x => simp [op, top, fall] at undecided

theorem lost_terminate_of_undecided (chooses : Chooses b i) (undecided : decide? b i s = none)
    (k : Nat) : lost.terminate true b i (s.machine (k + 2)) = .undefined := by
  have chosen : lost.terminate true b i (s.machine (k + 2)) =
      lost.choose b i (s.machine (k + 2)) := by
    rcases chooses with ⟨⟨c, form, op⟩, -⟩ | ⟨op, -⟩ <;> simp only [Interp.terminate, op]
  have few : i.opcode.fixedStack.pops ≤ 2 := by
    rcases chooses with ⟨⟨c, form, op⟩, -⟩ | ⟨op, -⟩
    · cases c <;> simp [op, Opcode.fixedStack, Condition.arity]
    · simp [op, Opcode.fixedStack]
  have enough : ¬ (s.machine (k + 2)).stack.length < i.opcode.fixedStack.pops := by
    simp only [State.machine, List.length_append, List.length_replicate]
    omega
  rw [chosen, Interp.choose]
  simp only [if_neg enough, integerWay?_of_undecided chooses undecided k]
  rfl

/-- A simulation is a run in which nothing else is known: a decided branch goes on, and one that is
    not decided goes nowhere. -/
theorem simulate_runs {final : State} {decision : Option (Option BlockId)} {code : List Instr}
    (free : ∀ i ∈ code, ∀ n, i.storedLocal? = some n → n ∉ pinned)
    (ran : simulate pinned extra b t code s = (final, decision)) :
    ∃ need, ∀ k, need ≤ k →
      (decision ≠ none → ∃ r, lost.runCode true b code (s.machine k) = .goes r) ∧
      (decision = none → ∀ front last, code = front ++ [last] → Chooses b last →
        lost.runCode true b code (s.machine k) = .undefined) := by
  have simulated := simulate_simulated ran
  clear ran
  induction simulated with
  | ended => exact ⟨0, fun k _ => ⟨fun decided => absurd rfl decided, by simp⟩⟩
  | @decided t i s d ends found =>
    obtain ⟨gone, -, terminates⟩ := decided_terminates lost true found
    refine ⟨0, fun k _ => ⟨fun _ => ?_, nofun⟩⟩
    rw [runCode_last ends, terminates _ (tracks_machine s k)]
    exact ⟨_, rfl⟩
  | @undecided t i s ends unknown =>
    -- A branch takes at most two values, so with two more on the stack it does not run short.
    refine ⟨2, fun k enough => ⟨fun decided => absurd rfl decided, ?_⟩⟩
    intro _ front last code chooses
    obtain ⟨k, rfl⟩ := Nat.exists_eq_add_of_le' enough
    obtain ⟨rfl, rfl⟩ : front = [] ∧ i = last := by
      cases front with
      | nil => exact ⟨rfl, by simpa using code⟩
      | cons j front => simp at code
    rw [runCode_last ends]
    exact lost_terminate_of_undecided chooses unknown k
  | @stuck t i rest s goes unknown =>
    refine ⟨0, fun k _ => ⟨fun decided => absurd rfl decided, fun _ _ _ _ _ => ?_⟩⟩
    rw [runCode_cons goes, lost_step_of_none unknown]
    rfl
  | @step t i rest s s' final decision goes stepped later ih =>
    obtain ⟨first, steps⟩ := stepped.runs (free i List.mem_cons_self)
    obtain ⟨more, runs⟩ := ih fun j inside => free j (List.mem_cons_of_mem i inside)
    refine ⟨first + more, fun k enough => ?_⟩
    obtain ⟨k, rfl⟩ := Nat.exists_eq_add_of_le enough
    obtain ⟨k', deeper, goes'⟩ := steps (more + k)
    obtain ⟨decided, undecided⟩ := runs k' (by omega)
    rw [runCode_cons goes, Nat.add_assoc, goes']
    refine ⟨decided, fun none front last code chooses => ?_⟩
    cases front with
    | nil =>
      obtain ⟨rfl, rfl⟩ := List.cons.inj code
      rw [chooses.terminal] at goes
      simp at goes
    | cons j front => exact undecided none front last (List.cons.inj code).2 chooses

/-- A store to a pinned variable becomes a pop: a simulation forgets the value in either case. -/
def unpin (pinned : List Nat) (i : Instr) : Instr :=
  if i.storedLocal?.any pinned.contains then { i with opcode := .pop, operand := .none } else i

theorem storedLocal?_opcode {n : Nat} (stores : i.storedLocal? = some n) :
    ∃ slot, i.opcode = .stloc slot := by
  unfold Instr.storedLocal? at stores
  split at stores
  · exact ⟨_, ‹_›⟩
  · cases stores

theorem unpin_cases (pinned : List Nat) (i : Instr) :
    (unpin pinned i = i ∧ ∀ n, i.storedLocal? = some n → n ∉ pinned) ∨
      ∃ n, i.storedLocal? = some n ∧ n ∈ pinned ∧
        unpin pinned i = { i with opcode := .pop, operand := .none } := by
  unfold unpin
  cases stores : i.storedLocal? with
  | none => exact .inl ⟨rfl, nofun⟩
  | some n =>
    by_cases inside : n ∈ pinned
    · exact .inr ⟨n, rfl, inside, by simp [inside]⟩
    · refine .inl ⟨by simp [inside], ?_⟩
      rintro _ ⟨⟩
      exact inside

theorem unpin_of_opcode (other : ∀ slot, i.opcode ≠ .stloc slot) : unpin pinned i = i := by
  rcases unpin_cases pinned i with ⟨same, -⟩ | ⟨n, stores, -, -⟩
  · exact same
  · obtain ⟨slot, op⟩ := storedLocal?_opcode stores
    exact absurd op (other slot)

theorem unpin_free {n : Nat} (stores : (unpin pinned i).storedLocal? = some n) : n ∉ pinned := by
  rcases unpin_cases pinned i with ⟨same, free⟩ | ⟨m, -, -, same⟩
  · rw [same] at stores
    exact free n stores
  · rw [same] at stores
    cases stores

theorem isTerminal_unpin (pinned : List Nat) (i : Instr) :
    (unpin pinned i).isTerminal = i.isTerminal := by
  rcases unpin_cases pinned i with ⟨same, -⟩ | ⟨n, stores, -, same⟩
  · rw [same]
  · obtain ⟨slot, op⟩ := storedLocal?_opcode stores
    rw [same]
    simp [Instr.isTerminal, Instr.flow, op, Opcode.flow]

theorem unpin_of_terminal (ends : i.isTerminal = true) : unpin pinned i = i := by
  refine unpin_of_opcode fun slot op => ?_
  simp [Instr.isTerminal, Instr.flow, op, Opcode.flow, Flow.endsBlock] at ends

theorem forgetLocal_of_unknown {n : Nat} (unknown : s.locals.lookup n = none) :
    s.forgetLocal n = s := by
  have kept : s.locals.filter (fun l => l.1 != n) = s.locals := by
    refine List.filter_eq_self.mpr fun l inside => ?_
    simpa [bne_comm] using List.lookup_eq_none_iff.mp unknown l inside
  rw [State.forgetLocal, kept]

theorem storeLocal_pinned {n : Nat} (sound : s.Sound pinned t) (inside : n ∈ pinned) :
    s.storeLocal pinned n = s.pop.2 := by
  have unknown : s.pop.2.locals.lookup n = none :=
    Option.eq_none_iff_forall_ne_some.mpr fun c found => sound.free n c found inside
  have forgot := forgetLocal_of_unknown unknown
  unfold State.storeLocal
  rcases popped : s.pop with ⟨_ | known, below⟩
  · rw [popped] at forgot
    exact forgot
  · rw [popped] at forgot
    simpa [inside] using forgot

theorem step_unpin (sound : s.Sound pinned t) :
    step pinned extra t (unpin pinned i) s = step pinned extra t i s := by
  rcases unpin_cases pinned i with ⟨same, -⟩ | ⟨n, stores, inside, same⟩
  · rw [same]
  · obtain ⟨slot, op⟩ := storedLocal?_opcode stores
    have literal : i.literal? = none := by simp [Instr.literal?, op]
    have load : i.loadedLocal? = none := by simp [Instr.loadedLocal?, op]
    have stored : step pinned extra t i s = some (s.storeLocal pinned n) := by
      simp only [step, literal, load, stores]
    rw [stored, storeLocal_pinned sound inside, same]
    rfl

theorem simulate_unpin (sound : s.Sound pinned t) (code : List Instr) :
    simulate pinned extra b t (code.map (unpin pinned)) s = simulate pinned extra b t code s := by
  induction code generalizing t s with
  | nil => rfl
  | cons i rest ih =>
    rw [List.map_cons, simulate, simulate, isTerminal_unpin, List.isEmpty_map, step_unpin sound]
    split
    · rename_i ending
      rw [unpin_of_terminal (Bool.and_eq_true_iff.mp ending).2]
    · split
      · rename_i taken
        exact ih ((step_stepped taken).sound sound)
      · rfl

theorem foldInstr_unpin (final : State) (n : Nat) (i : Instr) :
    foldInstr final n (unpin pinned i) = unpin pinned (foldInstr final n i) := by
  unfold foldInstr
  split
  · rw [unpin_of_opcode (i := i.erase) (by simp [Instr.erase])]
    rcases unpin_cases pinned i with ⟨same, -⟩ | ⟨m, -, -, same⟩ <;> rw [same]
    rfl
  · split
    · rename_i c _
      have other : ∀ slot, c.load.1 ≠ .stloc slot := by
        rcases load_opcode c with op | op | op | ⟨n, op⟩ <;> simp [op]
      rw [unpin_of_opcode (i := { i with opcode := c.load.1, operand := c.load.2 }) other]
      rcases unpin_cases pinned i with ⟨same, -⟩ | ⟨m, -, -, same⟩ <;> rw [same]
    · rfl

theorem simulate_edges {b' : Block} (targets : b.targets = b'.targets) (fall : b.fall = b'.fall)
    (code : List Instr) (s : State) :
    simulate pinned extra b t code s = simulate pinned extra b' t code s := by
  induction code generalizing t s with
  | nil => rfl
  | cons i rest ih => simp only [simulate, decide?, targets, fall, ih]

theorem foldInstr_storedLocal? (final : State) (t : Nat) {n : Nat}
    (stores : (foldInstr final t i).storedLocal? = some n) : i.storedLocal? = some n := by
  rcases foldInstr_cases final t i with same | same | ⟨c, same⟩
  · rwa [same] at stores
  · rw [same] at stores
    cases stores
  · obtain ⟨slot, op⟩ := storedLocal?_opcode stores
    rw [same] at op
    rcases load_opcode c with load | load | load | ⟨k, load⟩ <;> simp [load] at op

theorem last_of_decided {final s' : State} {front : List Instr} {last : Instr} {d : Decision}
    (ran : simulate pinned extra b 0 b.instrs {} = (final, none))
    (code : (foldCode final b).instrs = front ++ [last]) (decided : decide? b last s' = some d) :
    ∃ front', b.instrs = front' ++ [last] := by
  have some_ : b.instrs ≠ [] := by
    intro empty
    simp [foldCode, empty] at code
  obtain ⟨front', last', whole⟩ := Block.exists_last some_
  rw [instrs_foldCode final whole] at code
  have same : foldInstr final front'.length last' = last := by
    simpa using (List.append_inj' code rfl).2
  have ends : last'.isTerminal = true := by
    by_contra plain
    have folded := foldInstr_isTerminal (t := front'.length) final (by simpa using plain)
    rw [same, (chooses_of_decide? decided).terminal] at folded
    cases folded
  rw [whole] at ran
  have kept := simulate_last ends (sound_start pinned) ran
  rw [Nat.zero_add, same] at kept
  exact ⟨front', by rw [whole, kept]⟩

theorem undecided_of_free {final : State}
    (free : ∀ i ∈ b.instrs, ∀ n, i.storedLocal? = some n → n ∉ pinned)
    (ran : simulate pinned extra b 0 b.instrs {} = (final, none)) :
    (simulate pinned extra' b 0 (foldCode final b).instrs {}).2 = none := by
  rcases again : simulate pinned extra' b 0 (foldCode final b).instrs {} with ⟨final', _ | target⟩
  · rfl
  · obtain ⟨front, last, s', d, code, decided, -⟩ := simulate_decides again
    obtain ⟨front', whole⟩ := last_of_decided ran code decided
    have free' : ∀ i ∈ (foldCode final b).instrs, ∀ n, i.storedLocal? = some n → n ∉ pinned := by
      intro i inside n stores
      obtain ⟨k, bound, rfl⟩ := List.mem_mapIdx.mp inside
      exact free _ (List.getElem_mem bound) n (foldInstr_storedLocal? final k stores)
    obtain ⟨need, stops⟩ := simulate_runs free ran
    obtain ⟨need', goes⟩ := simulate_runs free' again
    -- from one machine the code goes nowhere, and its folded form goes on
    have stopped := (stops (need + need') (by omega)).2 rfl front' last whole
      (chooses_of_decide? decided)
    obtain ⟨r, went⟩ := (goes (need + need') (by omega)).1 (by simp)
    have same : lost.runBlock true (foldCode final b) _ = lost.runBlock true b _ :=
      folded_refines_of_effects (lost_lawful _) (fun _ _ => rfl) ran none
        (State.machine {} (need + need')) (by rw [Interp.runBlock, stopped]; simp)
    have edges : ∀ m, lost.runBlock true (foldCode final b) m =
        lost.runCode true b (foldCode final b).instrs m := by
      intro m
      refine runCode_edges ?_ ?_ _ m <;> rfl
    rw [edges, went, Interp.runBlock, stopped] at same
    cases same

theorem undecided_again {final : State}
    (ran : simulate pinned extra b 0 b.instrs {} = (final, none)) :
    (simulate pinned extra' b 0 (foldCode final b).instrs {}).2 = none := by
  let u : Block := { b with instrs := b.instrs.map (unpin pinned) }
  have edges : ∀ (extra : Bool) code, simulate pinned extra u 0 code {} =
      simulate pinned extra b 0 code {} := by
    intro extra code
    refine simulate_edges ?_ ?_ code {} <;> rfl
  have code : (foldCode final u).instrs = (foldCode final b).instrs.map (unpin pinned) := by
    refine List.ext_getElem? fun n => ?_
    simp only [foldCode, u, List.getElem?_mapIdx, List.getElem?_map, Option.map_map,
      Function.comp_def, foldInstr_unpin]
  have undecided : (simulate pinned extra' u 0 (foldCode final u).instrs {}).2 = none := by
    refine @undecided_of_free pinned extra extra' u final ?_ ?_
    · intro i inside n stores
      obtain ⟨j, -, rfl⟩ := List.mem_map.mp inside
      exact unpin_free stores
    · rw [edges, simulate_unpin (sound_start pinned), ran]
  rwa [edges, code, simulate_unpin (sound_start pinned)] at undecided

end Unravel.Fold
