import Unravel.Proofs.Execution
import Unravel.Proofs.Fold.Claims

/-!
Folding one instruction. The simulation of an instruction is inverted once, and so is that of code.
What an instruction does to the state is told apart by what the state knows: a known value folds or
is copied, and of any other the state knows nothing new. Each kind of instruction is then compared
with what becomes of it: run on the stack without the values that go, the folded instruction does
what the instruction did. Which values go is known only from the instructions behind; a plan for the
stack after the instruction is turned into one before it.
-/
namespace Unravel.Fold

theorem stack_of_top {stack : List (Option Known)} {a : Known}
    (top : stack.headD none = some a) : stack = some a :: stack.tail := by
  cases stack with
  | nil => cases top
  | cons slot rest =>
    rw [List.headD_cons] at top
    rw [top]
    rfl

theorem foldUnary_cases (extra : Bool) (t : Nat) (f : UnaryOp) (s : State) :
    (∃ a rest, s.stack = some a :: rest ∧ s.foldUnary extra t f =
      State.fold extra t { s with stack := rest } (a.value.unary f) a.sources) ∨
    (s.stack.headD none = none ∧ s.foldUnary extra t f = s.skip ⟨1, 1⟩) := by
  cases top : s.stack.headD none with
  | none =>
    refine .inr ⟨rfl, ?_⟩
    simp only [State.foldUnary, State.pop, top]
    simp [State.push, State.skip]
  | some a =>
    refine .inl ⟨a, s.stack.tail, stack_of_top top, ?_⟩
    simp only [State.foldUnary, State.pop, top]

theorem foldBinary_cases (extra : Bool) (t : Nat) (f : BinaryOp) (s : State) :
    (∃ a c v rest, s.stack = some c :: some a :: rest ∧ a.value.binary? f c.value = some v ∧
      s.foldBinary extra t f =
        State.fold extra t { s with stack := rest } v (a.sources ++ c.sources)) ∨
    ((∀ a c rest, s.stack = some c :: some a :: rest → a.value.binary? f c.value = none) ∧
      s.foldBinary extra t f = s.skip ⟨2, 1⟩) := by
  by_cases folds : ∃ a c rest v, s.stack = some c :: some a :: rest ∧
      a.value.binary? f c.value = some v
  · obtain ⟨a, c, rest, v, stack, value⟩ := folds
    refine .inl ⟨a, c, v, rest, stack, value, ?_⟩
    simp [State.foldBinary, State.pop, stack, value]
  · refine .inr ⟨fun a c rest stack => ?_, ?_⟩
    · exact Option.eq_none_iff_forall_ne_some.mpr fun v value => folds ⟨a, c, rest, v, stack, value⟩
    · have skips : s.pop.2.pop.2.push none = s.skip ⟨2, 1⟩ := by
        simp [State.pop, State.push, State.skip, ← List.drop_one]
      rw [← skips]
      unfold State.foldBinary
      dsimp only
      split
      · rename_i a c under top
        have next : s.stack.tail = some a :: s.stack.tail.tail := stack_of_top under
        have stack := stack_of_top top
        rw [next] at stack
        split
        · rename_i v value
          exact absurd ⟨a, c, _, v, stack, value⟩ folds
        · rfl
      · rfl

theorem duplicate_cases (t : Nat) (s : State) :
    (∃ a rest, s.stack = some a :: rest ∧ s.duplicate t = { s with
      stack := some ⟨a.value, [.copy t a.sources]⟩ :: some ⟨a.value, [.copy t a.sources]⟩ ::
        rest }) ∨
    (s.stack.headD none = none ∧ s.duplicate t = s.skip ⟨1, 2⟩) := by
  cases top : s.stack.headD none with
  | none =>
    refine .inr ⟨rfl, ?_⟩
    simp only [State.duplicate, State.pop, top]
    simp [State.push, State.skip]
  | some a =>
    refine .inl ⟨a, s.stack.tail, stack_of_top top, ?_⟩
    simp only [State.duplicate, State.pop, State.push, top]

theorem duplicate_fields (t : Nat) (s : State) :
    (s.duplicate t).erased = s.erased ∧ (s.duplicate t).loads = s.loads := by
  rcases duplicate_cases t s with ⟨a, rest, -, same⟩ | ⟨-, same⟩ <;> simp [same, State.skip]

theorem loadLocal_cases (extra : Bool) (t : Nat) (s : State) (n : Nat) :
    (∃ c, s.locals.lookup n = some c ∧ s.loadLocal extra t n =
      (if extra then { s with loads := s.loads ++ [(t, c)] } else s).push
        (some ⟨c, [.site t]⟩)) ∨
    (s.locals.lookup n = none ∧ s.loadLocal extra t n = s.skip ⟨0, 1⟩) := by
  cases known : s.locals.lookup n with
  | none =>
    refine .inr ⟨rfl, ?_⟩
    simp only [State.loadLocal, known]
    rfl
  | some c =>
    refine .inl ⟨c, rfl, ?_⟩
    simp only [State.loadLocal, known]

theorem storeLocal_fields (pinned : List Nat) (s : State) (n : Nat) :
    (s.storeLocal pinned n).stack = s.stack.tail ∧ (s.storeLocal pinned n).erased = s.erased ∧
      (s.storeLocal pinned n).loads = s.loads := by
  unfold State.storeLocal State.pop
  split <;> rename_i h <;> simp only [Prod.mk.injEq] at h <;> obtain ⟨_, rfl⟩ := h
  · split <;> exact ⟨rfl, rfl, rfl⟩
  · exact ⟨rfl, rfl, rfl⟩

/-- What one simulated instruction does to the state, by the kind of instruction. -/
inductive Stepped (pinned : List Nat) (extra : Bool) (t : Nat) (i : Instr) (s : State) :
    State → Prop where
  | constant (c : Constant) (load : i.constant? = some c) :
      Stepped pinned extra t i s (s.push (some ⟨c, [.site t]⟩))
  | loaded (n : Nat) (value : i.constant? = none) (access : i.loadedLocal? = some n) :
      Stepped pinned extra t i s (s.loadLocal extra t n)
  | stored (n : Nat) (value : i.constant? = none) (load : i.loadedLocal? = none)
      (access : i.storedLocal? = some n) : Stepped pinned extra t i s (s.storeLocal pinned n)
  | nop (op : i.opcode = .nop) : Stepped pinned extra t i s s
  | pop (op : i.opcode = .pop) : Stepped pinned extra t i s s.pop.2
  | dup (op : i.opcode = .dup) : Stepped pinned extra t i s (s.duplicate t)
  | unary (f : UnaryOp) (op : i.opcode = .unary f) :
      Stepped pinned extra t i s (s.foldUnary extra t f)
  | binary (f : BinaryOp) (op : i.opcode = .binary f) :
      Stepped pinned extra t i s (s.foldBinary extra t f)
  | skipped (effect : StackEffect) (known : i.stackEffect? true = some effect)
      (called : ∀ {O H X : Type} (interp : Interp O H X) (returns : Bool) (m : Machine O H),
        interp.step returns i m = interp.call returns i m) :
      Stepped pinned extra t i s (s.skip effect)

theorem step_stepped {pinned : List Nat} {extra : Bool} {t : Nat} {i : Instr} {s s' : State}
    (stepped : step pinned extra t i s = some s') : Stepped pinned extra t i s s' := by
  have constant := i.constant?_eq_literal?
  unfold step at stepped
  split at stepped
  · rename_i n literal
    cases stepped
    exact .constant _ (by rw [constant, literal]; rfl)
  · rename_i n literal load
    cases stepped
    exact .loaded n (by rw [constant, literal]; rfl) load
  · rename_i n literal load store
    cases stepped
    exact .stored n (by rw [constant, literal]; rfl) load store
  · rename_i literal load store
    split at stepped
    · cases stepped
      exact .nop ‹_›
    · cases stepped
      exact .pop ‹_›
    · cases stepped
      exact .dup ‹_›
    · cases stepped
      exact .unary _ ‹_›
    · cases stepped
      exact .binary _ ‹_›
    · rename_i notNop notPop notDup notUnary notBinary
      obtain ⟨effect, known, rfl⟩ := Option.map_eq_some_iff.mp stepped
      refine .skipped effect known ?_
      intro O H X interp returns m
      rw [Interp.step_computed (by rw [constant, literal]; rfl) load store]
      unfold Interp.compute
      split <;> simp_all

/-- How a simulation goes on from an index. The last instruction may be decided; where the effect of
    an instruction is unknown, the simulation ends. -/
inductive Simulated (pinned : List Nat) (extra : Bool) (b : Block) :
    Nat → List Instr → State → State → Option (Option BlockId) → Prop where
  | ended (t : Nat) (s : State) : Simulated pinned extra b t [] s s none
  | decided {t : Nat} {i : Instr} {s : State} {d : Decision} (ends : i.isTerminal = true)
      (found : decide? b i s = some d) : Simulated pinned extra b t [i] s
        { s with erased := dropSources d.sources s.erased } (some d.target)
  | undecided {t : Nat} {i : Instr} {s : State} (ends : i.isTerminal = true)
      (unknown : decide? b i s = none) : Simulated pinned extra b t [i] s s none
  | stuck {t : Nat} {i : Instr} {rest : List Instr} {s : State}
      (goes : rest ≠ [] ∨ i.isTerminal = false) (unknown : step pinned extra t i s = none) :
      Simulated pinned extra b t (i :: rest) s s none
  | step {t : Nat} {i : Instr} {rest : List Instr} {s s' final : State}
      {decision : Option (Option BlockId)} (goes : rest ≠ [] ∨ i.isTerminal = false)
      (stepped : Stepped pinned extra t i s s')
      (later : Simulated pinned extra b (t + 1) rest s' final decision) :
      Simulated pinned extra b t (i :: rest) s final decision

theorem simulate_simulated {pinned : List Nat} {extra : Bool} {b : Block} {t : Nat}
    {code : List Instr} {s final : State} {decision : Option (Option BlockId)}
    (ran : simulate pinned extra b t code s = (final, decision)) :
    Simulated pinned extra b t code s final decision := by
  induction code generalizing t s with
  | nil =>
    cases ran
    exact .ended t _
  | cons i rest ih =>
    rw [simulate] at ran
    split at ran
    · rename_i ending
      obtain ⟨empty, ends⟩ := Bool.and_eq_true_iff.mp ending
      rw [List.isEmpty_iff] at empty
      subst empty
      split at ran <;> cases ran
      · exact .decided ends ‹_›
      · exact .undecided ends ‹_›
    · rename_i going
      have goes : rest ≠ [] ∨ i.isTerminal = false := by
        cases rest with
        | nil => exact .inr (by simpa using going)
        | cons j rest => exact .inl (List.cons_ne_nil j rest)
      split at ran
      · exact .step goes (step_stepped ‹_›) (ih ran)
      · cases ran
        exact .stuck goes ‹_›

/-- What holds of a simulation in front of an index: it names instructions before the index only,
    and knows no pinned variable. -/
structure State.Sound (pinned : List Nat) (t : Nat) (s : State) : Prop where
  sources : ∀ k, some k ∈ s.stack → SourcesBelow t k.sources
  erased : ∀ j ∈ s.erased, j < t
  loads : ∀ l ∈ s.loads, l.1 < t
  free : ∀ n c, s.locals.lookup n = some c → n ∉ pinned

theorem sound_start (pinned : List Nat) : State.Sound pinned 0 {} where
  sources k inside := by cases inside
  erased j inside := by cases inside
  loads l inside := by cases inside
  free n c found := by cases found

theorem lookup_filter_ne (known : List (Nat × Constant)) (n k : Nat) :
    (known.filter fun l => l.1 != n).lookup k = if k = n then none else known.lookup k := by
  induction known with
  | nil => simp
  | cons l rest ih =>
    obtain ⟨m, c⟩ := l
    by_cases same : m = n
    · subst same
      rw [List.filter_cons_of_neg (by simp), ih]
      by_cases hit : k = m
      · rw [if_pos hit, if_pos hit]
      · have miss : (k == m) = false := by simpa using hit
        rw [if_neg hit, if_neg hit, List.lookup_cons, miss]
    · rw [List.filter_cons_of_pos (by simpa using same), List.lookup_cons, List.lookup_cons, ih]
      by_cases hit : k = m
      · subst hit
        simp [same]
      · have miss : (k == m) = false := by simpa using hit
        rw [miss]

namespace State.Sound
variable {pinned : List Nat} {extra : Bool} {t : Nat} {s : State}

theorem later (sound : s.Sound pinned t) : s.Sound pinned (t + 1) where
  sources k inside := SourcesBelow.mono (Nat.le_succ t) _ (sound.sources k inside)
  erased j inside := Nat.lt_succ_of_lt (sound.erased j inside)
  loads l inside := Nat.lt_succ_of_lt (sound.loads l inside)
  free := sound.free

theorem push (sound : s.Sound pinned t) {slot : Option Known}
    (below : ∀ k, slot = some k → SourcesBelow t k.sources) : (s.push slot).Sound pinned t where
  sources k inside := by
    rcases List.mem_cons.mp inside with same | inside
    · exact below k same.symm
    · exact sound.sources k inside
  erased := sound.erased
  loads := sound.loads
  free := sound.free

theorem pop (sound : s.Sound pinned t) : s.pop.2.Sound pinned t where
  sources k inside := sound.sources k (List.mem_of_mem_tail inside)
  erased := sound.erased
  loads := sound.loads
  free := sound.free

theorem skip (sound : s.Sound pinned t) (effect : StackEffect) :
    (s.skip effect).Sound pinned t where
  sources k inside := by
    rcases List.mem_append.mp inside with fresh | old
    · cases (List.mem_replicate.mp fresh).2
    · exact sound.sources k (List.mem_of_mem_drop old)
  erased := sound.erased
  loads := sound.loads
  free := sound.free

theorem rest (sound : s.Sound pinned t) {stack : List (Option Known)} (part : stack ⊆ s.stack) :
    State.Sound pinned t { s with stack := stack } where
  sources k inside := sound.sources k (part inside)
  erased := sound.erased
  loads := sound.loads
  free := sound.free

theorem load (sound : s.Sound pinned t) (value : Constant) :
    State.Sound pinned (t + 1) { s with loads := s.loads ++ [(t, value)] } where
  sources := sound.later.sources
  erased := sound.later.erased
  loads l inside := by
    rcases List.mem_append.mp inside with early | last
    · exact sound.later.loads l early
    · rw [List.mem_singleton.mp last]
      exact Nat.lt_succ_self t
  free := sound.free

theorem fold (sound : s.Sound pinned t) (value : Constant) {sources : List Source}
    (below : SourcesBelow t sources) : (s.fold extra t value sources).Sound pinned (t + 1) := by
  have site : SourcesBelow (t + 1) [.site t] := ⟨Nat.lt_succ_self t, trivial⟩
  unfold State.fold
  split
  · have claimed : State.Sound pinned (t + 1) { s with
        erased := dropSources sources s.erased, loads := s.loads ++ [(t, value)] } := by
      refine ⟨sound.later.sources, fun j inside => ?_, (sound.load value).loads, sound.free⟩
      rcases mem_dropSources_below sources below inside with early | early
      · exact Nat.lt_succ_of_lt (sound.erased j early)
      · exact Nat.lt_succ_of_lt early
    refine claimed.push ?_
    rintro k ⟨⟩
    exact site
  · refine sound.later.push ?_
    rintro k ⟨⟩
    exact ⟨site.1, SourcesBelow.mono (Nat.le_succ t) _ below⟩

theorem loadLocal (sound : s.Sound pinned t) (n : Nat) :
    (s.loadLocal extra t n).Sound pinned (t + 1) := by
  have site : SourcesBelow (t + 1) [.site t] := ⟨Nat.lt_succ_self t, trivial⟩
  rcases loadLocal_cases extra t s n with ⟨c, -, same⟩ | ⟨-, same⟩ <;> rw [same]
  · refine push ?_ (by rintro k ⟨⟩; exact site)
    split
    · exact sound.load c
    · exact sound.later
  · exact (sound.skip ⟨0, 1⟩).later

theorem storeLocal (sound : s.Sound pinned t) (n : Nat) :
    (s.storeLocal pinned n).Sound pinned t := by
  have rest := sound.pop
  have forget : (s.pop.2.forgetLocal n).Sound pinned t := by
    refine ⟨rest.sources, rest.erased, rest.loads, ?_⟩
    intro k c found
    rw [State.forgetLocal, lookup_filter_ne] at found
    split at found
    · cases found
    · exact rest.free k c found
  unfold State.storeLocal
  split
  · rename_i known after popped
    have same : after = s.pop.2 := by rw [popped]
    subst same
    split
    · exact forget
    · rename_i unpinned
      refine ⟨rest.sources, rest.erased, rest.loads, ?_⟩
      intro k c found
      rw [State.setLocal, List.lookup_cons, lookup_filter_ne] at found
      by_cases hit : k = n
      · subst hit
        simpa using unpinned
      · have miss : (k == n) = false := by simpa using hit
        exact rest.free k c (by simpa [miss, hit] using found)
  · rename_i after popped
    have same : after = s.pop.2 := by rw [popped]
    subst same
    exact forget

theorem duplicate (sound : s.Sound pinned t) : (s.duplicate t).Sound pinned (t + 1) := by
  rcases duplicate_cases t s with ⟨a, rest, stack, same⟩ | ⟨-, same⟩
  · have below : SourcesBelow t a.sources := sound.sources a (by simp [stack])
    have copy : SourcesBelow (t + 1) [.copy t a.sources] :=
      ⟨⟨Nat.lt_succ_self t, SourcesBelow.mono (Nat.le_succ t) _ below⟩, trivial⟩
    have under : State.Sound pinned t { s with stack := rest } := sound.rest (by simp [stack])
    rw [same]
    refine (under.later.push ?_).push ?_ <;>
    · rintro k ⟨⟩
      exact copy
  · rw [same]
    exact (sound.skip ⟨1, 2⟩).later

theorem foldUnary (sound : s.Sound pinned t) (f : UnaryOp) :
    (s.foldUnary extra t f).Sound pinned (t + 1) := by
  rcases foldUnary_cases extra t f s with ⟨a, rest, stack, same⟩ | ⟨-, same⟩ <;> rw [same]
  · exact (sound.rest (by simp [stack])).fold _ (sound.sources a (by simp [stack]))
  · exact (sound.skip ⟨1, 1⟩).later

theorem foldBinary (sound : s.Sound pinned t) (f : BinaryOp) :
    (s.foldBinary extra t f).Sound pinned (t + 1) := by
  rcases foldBinary_cases extra t f s with ⟨a, c, v, rest, stack, -, same⟩ | ⟨-, same⟩ <;> rw [same]
  · have below : SourcesBelow t (a.sources ++ c.sources) := (sourcesBelow_append _ _).mpr
      ⟨sound.sources a (by simp [stack]), sound.sources c (by simp [stack])⟩
    exact (sound.rest (by simp [stack])).fold _ below
  · exact (sound.skip ⟨2, 1⟩).later

end State.Sound

theorem Stepped.sound {pinned : List Nat} {extra : Bool} {t : Nat} {i : Instr} {s s' : State}
    (stepped : Stepped pinned extra t i s s') (sound : s.Sound pinned t) :
    s'.Sound pinned (t + 1) := by
  cases stepped with
  | constant c load =>
    refine sound.later.push ?_
    rintro k ⟨⟩
    exact ⟨Nat.lt_succ_self t, trivial⟩
  | loaded n value access => exact sound.loadLocal n
  | stored n value load access => exact (sound.storeLocal n).later
  | nop op => exact sound.later
  | pop op => exact sound.pop.later
  | dup op => exact sound.duplicate
  | unary f op => exact sound.foldUnary f
  | binary f op => exact sound.foldBinary f
  | skipped effect known called => exact (sound.skip effect).later

end Unravel.Fold
