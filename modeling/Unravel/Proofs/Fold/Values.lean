import Unravel.Proofs.Fold.Pass

namespace Unravel.Fold
variable {pinned : List Nat} {extra extra' : Bool} {t t' : Nat} {i : Instr} {s s' : State}
  {b : Block}

structure State.Alike (s s' : State) : Prop where
  stack : s.stack.map (Option.map Known.value) = s'.stack.map (Option.map Known.value)
  locals : s.locals = s'.locals

namespace State.Alike

theorem refl (s : State) : s.Alike s := ⟨rfl, rfl⟩

theorem push (alike : s.Alike s') {x y : Option Known}
    (same : x.map Known.value = y.map Known.value) : (s.push x).Alike (s'.push y) :=
  ⟨by simp [State.push, same, alike.stack], alike.locals⟩

theorem pop (alike : s.Alike s') :
    ∃ below below' : State, below.Alike below' ∧
      ((s.pop = (none, below) ∧ s'.pop = (none, below')) ∨
        ∃ value sources sources', s.pop = (some ⟨value, sources⟩, below) ∧
          s'.pop = (some ⟨value, sources'⟩, below')) := by
  refine ⟨s.pop.2, s'.pop.2, ⟨?_, alike.locals⟩, ?_⟩
  · simp only [State.pop, List.map_tail, alike.stack]
  · have top : ∀ stack : List (Option Known), (stack.headD none).map Known.value =
        (stack.map (Option.map Known.value)).headD none := by
      intro stack
      cases stack <;> rfl
    have same := top s.stack
    rw [alike.stack, ← top] at same
    revert same
    unfold State.pop
    rcases s.stack.headD none with _ | ⟨value, sources⟩ <;>
      rcases s'.stack.headD none with _ | ⟨value', sources'⟩ <;> intro same <;> cases same
    · exact .inl ⟨rfl, rfl⟩
    · exact .inr ⟨value, sources, sources', rfl, rfl⟩

theorem fold (alike : s.Alike s') (value : Constant) (sources sources' : List Source) :
    (s.fold extra t value sources).Alike (s'.fold extra' t' value sources') := by
  cases extra <;> cases extra' <;>
    exact ⟨by simp [State.fold, State.push, alike.stack], alike.locals⟩

theorem foldUnary (alike : s.Alike s') (op : UnaryOp) :
    (s.foldUnary extra t op).Alike (s'.foldUnary extra' t' op) := by
  obtain ⟨below, below', rest, ⟨one, other⟩ | ⟨value, _, _, one, other⟩⟩ := alike.pop
  · simp only [State.foldUnary, one, other]
    exact rest.push rfl
  · simp only [State.foldUnary, one, other]
    exact rest.fold _ _ _

theorem foldBinary (alike : s.Alike s') (op : BinaryOp) :
    (s.foldBinary extra t op).Alike (s'.foldBinary extra' t' op) := by
  obtain ⟨below, below', rest, top⟩ := alike.pop
  obtain ⟨deep, deep', rest, under⟩ := rest.pop
  rcases top with ⟨one, other⟩ | ⟨x, _, _, one, other⟩ <;>
    rcases under with ⟨next, next'⟩ | ⟨y, _, _, next, next'⟩ <;>
    simp only [State.foldBinary, one, other, next, next']
  · exact rest.push rfl
  · exact rest.push rfl
  · exact rest.push rfl
  · split
    · exact rest.fold _ _ _
    · exact rest.push rfl

theorem duplicate (alike : s.Alike s') : (s.duplicate t).Alike (s'.duplicate t') := by
  obtain ⟨below, below', rest, ⟨one, other⟩ | ⟨value, _, _, one, other⟩⟩ := alike.pop
  · simp only [State.duplicate, one, other]
    exact (rest.push rfl).push rfl
  · simp only [State.duplicate, one, other]
    refine push (push rest ?_) ?_ <;> rfl

theorem loadLocal (alike : s.Alike s') (n : Nat) :
    (s.loadLocal extra t n).Alike (s'.loadLocal extra' t' n) := by
  have same : s.locals.lookup n = s'.locals.lookup n := by rw [alike.locals]
  unfold State.loadLocal
  rw [same]
  split
  · exact alike.push rfl
  · refine push ?_ rfl
    cases extra <;> cases extra' <;> exact ⟨alike.stack, alike.locals⟩

theorem storeLocal (alike : s.Alike s') (n : Nat) :
    (s.storeLocal pinned n).Alike (s'.storeLocal pinned n) := by
  obtain ⟨below, below', rest, ⟨one, other⟩ | ⟨value, _, _, one, other⟩⟩ := alike.pop
  · simp only [State.storeLocal, one, other]
    exact ⟨rest.stack, by simp only [State.forgetLocal, rest.locals]⟩
  · simp only [State.storeLocal, one, other]
    split
    · exact ⟨rest.stack, by simp only [State.forgetLocal, rest.locals]⟩
    · exact ⟨rest.stack, by simp only [State.setLocal, rest.locals]⟩

theorem skip (alike : s.Alike s') (effect : StackEffect) : (s.skip effect).Alike (s'.skip effect) :=
  ⟨by simp [State.skip, List.map_drop, alike.stack], alike.locals⟩

theorem step (alike : s.Alike s') :
    Option.Rel State.Alike (step pinned extra t i s) (step pinned extra' t' i s') := by
  unfold Fold.step
  split
  · exact .some (alike.push rfl)
  · exact .some (alike.loadLocal _)
  · exact .some (alike.storeLocal _)
  · split
    · exact .some alike
    · obtain ⟨below, below', rest, ⟨one, other⟩ | ⟨value, _, _, one, other⟩⟩ := alike.pop
      · exact .some (by rw [one, other]; exact rest)
      · exact .some (by rw [one, other]; exact rest)
    · exact .some alike.duplicate
    · exact .some (alike.foldUnary _)
    · exact .some (alike.foldBinary _)
    · cases i.stackEffect? true with
      | none => exact .none
      | some effect => exact .some (alike.skip effect)

theorem decide? (alike : s.Alike s') (b : Block) (i : Instr) :
    (decide? b i s).map Decision.target = (decide? b i s').map Decision.target := by
  obtain ⟨below, below', rest, top⟩ := alike.pop
  obtain ⟨deep, deep', -, under⟩ := rest.pop
  unfold Fold.decide?
  split
  · cases b.targets.head? with
    | none => rfl
    | some target =>
      rcases top with ⟨one, other⟩ | ⟨x, _, _, one, other⟩
      · simp only [one, other]
        rfl
      · simp only [one, other, Option.bind_eq_bind, Option.bind_some]
        split
        · rfl
        · rfl
        · rcases under with ⟨next, next'⟩ | ⟨y, _, _, next, next'⟩
          · simp only [next, next', Option.bind_none]
          · simp only [next, next', Option.bind_some]
            cases Constant.branch? _ y x <;> rfl
  · rcases top with ⟨one, other⟩ | ⟨x, _, _, one, other⟩
    · simp only [one, other]
    · simp only [one, other, Option.bind_eq_bind, Option.bind_some]
      cases b.fall <;> rfl
  · rfl

end State.Alike

theorem simulate_decision (alike : s.Alike s') (b : Block) (code : List Instr) :
    (simulate pinned extra b t code s).2 = (simulate pinned extra' b t' code s').2 := by
  induction code generalizing t t' s s' with
  | nil => rfl
  | cons i rest ih =>
    rw [simulate, simulate]
    split
    · have same := alike.decide? b i
      revert same
      cases decide? b i s <;> cases decide? b i s' <;> simp
    · have steps : Option.Rel State.Alike (step pinned extra t i s) (step pinned extra' t' i s') :=
        alike.step
      revert steps
      cases step pinned extra t i s <;> cases step pinned extra' t' i s' <;> intro steps <;>
        cases steps
      · rfl
      · exact ih ‹_›

theorem Stepped.unloaded (stepped : Stepped pinned false t i s s') : s'.loads = s.loads := by
  cases stepped with
  | constant | nop | pop | skipped => rfl
  | loaded n =>
    rcases loadLocal_cases false t s n with ⟨c, -, same⟩ | ⟨-, same⟩ <;>
    · rw [same]
      rfl
  | stored n => exact (storeLocal_fields pinned s n).2.2
  | dup => exact (duplicate_fields t s).2
  | unary f =>
    rcases foldUnary_cases false t f s with ⟨a, rest, -, same⟩ | ⟨-, same⟩ <;>
    · rw [same]
      rfl
  | binary f =>
    rcases foldBinary_cases false t f s with ⟨a, c, v, rest, -, -, same⟩ | ⟨-, same⟩ <;>
    · rw [same]
      rfl

theorem simulate_unloaded {final : State} {decision : Option (Option BlockId)} {code : List Instr}
    (ran : simulate pinned false b t code s = (final, decision)) : final.loads = s.loads := by
  have simulated := simulate_simulated ran
  clear ran
  induction simulated with
  | ended | decided | undecided | stuck => rfl
  | step goes stepped later ih => rw [ih, stepped.unloaded]

end Unravel.Fold
