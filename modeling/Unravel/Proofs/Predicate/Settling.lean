import Unravel.Proofs.Engine.Validity

namespace Unravel.Predicate
variable {methods : Resolver} {code : List Instr} {n : Nat} {call test next i : Instr}
variable {form : Form} {fate : TestFate} {v : Verdict}

def siteAt? (methods : Resolver) (code : List Instr) (n : Nat) :
    Option (Form × TestFate × Verdict) := do
  let call ← code[n]?
  let test ← code[n + 1]?
  let next ← code[n + 2]?
  site? methods call test next

/-- What becomes of the instruction at an index, read off the code as it was. -/
def settledInstr (methods : Resolver) (code : List Instr) : Nat → Instr → Instr
  | 0, i => if (siteAt? methods code 0).isSome then i.erase else i
  | n + 1, i =>
    match siteAt? methods code n with
    | some (form, fate, _) => settleTest form i fate
    | none => if (siteAt? methods code (n + 1)).isSome then i.erase else i

theorem classify?_some (known : classify? methods call = some v) :
    call.opcode = .call ∧ ∃ m, call.method? = some m ∧ m.params = 0 ∧ m.hasThis = false ∧
      m.returns = true := by
  unfold classify? at known
  split at known
  · cases known
  · rename_i op
    obtain ⟨m, named, known⟩ := Option.bind_eq_some_iff.mp known
    split at known
    · cases known
    · rename_i signature
      simp only [Bool.or_eq_true, bne_iff_ne, Bool.not_eq_true', not_or, not_not,
        Bool.not_eq_true, Bool.not_eq_false] at signature
      exact ⟨by simpa using op, m, named, signature.1.1, signature.1.2, signature.2⟩

theorem site?_some (site : site? methods call test next = some (form, fate, v)) :
    (∃ c, test.opcode = .branch c form ∧ (c = .isTrue ∨ c = .isFalse)) ∧ next.opcode = .pop ∧
      classify? methods call = some v := by
  unfold site? at site
  split at site
  · rename_i tested popped
    obtain ⟨v, known, same⟩ := Option.map_eq_some_iff.mp site
    cases same
    exact ⟨⟨_, tested, .inl rfl⟩, popped, known⟩
  · rename_i tested popped
    obtain ⟨v, known, same⟩ := Option.map_eq_some_iff.mp site
    cases same
    exact ⟨⟨_, tested, .inr rfl⟩, popped, known⟩
  · cases site

theorem siteAt?_some (site : siteAt? methods code n = some (form, fate, v)) :
    ∃ call test next, code[n]? = some call ∧ code[n + 1]? = some test ∧
      code[n + 2]? = some next ∧ site? methods call test next = some (form, fate, v) := by
  obtain ⟨call, here, site⟩ := Option.bind_eq_some_iff.mp site
  obtain ⟨test, there, site⟩ := Option.bind_eq_some_iff.mp site
  obtain ⟨next, behind, site⟩ := Option.bind_eq_some_iff.mp site
  exact ⟨call, test, next, here, there, behind, site⟩

theorem siteAt?_eq_none (here : code[n]? = some i) (other : i.opcode ≠ .call) :
    siteAt? methods code n = none := by
  rw [Option.eq_none_iff_forall_ne_some]
  rintro ⟨form, fate, v⟩ site
  obtain ⟨call, test, next, calls, -, -, site⟩ := siteAt?_some site
  rw [here] at calls
  cases calls
  exact other (classify?_some (site?_some site).2.2).1

theorem siteAt?_behind (site : siteAt? methods code n = some (form, fate, v)) :
    siteAt? methods code (n + 1) = none := by
  obtain ⟨call, test, next, -, there, -, site⟩ := siteAt?_some site
  obtain ⟨c, op, -⟩ := (site?_some site).1
  exact siteAt?_eq_none there (by rw [op]; exact nofun)

theorem siteAt?_short {previous : Instr} {rest : List Instr}
    (short : ∀ test next tail, rest = test :: next :: tail → False) (n : Nat) :
    siteAt? methods (previous :: rest) n = none := by
  rw [Option.eq_none_iff_forall_ne_some]
  rintro ⟨form, fate, v⟩ site
  obtain ⟨call, test, next, -, there, behind, -⟩ := siteAt?_some site
  obtain _ | ⟨i, _ | ⟨j, rest⟩⟩ := rest
  · simp at there
  · simp at behind
  · exact short i j rest rfl

theorem opcode_settleTest (form : Form) (test : Instr) (fate : TestFate) :
    (settleTest form test fate).opcode ≠ .call := by
  cases fate <;> exact nofun

theorem siteAt?_settled (site : site? methods call test next = some (form, fate, v))
    (rest : List Instr) (n : Nat) :
    siteAt? methods (settleTest form test fate :: next :: rest) n =
      siteAt? methods (test :: next :: rest) n := by
  cases n with
  | zero =>
    obtain ⟨c, op, -⟩ := (site?_some site).1
    rw [siteAt?_eq_none rfl (opcode_settleTest form test fate),
      siteAt?_eq_none rfl (by rw [op]; exact nofun)]
  | succ n => rfl

theorem scan_eq (methods : Resolver) (method : Token) (index : Nat) (previous : Instr)
    (rest : List Instr) :
    (scan methods method index previous rest).1 =
      (previous :: rest).mapIdx (settledInstr methods (previous :: rest)) := by
  fun_induction scan methods method index previous rest with
  | case1 index previous test next rest form fate v site settled code events count scanned ih =>
    have first : siteAt? methods (previous :: test :: next :: rest) 0 = some (form, fate, v) := site
    have second := siteAt?_behind first
    have same : ∀ n, siteAt? methods (settled :: next :: rest) n =
      siteAt? methods (previous :: test :: next :: rest) (n + 1) := siteAt?_settled site rest
    have later : (fun n => settledInstr methods (settled :: next :: rest) (n + 1)) =
        fun n => settledInstr methods (previous :: test :: next :: rest) (n + 1 + 1) := by
      funext n i
      simp only [settledInstr, same]
    have tail : code = settled :: (next :: rest).mapIdx fun n =>
        settledInstr methods (previous :: test :: next :: rest) (n + 1 + 1) := by
      rw [scanned] at ih
      rw [← later]
      simpa only [List.mapIdx_cons, settledInstr, same, second, Option.isSome_none,
        Bool.false_eq_true, if_false] using ih
    rw [tail]
    simp only [List.mapIdx_cons, settledInstr, first, Option.isSome_some, if_true]
    rfl
  | case2 index previous test next rest site code events count scanned ih =>
    have first : siteAt? methods (previous :: test :: next :: rest) 0 = none := site
    have later : (fun n => settledInstr methods (previous :: test :: next :: rest) (n + 1)) =
        settledInstr methods (test :: next :: rest) := by
      funext n i
      cases n with
      | zero => simp only [settledInstr, first]; rfl
      | succ n => rfl
    rw [scanned] at ih
    rw [List.mapIdx_cons, later, ← ih]
    simp [settledInstr, first]
  | case3 index previous rest short =>
    have none : ∀ n, siteAt? methods (previous :: rest) n = none := siteAt?_short short
    have kept : settledInstr methods (previous :: rest) = fun _ i => i := by
      funext n i
      cases n <;> simp [settledInstr, none]
    rw [kept, List.mapIdx_eq_zipIdx_map]
    simp

theorem getElem?_simplify (methods : Resolver) (method : Token) (b : Body) (n : Nat) :
    (simplify methods method b).1.instrs[n]? =
      b.instrs[n]?.map (settledInstr methods b.instrs n) := by
  have settled : (simplify methods method b).1.instrs =
      b.instrs.mapIdx (settledInstr methods b.instrs) := by
    change (settle methods method b).1.instrs = _
    unfold settle
    split
    · rename_i empty
      simp [empty]
    · rename_i first rest code
      rw [code]
      exact scan_eq methods method 1 first rest
  rw [settled, List.getElem?_mapIdx]

inductive Settled (methods : Resolver) (code : List Instr) (n : Nat) (i : Instr) :
    Instr → Prop where
  | call (form : Form) (fate : TestFate) (v : Verdict)
      (site : siteAt? methods code n = some (form, fate, v)) : Settled methods code n i i.erase
  | test (k : Nat) (form : Form) (fate : TestFate) (v : Verdict) (behind : n = k + 1)
      (site : siteAt? methods code k = some (form, fate, v)) :
      Settled methods code n i (settleTest form i fate)
  | kept (noCall : siteAt? methods code n = none)
      (noTest : ∀ k, n = k + 1 → siteAt? methods code k = none) : Settled methods code n i i

theorem settled_of_simplify {method : Token} {b : Body} {j : Instr}
    (here : (simplify methods method b).1.instrs[n]? = some j) :
    ∃ i, b.instrs[n]? = some i ∧ Settled methods b.instrs n i j := by
  rw [getElem?_simplify] at here
  obtain ⟨i, was, rfl⟩ := Option.map_eq_some_iff.mp here
  refine ⟨i, was, ?_⟩
  have alone : (∀ k, n = k + 1 → siteAt? methods b.instrs k = none) →
      Settled methods b.instrs n i
        (if (siteAt? methods b.instrs n).isSome then i.erase else i) := by
    intro noTest
    split
    · rename_i found
      obtain ⟨⟨form, fate, v⟩, site⟩ := Option.isSome_iff_exists.mp found
      exact .call form fate v site
    · rename_i none
      exact .kept (by simpa using none) noTest
  cases n with
  | zero => exact alone nofun
  | succ k =>
    rw [settledInstr]
    split
    · rename_i form fate v site
      exact .test k form fate v rfl site
    · rename_i none
      refine alone fun k' same => ?_
      cases same
      exact none

end Unravel.Predicate
