import Unravel.Proofs.Body.Depths
import Unravel.Proofs.Predicate.Settling

/-!
Settling opaque predicates keeps the stack balanced as long as control comes to a test from its call
alone: then a settled test is met one value lower than before, and all else at the depth at which it
was met. Nothing looks for other ways to a test, and a jump right at one breaks the balance.
-/
namespace Unravel.Predicate
open Body (Leads Enters Meets Runs Balanced Occurs)
variable {methods : Resolver} {method : Token} {returns : Bool} {b : Body} {s s' : StackState}
variable {n d m : Nat} {form : Form} {fate : TestFate} {v : Verdict} {i : Instr}

/-- Control comes to the test of a site from the call in front of it alone. -/
structure Guided (methods : Resolver) (returns : Bool) (b : Body) : Prop where
  leads : ∀ {n s s'}, (siteAt? methods b.instrs n).isSome → Meets returns b s →
    Leads returns b s s' → s'.index = n + 1 → s.index = n
  enters : ∀ {n s}, (siteAt? methods b.instrs n).isSome → Enters b s → s.index ≠ n + 1

theorem guided_of_unnamed (unnamed : ∀ n < b.instrs.length, (siteAt? methods b.instrs n).isSome →
    (∀ i ∈ b.instrs, ∀ t ∈ i.targets, b.index? t ≠ some (n + 1)) ∧
      ∀ c ∈ b.clauses, b.index? c.handlerStart ≠ some (n + 1) ∧
        ∀ f ∈ c.filterStart, b.index? f ≠ some (n + 1)) : Guided methods returns b := by
  have within : ∀ {n}, (siteAt? methods b.instrs n).isSome → n < b.instrs.length := by
    intro n found
    obtain ⟨⟨form, fate, v⟩, site⟩ := Option.isSome_iff_exists.mp found
    obtain ⟨call, test, next, here, -⟩ := siteAt?_some site
    exact (List.getElem?_eq_some_iff.mp here).1
  refine ⟨?_, ?_⟩
  · intro n s s' found met leads index
    cases leads with
    | jump here effect enough goes there =>
      cases index
      exact absurd there ((unnamed n (within found) found).1 _ (List.mem_of_getElem? here) _ goes)
    | next here effect enough falls more => exact Nat.succ.inj index
  · intro n s found enters index
    obtain ⟨-, clauses⟩ := unnamed n (within found) found
    cases enters with
    | start => cases index
    | handler inside there =>
      cases index
      exact (clauses _ inside).1 there
    | filter inside filtered there =>
      cases index
      exact (clauses _ inside).2 _ filtered there

theorem stackEffect?_call {call : Instr} (known : classify? methods call = some v) :
    call.stackEffect? returns = some ⟨0, 1⟩ := by
  obtain ⟨op, m, named, params, this, value⟩ := classify?_some known
  simp [Instr.stackEffect?, Instr.count16, MethodRef.arity, op, named, params, this, value]

theorem stackEffect?_test {test : Instr} {c : Condition} (op : test.opcode = .branch c form)
    (tests : c = .isTrue ∨ c = .isFalse) : test.stackEffect? returns = some ⟨1, 0⟩ := by
  rcases tests with rfl | rfl <;> simp [Instr.stackEffect?, op, Opcode.fixedStack, Condition.arity]

theorem leads_test (site : siteAt? methods b.instrs n = some (form, fate, v)) (d : Nat) :
    Leads returns b ⟨n, d⟩ ⟨n + 1, d + 1⟩ := by
  obtain ⟨call, test, next, here, there, -, site⟩ := siteAt?_some site
  obtain ⟨-, -, known⟩ := site?_some site
  have falls : call.flow.fallsThrough = true := by
    rw [Instr.flow, (classify?_some known).1]
    rfl
  exact .next here (stackEffect?_call known) (Nat.zero_le d) falls
    (List.getElem?_eq_some_iff.mp there).1

theorem leads_behind (returns : Bool)
    (site : siteAt? methods b.instrs n = some (form, fate, v)) (d : Nat) :
    Leads returns b ⟨n + 1, d + 1⟩ ⟨n + 2, d⟩ ∧
      ∀ test, b.instrs[n + 1]? = some test → ∀ t ∈ test.targets, ∀ m, b.index? t = some m →
        Leads returns b ⟨n + 1, d + 1⟩ ⟨m, d⟩ := by
  obtain ⟨call, test, next, -, here, behind, site⟩ := siteAt?_some site
  obtain ⟨⟨c, op, tests⟩, -, -⟩ := site?_some site
  have effect : test.stackEffect? returns = some ⟨1, 0⟩ := stackEffect?_test op tests
  have flow : test.flow = .conditional := by rw [Instr.flow, op]; rfl
  refine ⟨?_, ?_⟩
  · exact .next here effect (Nat.le_add_left 1 d) (by rw [flow]; rfl)
      (List.getElem?_eq_some_iff.mp behind).1
  · rintro test' same t goes m index
    cases here.symm.trans same
    have jump := Leads.jump (s := ⟨n + 1, d + 1⟩) here effect (Nat.le_add_left 1 d) goes index
    rwa [flow, if_neg (by simp)] at jump

/-- Where a state of the settled code comes from: a settled test is met as its call was, all else as
    it was. -/
inductive Origin (methods : Resolver) (returns : Bool) (b : Body) (s : StackState) : Prop where
  | same (met : Meets returns b s)
      (noTest : ∀ n, s.index = n + 1 → siteAt? methods b.instrs n = none)
  | test (n : Nat) (form : Form) (fate : TestFate) (v : Verdict) (index : s.index = n + 1)
      (site : siteAt? methods b.instrs n = some (form, fate, v))
      (met : Meets returns b ⟨n, s.depth⟩)

/-- What an instruction of the settled code is where it is met, and how it was come to before. -/
inductive Found (methods : Resolver) (returns : Bool) (b : Body) (s : StackState) (i : Instr) :
    Instr → Prop where
  | kept (met : Meets returns b s) (noCall : siteAt? methods b.instrs s.index = none) :
      Found methods returns b s i i
  | call (form : Form) (fate : TestFate) (v : Verdict)
      (site : siteAt? methods b.instrs s.index = some (form, fate, v)) (met : Meets returns b s) :
      Found methods returns b s i i.erase
  | test (n : Nat) (form : Form) (fate : TestFate) (v : Verdict) (index : s.index = n + 1)
      (site : siteAt? methods b.instrs n = some (form, fate, v))
      (met : Meets returns b ⟨n, s.depth⟩) : Found methods returns b s i (settleTest form i fate)

theorem Origin.found (origin : Origin methods returns b s) {j : Instr}
    (here : (simplify methods method b).1.instrs[s.index]? = some j) :
    ∃ i, b.instrs[s.index]? = some i ∧ Found methods returns b s i j := by
  obtain ⟨i, was, settled⟩ := settled_of_simplify here
  refine ⟨i, was, ?_⟩
  cases origin with
  | same met noTest =>
    cases settled with
    | test k form fate v behind site =>
      rw [noTest k behind] at site
      cases site
    | call form fate v site => exact .call form fate v site met
    | kept noCall => exact .kept met noCall
  | test n form fate v index site met =>
    cases settled with
    | call form' fate' v' site' =>
      rw [index, siteAt?_behind site] at site'
      cases site'
    | kept noCall noTest =>
      rw [noTest n index] at site
      cases site
    | test k form' fate' v' behind site' =>
      cases behind.symm.trans index
      cases site.symm.trans site'
      exact .test n form fate v index site met

theorem Origin.of_step (guided : Guided methods returns b) (met : Meets returns b s)
    (leads : Leads returns b s s') (noCall : siteAt? methods b.instrs s.index = none) :
    Origin methods returns b s' := by
  refine .same (met.step leads) fun n index => ?_
  rw [Option.eq_none_iff_forall_ne_some]
  rintro ⟨form, fate, v⟩ site
  have from_ := guided.leads (Option.isSome_iff_exists.mpr ⟨_, site⟩) met leads index
  rw [from_, site] at noCall
  cases noCall

theorem targets_settleTest_gone (form : Form) (test : Instr) :
    (settleTest form test .gone).targets = [] := rfl

theorem targets_settleTest {c : Condition} (op : i.opcode = .branch c form) :
    (settleTest form i .jump).targets = i.targets := by
  cases operand : i.operand <;>
    simp [settleTest, Instr.targets, operand, op, Instr.isJump, Instr.flow, Opcode.flow,
      Flow.isJump]

theorem Origin.of_test (guided : Guided methods returns b)
    (site : siteAt? methods b.instrs n = some (form, fate, v)) (met : Meets returns b ⟨n, s.depth⟩)
    (index : s.index = n + 1) (here : b.instrs[s.index]? = some i)
    (settled : (simplify methods method b).1.instrs[s.index]? = some (settleTest form i fate))
    (leads : Leads returns (simplify methods method b).1 s s') : Origin methods returns b s' := by
  obtain ⟨k, d⟩ := s
  cases index
  have tested := met.step (leads_test site d)
  obtain ⟨onward, jumps⟩ := leads_behind returns site d
  have step : Leads returns b ⟨n + 1, d + 1⟩ s' := by
    obtain ⟨call, test, next, -, there, -, found⟩ := siteAt?_some site
    obtain ⟨⟨c, op, -⟩, -, -⟩ := site?_some found
    cases there.symm.trans here
    cases leads with
    | jump here' effect enough goes index =>
      cases here'.symm.trans settled
      cases fate with
      | gone =>
        rw [targets_settleTest_gone] at goes
        cases goes
      | jump =>
        cases effect
        rw [targets_settleTest op] at goes
        rw [(sameNames_simplify methods method b).index?] at index
        exact jumps _ here _ goes _ index
    | next here' effect enough falls more =>
      cases here'.symm.trans settled
      cases fate with
      | gone =>
        cases effect
        exact onward
      | jump => cases falls
  exact .of_step guided tested step (siteAt?_behind site)

theorem Origin.of_leads (guided : Guided methods returns b) (origin : Origin methods returns b s)
    (leads : Leads returns (simplify methods method b).1 s s') : Origin methods returns b s' := by
  have names := sameNames_simplify methods method b
  obtain ⟨j, here⟩ : ∃ j, (simplify methods method b).1.instrs[s.index]? = some j := by
    cases leads with
    | jump here => exact ⟨_, here⟩
    | next here => exact ⟨_, here⟩
  obtain ⟨i, was, found⟩ := origin.found here
  cases found with
  | test n form fate v index site met => exact .of_test guided site met index was here leads
  | call form fate v site met =>
    -- The call has become a `nop`, which goes on to the test with nothing added.
    cases leads with
    | jump here' effect enough goes index =>
      cases here'.symm.trans here
      cases goes
    | next here' effect enough falls more =>
      cases here'.symm.trans here
      cases effect
      exact .test s.index form fate v rfl site met
  | kept met noCall =>
    refine .of_step guided met ?_ noCall
    cases leads with
    | jump here' effect enough goes index =>
      cases here'.symm.trans here
      rw [names.index?] at index
      exact .jump was effect enough goes index
    | next here' effect enough falls more =>
      cases here'.symm.trans here
      rw [names.length_eq] at more
      exact .next was effect enough falls more

theorem Enters.of_simplify (enters : Enters (simplify methods method b).1 s) : Enters b s := by
  have names := sameNames_simplify methods method b
  cases enters with
  | start => exact .start
  | handler inside index =>
    rw [names.clauses] at inside
    rw [names.index?] at index
    exact .handler inside index
  | filter inside filtered index =>
    rw [names.clauses] at inside
    rw [names.index?] at index
    exact .filter inside filtered index

theorem origin_of_meets (guided : Guided methods returns b)
    (met : Meets returns (simplify methods method b).1 s) : Origin methods returns b s := by
  induction met with
  | enter enters =>
    have was := Enters.of_simplify enters
    refine .same (.enter was) fun n index => ?_
    rw [Option.eq_none_iff_forall_ne_some]
    intro found site
    exact guided.enters (Option.isSome_iff_exists.mpr ⟨_, site⟩) was index
  | step _ leads ih => exact ih.of_leads guided leads

theorem occurs_call (site : siteAt? methods b.instrs n = some (form, fate, v))
    (met : Meets returns b ⟨n, d⟩) : Occurs returns b d := by
  obtain ⟨call, test, next, here, -, -, site⟩ := siteAt?_some site
  exact ⟨⟨n, d⟩, call, ⟨0, 1⟩, met, here, stackEffect?_call (site?_some site).2.2, .inl rfl⟩

/-- An instruction of the settled code is as it was, or leaves the stack alone and can run wherever
    it is met. -/
theorem Origin.idle (balanced : Balanced returns b) (origin : Origin methods returns b s)
    {j : Instr} (here : (simplify methods method b).1.instrs[s.index]? = some j) :
    (b.instrs[s.index]? = some j ∧ Meets returns b s) ∨
      j.stackEffect? returns = some ⟨0, 0⟩ ∧ j.opcode ≠ .ret ∧
        (∀ t ∈ j.targets, ∃ m, b.index? t = some m) ∧ s.index + 1 < b.instrs.length ∧
        Occurs returns b s.depth := by
  obtain ⟨i, was, found⟩ := origin.found here
  cases found with
  | kept met => exact .inl ⟨was, met⟩
  | call form fate v site met =>
    obtain ⟨call, test, next, -, there, -, -⟩ := siteAt?_some site
    exact .inr ⟨rfl, nofun, nofun, (List.getElem?_eq_some_iff.mp there).1, occurs_call site met⟩
  | test n form fate v index site met =>
    obtain ⟨call, test, next, -, there, further, found⟩ := siteAt?_some site
    obtain ⟨⟨c, op, -⟩, -, -⟩ := site?_some found
    rw [index] at was ⊢
    cases there.symm.trans was
    have more := (List.getElem?_eq_some_iff.mp further).1
    have occurs := occurs_call site met
    cases fate with
    | gone => exact .inr ⟨rfl, nofun, nofun, more, occurs⟩
    | jump =>
      refine .inr ⟨rfl, nofun, ?_, more, occurs⟩
      rw [targets_settleTest op]
      exact (balanced.runs (met.step (leads_test site s.depth)) there).targets

/-- Settled code is met at one place at one depth only, since tests are met where their calls
    were. -/
theorem Origin.agrees (balanced : Balanced returns b) (origin : Origin methods returns b s)
    (origin' : Origin methods returns b s') (same : s.index = s'.index) : s.depth = s'.depth := by
  cases origin with
  | same met noTest =>
    cases origin' with
    | same met' noTest' => exact balanced.agrees met met' same
    | test n form fate v index site met' =>
      rw [noTest n (same.trans index)] at site
      cases site
  | test n form fate v index site met =>
    cases origin' with
    | same met' noTest' =>
      rw [noTest' n (same.symm.trans index)] at site
      cases site
    | test n' form' fate' v' index' site' met' =>
      cases index.symm.trans (same.trans index')
      have agree := balanced.agrees met met' rfl
      exact agree

theorem balanced_simplify (guided : Guided methods returns b) (balanced : Balanced returns b) :
    Balanced returns (simplify methods method b).1 := by
  have names := sameNames_simplify methods method b
  refine ⟨?_, ?_, ?_, ?_⟩
  · rw [names.clauses]
    simpa only [names.index?] using balanced.handlers
  · rw [names.clauses]
    simpa only [names.index?] using balanced.filters
  · intro s j met here
    rcases (origin_of_meets guided met).idle balanced here with
      ⟨was, met⟩ | ⟨effect, stays, targets, more, -⟩
    · obtain ⟨effect, targets, onward⟩ := balanced.runs met was
      exact ⟨effect, by simpa only [names.index?] using targets,
        by simpa only [names.length_eq] using onward⟩
    · exact ⟨⟨_, effect, Nat.zero_le _, fun returned => absurd returned stays⟩,
        by simpa only [names.index?] using targets, fun _ => by rwa [names.length_eq]⟩
  · exact fun met met' same =>
      (origin_of_meets guided met).agrees balanced (origin_of_meets guided met') same

theorem occurs_simplify (guided : Guided methods returns b) (balanced : Balanced returns b)
    (occurs : Occurs returns (simplify methods method b).1 d) : Occurs returns b d := by
  obtain ⟨s, j, e, met, here, effect, depth⟩ := occurs
  rcases (origin_of_meets guided met).idle balanced here with
    ⟨was, met⟩ | ⟨none, -, -, -, occurs⟩
  · exact ⟨s, j, e, met, was, effect, depth⟩
  · cases none.symm.trans effect
    rcases depth with rfl | rfl
    · exact occurs
    · exact occurs

/-- Where control comes to a test from its call alone, a body that could be measured can still be
    measured once its predicates are settled, and needs no more stack. -/
theorem simplify_keeps_balance (methods : Resolver) (method : Token) (returns : Bool) (b : Body)
    (guided : Guided methods returns b) {m : Nat} (measured : b.stackDepth returns = .ok m) :
    ∃ m' ≤ m, (simplify methods method b).1.stackDepth returns = .ok m' := by
  by_cases filled : b.instrs = []
  · have same : (simplify methods method b).1 = b := by simp [simplify, settle, filled]
    exact ⟨m, Nat.le_refl m, by rw [same, measured]⟩
  · have filled' : (simplify methods method b).1.instrs ≠ [] := by
      rw [← List.length_pos_iff, (sameNames_simplify methods method b).length_eq,
        List.length_pos_iff]
      exact filled
    have balanced := (Body.stackDepth_ok_iff filled).mp ⟨m, measured⟩
    rcases Body.stackDepth_ends filled' with ⟨m', done, -, greatest⟩ | ⟨-, unbalanced⟩
    · refine ⟨m', ?_, done⟩
      rcases Body.stackDepth_ends filled with ⟨k, done', -, greatest'⟩ | ⟨⟨e, failed⟩, -⟩
      · cases measured.symm.trans done'
        exact greatest'.2 (occurs_simplify guided balanced greatest.1)
      · cases measured.symm.trans failed
    · exact absurd (balanced_simplify guided balanced) unbalanced

def truth : Method where
  token := .methodDef 1
  owner := "Guard"
  name := "P"
  returnType := booleanType
  body := some (.ofCode [⟨0, .ldcI4Fixed ⟨2, by decide⟩, .none, 0⟩, ⟨1, .ret, .none, 1⟩] [])

/-- A dispatcher with a case that loads a value and jumps, in front of a call and a test. -/
def dispatcher (jump : Opcode) (target : InstrId) : Body :=
  .ofCode [⟨0, .ldcI4Fixed ⟨1, by decide⟩, .none, 0⟩,
    ⟨1, .ldarg (.fixed ⟨0, by decide⟩), .none, 1⟩, ⟨2, .switch, .switch [5], 2⟩,
    ⟨3, .ldcI4Fixed ⟨2, by decide⟩, .none, 11⟩, ⟨4, jump, .target target, 12⟩,
    ⟨5, .call, .method truth.ref, 17⟩, ⟨6, .branch .isTrue .long, .target 9, 22⟩,
    ⟨7, .pop, .none, 27⟩, ⟨8, .ret, .none, 28⟩, ⟨9, .pop, .none, 29⟩, ⟨10, .ret, .none, 30⟩] []

/-- The case tests its value and jumps behind the test of the call. -/
theorem dispatcher_keeps_balance :
    Guided (MethodTable.mk [truth]) false (dispatcher (.branch .isFalse .long) 7) ∧
      (dispatcher (.branch .isFalse .long) 7).stackDepth false = .ok 2 ∧
      ∃ m' ≤ 2, (simplify (MethodTable.mk [truth]) (.methodDef 2)
        (dispatcher (.branch .isFalse .long) 7)).1.stackDepth false = .ok m' := by
  have guided : Guided (MethodTable.mk [truth]) false (dispatcher (.branch .isFalse .long) 7) :=
    guided_of_unnamed (by decide)
  have measured : (dispatcher (.branch .isFalse .long) 7).stackDepth false = .ok 2 := rfl
  exact ⟨guided, measured, simplify_keeps_balance _ _ _ _ guided measured⟩

/-- The case jumps right at the test of the call with its value, so the two ways to the test meet at
    different depths once the call is gone. -/
theorem dispatcher_loses_balance :
    (dispatcher (.br .long) 6).stackDepth false = .ok 2 ∧
      ∃ e, (simplify (MethodTable.mk [truth]) (.methodDef 2)
        (dispatcher (.br .long) 6)).1.stackDepth false = .error e :=
  ⟨rfl, _, rfl⟩

end Unravel.Predicate
