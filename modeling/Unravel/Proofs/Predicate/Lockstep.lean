import Unravel.Proofs.Execution
import Unravel.Proofs.Predicate.Balance

/-!
Settling opaque predicates keeps what a body does, if every callee loads an integer and returns it
and control comes to a test from its call alone. The code as it was and the settled code then run in
step: after any number of instructions both are at the same index in the same state, but that a test
still has in front of it the value that the settled code never loads.
-/
namespace Unravel

/-- Where an instruction sends control: on, to one of its targets, or to an entry of a clause. -/
inductive Departure where
  | onward
  | target (n : Nat)
  | handler (n : Nat)
  | filter (n : Nat)

/-- A machine in front of the instruction at an index. -/
structure Position (O H : Type) where
  index : Nat
  machine : Machine O H

/-- What instructions mean: how an integer lies on the stack, what a test of one value makes of it,
    and what the instructions do that have no meaning of their own here. An exception is an effect
    that departs for a handler; where it goes may depend on the index. -/
structure Meaning (O H : Type) where
  literal : Int → Value O
  holds : Value O → Option Bool
  holds_literal : ∀ n, holds (literal n) = some (decide (n ≠ 0))
  effect : Nat → Instr → Machine O H → Option (Departure × Machine O H)

def Body.arrival? (b : Body) (index : Nat) (i : Instr) : Departure → Option Nat
  | .onward => some (index + 1)
  | .target n => i.targets[n]?.bind b.index?
  | .handler n => b.clauses[n]?.bind fun c => b.index? c.handlerStart
  | .filter n => b.clauses[n]?.bind fun c => c.filterStart.bind b.index?

namespace Meaning
variable {O H : Type}

def test (meaning : Meaning O H) (ifTrue : Bool) (m : Machine O H) :
    Option (Departure × Machine O H) :=
  match m.stack with
  | [] => none
  | v :: stack =>
    (meaning.holds v).map fun truth =>
      (if truth = ifTrue then .target 0 else .onward, { m with stack })

/-- What the instruction at an index does. `known` are the calls that return an integer and do
    nothing else. -/
def act (meaning : Meaning O H) (known : Nat → Option Int) (index : Nat) (i : Instr)
    (m : Machine O H) : Option (Departure × Machine O H) :=
  match i.opcode, known index with
  | .nop, _ => some (.onward, m)
  | .br _, _ => some (.target 0, m)
  | .branch .isTrue _, _ => meaning.test true m
  | .branch .isFalse _, _ => meaning.test false m
  | .call, some n => some (.onward, { m with stack := meaning.literal n :: m.stack })
  | _, _ => meaning.effect index i m

def step (meaning : Meaning O H) (known : Nat → Option Int) (b : Body) (p : Position O H) :
    Option (Position O H) := do
  let i ← b.instrs[p.index]?
  let (way, machine) ← meaning.act known p.index i p.machine
  let index ← b.arrival? p.index i way
  return ⟨index, machine⟩

def run (meaning : Meaning O H) (known : Nat → Option Int) (b : Body) :
    Nat → Position O H → Option (Position O H)
  | 0, p => some p
  | k + 1, p => (meaning.step known b p).bind (meaning.run known b k)

def transitions (meaning : Meaning O H) (known : Nat → Option Int) (b : Body) :
    Nat → Position O H → List (Position O H × Position O H)
  | 0, _ => []
  | k + 1, p =>
    match meaning.step known b p with
    | none => []
    | some p' => (p, p') :: meaning.transitions known b k p'

theorem step_some {meaning : Meaning O H} {known : Nat → Option Int} {b : Body}
    {p p' : Position O H} (steps : meaning.step known b p = some p') :
    ∃ i way, b.instrs[p.index]? = some i ∧
      meaning.act known p.index i p.machine = some (way, p'.machine) ∧
      b.arrival? p.index i way = some p'.index := by
  obtain ⟨i, here, steps⟩ := Option.bind_eq_some_iff.mp steps
  obtain ⟨⟨way, m⟩, acts, steps⟩ := Option.bind_eq_some_iff.mp steps
  obtain ⟨index, arrives, same⟩ := Option.bind_eq_some_iff.mp steps
  cases same
  exact ⟨i, way, here, acts, arrives⟩

theorem run_succ (meaning : Meaning O H) (known : Nat → Option Int) (b : Body) (k : Nat)
    (p : Position O H) :
    meaning.run known b (k + 1) p = (meaning.run known b k p).bind (meaning.step known b) := by
  induction k generalizing p with
  | zero => simp [run]
  | succ k ih =>
    rw [run, run, Option.bind_assoc]
    exact congrArg _ (funext ih)

theorem step_of_act {meaning : Meaning O H} {known : Nat → Option Int} {b : Body} {n : Nat}
    {m m' : Machine O H} {i : Instr} {way : Departure} (here : b.instrs[n]? = some i)
    (acts : meaning.act known n i m = some (way, m')) :
    meaning.step known b ⟨n, m⟩ = (b.arrival? n i way).map fun index => ⟨index, m'⟩ := by
  simp only [step, here, acts, Option.bind_eq_bind, Option.bind_some]
  cases b.arrival? n i way <;> rfl

end Meaning

namespace Predicate
variable {O H : Type} {meaning : Meaning O H} {methods : Resolver} {method : Token} {b : Body}
variable {p p' : Position O H} {n k : Nat} {lit : Int} {form : Form} {fate : TestFate} {v : Verdict}
variable {call test next i : Instr}

def stubLiteral? (methods : Resolver) (call : Instr) : Option Int := do
  let m ← call.method?
  let callee ← methods.resolve? m.token
  let body ← callee.readable?
  match callee.returnsBoolean, body.instrs with
  | true, [load, last] => if last.opcode = .ret then load.literal? else none
  | _, _ => none

def result? (methods : Resolver) (code : List Instr) (n : Nat) : Option Int :=
  if (siteAt? methods code n).isSome then code[n]?.bind (stubLiteral? methods) else none

def tested? (methods : Resolver) (code : List Instr) : Nat → Option Int
  | 0 => none
  | n + 1 => result? methods code n

/-- The callee of every site is a stub, and the test of a site is neither a target nor an entry of a
    clause. -/
structure Sound (methods : Resolver) (b : Body) : Prop where
  stubs : ∀ n, (siteAt? methods b.instrs n).isSome → (result? methods b.instrs n).isSome
  jumps : ∀ n, (siteAt? methods b.instrs n).isSome → ∀ i ∈ b.instrs, ∀ t ∈ i.targets,
    b.index? t ≠ some (n + 1)
  entries : ∀ n, (siteAt? methods b.instrs n).isSome → ∀ c ∈ b.clauses,
    b.index? c.handlerStart ≠ some (n + 1) ∧ ∀ f ∈ c.filterStart, b.index? f ≠ some (n + 1)

theorem site_of_result (known : result? methods b.instrs n = some lit) :
    ∃ form fate v, siteAt? methods b.instrs n = some (form, fate, v) := by
  unfold result? at known
  split at known
  · rename_i found
    obtain ⟨⟨form, fate, v⟩, site⟩ := Option.isSome_iff_exists.mp found
    exact ⟨form, fate, v, site⟩
  · cases known

theorem result?_of_site (site : siteAt? methods b.instrs n = some (form, fate, v))
    (here : b.instrs[n]? = some call) : result? methods b.instrs n = stubLiteral? methods call := by
  rw [result?, site, here]
  rfl

theorem verdict_of_stub (known : classify? methods call = some v)
    (stub : stubLiteral? methods call = some lit) :
    v = if lit = 0 then .alwaysFalse else .alwaysTrue := by
  obtain ⟨m, named, stub⟩ := Option.bind_eq_some_iff.mp stub
  obtain ⟨callee, resolved, stub⟩ := Option.bind_eq_some_iff.mp stub
  obtain ⟨body, readable, stub⟩ := Option.bind_eq_some_iff.mp stub
  split at stub
  · rename_i load last boolean code
    split at stub
    · unfold classify? at known
      split at known
      · cases known
      · obtain ⟨m', named', known⟩ := Option.bind_eq_some_iff.mp known
        cases named.symm.trans named'
        split at known
        · cases known
        · have same : some (if lit = 0 then Verdict.alwaysFalse else .alwaysTrue) = some v := by
            simpa [resolved, readable, verdict?, boolean, code, stub] using known
          exact (Option.some.inj same).symm
    · cases stub
  · cases stub

theorem fateOf_stub (ifTrue : Bool) (lit : Int) :
    fateOf ifTrue (if lit = 0 then .alwaysFalse else .alwaysTrue) =
      if decide (lit ≠ 0) = ifTrue then .jump else .gone := by
  by_cases zero : lit = 0 <;> cases ifTrue <;> simp [zero, fateOf]

theorem fate_of_site (site : site? methods call test next = some (form, fate, v)) :
    (test.opcode = .branch .isTrue form ∧ fate = fateOf true v) ∨
      (test.opcode = .branch .isFalse form ∧ fate = fateOf false v) := by
  unfold site? at site
  split at site
  · rename_i tested popped
    obtain ⟨v, -, same⟩ := Option.map_eq_some_iff.mp site
    cases same
    exact .inl ⟨tested, rfl⟩
  · rename_i tested popped
    obtain ⟨v, -, same⟩ := Option.map_eq_some_iff.mp site
    cases same
    exact .inr ⟨tested, rfl⟩
  · cases site

theorem Sound.arrival (sound : Sound methods b) (here : b.instrs[n]? = some i) {way : Departure}
    (arrives : b.arrival? n i way = some (k + 1)) (site : (siteAt? methods b.instrs k).isSome) :
    way = .onward ∧ n = k := by
  cases way with
  | onward => exact ⟨rfl, by simpa [Body.arrival?] using arrives⟩
  | target m =>
    obtain ⟨t, goes, index⟩ := Option.bind_eq_some_iff.mp arrives
    exact absurd index (sound.jumps k site i (List.mem_of_getElem? here) t
      (List.mem_of_getElem? goes))
  | handler m =>
    obtain ⟨c, inside, index⟩ := Option.bind_eq_some_iff.mp arrives
    exact absurd index (sound.entries k site c (List.mem_of_getElem? inside)).1
  | filter m =>
    obtain ⟨c, inside, index⟩ := Option.bind_eq_some_iff.mp arrives
    obtain ⟨f, filtered, index⟩ := Option.bind_eq_some_iff.mp index
    exact absurd index ((sound.entries k site c (List.mem_of_getElem? inside)).2 f filtered)

/-- In front of the test of a site the result of its call lies on the stack. -/
def Loaded (meaning : Meaning O H) (methods : Resolver) (code : List Instr)
    (p : Position O H) : Prop :=
  ∀ lit, tested? methods code p.index = some lit →
    ∃ rest, p.machine.stack = meaning.literal lit :: rest

def unload (methods : Resolver) (code : List Instr) (p : Position O H) : Position O H :=
  if (tested? methods code p.index).isSome then
    { p with machine := { p.machine with stack := p.machine.stack.tail } }
  else p

theorem unload_of_none (none : tested? methods b.instrs p.index = none) :
    unload methods b.instrs p = p := by
  rw [unload, none]
  rfl

theorem index_unload (p : Position O H) : (unload methods b.instrs p).index = p.index := by
  unfold unload
  split <;> rfl

theorem Sound.tested?_step (sound : Sound methods b) (here : b.instrs[n]? = some i)
    {way : Departure} {index : Nat} (arrives : b.arrival? n i way = some index)
    (noCall : siteAt? methods b.instrs n = none) : tested? methods b.instrs index = none := by
  cases index with
  | zero => rfl
  | succ k =>
    rw [tested?, Option.eq_none_iff_forall_ne_some]
    intro lit known
    obtain ⟨form, fate, v, site⟩ := site_of_result known
    obtain ⟨-, rfl⟩ := sound.arrival here arrives (by rw [site]; rfl)
    rw [noCall] at site
    cases site

theorem arrival?_simplify (n : Nat) (i : Instr) (way : Departure) :
    (simplify methods method b).1.arrival? n i way = b.arrival? n i way := by
  have names := sameNames_simplify methods method b
  cases way with
  | onward => rfl
  | target m => simp only [Body.arrival?, funext names.index?]
  | handler m => simp only [Body.arrival?, names.clauses, names.index?]
  | filter m => simp only [Body.arrival?, names.clauses, funext names.index?]

theorem act_call (meaning : Meaning O H) (sound : Sound methods b)
    (site : siteAt? methods b.instrs n = some (form, fate, v))
    (here : b.instrs[n]? = some call) (m : Machine O H) :
    ∃ lit, result? methods b.instrs n = some lit ∧
      meaning.act (result? methods b.instrs) n call m =
        some (.onward, { m with stack := meaning.literal lit :: m.stack }) := by
  obtain ⟨lit, known⟩ := Option.isSome_iff_exists.mp (sound.stubs n (by rw [site]; rfl))
  obtain ⟨call', test, next, here', -, -, found⟩ := siteAt?_some site
  cases here.symm.trans here'
  refine ⟨lit, known, ?_⟩
  simp only [Meaning.act, (classify?_some (site?_some found).2.2).1, known]

theorem act_test (known : Nat → Option Int)
    (site : siteAt? methods b.instrs n = some (form, fate, v))
    (there : b.instrs[n + 1]? = some test) (result : result? methods b.instrs n = some lit)
    {m : Machine O H} {rest : List (Value O)} (loaded : m.stack = meaning.literal lit :: rest) :
    meaning.act known (n + 1) test m =
      some (if fate = .jump then .target 0 else .onward, { m with stack := rest }) := by
  obtain ⟨call, test', next, here, there', -, found⟩ := siteAt?_some site
  cases there.symm.trans there'
  rw [result?_of_site site here] at result
  have verdict := verdict_of_stub (site?_some found).2.2 result
  have looks : ∀ ifTrue, fate = fateOf ifTrue v → meaning.test ifTrue m =
      some (if fate = .jump then .target 0 else .onward, { m with stack := rest }) := by
    rintro ifTrue rfl
    rw [verdict, fateOf_stub]
    simp only [Meaning.test, loaded, meaning.holds_literal, Option.map_some]
    by_cases taken : decide (lit ≠ 0) = ifTrue <;>
      simp only [taken, if_true, if_false, reduceCtorEq]
  rcases fate_of_site found with ⟨op, same⟩ | ⟨op, same⟩
  · simpa only [Meaning.act, op] using looks true same
  · simpa only [Meaning.act, op] using looks false same

theorem act_settleTest (known : Nat → Option Int) (n : Nat) (form : Form) (test : Instr)
    (fate : TestFate) (m : Machine O H) :
    meaning.act known n (settleTest form test fate) m =
      some (if fate = .jump then .target 0 else .onward, m) := by
  cases fate <;> rfl

theorem arrival?_settleTest {c : Condition} (op : test.opcode = .branch c form) :
    b.arrival? n (settleTest form test fate) (if fate = .jump then .target 0 else .onward) =
      b.arrival? n test (if fate = .jump then .target 0 else .onward) := by
  cases fate with
  | gone => rfl
  | jump => simp only [Body.arrival?, targets_settleTest op, if_true]

theorem loaded_step (sound : Sound methods b)
    (steps : meaning.step (result? methods b.instrs) b p = some p') :
    Loaded meaning methods b.instrs p' := by
  obtain ⟨i, way, here, acts, arrives⟩ := Meaning.step_some steps
  intro lit tested
  obtain ⟨index, machine⟩ := p'
  cases index with
  | zero => cases tested
  | succ k =>
    obtain ⟨form, fate, v, site⟩ := site_of_result tested
    obtain ⟨rfl, same⟩ := sound.arrival here arrives (by rw [site]; rfl)
    subst same
    obtain ⟨lit', known, pushes⟩ := act_call meaning sound site here p.machine
    cases known.symm.trans tested
    cases pushes.symm.trans acts
    exact ⟨_, rfl⟩

theorem step_kept (sound : Sound methods b) (was : b.instrs[p.index]? = some i)
    (here : (simplify methods method b).1.instrs[p.index]? = some i)
    (noCall : siteAt? methods b.instrs p.index = none)
    (noTest : tested? methods b.instrs p.index = none) :
    meaning.step (result? methods b.instrs) (simplify methods method b).1
        (unload methods b.instrs p) =
      (meaning.step (result? methods b.instrs) b p).map (unload methods b.instrs) := by
  have same : meaning.step (result? methods b.instrs) (simplify methods method b).1 p =
      meaning.step (result? methods b.instrs) b p := by
    simp only [Meaning.step, here, was, arrival?_simplify]
  rw [unload_of_none noTest, same]
  cases steps : meaning.step (result? methods b.instrs) b p with
  | none => rfl
  | some p' =>
    obtain ⟨i', way, found, -, arrives⟩ := Meaning.step_some steps
    rw [Option.map_some, unload_of_none (sound.tested?_step found arrives noCall)]

theorem step_call (sound : Sound methods b) {m : Machine O H}
    (site : siteAt? methods b.instrs n = some (form, fate, v)) (was : b.instrs[n]? = some call)
    (here : (simplify methods method b).1.instrs[n]? = some call.erase) :
    meaning.step (result? methods b.instrs) (simplify methods method b).1
        (unload methods b.instrs ⟨n, m⟩) =
      (meaning.step (result? methods b.instrs) b ⟨n, m⟩).map (unload methods b.instrs) := by
  have noTest : tested? methods b.instrs n = none := by
    cases n with
    | zero => rfl
    | succ k =>
      rw [tested?, Option.eq_none_iff_forall_ne_some]
      intro lit known
      obtain ⟨form', fate', v', site'⟩ := site_of_result known
      rw [siteAt?_behind site'] at site
      cases site
  obtain ⟨lit, known, pushes⟩ := act_call meaning sound site was m
  have tested : tested? methods b.instrs (n + 1) = some lit := known
  have idles : meaning.act (result? methods b.instrs) n call.erase m = some (.onward, m) := rfl
  rw [unload_of_none noTest, Meaning.step_of_act was pushes, Meaning.step_of_act here idles]
  simp [Body.arrival?, unload, tested]

theorem step_test (sound : Sound methods b) {m : Machine O H}
    (site : siteAt? methods b.instrs k = some (form, fate, v))
    (loaded : Loaded meaning methods b.instrs ⟨k + 1, m⟩) (was : b.instrs[k + 1]? = some test)
    (here : (simplify methods method b).1.instrs[k + 1]? = some (settleTest form test fate)) :
    meaning.step (result? methods b.instrs) (simplify methods method b).1
        (unload methods b.instrs ⟨k + 1, m⟩) =
      (meaning.step (result? methods b.instrs) b ⟨k + 1, m⟩).map (unload methods b.instrs) := by
  obtain ⟨lit, result⟩ := Option.isSome_iff_exists.mp (sound.stubs k (by rw [site]; rfl))
  have tested : tested? methods b.instrs (k + 1) = some lit := result
  obtain ⟨rest, stack⟩ : ∃ rest, m.stack = meaning.literal lit :: rest := loaded lit tested
  have unloaded : unload methods b.instrs ⟨k + 1, m⟩ = ⟨k + 1, { m with stack := rest }⟩ := by
    simp [unload, tested, stack]
  obtain ⟨call, test', next, -, there, -, found⟩ := siteAt?_some site
  cases there.symm.trans was
  obtain ⟨⟨c, op, -⟩, -, -⟩ := site?_some found
  rw [unloaded, Meaning.step_of_act was (act_test _ site was result stack),
    Meaning.step_of_act here (act_settleTest _ _ form test fate _), arrival?_simplify,
    arrival?_settleTest op]
  cases arrives : b.arrival? (k + 1) test (if fate = .jump then .target 0 else .onward) with
  | none => rfl
  | some index =>
    have away := sound.tested?_step was arrives (siteAt?_behind site)
    simp only [Option.map_some, unload, away, Option.isSome_none, Bool.false_eq_true, if_false]

theorem step_simplify (sound : Sound methods b) (loaded : Loaded meaning methods b.instrs p) :
    meaning.step (result? methods b.instrs) (simplify methods method b).1
        (unload methods b.instrs p) =
      (meaning.step (result? methods b.instrs) b p).map (unload methods b.instrs) := by
  obtain ⟨n, m⟩ := p
  cases here : (simplify methods method b).1.instrs[n]? with
  | none =>
    have gone : b.instrs[n]? = none := by
      rw [List.getElem?_eq_none_iff, ← (sameNames_simplify methods method b).length_eq]
      exact List.getElem?_eq_none_iff.mp here
    simp [Meaning.step, index_unload, here, gone]
  | some j =>
    obtain ⟨i, was, settled⟩ := settled_of_simplify here
    cases settled with
    | kept noCall noTest =>
      refine step_kept sound was here noCall ?_
      cases n with
      | zero => rfl
      | succ k => simp [tested?, result?, noTest k rfl]
    | call form fate v site => exact step_call sound site was here
    | test k form fate v behind site =>
      subst behind
      exact step_test sound site loaded was here

theorem run_simplify (method : Token) (sound : Sound methods b)
    (loaded : Loaded meaning methods b.instrs p) (k : Nat) :
    meaning.run (result? methods b.instrs) (simplify methods method b).1 k
        (unload methods b.instrs p) =
      (meaning.run (result? methods b.instrs) b k p).map (unload methods b.instrs) := by
  induction k generalizing p with
  | zero => rfl
  | succ k ih =>
    rw [Meaning.run, Meaning.run, step_simplify sound loaded]
    cases steps : meaning.step (result? methods b.instrs) b p with
    | none => rfl
    | some p' => exact ih (loaded_step sound steps)

def outside (methods : Resolver) (code : List Instr)
    (all : List (Position O H × Position O H)) : List (Position O H × Position O H) :=
  all.filter fun t =>
    (siteAt? methods code t.1.index).isNone && (tested? methods code t.1.index).isNone

theorem outside_transitions (sound : Sound methods b) (loaded : Loaded meaning methods b.instrs p)
    (k : Nat) :
    outside methods b.instrs (meaning.transitions (result? methods b.instrs)
        (simplify methods method b).1 k (unload methods b.instrs p)) =
      outside methods b.instrs (meaning.transitions (result? methods b.instrs) b k p) := by
  induction k generalizing p with
  | zero => rfl
  | succ k ih =>
    rw [Meaning.transitions, Meaning.transitions, step_simplify sound loaded]
    cases steps : meaning.step (result? methods b.instrs) b p with
    | none => rfl
    | some p' =>
      have rest := ih (loaded_step sound steps)
      obtain ⟨i, way, here, -, arrives⟩ := Meaning.step_some steps
      simp only [Option.map_some, outside, List.filter_cons, index_unload] at rest ⊢
      rw [rest]
      split
      · rename_i away
        rw [Bool.and_eq_true, Option.isNone_iff_eq_none, Option.isNone_iff_eq_none] at away
        rw [unload_of_none away.2, unload_of_none (sound.tested?_step here arrives away.1)]
      · rfl

/-- Where callees are stubs and tests are come to from their calls alone, the settled code runs in
    step with the code as it was: after any number of instructions it is at the same index in the
    same state, but for the value in front of a test. So both make the same transitions outside of
    sites, and leave the test of a site for the same index with the same state. -/
theorem settled_in_step (sound : Sound methods b) (method : Token) (meaning : Meaning O H)
    (start : Machine O H) (k : Nat) :
    meaning.run (result? methods b.instrs) (simplify methods method b).1 k ⟨0, start⟩ =
        (meaning.run (result? methods b.instrs) b k ⟨0, start⟩).map (unload methods b.instrs) ∧
      outside methods b.instrs (meaning.transitions (result? methods b.instrs)
          (simplify methods method b).1 k ⟨0, start⟩) =
        outside methods b.instrs
          (meaning.transitions (result? methods b.instrs) b k ⟨0, start⟩) ∧
      ∀ p p', meaning.run (result? methods b.instrs) b k ⟨0, start⟩ = some p →
        (tested? methods b.instrs p.index).isSome →
        meaning.step (result? methods b.instrs) b p = some p' →
        meaning.run (result? methods b.instrs) (simplify methods method b).1 (k + 1) ⟨0, start⟩ =
          some p' := by
  have loaded : Loaded meaning methods b.instrs ⟨0, start⟩ := nofun
  have begin_ : unload methods b.instrs ⟨0, start⟩ = ⟨0, start⟩ := rfl
  refine ⟨run_simplify method sound loaded k, outside_transitions sound loaded k, ?_⟩
  intro p p' ran tests steps
  have after := run_simplify method sound loaded (k + 1)
  rw [begin_, Meaning.run_succ _ _ b, ran, Option.bind_some, steps, Option.map_some] at after
  rw [after]
  obtain ⟨i, way, here, -, arrives⟩ := Meaning.step_some steps
  cases index : p.index with
  | zero =>
    rw [index] at tests
    cases tests
  | succ n =>
    rw [index] at tests here arrives
    obtain ⟨lit, result⟩ := Option.isSome_iff_exists.mp tests
    obtain ⟨form, fate, v, site⟩ := site_of_result result
    rw [unload_of_none (sound.tested?_step here arrives (siteAt?_behind site))]

def countedMeaning : Meaning Int Unit where
  literal n := .other n
  holds
    | .other n => some (decide (n ≠ 0))
    | .int c => some (!Integer.isZero c)
  holds_literal _ := rfl
  effect _ i m :=
    match i.opcode, m.stack with
    | .ldcI4Fixed n, stack => some (.onward, { m with stack := .other (n.val - 1) :: stack })
    | .ldarg (.fixed n), stack => some (.onward, { m with stack := m.frame.args n :: stack })
    | .pop, _ :: stack => some (.onward, { m with stack })
    | .switch, .other n :: stack =>
      some (if 0 ≤ n ∧ n < i.targets.length then .target n.toNat else .onward, { m with stack })
    | _, _ => none

def sidestep : Body := dispatcher (.branch .isFalse .long) 7

/-- The case with the call is taken, and the settled test jumps with the same stack. -/
theorem sidestep_in_step :
    Sound (MethodTable.mk [truth]) sidestep ∧
      ∃ p : Position Int Unit, p.index = 9 ∧
        countedMeaning.run (result? (MethodTable.mk [truth]) sidestep.instrs)
            (simplify (MethodTable.mk [truth]) (.methodDef 2) sidestep).1 5
            ⟨0, [], ⟨fun _ => .other 0, fun _ => .other 0, ()⟩⟩ = some p := by
  have only : ∀ n, (siteAt? (MethodTable.mk [truth]) sidestep.instrs n).isSome → n = 5 := by
    intro n found
    obtain ⟨⟨form, fate, v⟩, site⟩ := Option.isSome_iff_exists.mp found
    obtain ⟨call, test, next, here, -⟩ := siteAt?_some site
    have each : ∀ n < 11, (siteAt? (MethodTable.mk [truth]) sidestep.instrs n).isSome → n = 5 := by
      decide
    exact each n (List.getElem?_eq_some_iff.mp here).1 found
  have sound : Sound (MethodTable.mk [truth]) sidestep := by
    refine ⟨fun n found => ?_, fun n found => ?_, fun n found => ?_⟩
    · rw [only n found]
      decide
    · rw [only n found]
      decide
    · exact nofun
  have leaves := (settled_in_step sound (.methodDef 2) countedMeaning
    ⟨[], ⟨fun _ => .other 0, fun _ => .other 0, ()⟩⟩ 4).2.2
  exact ⟨sound, _, rfl, leaves _ _ rfl rfl rfl⟩

end Predicate
end Unravel
