import Unravel.Proofs.Predicate.Settling

/-!
Settling opaque predicates rewrites the sites of the code as it was, all of them at once and no
other instruction. Sites have no instruction in common, a settled site is none any more and no
rewriting makes a new one, so settling twice is settling once.
-/
namespace Unravel.Predicate

/-- A test at an index, with the call in front of it whose result is known and a `pop` behind. -/
structure Site (methods : Resolver) (code : List Instr) (n : Nat) (ifTrue : Bool) (form : Form)
    (v : Verdict) : Prop where
  inner : 1 ≤ n ∧ n + 2 ≤ code.length
  call : ∃ call, code[n - 1]? = some call ∧ classify? methods call = some v
  test : ∃ test, code[n]? = some test ∧
    test.opcode = .branch (if ifTrue then .isTrue else .isFalse) form
  next : ∃ next, code[n + 1]? = some next ∧ next.opcode = .pop

def IsSite (methods : Resolver) (code : List Instr) (n : Nat) : Prop :=
  ∃ ifTrue form v, Site methods code n ifTrue form v

/-- The truth table: whether a test takes its branch. A callee without a truth value is taken to
   return false. -/
def takes : Bool → Verdict → Bool
  | true, .alwaysTrue | false, .alwaysFalse | false, .unknown => true
  | true, .alwaysFalse | true, .unknown | false, .alwaysTrue => false

/-- What becomes of an instruction. All that is asked is asked of the code as it was. -/
inductive Becomes (methods : Resolver) (code : List Instr) (n : Nat) (i : Instr) : Instr → Prop
  | call (site : IsSite methods code (n + 1)) :
      Becomes methods code n i { i with opcode := .nop, operand := .none }
  | jump {ifTrue form v} (site : Site methods code n ifTrue form v)
      (taken : takes ifTrue v = true) :
      Becomes methods code n i { i with opcode := .br form }
  | gone {ifTrue form v} (site : Site methods code n ifTrue form v)
      (failed : takes ifTrue v = false) :
      Becomes methods code n i { i with opcode := .nop, operand := .none }
  | kept (noCall : ¬ IsSite methods code (n + 1)) (noTest : ¬ IsSite methods code n) :
      Becomes methods code n i i

structure Rewrites (methods : Resolver) (code code' : List Instr) : Prop where
  length : code'.length = code.length
  each : ∀ n i j, code[n]? = some i → code'[n]? = some j → Becomes methods code n i j

variable {methods : Resolver} {method : Token} {code code' : List Instr} {n m : Nat}
variable {i j : Instr} {ifTrue ifTrue' : Bool} {form form' : Form} {v v' : Verdict}
variable {fate : TestFate} {b : Body}

theorem fateOf_eq (ifTrue : Bool) (v : Verdict) :
    fateOf ifTrue v = if takes ifTrue v then .jump else .gone := by
  cases ifTrue <;> cases v <;> rfl

theorem site?_eq_some_iff {call test next : Instr} :
    site? methods call test next = some (form, fate, v) ↔
      ∃ ifTrue, test.opcode = .branch (if ifTrue then .isTrue else .isFalse) form ∧
        next.opcode = .pop ∧ classify? methods call = some v ∧ fate = fateOf ifTrue v := by
  constructor
  · intro site
    obtain ⟨⟨c, tested, kind⟩, popped, known⟩ := site?_some site
    rw [site?, tested, popped, known] at site
    obtain rfl | rfl := kind <;> cases site
    · exact ⟨true, tested, popped, known, rfl⟩
    · exact ⟨false, tested, popped, known, rfl⟩
  · rintro ⟨ifTrue, tested, popped, known, rfl⟩
    cases ifTrue <;> simp [site?, tested, popped, known]

theorem siteAt?_eq_some_iff : siteAt? methods code n = some (form, fate, v) ↔
    ∃ ifTrue, Site methods code (n + 1) ifTrue form v ∧ fate = fateOf ifTrue v := by
  constructor
  · intro site
    obtain ⟨call, test, next, here, there, behind, site⟩ := siteAt?_some site
    obtain ⟨ifTrue, tested, popped, known, rfl⟩ := site?_eq_some_iff.mp site
    have inside := (List.getElem?_eq_some_iff.mp behind).1
    exact ⟨ifTrue, ⟨by omega, ⟨call, here, known⟩, ⟨test, there, tested⟩, ⟨next, behind, popped⟩⟩,
      rfl⟩
  · rintro ⟨ifTrue, ⟨-, ⟨call, here, known⟩, ⟨test, there, tested⟩, ⟨next, behind, popped⟩⟩, rfl⟩
    rw [Nat.add_sub_cancel] at here
    simp only [siteAt?, here, there, behind, Option.bind_eq_bind, Option.bind_some]
    exact site?_eq_some_iff.mpr ⟨ifTrue, tested, popped, known, rfl⟩

theorem isSite_succ_iff : IsSite methods code (n + 1) ↔ (siteAt? methods code n).isSome := by
  constructor
  · rintro ⟨ifTrue, form, v, site⟩
    rw [siteAt?_eq_some_iff.mpr ⟨ifTrue, site, rfl⟩]
    rfl
  · intro found
    obtain ⟨⟨form, fate, v⟩, found⟩ := Option.isSome_iff_exists.mp found
    obtain ⟨ifTrue, site, -⟩ := siteAt?_eq_some_iff.mp found
    exact ⟨ifTrue, form, v, site⟩

theorem not_isSite_succ_iff : ¬ IsSite methods code (n + 1) ↔ siteAt? methods code n = none := by
  rw [isSite_succ_iff, Option.not_isSome_iff_eq_none]

theorem not_isSite_zero : ¬ IsSite methods code 0 :=
  fun ⟨_, _, _, site⟩ => absurd site.inner.1 (by omega)

theorem Site.unique (site : Site methods code n ifTrue form v)
    (site' : Site methods code n ifTrue' form' v') : ifTrue' = ifTrue ∧ form' = form ∧ v' = v := by
  obtain ⟨call, called, known⟩ := site.call
  obtain ⟨test, tested, op⟩ := site.test
  obtain ⟨call', called', known'⟩ := site'.call
  obtain ⟨test', tested', op'⟩ := site'.test
  cases called.symm.trans called'
  cases tested.symm.trans tested'
  refine ⟨?_, ?_, Option.some.inj (known'.symm.trans known)⟩
  all_goals
    rw [op] at op'
    cases ifTrue <;> cases ifTrue' <;> cases op' <;> rfl

theorem IsSite.apart (site : IsSite methods code n) (site' : IsSite methods code m) (lt : n < m) :
    n + 3 ≤ m := by
  obtain ⟨ifTrue, form, v, site⟩ := site
  obtain ⟨ifTrue', form', v', site'⟩ := site'
  obtain ⟨call, called, known⟩ := site'.call
  obtain ⟨test, tested, op⟩ := site.test
  obtain ⟨next, popped, isPop⟩ := site.next
  have isCall := (classify?_some known).1
  -- the call of the later site is neither the test nor the `pop` of the first one
  have noTest : m - 1 ≠ n := by
    intro same
    rw [same, tested] at called
    cases called
    cases isCall.symm.trans op
  have noPop : m - 1 ≠ n + 1 := by
    intro same
    rw [same, popped] at called
    cases called
    cases isCall.symm.trans isPop
  omega

theorem Becomes.unique {j' : Instr} (becomes : Becomes methods code n i j)
    (becomes' : Becomes methods code n i j') : j' = j := by
  have alone : IsSite methods code (n + 1) → ¬ IsSite methods code n := by
    intro later site
    have := site.apart later (by omega)
    omega
  cases becomes with
  | call site =>
    cases becomes' with
    | call | gone => rfl
    | jump test => exact absurd ⟨_, _, _, test⟩ (alone site)
    | kept noCall => exact absurd site noCall
  | jump site taken =>
    cases becomes' with
    | call later => exact absurd ⟨_, _, _, site⟩ (alone later)
    | jump site' => rw [(site.unique site').2.1]
    | gone site' failed =>
      obtain ⟨rfl, -, rfl⟩ := site.unique site'
      cases taken.symm.trans failed
    | kept _ noTest => exact absurd ⟨_, _, _, site⟩ noTest
  | gone site failed =>
    cases becomes' with
    | call | gone => rfl
    | jump site' taken =>
      obtain ⟨rfl, -, rfl⟩ := site.unique site'
      cases taken.symm.trans failed
    | kept _ noTest => exact absurd ⟨_, _, _, site⟩ noTest
  | kept noCall noTest =>
    cases becomes' with
    | call site => exact absurd site noCall
    | jump site | gone site => exact absurd ⟨_, _, _, site⟩ noTest
    | kept => rfl

theorem Rewrites.unique {code'' : List Instr} (rewrites : Rewrites methods code code')
    (rewrites' : Rewrites methods code code'') : code'' = code' := by
  refine List.ext_getElem? fun n => ?_
  have same := rewrites'.length.trans rewrites.length.symm
  cases was : code[n]? with
  | none =>
    have outside := List.getElem?_eq_none_iff.mp was
    rw [List.getElem?_eq_none (by rw [rewrites'.length]; exact outside),
      List.getElem?_eq_none (by rw [rewrites.length]; exact outside)]
  | some i =>
    have inside := (List.getElem?_eq_some_iff.mp was).1
    have here := List.getElem?_eq_getElem (rewrites.length ▸ inside)
    have here' := List.getElem?_eq_getElem (rewrites'.length ▸ inside)
    rw [here, here', (rewrites.each n i _ was here).unique (rewrites'.each n i _ was here')]

theorem becomes_of_settled (settled : Settled methods code n i j) : Becomes methods code n i j := by
  cases settled with
  | call form fate v site =>
    obtain ⟨ifTrue, site, -⟩ := siteAt?_eq_some_iff.mp site
    exact .call ⟨ifTrue, form, v, site⟩
  | test k form fate v behind site =>
    subst behind
    obtain ⟨ifTrue, tested, rfl⟩ := siteAt?_eq_some_iff.mp site
    rw [fateOf_eq]
    cases taken : takes ifTrue v with
    | true => exact .jump tested taken
    | false => exact .gone tested taken
  | kept noCall noTest =>
    refine .kept (not_isSite_succ_iff.mpr noCall) ?_
    cases n with
    | zero => exact not_isSite_zero
    | succ k => exact not_isSite_succ_iff.mpr (noTest k rfl)

theorem rewrites_simplify (methods : Resolver) (method : Token) (b : Body) :
    Rewrites methods b.instrs (simplify methods method b).1.instrs where
  length := (sameNames_simplify methods method b).length_eq
  each n i j was is := by
    obtain ⟨i', was', settled⟩ := settled_of_simplify is
    cases was.symm.trans was'
    exact becomes_of_settled settled

/-- The calls of the sites, in ascending order, with what becomes of the tests behind them. -/
def found (methods : Resolver) (code : List Instr) : List (Nat × Form × TestFate × Verdict) :=
  (List.range code.length).filterMap fun n => (siteAt? methods code n).map (n, ·)

theorem mem_found {s : Form × TestFate × Verdict} :
    (n, s) ∈ found methods code ↔ siteAt? methods code n = some s := by
  simp only [found, List.mem_filterMap, List.mem_range, Option.map_eq_some_iff, Prod.mk.injEq]
  constructor
  · rintro ⟨n, -, s, site, rfl, rfl⟩
    exact site
  · intro site
    obtain ⟨call, test, next, here, -, -, -⟩ := siteAt?_some site
    exact ⟨n, (List.getElem?_eq_some_iff.mp here).1, s, site, rfl, rfl⟩

theorem found_ascending (methods : Resolver) (code : List Instr) :
    (found methods code).Pairwise fun s t => s.1 < t.1 := by
  refine List.Pairwise.filterMap _ ?_ List.pairwise_lt_range
  intro n m lt s isS t isT
  obtain ⟨_, -, rfl⟩ := Option.map_eq_some_iff.mp isS
  obtain ⟨_, -, rfl⟩ := Option.map_eq_some_iff.mp isT
  exact lt

theorem found_cons (methods : Resolver) (i : Instr) (code : List Instr) :
    found methods (i :: code) = ((siteAt? methods (i :: code) 0).map (0, ·)).toList ++
      (found methods code).map fun s => (s.1 + 1, s.2) := by
  have later : (fun n => (siteAt? methods (i :: code) (n + 1)).map (n + 1, ·)) = fun n =>
      ((siteAt? methods code n).map (n, ·)).map fun s => (s.1 + 1, s.2) := by
    funext n
    rw [Option.map_map]
    rfl
  rw [found, List.length_cons, List.range_succ_eq_map, List.filterMap_cons, List.filterMap_map,
    Function.comp_def, later, ← List.map_filterMap]
  cases siteAt? methods (i :: code) 0 <;> rfl

theorem scan_events_eq (methods : Resolver) (method : Token) (index : Nat) (previous : Instr)
    (rest : List Instr) :
    (scan methods method index previous rest).2.1 =
      (found methods (previous :: rest)).map fun s =>
        event method (index + s.1) s.2.2.1 s.2.2.2 := by
  fun_induction scan methods method index previous rest with
  | case1 index previous test next rest form fate v site settled code events count scanned ih =>
    have first : siteAt? methods (previous :: test :: next :: rest) 0 = some (form, fate, v) := site
    have same : found methods (settled :: next :: rest) = found methods (test :: next :: rest) := by
      rw [found, funext fun n => congrArg (Option.map (n, ·)) (siteAt?_settled site rest n)]
      rfl
    rw [scanned, same] at ih
    rw [found_cons methods previous, first, List.map_append, List.map_map, Function.comp_def]
    simp only [Nat.add_assoc, Nat.add_comm 1] at ih
    exact congrArg (event method index fate v :: ·) ih
  | case2 index previous test next rest site code events count scanned ih =>
    have first : siteAt? methods (previous :: test :: next :: rest) 0 = none := site
    rw [scanned] at ih
    rw [found_cons methods previous, first, List.map_append, List.map_map, Function.comp_def]
    simp only [Nat.add_assoc, Nat.add_comm 1] at ih
    exact ih
  | case3 index previous rest short =>
    rw [found, List.filterMap_eq_nil_iff.mpr]
    · rfl
    · intro n _
      rw [siteAt?_short short]
      rfl

theorem scan_count (methods : Resolver) (method : Token) (index : Nat) (previous : Instr)
    (rest : List Instr) :
    (scan methods method index previous rest).2.2 =
      (scan methods method index previous rest).2.1.length := by
  fun_induction scan methods method index previous rest with
  | case1 index previous test next rest form fate v site settled code events count scanned ih =>
    rw [scanned] at ih
    exact congrArg (· + 1) ih
  | case2 index previous test next rest site code events count scanned ih =>
    rw [scanned] at ih
    exact ih
  | case3 index previous rest short => rfl

theorem settle_count (methods : Resolver) (method : Token) (b : Body) :
    (settle methods method b).2.2 = (settle methods method b).2.1.length := by
  unfold settle
  split
  · rfl
  · exact scan_count methods method 1 _ _

theorem settle_events_eq (methods : Resolver) (method : Token) (b : Body) :
    (settle methods method b).2.1 =
      (found methods b.instrs).map fun s => event method (s.1 + 1) s.2.2.1 s.2.2.2 := by
  unfold settle
  split
  · rename_i empty
    rw [empty]
    rfl
  · rename_i first rest code
    rw [code]
    simpa only [Nat.add_comm 1] using scan_events_eq methods method 1 first rest

theorem settle_frame (methods : Resolver) (method : Token) (b : Body) :
    (settle methods method b).1 = { b with instrs := (settle methods method b).1.instrs } := by
  unfold settle
  split <;> rfl

theorem settle_of_no_site (none : ∀ n, siteAt? methods b.instrs n = none) (method : Token) :
    settle methods method b = (b, [], 0) := by
  have idle : Rewrites methods b.instrs b.instrs := by
    refine ⟨rfl, fun n i j was is => ?_⟩
    cases was.symm.trans is
    exact becomes_of_settled (.kept (none n) fun k _ => none k)
  have kept : (settle methods method b).1.instrs = b.instrs :=
    idle.unique (rewrites_simplify methods method b)
  have silent : found methods b.instrs = [] := by
    refine List.filterMap_eq_nil_iff.mpr fun n _ => ?_
    rw [none]
    rfl
  have quiet : (settle methods method b).2.1 = [] := by
    rw [settle_events_eq, silent]
    rfl
  refine Prod.ext ?_ (Prod.ext quiet ?_)
  · rw [settle_frame, kept]
  · rw [settle_count, quiet]
    rfl

theorem siteAt?_simplify (methods : Resolver) (method : Token) (b : Body) (n : Nat) :
    siteAt? methods (simplify methods method b).1.instrs n = none := by
  rw [Option.eq_none_iff_forall_ne_some]
  rintro ⟨form, fate, v⟩ site
  obtain ⟨call, test, next, here, there, behind, site⟩ := siteAt?_some site
  obtain ⟨⟨c, tested, -⟩, popped, known⟩ := site?_some site
  have isCall := (classify?_some known).1
  obtain ⟨i, was, settled⟩ := settled_of_simplify here
  obtain ⟨i', was', settled'⟩ := settled_of_simplify there
  obtain ⟨i'', was'', settled''⟩ := settled_of_simplify behind
  cases settled with
  | call => cases isCall
  | test k form fate => exact opcode_settleTest form i fate isCall
  | kept noCall =>
    cases settled' with
    | call => cases tested
    | test k form fate v after site' =>
      cases after
      cases noCall.symm.trans site'
    | kept =>
      cases settled'' with
      | call => cases popped
      | test k form fate => cases fate <;> cases popped
      | kept =>
        have before : siteAt? methods b.instrs n = some (form, fate, v) := by
          rw [siteAt?, was, was', was'']
          exact site
        cases noCall.symm.trans before

def sites (methods : Resolver) (code : List Instr) : List Nat :=
  (found methods code).map fun s => s.1 + 1

theorem mem_sites : n ∈ sites methods code ↔ IsSite methods code n := by
  rw [sites, List.mem_map]
  constructor
  · rintro ⟨⟨k, s⟩, among, rfl⟩
    rw [isSite_succ_iff, mem_found.mp among]
    rfl
  · intro site
    cases n with
    | zero => exact absurd site not_isSite_zero
    | succ k =>
      obtain ⟨s, found⟩ := Option.isSome_iff_exists.mp (isSite_succ_iff.mp site)
      exact ⟨(k, s), mem_found.mpr found, rfl⟩

theorem sites_apart (methods : Resolver) (code : List Instr) :
    (sites methods code).Pairwise fun n m => n + 3 ≤ m := by
  have ascending : (sites methods code).Pairwise (· < ·) :=
    List.pairwise_map.mpr ((found_ascending methods code).imp Nat.succ_lt_succ)
  refine ascending.imp_of_mem fun site site' lt => ?_
  exact (mem_sites.mp site).apart (mem_sites.mp site') lt

def Records (methods : Resolver) (method : Token) (code : List Instr) (n : Nat) (e : Event) :
    Prop :=
  ∃ ifTrue form v, Site methods code n ifTrue form v ∧
    e = event method n (if takes ifTrue v then .jump else .gone) v

theorem settle_records (methods : Resolver) (method : Token) (b : Body) :
    List.Forall₂ (Records methods method b.instrs) (sites methods b.instrs)
      (settle methods method b).2.1 := by
  rw [settle_events_eq, sites, List.forall₂_map_left_iff, List.forall₂_map_right_iff,
    List.forall₂_same]
  rintro ⟨n, form, fate, v⟩ among
  obtain ⟨ifTrue, site, rfl⟩ := siteAt?_eq_some_iff.mp (mem_found.mp among)
  exact ⟨ifTrue, form, v, site, by rw [fateOf_eq]⟩

/-- What settling the sites of a body comes to. -/
structure Settles (methods : Resolver) (method : Token) (b b' : Body) (events : Journal)
    (count : Nat) (sites : List Nat) : Prop where
  listed : ∀ n, n ∈ sites ↔ IsSite methods b.instrs n
  apart : sites.Pairwise fun n m => n + 3 ≤ m
  code : ∀ code, Rewrites methods b.instrs code ↔ code = b'.instrs
  frame : b' = { b with instrs := b'.instrs }
  recorded : List.Forall₂ (Records methods method b.instrs) sites events
  counted : count = sites.length
  count : events.length = sites.length ∧ events.count .equationSimplified = sites.length

/-- One scan rewrites the sites of the code as it was, and the next one finds nothing to do. -/
theorem simplify_settles (methods : Resolver) (method : Token) (b : Body) :
    ∃ sites, Settles methods method b (settle methods method b).1 (settle methods method b).2.1
        (settle methods method b).2.2 sites ∧
      ∀ other, settle methods other (settle methods method b).1 =
        ((settle methods method b).1, [], 0) := by
  have recorded := settle_records methods method b
  have rewrites := rewrites_simplify methods method b
  have kinds : ∀ e ∈ (settle methods method b).2.1, e.kind = .equationSimplified := by
    rw [settle_events_eq]
    exact List.forall_mem_map.mpr fun _ _ => rfl
  refine ⟨sites methods b.instrs, ⟨fun n => mem_sites, sites_apart methods b.instrs, fun code => ?_,
    settle_frame methods method b, recorded, ?_, recorded.length_eq.symm, ?_⟩, ?_⟩
  · exact ⟨rewrites.unique, fun same => same ▸ rewrites⟩
  · rw [settle_count, recorded.length_eq]
  · rw [Journal.count, List.countP_eq_length.mpr, recorded.length_eq]
    simpa using kinds
  · exact settle_of_no_site (siteAt?_simplify methods method b)

end Unravel.Predicate
