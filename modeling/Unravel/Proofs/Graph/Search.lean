import Unravel.Proofs.Graph.Survival

/-!
The search for reachable blocks as nested loops. The inner loop follows edges until its queue is
empty, first come, first served; the outer one then queues the handlers and filters that are due
because something they protect was seen, until none is. A region that named a block that is gone
would be due forever, so that the search ends because regions name live blocks only. It finds the
least set that holds the entry and is closed under edges and regions, which is what `reachable`
gathers in one loop.
-/
namespace Unravel

/-- A search under way: the blocks still to be looked at, and those seen. -/
structure Search where
  queue : List BlockId
  seen : List BlockId

namespace Graph

def RegionsLive (g : Graph) : Prop :=
  ∀ r ∈ g.regions, ∀ blocks ∈ r.lists, ∀ id ∈ blocks, g.contains id = true

/-- Handlers and filters not seen yet of the regions with a try block that was seen. -/
def due (g : Graph) (seen : List BlockId) : List BlockId :=
  (g.regions.filter fun r => r.tryBlocks.any seen.contains).flatMap fun r =>
    r.entries.filter fun e => !seen.contains e

/-- A turn of the inner loop, or of the outer one when the queue is empty; none if the search is
    over. -/
def searchOn (g : Graph) : Search → Option Search
  | ⟨id :: queue, seen⟩ =>
    if !g.contains id || seen.contains id then some ⟨queue, seen⟩
    else some ⟨queue ++ g.successors id, id :: seen⟩
  | ⟨[], seen⟩ => if (g.due seen).isEmpty then none else some ⟨g.due seen, seen⟩

inductive Finds (g : Graph) : Search → List BlockId → Prop where
  | stop {s : Search} (ends : g.searchOn s = none) : Finds g s s.seen
  | turn {s s' : Search} {found : List BlockId} (on : g.searchOn s = some s')
      (later : Finds g s' found) : Finds g s found

/-- A set of live blocks that holds the entry, if that is live, the live successors of its blocks,
    and the handlers and filters of all regions that protect one of its blocks. -/
structure ClosedSet (g : Graph) (S : Set BlockId) : Prop where
  live : ∀ id ∈ S, g.contains id = true
  entry : g.contains g.entry = true → g.entry ∈ S
  edges : ∀ id ∈ S, ∀ s ∈ g.successors id, g.contains s = true → s ∈ S
  regions : ∀ r ∈ g.regions, ∀ id ∈ r.tryBlocks, id ∈ S → ∀ e ∈ r.entries, e ∈ S

variable {g : Graph}

theorem Laid.regionsLive (l : g.Laid) : g.RegionsLive :=
  fun r inside blocks among id named =>
    (l.listed id).mp ((l.regions r inside blocks among).subset named)

theorem mem_due {seen : List BlockId} {e : BlockId} :
    e ∈ g.due seen ↔ e ∉ seen ∧
      ∃ r ∈ g.regions, e ∈ r.entries ∧ ∃ id ∈ r.tryBlocks, id ∈ seen := by
  simp only [due, List.mem_flatMap, List.mem_filter, List.any_eq_true, List.contains_eq_mem,
    Bool.not_eq_true', decide_eq_true_eq, decide_eq_false_iff_not]
  constructor
  · rintro ⟨r, ⟨inside, tried⟩, enters, fresh⟩
    exact ⟨fresh, r, inside, enters, tried⟩
  · rintro ⟨fresh, r, inside, enters, tried⟩
    exact ⟨r, ⟨inside, tried⟩, enters, fresh⟩

def unseen (g : Graph) (seen : List BlockId) : List BlockId :=
  (List.range g.slots.length).filter fun id => g.contains id && !seen.contains id

theorem length_unseen_cons {seen : List BlockId} {id : BlockId} (live : g.contains id = true)
    (fresh : id ∉ seen) : (g.unseen (id :: seen)).length < (g.unseen seen).length := by
  have slot : id < g.slots.length := by
    obtain ⟨b, found⟩ := contains_iff.mp live
    exact (List.getElem?_eq_some_iff.mp (block?_eq_some.mp found)).1
  have inside : id ∈ g.unseen seen := by simp [unseen, slot, live, fresh]
  have fewer : g.unseen (id :: seen) = (g.unseen seen).filter fun x => x != id := by
    rw [unseen, unseen, List.filter_filter]
    refine List.filter_congr fun x _ => ?_
    by_cases same : x = id <;> simp [same]
  rw [fewer]
  exact List.length_filter_lt_length_iff_exists.mpr ⟨id, inside, by simp⟩

theorem searchOn_visits {queue seen : List BlockId} {id : BlockId} (live : g.contains id = true)
    (fresh : id ∉ seen) :
    g.searchOn ⟨id :: queue, seen⟩ = some ⟨queue ++ g.successors id, id :: seen⟩ := by
  simp [searchOn, live, fresh]

/-- By the number of live blocks not seen, and among searches with as many by the queue. Of a queue
    that the outer loop has filled the first block is live and was not seen. -/
theorem ClosedSet.finds {S : Set BlockId} (closed : g.ClosedSet S) {queue seen : List BlockId}
    (known : ∀ id ∈ seen, id ∈ S) (queued : ∀ id ∈ queue, g.contains id = true → id ∈ S) :
    ∃ found, g.Finds ⟨queue, seen⟩ found := by
  induction size : (g.unseen seen).length using Nat.strong_induction_on generalizing queue seen with
  | h n ih =>
    subst size
    have visits : ∀ id queue, id ∈ S → id ∉ seen →
        (∀ x ∈ queue, g.contains x = true → x ∈ S) →
        ∃ found, g.Finds ⟨id :: queue, seen⟩ found := by
      intro id queue inside fresh queued
      have live := closed.live id inside
      have ahead : ∀ x ∈ queue ++ g.successors id, g.contains x = true → x ∈ S := by
        intro x named alive
        rcases List.mem_append.mp named with old | new
        · exact queued x old alive
        · exact closed.edges id inside x new alive
      obtain ⟨found, later⟩ := ih _ (length_unseen_cons live fresh)
        (List.forall_mem_cons.mpr ⟨inside, known⟩) ahead rfl
      exact ⟨found, .turn (searchOn_visits live fresh) later⟩
    induction queue with
    | cons id queue inner =>
      obtain ⟨first, rest⟩ := List.forall_mem_cons.mp queued
      by_cases passed : (!g.contains id || seen.contains id) = true
      · obtain ⟨found, later⟩ := inner rest
        exact ⟨found, .turn (by rw [searchOn, if_pos passed]) later⟩
      · simp only [Bool.or_eq_true, Bool.not_eq_true', not_or, Bool.not_eq_false,
          List.contains_iff_mem] at passed
        exact visits id queue (first passed.1) passed.2 rest
    | nil =>
      have entered : ∀ e ∈ g.due seen, e ∈ S := by
        intro e named
        obtain ⟨-, r, among, enters, id, tried, seen_⟩ := mem_due.mp named
        exact closed.regions r among id tried (known id seen_) e enters
      cases again : g.due seen with
      | nil => exact ⟨seen, .stop (by simp [searchOn, again])⟩
      | cons e more =>
        rw [again] at entered
        have fresh : e ∉ seen := (mem_due.mp (again ▸ List.mem_cons_self)).1
        obtain ⟨found, later⟩ := visits e more (entered e List.mem_cons_self) fresh
          fun x named _ => entered x (List.mem_cons_of_mem e named)
        exact ⟨found, .turn (by simp [searchOn, again]) later⟩

structure Searching (g : Graph) (s : Search) : Prop where
  once : s.seen.Nodup
  live : ∀ id ∈ s.seen, g.contains id = true
  entry : g.contains g.entry = true → g.entry ∈ s.seen ∨ g.entry ∈ s.queue
  edges : ∀ id ∈ s.seen, ∀ t ∈ g.successors id, g.contains t = true → t ∈ s.seen ∨ t ∈ s.queue
  least : ∀ S, g.ClosedSet S →
    (∀ id ∈ s.seen, id ∈ S) ∧ ∀ id ∈ s.queue, g.contains id = true → id ∈ S

def search (g : Graph) : Search := ⟨[g.entry], []⟩

theorem searching_search (g : Graph) : g.Searching g.search where
  once := List.nodup_nil
  live := by simp [search]
  entry _ := .inr List.mem_cons_self
  edges := by simp [search]
  least S closed := by simpa [search] using closed.entry

namespace Searching
variable {queue seen : List BlockId} {id : BlockId}

theorem skip (searching : g.Searching ⟨id :: queue, seen⟩)
    (passed : g.contains id = true → id ∈ seen) : g.Searching ⟨queue, seen⟩ := by
  have ahead : ∀ {x}, g.contains x = true → x ∈ seen ∨ x ∈ id :: queue → x ∈ seen ∨ x ∈ queue := by
    rintro x live (known | named)
    · exact .inl known
    · rcases List.mem_cons.mp named with rfl | later
      · exact .inl (passed live)
      · exact .inr later
  exact ⟨searching.once, searching.live, fun live => ahead live (searching.entry live),
    fun x known t leads live => ahead live (searching.edges x known t leads live),
    fun S closed => (searching.least S closed).imp_right fun queued =>
      (List.forall_mem_cons.mp queued).2⟩

theorem visit (searching : g.Searching ⟨id :: queue, seen⟩) (live : g.contains id = true)
    (fresh : id ∉ seen) : g.Searching ⟨queue ++ g.successors id, id :: seen⟩ := by
  have ahead : ∀ {x}, x ∈ seen ∨ x ∈ id :: queue →
      x ∈ id :: seen ∨ x ∈ queue ++ g.successors id := by
    rintro x (known | named)
    · exact .inl (List.mem_cons_of_mem id known)
    · rcases List.mem_cons.mp named with rfl | later
      · exact .inl List.mem_cons_self
      · exact .inr (List.mem_append_left _ later)
  refine ⟨List.nodup_cons.mpr ⟨fresh, searching.once⟩,
    List.forall_mem_cons.mpr ⟨live, searching.live⟩, fun alive => ahead (searching.entry alive),
    ?_, ?_⟩
  · intro x known t leads alive
    rcases List.mem_cons.mp known with rfl | old
    · exact .inr (List.mem_append_right _ leads)
    · exact ahead (searching.edges x old t leads alive)
  · intro S closed
    obtain ⟨known, queued⟩ := searching.least S closed
    obtain ⟨first, rest⟩ := List.forall_mem_cons.mp queued
    refine ⟨List.forall_mem_cons.mpr ⟨first live, known⟩, ?_⟩
    intro x named alive
    rcases List.mem_append.mp named with old | new
    · exact rest x old alive
    · exact closed.edges id (first live) x new alive

theorem refill (searching : g.Searching ⟨[], seen⟩) : g.Searching ⟨g.due seen, seen⟩ := by
  have settled : ∀ {x}, x ∈ seen ∨ x ∈ ([] : List BlockId) → x ∈ seen ∨ x ∈ g.due seen :=
    fun {x} ahead => .inl (ahead.resolve_right List.not_mem_nil)
  refine ⟨searching.once, searching.live, fun live => settled (searching.entry live),
    fun x known t leads live => settled (searching.edges x known t leads live), ?_⟩
  intro S closed
  obtain ⟨known, -⟩ := searching.least S closed
  refine ⟨known, fun e named _ => ?_⟩
  obtain ⟨-, r, among, enters, id, tried, seen_⟩ := mem_due.mp named
  exact closed.regions r among id tried (known id seen_) e enters

theorem turn {s s' : Search} (searching : g.Searching s) (on : g.searchOn s = some s') :
    g.Searching s' := by
  obtain ⟨_ | ⟨id, queue⟩, seen⟩ := s <;> rw [searchOn] at on <;> split at on
  case nil.isTrue => cases on
  case nil.isFalse =>
    cases on
    exact searching.refill
  case cons.isTrue passed =>
    cases on
    exact searching.skip fun live => by simpa [live] using passed
  case cons.isFalse fresh =>
    cases on
    simp only [Bool.or_eq_true, Bool.not_eq_true', not_or, Bool.not_eq_false,
      List.contains_iff_mem] at fresh
    exact searching.visit fresh.1 fresh.2

theorem isLeast {s : Search} (searching : g.Searching s) (ends : g.searchOn s = none) :
    IsLeast {S | g.ClosedSet S} {id | id ∈ s.seen} := by
  obtain ⟨_ | ⟨id, queue⟩, seen⟩ := s <;> rw [searchOn] at ends <;> split at ends
  case nil.isFalse | cons.isTrue | cons.isFalse => cases ends
  case nil.isTrue idle =>
    refine ⟨⟨searching.live, ?_, ?_, ?_⟩, fun S closed => (searching.least S closed).1⟩
    · exact fun live => (searching.entry live).resolve_right List.not_mem_nil
    · exact fun id known t leads live =>
        (searching.edges id known t leads live).resolve_right List.not_mem_nil
    · intro r among id tried known e enters
      by_contra fresh
      have waits : e ∈ g.due seen := mem_due.mpr ⟨fresh, r, among, enters, id, tried, known⟩
      rw [List.isEmpty_iff.mp idle] at waits
      cases waits

end Searching

theorem Finds.isLeast {s : Search} {found : List BlockId} (finds : g.Finds s found)
    (searching : g.Searching s) :
    found.Nodup ∧ IsLeast {S | g.ClosedSet S} {id | id ∈ found} := by
  induction finds with
  | stop ends => exact ⟨searching.once, searching.isLeast ends⟩
  | turn on _ ih => exact ih (searching.turn on)

/-- The search ends just where there is something to be found. A region that protects a reached
    block and has a dead handler leaves no closed set, and is queued again for ever. -/
theorem exists_finds_iff (g : Graph) :
    (∃ found, g.Finds g.search found) ↔ ∃ S, g.ClosedSet S := by
  constructor
  · rintro ⟨found, finds⟩
    exact ⟨_, (finds.isLeast (searching_search g)).2.1⟩
  · rintro ⟨S, closed⟩
    obtain ⟨seen, queued⟩ := (searching_search g).least S closed
    exact closed.finds seen queued

theorem RegionsLive.closedSet (named : g.RegionsLive) :
    g.ClosedSet {id | g.contains id = true} where
  live _ live := live
  entry live := live
  edges _ _ _ _ live := live
  regions r among _ _ _ e enters := by
    rcases mem_entries.mp enters with handler | filter
    · exact named r among _ (by simp [Region.lists]) e (List.mem_of_mem_head? handler)
    · exact named r among _ (by simp [Region.lists]) e (List.mem_of_mem_head? filter)

theorem ClosedSet.leadsTo {S : Set BlockId} (closed : g.ClosedSet S) {id s : BlockId}
    (inside : id ∈ S) (leads : s ∈ g.leadsTo id) (live : g.contains s = true) : s ∈ S := by
  rcases mem_leadsTo.mp leads with ⟨b, found, succeeds⟩ | ⟨r, among, tried, enters⟩
  · exact closed.edges id inside s (by rw [successors, found]; exact succeeds) live
  · exact closed.regions r among id tried inside s (mem_entries.mpr enters)

theorem isLeast_reachable (nodup : g.layout.Nodup)
    (listed : ∀ id, id ∈ g.layout ↔ g.contains id = true) (named : g.RegionsLive) :
    IsLeast {S | g.ClosedSet S} {id | id ∈ g.reachable} := by
  have enough : [g.entry].length + pending g.leadsTo g.layout [] ≤ g.reachBudget := by
    simp [pending, reachBudget]
  obtain ⟨-, start, ahead⟩ := gather_complete nodup
    (fun x (live : g.contains x = true) => (listed x).mpr live) enough
    (fun x inside => (List.not_mem_nil inside).elim)
  have member : ∀ id, id ∈ g.reachable ↔ g.contains id = true ∧
      id ∈ gather g.leadsTo g.contains g.reachBudget [g.entry] [] := by
    intro id
    rw [reachable, List.mem_filter, List.contains_iff_mem, listed]
  have onward : ∀ {id s}, id ∈ g.reachable → s ∈ g.leadsTo id → g.contains s = true →
      s ∈ g.reachable := fun {id s} inside leads live =>
    (member s).mpr ⟨live, ahead id ((member id).mp inside).2 s leads live⟩
  refine ⟨⟨fun id inside => ((member id).mp inside).1, fun live => ?_, ?_, ?_⟩, ?_⟩
  · exact (member _).mpr ⟨live, start _ List.mem_cons_self live⟩
  · intro id inside s leads live
    exact onward inside (List.mem_append_left _ leads) live
  · intro r among id tried inside e enters
    have live := named.closedSet.regions r among id tried ((member id).mp inside).1 e enters
    exact onward inside (mem_leadsTo.mpr (.inr ⟨r, among, tried, mem_entries.mp enters⟩)) live
  · intro S closed id inside
    refine gather_sound (P := (· ∈ S)) closed.leadsTo ?_ ?_ id ((member id).mp inside).2
    · intro x held
      cases held
    · intro x due live
      rw [List.mem_singleton.mp due] at live ⊢
      exact closed.entry live

/-- Where regions name live blocks only, the nested loops end, and have then seen the least closed
    set, each block once; one loop gathers the same if the layout lists the live blocks. Through
    every history of a graph that was cut from a body, its regions name live blocks only and its
    layout lists them. -/
theorem search_exact :
    (∀ g : Graph, g.RegionsLive → ∃ found, g.Finds g.search found ∧ found.Nodup ∧
      IsLeast {S | g.ClosedSet S} {id | id ∈ found} ∧
      (g.layout.Nodup → (∀ id, id ∈ g.layout ↔ g.contains id = true) →
        ∀ id, id ∈ g.reachable ↔ id ∈ found)) ∧
    ∀ body g edits, Body.toGraph body = .ok g →
      (g.applyAll edits).RegionsLive ∧ (g.applyAll edits).layout.Nodup ∧
        ∀ id, id ∈ (g.applyAll edits).layout ↔ (g.applyAll edits).contains id = true := by
  constructor
  · intro g named
    obtain ⟨found, finds⟩ := g.exists_finds_iff.mpr ⟨_, named.closedSet⟩
    obtain ⟨once, least⟩ := finds.isLeast (searching_search g)
    refine ⟨found, finds, once, least, fun nodup listed id => ?_⟩
    exact Set.ext_iff.mp ((isLeast_reachable nodup listed named).unique least) id
  · intro body g edits cut
    have laid := (Body.toGraph_laid cut).afterAll edits
    exact ⟨laid.regionsLive, laid.nodup, laid.listed⟩

/-- The handler of the first region is protected by the second one, which has a filter. The filter
    branches to a block that is gone, and the last block is not reached. -/
def nestedTry : Graph where
  slots := [some ⟨0, [⟨0, .leave .short, .target 5, 0⟩], [0], some 1⟩,
    some ⟨1, [⟨1, .throw, .none, 2⟩], [], some 2⟩,
    some ⟨2, [⟨2, .branch .isTrue .short, .target 4, 3⟩], [5], some 3⟩,
    some ⟨3, [⟨3, .endfilter, .none, 5⟩], [], some 4⟩,
    some ⟨4, [⟨4, .rethrow, .none, 7⟩], [], some 6⟩, none,
    some ⟨6, [⟨6, .ret, .none, 9⟩], [], none⟩]
  layout := [0, 1, 2, 3, 4, 6]
  regions := [⟨.filter, none, [1], [4], [2, 3]⟩, ⟨.typed, none, [0], [1], []⟩]
  entry := 0
  nextInstr := 7
  locals := 0
  maxStack := 8

theorem nestedTry_search_exact :
    nestedTry.RegionsLive ∧ ∃ found, nestedTry.Finds nestedTry.search found ∧
      IsLeast {S | nestedTry.ClosedSet S} {id | id ∈ found} ∧
      ∀ id, id ∈ found ↔ id ∈ [0, 1, 2, 3, 4] := by
  have named : nestedTry.RegionsLive := by unfold RegionsLive; decide
  have listed : ∀ id, id ∈ nestedTry.layout ↔ nestedTry.contains id = true := by
    intro id
    match id with
    | 0 | 1 | 2 | 3 | 4 | 5 | 6 => decide
    | n + 7 => simp [nestedTry, contains, block?]
  obtain ⟨found, finds, -, least, same⟩ := search_exact.1 nestedTry named
  refine ⟨named, found, finds, least, fun id => ?_⟩
  rw [← same (by decide) listed id]
  rfl

end Graph
end Unravel
