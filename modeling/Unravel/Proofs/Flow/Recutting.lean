import Unravel.Proofs.Flow.Exits
import Unravel.Proofs.Flow.Reshaping

/-!
Cutting a graph anew keeps the paths of control. The graph is followed by the body that is written
of it, with the added jumps silent, and the body by the blocks that it is cut into.
-/
namespace Unravel
namespace Body

/-- A protected index may be left for the handler or the filter of a clause. -/
def Catches (body : Body) (n m : Nat) : Prop :=
  ∃ clause ∈ body.clauses, ∃ a z t, body.index? clause.tryStart = some a ∧
    body.stopIndex? clause.tryEnd = some z ∧ a ≤ n ∧ n < z ∧
    (t = clause.handlerStart ∨ clause.filterStart = some t) ∧ body.index? t = some m

inductive Moves (body : Body) : Nat → EdgeKind → Nat → Prop where
  | exit {n m : Nat} {i : Instr} {kind : EdgeKind} (here : body.instrs[n]? = some i)
      (exits : (kind, m) ∈ body.exits n i) : Moves body n kind m
  | caught {n m : Nat} {i : Instr} (here : body.instrs[n]? = some i) (loud : i.isBr = false)
      (catches : body.Catches n m) : Moves body n .always m

def control (body : Body) : Control Nat where
  instr? n := body.instrs[n]?
  Moves := body.Moves

end Body

namespace Graph
variable {g : Graph} {id : BlockId} {b : Block} {written : List Piece} {last : Nat} {body : Body}

namespace Written
variable {start j : Nat}

theorem mem_takes (w : Written g written last body) (c : g.Consistent) {blocks : List BlockId}
    {a z : Nat} (takes : Takes written blocks a z) (begins : Begins written id start)
    (live : g.block? id = some b) (inside : j < b.instrs.length) :
    id ∈ blocks ↔ a ≤ start + j ∧ start + j < z := by
  obtain ⟨k, p, here, rfl, rfl⟩ := begins
  obtain ⟨d, link, jump, f, piece⟩ := (pieces_at w.pieces).2 here
  cases live.symm.trans piece.live
  have next := codeBefore_succ here
  have size := length_draftCode link b.instrs
  rw [piece.code, List.length_append] at next
  constructor
  · intro among
    obtain ⟨low, high⟩ := takes.place (w.nodup c.laid) here among
    omega
  · rintro ⟨above, below⟩
    exact takes.mem_of_place here (by omega) (by omega)

theorem catches_written (w : Written g written last body) (c : g.Consistent) (guarded : g.Guarded)
    (begins : Begins written id start) (live : g.block? id = some b) (inside : j < b.instrs.length)
    {t : BlockId} (catches : g.Catches id t) :
    ∃ m, Begins written t m ∧ body.Catches (start + j) m := by
  obtain ⟨r, listed, tried, entry⟩ := catches
  obtain ⟨clause, a, z, h, e, made, bounds⟩ := w.clause_of_whole c listed (guarded r listed)
  have among : clause ∈ body.clauses := by
    rw [w.clauses]
    exact List.mem_filterMap.mpr ⟨r, listed, made⟩
  obtain ⟨above, below⟩ := (w.mem_takes c bounds.tries begins live inside).mp tried
  rcases mem_entries.mp entry with entry | entry
  · exact ⟨h, bounds.handles.begins entry, clause, among, a, z, clause.handlerStart,
      bounds.tryStart, bounds.tryStop, above, below, .inl rfl, bounds.handlerStart⟩
  · have flag := (guarded r listed).filters.mp (List.ne_nil_of_mem (List.mem_of_mem_head? entry))
    obtain ⟨t, f, filter, found, takes⟩ := bounds.filtered flag
    exact ⟨f, takes.begins entry, clause, among, a, z, t, bounds.tryStart, bounds.tryStop, above,
      below, .inr filter, found⟩

theorem catches_of_written (w : Written g written last body) (c : g.Consistent)
    (guarded : g.Guarded) (begins : Begins written id start) (live : g.block? id = some b)
    (inside : j < b.instrs.length) {m : Nat} (catches : body.Catches (start + j) m) :
    ∃ t, g.Catches id t ∧ Begins written t m := by
  obtain ⟨clause, among, a, z, t, tryStart, tryStop, above, below, enters, index⟩ := catches
  obtain ⟨r, listed, a', z', h, e, bounds⟩ := w.bounds_of_clause c guarded among
  cases tryStart.symm.trans bounds.tryStart
  cases tryStop.symm.trans bounds.tryStop
  have tried := (w.mem_takes c bounds.tries begins live inside).mpr ⟨above, below⟩
  rcases enters with rfl | filter
  · cases index.symm.trans bounds.handlerStart
    obtain ⟨x, first, there⟩ := bounds.handler_begins (guarded r listed)
    exact ⟨x, ⟨r, listed, tried, mem_entries.mpr (.inl first)⟩, there⟩
  · obtain ⟨x, first, there⟩ := bounds.filter_begins (guarded r listed) filter index
    exact ⟨x, ⟨r, listed, tried, mem_entries.mpr (.inr first)⟩, there⟩

theorem leads_of_arrives {t : BlockId} {n : Nat} (arrives : Arrives written body t n) :
    ∃ goal, Begins written t goal ∧ body.control.Leads n [] goal := by
  rcases arrives with begins | ⟨jump, goal, found, jumps, exits, begins⟩
  · exact ⟨n, begins, .refl _ _⟩
  · refine ⟨goal, begins, .silent found jumps (.exit found ?_)⟩
    rw [exits]
    exact List.mem_cons_self

theorem body_follows (w : Written g written last body) (c : g.Consistent) (guarded : g.Guarded)
    (complete : g.Complete) : Control.Follows g.control body.control (Related g written) := by
  rintro ⟨id, j⟩ n ⟨b, start, live, inside, begins, rfl⟩ i here
  rw [instr?_control live] at here
  obtain ⟨x, found, same⟩ := w.exists_marked begins live here
  rw [← Instr.signs_of_mark same]
  refine ⟨.visit found, ?_⟩
  intro kind s' moves
  rcases moves_cases live moves with
    ⟨rfl, rfl, more⟩ | ⟨t, rfl, final, exits⟩ | ⟨t, i', rfl, rfl, here', loud, catches⟩
  · refine ⟨start + (j + 1), ⟨b, start, live, more, begins, rfl⟩, .step found (.exit found ?_)⟩
    rw [w.exits_early c begins live here more same]
    exact List.mem_cons_self
  · obtain ⟨m, leaves, arrives⟩ :=
      exists_right (w.exits_last c begins live here final (complete live) found same) exits
    obtain ⟨goal, there, silent⟩ := leads_of_arrives arrives
    have alive := c.closed live t (successor_of_exit exits)
    exact ⟨goal, related_begin c alive there,
      (Control.Leads.step (c := body.control) found (.exit found leaves)).onto silent⟩
  · cases here.symm.trans here'
    obtain ⟨m, there, leaves⟩ := w.catches_written c guarded begins live inside catches
    rw [← Instr.isBr_of_mark same] at loud
    exact ⟨m, related_begin c (catches.live c) there, .step found (.caught found loud leaves)⟩

/-- An index that stands for a place in a block, or from which control comes to one in silence. -/
def Standing (g : Graph) (written : List Piece) (body : Body) (n : Nat) (s : BlockId × Nat) :
    Prop :=
  Related g written s n ∨ g.contains s.1 = true ∧ s.2 = 0 ∧ Arrives written body s.1 n

theorem graph_follows (w : Written g written last body) (c : g.Consistent) (guarded : g.Guarded)
    (complete : g.Complete) :
    Control.Follows body.control g.control (Standing g written body) := by
  have own : ∀ s n, Related g written s n →
      body.control.Matches g.control (Standing g written body) n s := by
    rintro ⟨id, j⟩ _ ⟨b, start, live, inside, begins, rfl⟩ x found
    have here : b.instrs[j]? = some b.instrs[j] := List.getElem?_eq_getElem inside
    obtain ⟨x', found', same⟩ := w.exists_marked begins live here
    cases found.symm.trans found'
    have at_ : g.control.instr? (id, j) = some b.instrs[j] := by rw [instr?_control live, here]
    rw [Instr.signs_of_mark same]
    refine ⟨.visit at_, ?_⟩
    intro kind m moves
    cases moves with
    | exit there exits =>
      cases found.symm.trans there
      rcases Nat.lt_or_eq_of_le (Nat.succ_le_of_lt inside) with early | final
      · rw [w.exits_early c begins live here early same] at exits
        cases List.mem_singleton.mp exits
        exact ⟨(id, j + 1), .inl ⟨b, start, live, early, begins, rfl⟩, .step at_ (.next live early)⟩
      · obtain ⟨t, leaves, arrives⟩ :=
          exists_left (w.exits_last c begins live here final (complete live) found same) exits
        have alive := c.closed live t (successor_of_exit leaves)
        exact ⟨(t, 0), .inr ⟨alive, rfl, arrives⟩, .step at_ (.exit live final leaves)⟩
    | caught there loud catches =>
      cases found.symm.trans there
      obtain ⟨t, leaves, there⟩ := w.catches_of_written c guarded begins live inside catches
      rw [Instr.isBr_of_mark same] at loud
      exact ⟨(t, 0), .inl (related_begin c (leaves.live c) there),
        .step at_ (.caught live here loud leaves)⟩
  rintro n ⟨t, j⟩ (related | ⟨alive, rfl, begins | ⟨jump, goal, found, jumps, exits, begins⟩⟩)
  · exact own _ n related
  · exact own _ n (related_begin c alive begins)
  · -- An added jump shows nothing, and its only way on is to the block that it stands for.
    intro x there
    cases found.symm.trans there
    rw [Instr.signs, if_pos jumps]
    refine ⟨.stop _, ?_⟩
    intro kind m moves
    cases moves with
    | exit there leaves =>
      cases found.symm.trans there
      rw [exits] at leaves
      cases List.mem_singleton.mp leaves
      exact ⟨(t, 0), .inl (related_begin c alive begins), .refl _ _⟩
    | caught there loud _ =>
      cases found.symm.trans there
      rw [jumps] at loud
      cases loud

theorem trail_written (w : Written g written last body) (c : g.Consistent) (guarded : g.Guarded)
    (complete : g.Complete) (shown : List Sign) :
    g.control.Trail (g.entry, 0) shown ↔ body.control.Trail 0 shown := by
  obtain ⟨rest, layout⟩ := List.head?_eq_some_iff.mp c.entryFirst
  have entry : Related g written (g.entry, 0) 0 :=
    related_begin c c.laid.entry_live (begins_entry (w.blocks.trans layout))
  exact ⟨(w.body_follows c guarded complete).trail entry,
    (w.graph_follows c guarded complete).trail (.inl entry)⟩

end Written
end Graph

theorem Control.follows_of_moves {S T : Type} {a : Control S} {b : Control T}
    {related : S → T → Prop} (same : ∀ {s t}, related s t → a.instr? s = b.instr? t)
    (moves : ∀ {s t kind s'}, related s t → a.Moves s kind s' →
      ∃ t', related s' t' ∧ b.Moves t kind t') : Follows a b related := by
  intro s t here i found
  rw [same here] at found
  refine ⟨.visit found, ?_⟩
  intro kind s' goes
  obtain ⟨t', there, goes'⟩ := moves here goes
  exact ⟨t', there, .step found goes'⟩

theorem head?_of_forall₂ {α β : Type} {R : α → β → Prop} {xs : List α} {ys : List β}
    (all : List.Forall₂ R xs ys) : Option.Rel R xs.head? ys.head? := by
  cases all with
  | nil => exact .none
  | cons related _ => exact .some related

namespace Body
variable {body : Body} {starts : List Nat} {g : Graph} {k start n : Nat}

abbrev StartsAt (starts : List Nat) (k : BlockId) (n : Nat) : Prop := starts[k]? = some n

def PlacedAt (body : Body) (starts : List Nat) (s : BlockId × Nat) (n : Nat) : Prop :=
  ∃ start, StartsAt starts s.1 start ∧ n = start + s.2 ∧ n < body.stopOf starts s.1

theorem blockAt?_of_index {id : InstrId} (index : body.index? id = some n) (listed : n ∈ starts) :
    ∃ k, body.blockAt? starts id = some k ∧ StartsAt starts k n := by
  obtain ⟨k, place⟩ := Option.isSome_iff_exists.mp (List.isSome_idxOf?.mpr listed)
  obtain ⟨bound, same, -⟩ := List.idxOf?_eq_some_iff.mp place
  refine ⟨k, by rw [blockAt?, index, Option.bind_some, place], ?_⟩
  rw [StartsAt, List.getElem?_eq_getElem bound]
  exact congrArg some (by simpa using same)

theorem forall₂_blockAt? {ids : List InstrId}
    (found : ∀ id ∈ ids, ∃ n ∈ starts, body.index? id = some n) :
    List.Forall₂ (StartsAt starts) (ids.filterMap (body.blockAt? starts))
      (ids.filterMap body.index?) := by
  induction ids with
  | nil => exact .nil
  | cons id rest ih =>
    obtain ⟨n, listed, index⟩ := found id List.mem_cons_self
    obtain ⟨k, named, there⟩ := blockAt?_of_index index listed
    rw [List.filterMap_cons_some named, List.filterMap_cons_some index]
    exact .cons there (ih fun id inside => found id (List.mem_cons_of_mem _ inside))

theorem startsAt_stop (more : body.stopOf starts k < body.instrs.length) :
    StartsAt starts (k + 1) (body.stopOf starts k) := by
  unfold stopOf StartsAt at *
  cases next : starts[k + 1]? with
  | none =>
    rw [next, Option.getD_none] at more
    omega
  | some s => rfl

namespace CutFrom

theorem placed_begin (from_ : CutFrom body starts g) (here : StartsAt starts k n) :
    PlacedAt body starts (k, 0) n :=
  ⟨n, here, rfl, (from_.cut.gap here).1⟩

theorem instr?_cut (from_ : CutFrom body starts g) {s : BlockId × Nat}
    (placed : PlacedAt body starts s n) : g.control.instr? s = body.control.instr? n := by
  obtain ⟨start, here, rfl, below⟩ := placed
  rw [show s = (s.1, s.2) from rfl, Graph.instr?_control (from_.block here)]
  exact getElem?_blockOf body starts s.1 below

theorem exits_cut (from_ : CutFrom body starts g) (here : StartsAt starts k start) {j : Nat}
    {i : Instr} (found : body.instrs[start + j]? = some i)
    (final : start + j + 1 = body.stopOf starts k) :
    ExitsAlike (StartsAt starts) (body.blockOf starts k start (body.stopOf starts k)).exits
      (body.exits (start + j) i) := by
  have ends := from_.kind_of_stop here found final
  have all := forall₂_blockAt? (from_.cut.targets i (List.mem_of_getElem? found))
  obtain ⟨before, inside, -⟩ := from_.cut.gap here
  have size := length_blockOf starts k before inside
  have at_ := getElem?_blockOf body starts k (show start + j < body.stopOf starts k by omega)
  rw [instrs_blockOf] at ends
  rw [Block.exits_eq (at_.trans found) (by omega), Body.exits]
  simp only [blockOf, ends, Option.map_some, Option.getD_some]
  refine Flow.exits_alike (fun _ _ => head?_of_forall₂ all) (fun _ => all) fun _ => ?_
  rw [final]
  split
  · rename_i more
    exact .some (startsAt_stop more)
  · exact .none

theorem startsAt_bound (from_ : CutFrom body starts g) {clause : Clause}
    (inside : clause ∈ body.clauses) {id : InstrId} (bound : id ∈ clause.bounds)
    (index : body.index? id = some n) : ∃ k, StartsAt starts k n := by
  obtain ⟨n', listed, found⟩ := from_.cut.bounds clause inside id bound
  cases index.symm.trans found
  exact List.getElem?_of_mem listed

theorem startsAt_caught (from_ : CutFrom body starts g) {m : Nat} (catches : body.Catches n m) :
    ∃ k, StartsAt starts k m := by
  obtain ⟨clause, listed, -, -, id, -, -, -, -, enters, index⟩ := catches
  refine from_.startsAt_bound listed ?_ index
  rcases enters with rfl | filter
  · simp [Clause.bounds]
  · simp [Clause.bounds, filter]

theorem covered_cut (from_ : CutFrom body starts g) {clause : Clause}
    (inside : clause ∈ body.clauses) {first : InstrId} {last : Option InstrId}
    (opens : first ∈ clause.bounds) (closes : ∀ id, last = some id → id ∈ clause.bounds) {a z : Nat}
    (index : body.index? first = some a) (stop : body.stopIndex? last = some z)
    (here : StartsAt starts k start) (above : start ≤ n) (below : n < body.stopOf starts k) :
    k ∈ covered starts a z ↔ a ≤ n ∧ n < z := by
  obtain ⟨-, bound, gap⟩ := from_.cut.gap here
  -- A bound of the clause is never inside the block.
  have low : a ≤ n → a ≤ start := by
    intro before
    by_contra late
    obtain ⟨l, there⟩ := from_.startsAt_bound inside opens index
    have := gap a (List.mem_of_getElem? there) (by omega)
    omega
  have high : start < z → body.stopOf starts k ≤ z := by
    intro behind
    cases last with
    | none =>
      cases stop
      exact bound
    | some id =>
      obtain ⟨l, there⟩ := from_.startsAt_bound inside (closes id rfl) stop
      exact gap z (List.mem_of_getElem? there) behind
  rw [mem_covered]
  constructor
  · rintro ⟨s, there, first, last⟩
    cases here.symm.trans there
    have := high last
    omega
  · rintro ⟨first, last⟩
    exact ⟨start, here, low first, by omega⟩

theorem tried_cut (from_ : CutFrom body starts g) {clause : Clause} (inside : clause ∈ body.clauses)
    {a z : Nat} (tryStart : body.index? clause.tryStart = some a)
    (tryStop : body.stopIndex? clause.tryEnd = some z) (here : StartsAt starts k start)
    (above : start ≤ n) (below : n < body.stopOf starts k) :
    k ∈ covered starts a z ↔ a ≤ n ∧ n < z :=
  from_.covered_cut inside (by simp [Clause.bounds]) (fun id stop => by simp [Clause.bounds, stop])
    tryStart tryStop here above below

theorem handlerEntry_cut (from_ : CutFrom body starts g)
    (proper : ∀ clause ∈ body.clauses, clause.Proper body) {clause : Clause}
    (inside : clause ∈ body.clauses) {t : BlockId} :
    Region.handlerEntry? (body.regionOf starts clause) = some t ↔
      ∃ m, body.index? clause.handlerStart = some m ∧ StartsAt starts t m := by
  obtain ⟨a, z, tryStart, tryStop, -⟩ := (proper clause inside).tries
  obtain ⟨h, e, handlerStart, handlerStop, handles⟩ := (proper clause inside).handles
  obtain ⟨-, handlers, -⟩ := ranges_regionOf starts tryStart tryStop handlerStart handlerStop
  have enters : ∀ {l}, StartsAt starts l h →
      Region.handlerEntry? (body.regionOf starts clause) = some l := by
    intro l there
    rw [ Region.handlerEntry?, handlers, head?_covered from_.cut.sorted there handles]
  constructor
  · intro entry
    obtain ⟨l, there⟩ := from_.startsAt_bound inside (by simp [Clause.bounds]) handlerStart
    cases entry.symm.trans (enters there)
    exact ⟨h, handlerStart, there⟩
  · rintro ⟨m, index, there⟩
    cases handlerStart.symm.trans index
    exact enters there

theorem filterEntry_cut (from_ : CutFrom body starts g)
    (proper : ∀ clause ∈ body.clauses, clause.Proper body) {clause : Clause}
    (inside : clause ∈ body.clauses) {t : BlockId} :
    Region.filterEntry? (body.regionOf starts clause) = some t ↔
      ∃ id m, clause.filterStart = some id ∧ body.index? id = some m ∧ StartsAt starts t m := by
  obtain ⟨a, z, tryStart, tryStop, -⟩ := (proper clause inside).tries
  obtain ⟨h, e, handlerStart, handlerStop, -⟩ := (proper clause inside).handles
  obtain ⟨-, -, filters⟩ := ranges_regionOf starts tryStart tryStop handlerStart handlerStop
  have enters : ∀ {id f l}, clause.filterStart = some id → body.index? id = some f →
      StartsAt starts l f → Region.filterEntry? (body.regionOf starts clause) = some l := by
    intro id f l filter index there
    obtain ⟨f', h', found, again, order⟩ := (proper clause inside).inFront id filter
    cases index.symm.trans found
    cases handlerStart.symm.trans again
    rw [ Region.filterEntry?, filters id f filter index, head?_covered from_.cut.sorted there order]
  constructor
  · intro entry
    cases filter : clause.filterStart with
    | none => simp [ Region.filterEntry?, regionOf, filter] at entry
    | some id =>
      obtain ⟨f, -, index, -⟩ := (proper clause inside).inFront id filter
      obtain ⟨l, there⟩ := from_.startsAt_bound inside (by simp [Clause.bounds, filter]) index
      cases entry.symm.trans (enters filter index there)
      exact ⟨id, f, rfl, index, there⟩
  · rintro ⟨id, m, filter, index, there⟩
    exact enters filter index there

theorem entries_cut (from_ : CutFrom body starts g)
    (proper : ∀ clause ∈ body.clauses, clause.Proper body) {clause : Clause}
    (inside : clause ∈ body.clauses) {t : BlockId} :
    t ∈ (body.regionOf starts clause).entries ↔
      ∃ id m, (id = clause.handlerStart ∨ clause.filterStart = some id) ∧
        body.index? id = some m ∧ StartsAt starts t m := by
  rw [Graph.mem_entries, from_.handlerEntry_cut proper inside, from_.filterEntry_cut proper inside]
  constructor
  · rintro (⟨m, index, there⟩ | ⟨id, m, filter, index, there⟩)
    · exact ⟨_, m, .inl rfl, index, there⟩
    · exact ⟨id, m, .inr filter, index, there⟩
  · rintro ⟨id, m, rfl | filter, index, there⟩
    · exact .inl ⟨m, index, there⟩
    · exact .inr ⟨id, m, filter, index, there⟩

theorem catches_cut (from_ : CutFrom body starts g)
    (proper : ∀ clause ∈ body.clauses, clause.Proper body) (here : StartsAt starts k start)
    (above : start ≤ n) (below : n < body.stopOf starts k) {t : BlockId} :
    g.Catches k t ↔ ∃ m, StartsAt starts t m ∧ body.Catches n m := by
  constructor
  · rintro ⟨r, listed, tried, entry⟩
    rw [from_.regions] at listed
    obtain ⟨clause, inside, rfl⟩ := List.mem_map.mp listed
    obtain ⟨a, z, tryStart, tryStop, -⟩ := (proper clause inside).tries
    obtain ⟨h, e, handlerStart, handlerStop, -⟩ := (proper clause inside).handles
    rw [(ranges_regionOf starts tryStart tryStop handlerStart handlerStop).1,
      from_.tried_cut inside tryStart tryStop here above below] at tried
    obtain ⟨id, m, enters, index, there⟩ := (from_.entries_cut proper inside).mp entry
    exact ⟨m, there, clause, inside, a, z, id, tryStart, tryStop, tried.1, tried.2, enters, index⟩
  · rintro ⟨m, there, clause, inside, a, z, id, tryStart, tryStop, first, last, enters, index⟩
    obtain ⟨h, e, handlerStart, handlerStop, -⟩ := (proper clause inside).handles
    refine ⟨body.regionOf starts clause, ?_, ?_, ?_⟩
    · rw [from_.regions]
      exact List.mem_map_of_mem inside
    · rw [(ranges_regionOf starts tryStart tryStop handlerStart handlerStop).1,
        from_.tried_cut inside tryStart tryStop here above below]
      exact ⟨first, last⟩
    · exact (from_.entries_cut proper inside).mpr ⟨id, m, enters, index, there⟩

theorem plain_inside (from_ : CutFrom body starts g) (here : StartsAt starts k start) {i : Instr}
    (found : body.instrs[n]? = some i) (above : start ≤ n) (early : n + 1 < body.stopOf starts k) :
    i.isTerminal = false := by
  obtain ⟨-, inside, gap⟩ := from_.cut.gap here
  cases ends : i.isTerminal with
  | false => rfl
  | true =>
    have := gap _ (from_.cut.terminals found ends (by omega)) (by omega)
    omega

theorem exits_inside (from_ : CutFrom body starts g) (here : StartsAt starts k start) {i : Instr}
    (found : body.instrs[n]? = some i) (above : start ≤ n) (early : n + 1 < body.stopOf starts k) :
    body.exits n i = [(.always, n + 1)] := by
  have inside := (from_.cut.gap here).2.1
  exact Body.exits_plain (from_.plain_inside here found above early) (by omega)

theorem body_follows (from_ : CutFrom body starts g)
    (proper : ∀ clause ∈ body.clauses, clause.Proper body) :
    Control.Follows g.control body.control (PlacedAt body starts) := by
  refine Control.follows_of_moves from_.instr?_cut ?_
  rintro ⟨k, j⟩ _ kind s' ⟨start, (here : StartsAt starts k start), rfl,
    (below : start + j < body.stopOf starts k)⟩ moves
  obtain ⟨before, inside, -⟩ := from_.cut.gap here
  have size := length_blockOf starts k before inside
  have found : body.instrs[start + j]? = some body.instrs[start + j] :=
    List.getElem?_eq_getElem (by omega)
  rcases Graph.moves_cases (from_.block here) moves with
    ⟨rfl, rfl, more⟩ | ⟨t, rfl, final, exits⟩ | ⟨t, i, rfl, rfl, at_, loud, catches⟩
  · refine ⟨start + j + 1, ⟨start, here, rfl, by dsimp only; omega⟩, .exit found ?_⟩
    rw [from_.exits_inside here found (Nat.le_add_right start j) (by omega)]
    exact List.mem_cons_self
  · obtain ⟨m, leaves, there⟩ := exists_right (from_.exits_cut here found (by omega)) exits
    exact ⟨m, from_.placed_begin there, .exit found leaves⟩
  · rw [getElem?_blockOf body starts k below] at at_
    obtain ⟨m, there, leaves⟩ :=
      (from_.catches_cut proper here (Nat.le_add_right start j) below).mp catches
    exact ⟨m, from_.placed_begin there, .caught at_ loud leaves⟩

theorem graph_follows (from_ : CutFrom body starts g)
    (proper : ∀ clause ∈ body.clauses, clause.Proper body) :
    Control.Follows body.control g.control fun n s => PlacedAt body starts s n := by
  refine Control.follows_of_moves (fun placed => (from_.instr?_cut placed).symm) ?_
  rintro _ ⟨k, j⟩ kind m ⟨start, (here : StartsAt starts k start), rfl,
    (below : start + j < body.stopOf starts k)⟩ moves
  obtain ⟨before, inside, -⟩ := from_.cut.gap here
  have size := length_blockOf starts k before inside
  have live := from_.block here
  cases moves with
  | exit found exits =>
    rcases Nat.lt_or_eq_of_le (Nat.succ_le_of_lt below) with early | final
    · rw [from_.exits_inside here found (Nat.le_add_right start j) early] at exits
      cases List.mem_singleton.mp exits
      exact ⟨(k, j + 1), ⟨start, here, rfl, early⟩, .next live (by omega)⟩
    · obtain ⟨t, leaves, there⟩ := exists_left (from_.exits_cut here found final) exits
      exact ⟨(t, 0), from_.placed_begin there, .exit live (by omega) leaves⟩
  | caught found loud catches =>
    obtain ⟨t, there⟩ := from_.startsAt_caught catches
    have leaves := (from_.catches_cut proper here (Nat.le_add_right start j) below).mpr
      ⟨m, there, catches⟩
    rw [← getElem?_blockOf body starts k below] at found
    exact ⟨(t, 0), from_.placed_begin there, .caught live found loud leaves⟩

theorem trail_cut (from_ : CutFrom body starts g)
    (proper : ∀ clause ∈ body.clauses, clause.Proper body) (shown : List Sign) :
    body.control.Trail 0 shown ↔ g.control.Trail (g.entry, 0) shown := by
  have entry : PlacedAt body starts (g.entry, 0) 0 := by
    rw [from_.entry]
    refine from_.placed_begin ?_
    rw [StartsAt, ← List.head?_eq_getElem?, from_.cut.first]
  exact ⟨(from_.graph_follows proper).trail entry, (from_.body_follows proper).trail entry⟩

end CutFrom
end Body

namespace Graph
variable {g g' : Graph}

theorem trail_repartition (c : g.Consistent) (guarded : g.Guarded) (complete : g.Complete)
    (room : g.RoomToWrite) (done : g.repartition = .ok g') (shown : List Sign) :
    g.control.Trail (g.entry, 0) shown ↔ g'.control.Trail (g'.entry, 0) shown := by
  obtain ⟨body, written, cut⟩ := repartition_ok done
  obtain ⟨pieces, last, w⟩ := toBody_ok c.laid room written
  obtain ⟨starts, from_⟩ := Body.cutFrom_of_toGraph cut
  exact (w.trail_written c guarded complete shown).trans
    (from_.trail_cut (w.proper c guarded) shown)

theorem Guarded.repartition (c : g.Consistent) (guarded : g.Guarded) (room : g.RoomToWrite)
    (done : g.repartition = .ok g') : g'.Guarded := by
  obtain ⟨body, written, cut⟩ := repartition_ok done
  obtain ⟨pieces, last, w⟩ := toBody_ok c.laid room written
  exact Body.toGraph_guarded (w.proper c guarded) cut

end Graph
end Unravel
