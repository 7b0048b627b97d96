import Unravel.Proofs.Flow.Paths

/-!
What the clauses of a written body protect. Every instruction belongs to one block, an added jump to
the block it stands behind. At any time in the history of a graph its regions become clauses one by
one, and a range of a clause holds exactly the instructions of the blocks in that range of the
region.
-/
namespace Unravel

def Body.Within (b : Body) (start : InstrId) (stop : Option InstrId) (n : Nat) : Prop :=
  ∃ a z, b.index? start = some a ∧ b.stopIndex? stop = some z ∧ a ≤ n ∧ n < z

theorem Body.within_iff {b : Body} {start : InstrId} {stop : Option InstrId} {a z : Nat}
    (first : b.index? start = some a) (last : b.stopIndex? stop = some z) (n : Nat) :
    b.Within start stop n ↔ a ≤ n ∧ n < z := by
  constructor
  · rintro ⟨a', z', first', last', inside⟩
    cases first.symm.trans first'
    cases last.symm.trans last'
    exact inside
  · intro inside
    exact ⟨a, z, first, last, inside⟩

namespace Graph
variable {g : Graph} {id : BlockId} {b : Block} {written : List Piece} {last : Nat} {body : Body}

def First (g : Graph) (id : BlockId) (m : InstrId) : Prop :=
  ∃ b, g.block? id = some b ∧ b.firstId? = some m

/-- The instruction at an index of a written body belongs to a block: the block has its id, or it is
    an added jump, which no block has, and the block has the instruction in front of it. -/
inductive Owner (g : Graph) (body : Body) (n : Nat) (id : BlockId) : Prop where
  | own {b : Block} {i : Instr} (live : g.block? id = some b) (here : body.instrs[n]? = some i)
      (listed : i.id ∈ b.ids)
  | added {b : Block} {i front : Instr} {m : Nat} (live : g.block? id = some b)
      (here : body.instrs[n]? = some i) (new : g.nextInstr ≤ i.id) (behind : n = m + 1)
      (before : body.instrs[m]? = some front) (listed : front.id ∈ b.ids)

/-- A clause stands for a region: it has the same flags and catch type, its ranges hold what belongs
    to the blocks of the region, and its handler and filter start where the entry blocks do. -/
structure Renders (g : Graph) (body : Body) (r : Region) (clause : Clause) : Prop where
  flags : clause.flags = r.flags
  catchType : clause.catchType = r.catchType
  tries : ∀ {n id}, Owner g body n id →
    (body.Within clause.tryStart clause.tryEnd n ↔ id ∈ r.tryBlocks)
  handles : ∀ {n id}, Owner g body n id →
    (body.Within clause.handlerStart clause.handlerEnd n ↔ id ∈ r.handlerBlocks)
  filters : ∀ {n id}, Owner g body n id →
    ((∃ f, clause.filterStart = some f ∧ body.Within f (some clause.handlerStart) n) ↔
      id ∈ r.filterBlocks)
  flagged : clause.filterStart.isSome = r.flags.isFilter
  handlerFirst : ∃ id, r.handlerEntry? = some id ∧ First g id clause.handlerStart
  filterFirst : ∀ f, clause.filterStart = some f → ∃ id, r.filterEntry? = some id ∧ First g id f

theorem clauseOf?_keeps {ids : List InstrId} {extents : List Extent} {r : Region} {clause : Clause}
    (made : clauseOf? ids extents r = some clause) :
    clause.flags = r.flags ∧ clause.catchType = r.catchType := by
  unfold clauseOf? at made
  cases flag : r.flags.isFilter with
  | false =>
    simp only [flag, Bool.false_eq_true, if_false, Option.bind_eq_bind, Option.bind_eq_some_iff,
      Option.pure_def, Option.some.injEq] at made
    obtain ⟨_, -, _, -, _, -, _, -, _, -, rfl⟩ := made
    exact ⟨rfl, rfl⟩
  | true =>
    simp only [flag, if_true, Option.bind_eq_bind, Option.bind_eq_some_iff, Option.pure_def,
      Option.some.injEq] at made
    obtain ⟨_, -, _, -, _, -, _, -, _, -, _, -, _, -, rfl⟩ := made
    exact ⟨rfl, rfl⟩

theorem Takes.mem_iff {blocks : List BlockId} {a z j n : Nat} (takes : Takes written blocks a z)
    (nodup : (written.map Piece.block).Nodup) (stands : Stands written id j n) :
    a ≤ n ∧ n < z ↔ id ∈ blocks := by
  obtain ⟨k, p, here, rfl, rfl, inside⟩ := stands
  have next := codeBefore_succ here
  constructor
  · rintro ⟨above, below⟩
    exact takes.mem_of_place here (by omega) (by omega)
  · intro listed
    obtain ⟨low, high⟩ := takes.place nodup here listed
    omega

namespace Written

theorem id_of_stands (w : Written g written last body) {j n : Nat}
    (stands : Stands written id j n) :
    ∃ b i, g.block? id = some b ∧ body.instrs[n]? = some i ∧
      (b.ids[j]? = some i.id ∨ (j = b.instrs.length ∧ g.nextInstr ≤ i.id)) := by
  obtain ⟨k, p, here, rfl, rfl, inside⟩ := stands
  obtain ⟨b, link, jump, f, piece, above, -⟩ := (pieces_fresh w.pieces w.room).2 here
  have drafted := getElem?_written here inside
  rw [List.getElem?_eq_getElem inside] at drafted
  obtain ⟨i, offset, linked, found⟩ := w.instr drafted
  refine ⟨b, { i with offset }, piece.live, found, ?_⟩
  have listed : (p.code.map fun d => d.instr.id)[j]? = some i.id := by
    rw [List.getElem?_map, List.getElem?_eq_getElem inside, Option.map_some,
      (linkDraft_keeps linked).1]
  rw [piece.ids] at listed
  by_cases own : j < b.ids.length
  · rw [List.getElem?_append_left own] at listed
    exact .inl listed
  · have size : b.ids.length = b.instrs.length := List.length_map ..
    rw [List.getElem?_append_right (by omega)] at listed
    cases jump with
    | none => simp at listed
    | some t =>
      obtain ⟨only, same⟩ := List.getElem?_eq_some_iff.mp listed
      simp only [Option.toList_some, List.map_cons, List.map_nil, List.length_singleton] at only
      refine .inr ⟨by omega, ?_⟩
      have value : f = i.id := by simpa using same
      rw [← value]
      exact above

theorem exists_stands (w : Written g written last body) {n : Nat}
    (inside : n < body.instrs.length) : ∃ id j, Stands written id j n := by
  rw [w.size] at inside
  obtain ⟨k, p, j, here, bound, place⟩ := exists_piece inside
  exact ⟨p.block, j, k, p, here, rfl, place, bound⟩

theorem same_block (c : g.Consistent) {other : BlockId} {d : Block} (live : g.block? id = some b)
    (there : g.block? other = some d) {m : InstrId} (listed : m ∈ b.ids) (again : m ∈ d.ids) :
    id = other := by
  by_contra away
  exact c.apart live there away listed again

theorem stands_of_owner (w : Written g written last body) (c : g.Consistent) {n : Nat}
    (owner : Owner g body n id) : ∃ j, Stands written id j n := by
  have within : ∀ {n : Nat} {i : Instr}, body.instrs[n]? = some i →
      ∃ other j, Stands written other j n := fun here =>
    w.exists_stands (List.getElem?_eq_some_iff.mp here).1
  cases owner with
  | own live here listed =>
    obtain ⟨other, j, stands⟩ := within here
    obtain ⟨d, i, there, found, own | ⟨-, new⟩⟩ := w.id_of_stands stands
    · cases here.symm.trans found
      rw [same_block c live there listed (List.mem_of_getElem? own)]
      exact ⟨j, stands⟩
    · cases here.symm.trans found
      exact absurd (c.fresh live _ listed) (Nat.not_lt.mpr new)
  | @added b i front m live here new behind before listed =>
    obtain ⟨other, j, stands⟩ := within here
    obtain ⟨d, i, there, found, own | ⟨final, -⟩⟩ := w.id_of_stands stands
    · cases here.symm.trans found
      exact absurd (c.fresh there _ (List.mem_of_getElem? own)) (Nat.not_lt.mpr new)
    · -- The jump stands behind the code of its block, which is not empty.
      have filled : 0 < d.instrs.length := List.length_pos_of_ne_nil (c.filled there)
      have earlier : Stands written other (j - 1) m := by
        obtain ⟨k, p, piece, same, place, bound⟩ := stands
        exact ⟨k, p, piece, same, by omega, by omega⟩
      obtain ⟨e, x, again, found', own | ⟨late, -⟩⟩ := w.id_of_stands earlier
      · cases before.symm.trans found'
        rw [same_block c live again listed (List.mem_of_getElem? own)]
        exact ⟨j, stands⟩
      · cases there.symm.trans again
        omega

theorem owner_of_stands (w : Written g written last body) (c : g.Consistent) {j n : Nat}
    (stands : Stands written id j n) : Owner g body n id := by
  obtain ⟨b, i, live, here, own | ⟨final, new⟩⟩ := w.id_of_stands stands
  · exact .own live here (List.mem_of_getElem? own)
  · have filled : 0 < b.instrs.length := List.length_pos_of_ne_nil (c.filled live)
    obtain ⟨k, p, piece, same, place, bound⟩ := stands
    have earlier : Stands written id (j - 1) (n - 1) := ⟨k, p, piece, same, by omega, by omega⟩
    obtain ⟨d, front, there, before, own | ⟨late, -⟩⟩ := w.id_of_stands earlier
    · exact .added there here new (by omega) before (List.mem_of_getElem? own)
    · cases live.symm.trans there
      omega

theorem exists_owner (w : Written g written last body) (c : g.Consistent) {n : Nat}
    (inside : n < body.instrs.length) : ∃! id, Owner g body n id := by
  obtain ⟨id, j, stands⟩ := w.exists_stands inside
  refine ⟨id, w.owner_of_stands c stands, ?_⟩
  intro other owner
  obtain ⟨k, stands'⟩ := w.stands_of_owner c owner
  exact (stands'.unique stands).1

theorem within_takes (w : Written g written last body) (c : g.Consistent) {blocks : List BlockId}
    {start : InstrId} {stop : Option InstrId} {a z : Nat} (takes : Takes written blocks a z)
    (first : body.index? start = some a) (final : body.stopIndex? stop = some z) {n : Nat}
    (owner : Owner g body n id) : body.Within start stop n ↔ id ∈ blocks := by
  obtain ⟨j, stands⟩ := w.stands_of_owner c owner
  rw [Body.within_iff first final]
  exact takes.mem_iff (w.nodup c.laid) stands

theorem first_of_begins (w : Written g written last body) (c : g.Consistent) {n : Nat}
    {m : InstrId} (begins : Begins written id n) (index : body.index? m = some n) :
    First g id m := by
  obtain ⟨k, p, here, same, rfl⟩ := begins
  have stands : Stands written id 0 (codeBefore written k) :=
    ⟨k, p, here, same, rfl, w.filled c.laid p (List.mem_of_getElem? here)⟩
  obtain ⟨b, i, live, found, own | ⟨none, -⟩⟩ := w.id_of_stands stands
  · have named := id_of_lastIndex? index
    rw [found] at named
    cases named
    refine ⟨b, live, ?_⟩
    rw [Block.firstId?, ← own, Block.ids, List.getElem?_map, List.head?_eq_getElem?]
  · exact absurd none.symm (Nat.ne_of_gt (List.length_pos_of_ne_nil (c.filled live)))

theorem renders (w : Written g written last body) (c : g.Consistent) {r : Region}
    (whole : r.Whole g.layout) {clause : Clause} {a z h e : Nat}
    (made : clauseOf? (writtenIds written) (extents 0 written) r = some clause)
    (bounds : Bounds body written r clause a z h e) : Renders g body r clause where
  flags := bounds.flags
  catchType := (clauseOf?_keeps made).2
  tries := w.within_takes c bounds.tries bounds.tryStart bounds.tryStop
  handles := w.within_takes c bounds.handles bounds.handlerStart bounds.handlerStop
  filters := by
    intro n id owner
    cases flag : r.flags.isFilter with
    | false =>
      have none : r.filterBlocks = [] := by
        by_contra filtered
        rw [whole.filters.mp filtered] at flag
        cases flag
      simp [bounds.unfiltered flag, none]
    | true =>
      obtain ⟨f, start, filter, index, takes⟩ := bounds.filtered flag
      have stop : body.stopIndex? (some clause.handlerStart) = some h := bounds.handlerStart
      rw [← w.within_takes c takes index stop owner]
      simp [filter]
  flagged := by
    rw [(w.proper_of_bounds c whole bounds).filters, bounds.flags]
  handlerFirst := by
    obtain ⟨id, entry, begins⟩ := bounds.handler_begins whole
    exact ⟨id, entry, w.first_of_begins c begins bounds.handlerStart⟩
  filterFirst := by
    intro f filter
    obtain ⟨start, -, index, -, -⟩ := (w.proper_of_bounds c whole bounds).inFront f filter
    obtain ⟨id, entry, begins⟩ := bounds.filter_begins whole filter index
    exact ⟨id, entry, w.first_of_begins c begins index⟩

theorem clauses_render (w : Written g written last body) (c : g.Consistent)
    (guarded : g.Guarded) : List.Forall₂ (Renders g body) g.regions body.clauses := by
  rw [w.clauses]
  refine forall₂_filterMap (List.forall₂_same.mpr fun r inside => ?_)
  obtain ⟨clause, a, z, h, e, made, bounds⟩ := w.clause_of_whole c inside (guarded r inside)
  exact ⟨clause, w.renders c (guarded r inside) made bounds, made⟩

end Written

/-- Whatever was done to a graph that was cut from a sound body, it can be written, and if the id
    counter does not overflow every written instruction belongs to one block and the clauses are
    those of the regions. -/
theorem protects_exactly {body : Body} (numbered : body.Numbered) (closed : body.Closed)
    (proper : ∀ clause ∈ body.clauses, clause.Proper body) (cut : body.toGraph = .ok g)
    {edits : List Edit} (allowed : AllowedAll g edits) (fits : FitsAll g edits)
    (room : (g.applyAll edits).RoomToWrite) :
    ∃ written, (g.applyAll edits).toBody = .ok written ∧
      (∀ n < written.instrs.length, ∃! id, Owner (g.applyAll edits) written n id) ∧
      List.Forall₂ (Renders (g.applyAll edits) written) (g.applyAll edits).regions
        written.clauses := by
  have consistent := Body.toGraph_consistent numbered cut
  have c := consistent.applyAll allowed fits
  have guarded := (Body.toGraph_guarded proper cut).applyAll consistent allowed fits
  have complete := (Body.toGraph_complete closed cut).applyAll consistent allowed fits
  obtain ⟨written, done⟩ := toBody_of_complete c complete
  obtain ⟨pieces, last, w⟩ := toBody_ok c.laid room done
  exact ⟨written, done, fun n inside => w.exists_owner c inside, w.clauses_render c guarded⟩

/-- A protected test that is jumped to over the code it may lead to, with a filter in front of its
    handler. Merged with what jumps to it, the test needs a jump behind it. -/
def crossedTry : Body where
  instrs := [⟨0, .nop, .none, 0⟩, ⟨1, .br .long, .target 4, 1⟩, ⟨2, .nop, .none, 6⟩,
    ⟨3, .leave .long, .target 12, 7⟩, ⟨4, .ldcI4S, .immediate (.int8 0#8), 12⟩,
    ⟨5, .branch .isTrue .long, .target 2, 14⟩, ⟨6, .leave .long, .target 12, 19⟩,
    ⟨7, .pop, .none, 24⟩, ⟨8, .ldcI4S, .immediate (.int8 1#8), 25⟩, ⟨9, .endfilter, .none, 27⟩,
    ⟨10, .pop, .none, 29⟩, ⟨11, .leave .long, .target 12, 30⟩, ⟨12, .ret, .none, 35⟩]
  clauses := [⟨.filter, 0, some 7, 10, some 12, some 7, none⟩]
  nextId := 13

theorem crossedTry_protects_exactly :
    ∃ g, crossedTry.toGraph = .ok g ∧ crossedTry.Numbered ∧ crossedTry.Closed ∧
      (∀ clause ∈ crossedTry.clauses, clause.Proper crossedTry) ∧ AllowedAll g [.merge] ∧
      FitsAll g [.merge] ∧ (g.applyAll [.merge]).RoomToWrite ∧
      ∃ written, (g.applyAll [.merge]).toBody = .ok written ∧
        (∀ n < written.instrs.length, ∃! id, Owner (g.applyAll [.merge]) written n id) ∧
        List.Forall₂ (Renders (g.applyAll [.merge]) written) (g.applyAll [.merge]).regions
          written.clauses := by
  have numbered : crossedTry.Numbered := ⟨by decide, by decide⟩
  have closed : crossedTry.Closed := by
    refine ⟨?_, ?_, ?_⟩ <;> simp [crossedTry, Instr.flow, Opcode.flow, Flow.fallsThrough]
  have proper : ∀ clause ∈ crossedTry.clauses, clause.Proper crossedTry := by
    intro clause inside
    rw [List.mem_singleton.mp inside]
    refine ⟨⟨0, 7, rfl, rfl, by decide⟩, ⟨10, 12, rfl, rfl, by decide⟩, rfl, ?_⟩
    rintro f ⟨⟩
    exact ⟨7, 10, rfl, rfl, by decide⟩
  have allowed : ∀ g, AllowedAll g [.merge] := fun g => ⟨trivial, trivial⟩
  refine ⟨_, rfl, numbered, closed, proper, allowed _, by decide, by decide +kernel, ?_⟩
  exact protects_exactly numbered closed proper rfl (allowed _) (by decide) (by decide +kernel)

end Graph
end Unravel
