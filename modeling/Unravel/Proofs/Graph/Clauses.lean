import Unravel.Proofs.Graph.Placing
import Unravel.Proofs.Graph.Regions

namespace Unravel.Graph
variable {g : Graph} {written : List Piece} {last : Nat} {body : Body}

def Takes (written : List Piece) (blocks : List BlockId) (a z : Nat) : Prop :=
  ∃ before behind, written.map Piece.block = before ++ blocks ++ behind ∧
    a = codeBefore written before.length ∧
    z = codeBefore written (before.length + blocks.length)

theorem map_block_extents (start : Nat) (written : List Piece) :
    (extents start written).map Extent.block = written.map Piece.block := by
  induction written generalizing start with
  | nil => rfl
  | cons p rest ih => rw [extents, List.map_cons, List.map_cons, ih]

theorem codeBefore_le (written : List Piece) (k : Nat) :
    codeBefore written k ≤ (written.flatMap Piece.code).length := by
  have part := (List.take_prefix k written).sublist.flatMap Piece.code
  exact part.length_le

namespace Takes
variable {blocks : List BlockId} {a z : Nat}

theorem lt (takes : Takes written blocks a z) (filled : ∀ p ∈ written, 0 < p.code.length)
    (some_ : blocks ≠ []) : a < z := by
  obtain ⟨before, behind, all, rfl, rfl⟩ := takes
  have more := List.length_pos_of_ne_nil some_
  have size := congrArg List.length all
  simp only [List.length_map, List.length_append] at size
  have here : written[before.length]? = some written[before.length] :=
    List.getElem?_eq_getElem (by omega)
  have code := filled _ (List.mem_of_getElem? here)
  have next := codeBefore_succ here
  have rest : codeBefore written (before.length + 1) ≤
      codeBefore written (before.length + blocks.length) := codeBefore_mono (by omega)
  omega

theorem begins {first : BlockId} (takes : Takes written blocks a z)
    (head : blocks.head? = some first) : Begins written first a := by
  obtain ⟨before, behind, all, rfl, -⟩ := takes
  obtain ⟨rest, rfl⟩ := List.head?_eq_some_iff.mp head
  have here : (written.map Piece.block)[before.length]? = some first := by
    rw [all, List.append_assoc, List.getElem?_append_right (Nat.le_refl _)]
    simp
  rw [List.getElem?_map] at here
  obtain ⟨p, there, same⟩ := Option.map_eq_some_iff.mp here
  exact ⟨before.length, p, there, same, rfl⟩

theorem place (takes : Takes written blocks a z) (nodup : (written.map Piece.block).Nodup)
    {k : Nat} {p : Piece} (here : written[k]? = some p) (inside : p.block ∈ blocks) :
    a ≤ codeBefore written k ∧ codeBefore written (k + 1) ≤ z := by
  obtain ⟨before, behind, all, rfl, rfl⟩ := takes
  obtain ⟨j, bound, found⟩ := List.getElem_of_mem inside
  have there : (written.map Piece.block)[before.length + j]? = some p.block := by
    rw [all, List.append_assoc, List.getElem?_append_right (by omega), Nat.add_sub_cancel_left,
      List.getElem?_append_left bound, List.getElem?_eq_getElem bound, found]
  have place : (written.map Piece.block)[k]? = some p.block := by
    rw [List.getElem?_map, here, Option.map_some]
  have equal : k = before.length + j :=
    (List.getElem?_inj (List.getElem?_eq_some_iff.mp place).1 nodup).mp (place.trans there.symm)
  exact ⟨codeBefore_mono (by omega), codeBefore_mono (by omega)⟩

theorem mem_of_place (takes : Takes written blocks a z) {k : Nat} {p : Piece}
    (here : written[k]? = some p) (above : a < codeBefore written (k + 1))
    (below : codeBefore written k < z) : p.block ∈ blocks := by
  obtain ⟨before, behind, all, rfl, rfl⟩ := takes
  have low : before.length ≤ k := by
    by_contra early
    have : codeBefore written (k + 1) ≤ codeBefore written before.length :=
      codeBefore_mono (by omega)
    omega
  have high : k < before.length + blocks.length := by
    by_contra late
    have : codeBefore written (before.length + blocks.length) ≤ codeBefore written k :=
      codeBefore_mono (by omega)
    omega
  have place : (written.map Piece.block)[k]? = some p.block := by
    rw [List.getElem?_map, here, Option.map_some]
  rw [all, List.append_assoc, List.getElem?_append_right low,
    List.getElem?_append_left (by omega)] at place
  exact List.mem_of_getElem? place

theorem covers (takes : Takes written blocks a z) (nodup : (written.map Piece.block).Nodup)
    (filled : ∀ p ∈ written, 0 < p.code.length) {id : BlockId} (inside : id ∈ blocks) {n : Nat}
    (begins : Begins written id n) : a ≤ n ∧ n < z := by
  obtain ⟨k, p, here, rfl, rfl⟩ := begins
  obtain ⟨low, high⟩ := takes.place nodup here inside
  have code := filled p (List.mem_of_getElem? here)
  have next := codeBefore_succ here
  omega

theorem filter_extents {before behind : List BlockId}
    (all : written.map Piece.block = before ++ blocks ++ behind)
    (nodup : (written.map Piece.block).Nodup) :
    ((extents 0 written).filter fun e => blocks.contains e.block) =
      ((extents 0 written).drop before.length).take blocks.length := by
  rw [all, List.nodup_append', List.nodup_append'] at nodup
  rw [← map_block_extents 0, List.append_assoc] at all
  obtain ⟨front, rest, split, rfl, parts⟩ := List.map_eq_append_iff.mp all
  obtain ⟨middle, back, rfl, rfl, rfl⟩ := List.map_eq_append_iff.mp parts
  have none₁ : (front.filter fun e => (middle.map Extent.block).contains e.block) = [] := by
    rw [List.filter_eq_nil_iff]
    intro e inside hit
    exact nodup.1.2.2 (List.mem_map_of_mem inside) (List.contains_iff_mem.mp hit)
  have none₂ : (back.filter fun e => (middle.map Extent.block).contains e.block) = [] := by
    rw [List.filter_eq_nil_iff]
    intro e inside hit
    exact nodup.2.2 (List.mem_append_right _ (List.contains_iff_mem.mp hit))
      (List.mem_map_of_mem inside)
  have same : (middle.filter fun e => (middle.map Extent.block).contains e.block) = middle := by
    rw [List.filter_eq_self]
    exact fun e inside => List.contains_iff_mem.mpr (List.mem_map_of_mem inside)
  rw [split, List.filter_append, List.filter_append, none₁, none₂, same, List.nil_append,
    List.append_nil, List.length_map, List.length_map, List.drop_left, List.take_left]

theorem span?_eq (takes : Takes written blocks a z) (nodup : (written.map Piece.block).Nodup)
    (filled : ∀ p ∈ written, 0 < p.code.length) (some_ : blocks ≠ []) :
    span? (extents 0 written) blocks = some (a, z) := by
  have order := takes.lt filled some_
  obtain ⟨before, behind, all, rfl, rfl⟩ := takes
  have more := List.length_pos_of_ne_nil some_
  have size := congrArg List.length all
  simp only [List.length_map, List.length_append] at size
  have extent : ∀ j (bound : j < blocks.length),
      (((extents 0 written).drop before.length).take blocks.length)[j]? =
        some (extentOf written (before.length + j)
          (written.get ⟨before.length + j, by omega⟩)) := by
    intro j bound
    rw [List.getElem?_take_of_lt bound, List.getElem?_drop, getElem?_extents,
      List.getElem?_eq_getElem (by omega), Option.map_some, Nat.zero_add]
    rfl
  have long : (((extents 0 written).drop before.length).take blocks.length).length =
      blocks.length := by
    have same := congrArg List.length (map_block_extents 0 written)
    simp only [List.length_map] at same
    rw [List.length_take, List.length_drop]
    omega
  have stop : codeBefore written (before.length + (blocks.length - 1)) +
      written[before.length + (blocks.length - 1)].code.length =
        codeBefore written (before.length + blocks.length) := by
    rw [← codeBefore_succ (List.getElem?_eq_getElem (by omega))]
    congr 1
    omega
  unfold span?
  simp only [filter_extents all nodup, List.head?_eq_getElem?, List.getLast?_eq_getElem?, long,
    extent 0 more, extent (blocks.length - 1) (by omega), Option.bind_eq_bind, Option.bind_some,
    List.get_eq_getElem, extentOf, stop]
  rw [Nat.add_zero, if_pos order]

end Takes

structure Drawn (written : List Piece) (r : Region) (clause : Clause) (a z h e : Nat) : Prop where
  flags : clause.flags = r.flags
  tries : Takes written r.tryBlocks a z
  tryStart : (writtenIds written)[a]? = some clause.tryStart
  tryStop : clause.tryEnd = (writtenIds written)[z]?
  handles : Takes written r.handlerBlocks h e
  handlerStart : (writtenIds written)[h]? = some clause.handlerStart
  handlerStop : clause.handlerEnd = (writtenIds written)[e]?
  unfiltered : r.flags.isFilter = false → clause.filterStart = none
  filtered : r.flags.isFilter = true → ∃ id f, clause.filterStart = some id ∧
    (writtenIds written)[f]? = some id ∧ Takes written r.filterBlocks f h

structure Bounds (body : Body) (written : List Piece) (r : Region) (clause : Clause)
    (a z h e : Nat) : Prop where
  flags : clause.flags = r.flags
  tries : Takes written r.tryBlocks a z
  tryStart : body.index? clause.tryStart = some a
  tryStop : body.stopIndex? clause.tryEnd = some z
  handles : Takes written r.handlerBlocks h e
  handlerStart : body.index? clause.handlerStart = some h
  handlerStop : body.stopIndex? clause.handlerEnd = some e
  unfiltered : r.flags.isFilter = false → clause.filterStart = none
  filtered : r.flags.isFilter = true → ∃ id f, clause.filterStart = some id ∧
    body.index? id = some f ∧ Takes written r.filterBlocks f h

namespace Bounds
variable {r : Region} {clause : Clause} {a z h e : Nat}

theorem handler_begins (bounds : Bounds body written r clause a z h e)
    (whole : r.Whole g.layout) : ∃ x, r.handlerEntry? = some x ∧ Begins written x h := by
  obtain ⟨x, rest, blocks⟩ := List.exists_cons_of_ne_nil whole.handles
  have first : r.handlerEntry? = some x := by rw [ Region.handlerEntry?, blocks]; rfl
  exact ⟨x, first, bounds.handles.begins first⟩

theorem filter_begins (bounds : Bounds body written r clause a z h e) (whole : r.Whole g.layout)
    {id : InstrId} {f : Nat} (filtered : clause.filterStart = some id)
    (index : body.index? id = some f) : ∃ x, r.filterEntry? = some x ∧ Begins written x f := by
  cases flag : r.flags.isFilter with
  | false =>
    rw [bounds.unfiltered flag] at filtered
    cases filtered
  | true =>
    obtain ⟨id', f', filtered', index', takes⟩ := bounds.filtered flag
    cases filtered.symm.trans filtered'
    cases index.symm.trans index'
    obtain ⟨x, rest, blocks⟩ := List.exists_cons_of_ne_nil (whole.filters.mpr flag)
    have first : r.filterEntry? = some x := by rw [ Region.filterEntry?, blocks]; rfl
    exact ⟨x, first, takes.begins first⟩

end Bounds

namespace Drafted

theorem filled (w : Drafted g written last body) (l : g.Laid) :
    ∀ p ∈ written, 0 < p.code.length := by
  intro p inside
  obtain ⟨k, here⟩ := List.getElem?_of_mem inside
  obtain ⟨b, link, jump, f, piece⟩ := (pieces_at w.pieces).2 here
  exact piece.filled l

theorem nodup (w : Drafted g written last body) (l : g.Laid) :
    (written.map Piece.block).Nodup := by
  rw [w.blocks]
  exact l.nodup

theorem takes_le (w : Drafted g written last body) {blocks : List BlockId} {a z : Nat}
    (takes : Takes written blocks a z) : z ≤ body.instrs.length := by
  obtain ⟨before, behind, -, -, rfl⟩ := takes
  rw [w.size]
  exact codeBefore_le written _

theorem start_of_takes (w : Drafted g written last body) (l : g.Laid)
    {blocks : List BlockId} {a z : Nat} (takes : Takes written blocks a z)
    (some_ : blocks ≠ []) : ∃ m, (writtenIds written)[a]? = some m := by
  have order := takes.lt (w.filled l) some_
  have inside := w.takes_le takes
  have bound : a < (writtenIds written).length := by
    rw [← w.ids, List.length_map]
    omega
  exact ⟨_, List.getElem?_eq_getElem bound⟩

theorem takes_of_infix (w : Drafted g written last body) {blocks : List BlockId}
    (part : blocks <:+: g.layout) : ∃ a z, Takes written blocks a z := by
  obtain ⟨before, behind, all⟩ := part
  exact ⟨_, _, before, behind, by rw [w.blocks, all], rfl, rfl⟩

theorem takes_inFront (w : Drafted g written last body) {filter handler : List BlockId}
    (part : filter ++ handler <:+: g.layout) :
    ∃ f h e, Takes written filter f h ∧ Takes written handler h e := by
  obtain ⟨before, behind, all⟩ := part
  rw [← w.blocks] at all
  refine ⟨_, _, _, ⟨before, handler ++ behind, ?_, rfl, rfl⟩, before ++ filter, behind, ?_, ?_, rfl⟩
  · rw [← all]
    simp
  · rw [← all]
    simp
  · rw [List.length_append]

theorem exists_drawn (w : Drafted g written last body) (l : g.Laid) {r : Region}
    (part : r.tryBlocks <:+: g.layout) (whole : r.Whole g.layout) :
    ∃ clause a z h e, clauseOf? (writtenIds written) (extents 0 written) r = some clause ∧
      Drawn written r clause a z h e := by
  have filled := w.filled l
  have nodup := w.nodup l
  obtain ⟨a, z, tries⟩ := w.takes_of_infix part
  obtain ⟨f, h, e, filters, handles⟩ := w.takes_inFront whole.inFront
  obtain ⟨tryId, tryStart⟩ := w.start_of_takes l tries whole.tries
  obtain ⟨handlerId, handlerStart⟩ := w.start_of_takes l handles whole.handles
  have trySpan := tries.span?_eq nodup filled whole.tries
  have handlerSpan := handles.span?_eq nodup filled whole.handles
  cases flag : r.flags.isFilter with
  | false =>
    refine ⟨⟨r.flags, tryId, (writtenIds written)[z]?, handlerId, (writtenIds written)[e]?, none,
      r.catchType⟩, a, z, h, e, ?_, rfl, tries, tryStart, rfl, handles, handlerStart, rfl,
      fun _ => rfl, ?_⟩
    · simp only [clauseOf?, trySpan, handlerSpan, flag, tryStart, handlerStart, Option.bind_eq_bind,
        Option.bind_some, Bool.false_eq_true, if_false, Option.pure_def]
    · rw [flag]
      exact fun contra => absurd contra Bool.false_ne_true
  | true =>
    have some_ := whole.filters.mpr flag
    obtain ⟨filterId, filterStart⟩ := w.start_of_takes l filters some_
    have filterSpan := filters.span?_eq nodup filled some_
    refine ⟨⟨r.flags, tryId, (writtenIds written)[z]?, handlerId, (writtenIds written)[e]?,
      some filterId, r.catchType⟩, a, z, h, e, ?_, rfl, tries, tryStart, rfl, handles,
      handlerStart, rfl, ?_, fun _ => ⟨filterId, f, rfl, filterStart, filters⟩⟩
    · simp only [clauseOf?, trySpan, handlerSpan, filterSpan, flag, tryStart, handlerStart,
        filterStart, Option.bind_eq_bind, Option.bind_some, if_true, Option.pure_def]
    · rw [flag]
      exact fun contra => absurd contra.symm Bool.false_ne_true

theorem length_clauses (w : Drafted g written last body) (l : g.Laid) (guarded : g.Guarded) :
    body.clauses.length = g.regions.length := by
  rw [w.clauses, List.filterMap_length_eq_length]
  intro r inside
  have part := l.regions r inside r.tryBlocks (by simp [Region.lists])
  obtain ⟨clause, a, z, h, e, made, -⟩ := w.exists_drawn l part (guarded r inside)
  rw [made]
  rfl

end Drafted

namespace Written

theorem index_of_id (w : Written g written last body) (c : g.Consistent) {n : Nat} {m : InstrId}
    (here : (writtenIds written)[n]? = some m) : body.index? m = some n := by
  rw [writtenIds, List.getElem?_map] at here
  obtain ⟨d, drafted, rfl⟩ := Option.map_eq_some_iff.mp here
  exact w.index_of_draft c drafted

theorem stopIndex?_of_id (w : Written g written last body) (c : g.Consistent) {n : Nat}
    (inside : n ≤ body.instrs.length) : body.stopIndex? (writtenIds written)[n]? = some n := by
  cases here : (writtenIds written)[n]? with
  | some m => exact w.index_of_id c here
  | none =>
    rw [← w.ids, List.getElem?_eq_none_iff, List.length_map] at here
    rw [Body.stopIndex?, Nat.le_antisymm here inside]

theorem exists_clause (w : Written g written last body) (c : g.Consistent) {r : Region}
    (part : r.tryBlocks <:+: g.layout) (whole : r.Whole g.layout) :
    ∃ clause a z h e, clauseOf? (writtenIds written) (extents 0 written) r = some clause ∧
      Bounds body written r clause a z h e := by
  obtain ⟨clause, a, z, h, e, made, drawn⟩ := w.exists_drawn c.laid part whole
  refine ⟨clause, a, z, h, e, made, drawn.flags, drawn.tries, w.index_of_id c drawn.tryStart, ?_,
    drawn.handles, w.index_of_id c drawn.handlerStart, ?_, drawn.unfiltered, fun flag => ?_⟩
  · rw [drawn.tryStop]
    exact w.stopIndex?_of_id c (w.takes_le drawn.tries)
  · rw [drawn.handlerStop]
    exact w.stopIndex?_of_id c (w.takes_le drawn.handles)
  · obtain ⟨id, f, filtered, start, filters⟩ := drawn.filtered flag
    exact ⟨id, f, filtered, w.index_of_id c start, filters⟩

theorem clause_of_whole (w : Written g written last body) (c : g.Consistent) {r : Region}
    (inside : r ∈ g.regions) (whole : r.Whole g.layout) :
    ∃ clause a z h e, clauseOf? (writtenIds written) (extents 0 written) r = some clause ∧
      Bounds body written r clause a z h e :=
  w.exists_clause c (c.regions r inside r.tryBlocks (by simp [Region.lists])) whole

theorem proper_of_bounds (w : Written g written last body) (c : g.Consistent) {r : Region}
    (whole : r.Whole g.layout) {clause : Clause} {a z h e : Nat}
    (bounds : Bounds body written r clause a z h e) : clause.Proper body where
  tries := ⟨a, z, bounds.tryStart, bounds.tryStop, bounds.tries.lt (w.filled c.laid) whole.tries⟩
  handles := ⟨h, e, bounds.handlerStart, bounds.handlerStop,
    bounds.handles.lt (w.filled c.laid) whole.handles⟩
  filters := by
    rw [bounds.flags]
    cases flag : r.flags.isFilter with
    | false => rw [bounds.unfiltered flag]; rfl
    | true =>
      obtain ⟨id, f, filter, -, -⟩ := bounds.filtered flag
      rw [filter]
      rfl
  inFront := by
    intro id filter
    cases flag : r.flags.isFilter with
    | false =>
      rw [bounds.unfiltered flag] at filter
      cases filter
    | true =>
      obtain ⟨_, f, same, found, takes⟩ := bounds.filtered flag
      rw [filter] at same
      cases same
      exact ⟨f, h, found, bounds.handlerStart, takes.lt (w.filled c.laid) (whole.filters.mpr flag)⟩

theorem bounds_of_clause (w : Written g written last body) (c : g.Consistent) (guarded : g.Guarded)
    {clause : Clause} (inside : clause ∈ body.clauses) :
    ∃ r ∈ g.regions, ∃ a z h e, Bounds body written r clause a z h e := by
  rw [w.clauses] at inside
  obtain ⟨r, listed, made⟩ := List.mem_filterMap.mp inside
  obtain ⟨clause', a, z, h, e, made', bounds⟩ := w.clause_of_whole c listed (guarded r listed)
  cases made.symm.trans made'
  exact ⟨r, listed, a, z, h, e, bounds⟩

theorem proper (w : Written g written last body) (c : g.Consistent) (guarded : g.Guarded) :
    ∀ clause ∈ body.clauses, clause.Proper body := by
  intro clause inside
  obtain ⟨r, listed, a, z, h, e, bounds⟩ := w.bounds_of_clause c guarded inside
  exact w.proper_of_bounds c (guarded r listed) bounds

end Written
end Unravel.Graph
