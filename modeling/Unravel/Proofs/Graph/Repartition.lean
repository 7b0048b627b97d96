import Unravel.Proofs.Graph.Rewriting

/-!
A second repartition changes nothing. Edits may leave edges to blocks that are gone and regions
without a handler, but then a graph that can be written out has no such edge, and such a region
gives no clause. What is written is therefore a body that comes back from its own graph unchanged.
-/
namespace Unravel

namespace Region
variable {r : Region} {layout : List BlockId}

def InFront (layout : List BlockId) (r : Region) : Prop :=
  r.filterBlocks ≠ [] → r.handlerBlocks ≠ [] → r.filterBlocks ++ r.handlerBlocks <:+: layout

theorem InFront.without (inFront : r.InFront layout) (removed : List BlockId) :
    (r.without removed).InFront (layout.filter fun b => !removed.contains b) := by
  have before : ∀ {blocks : List BlockId}, (blocks.filter fun b => !removed.contains b) ≠ [] →
      blocks ≠ [] := by
    rintro blocks left rfl
    exact left rfl
  intro filters handles
  have part := (inFront (before filters) (before handles)).filter fun b => !removed.contains b
  rwa [List.filter_append] at part

theorem InFront.inherit (inFront : r.InFront layout) (nodup : layout.Nodup) (head added : BlockId) :
    (r.inherit head added).InFront (insertAfter head added layout) := by
  have before : ∀ {blocks : List BlockId}, insertAfter head added blocks ≠ [] → blocks ≠ [] := by
    rintro blocks left rfl
    exact left rfl
  intro filters handles
  have part := inFront (before filters) (before handles)
  have grown : insertAfter head added (r.filterBlocks ++ r.handlerBlocks) <:+:
      insertAfter head added layout := insertAfter_infix nodup part
  rw [insertAfter_append] at grown
  change insertAfter head added r.filterBlocks ++ insertAfter head added r.handlerBlocks <:+: _
  split at grown
  · rename_i inside
    have outside : head ∉ r.handlerBlocks :=
      (List.nodup_append'.mp (nodup.sublist part.sublist)).2.2 inside
    rwa [insertAfter_of_not_mem outside]
  · rename_i outside
    rwa [insertAfter_of_not_mem outside]

end Region

namespace Graph
variable {g g' : Graph} {id : BlockId} {b : Block} {written : List Piece} {last : Nat} {body : Body}

/-- What every edit keeps, also where it drops a terminator that leads nowhere. -/
structure Arranged (g : Graph) : Prop where
  laid : g.Laid
  distinct : g.Distinct
  inFront : ∀ r ∈ g.regions, r.InFront g.layout

/-- Edits that rearrange blocks and their edges. -/
def Edit.Structural : Edit → Prop
  | .redirect .. | .dropTerminator .. | .split .. | .remove .. | .merge | .removeDead => True
  | .repartition | .allocInstr | .inline .. | .fold .. => False

namespace Arranged

theorem redirect (a : g.Arranged) {target : BlockId} (done : g.redirect id target = .ok g') :
    g'.Arranged := by
  refine ⟨a.laid.redirect done, a.distinct.redirect done, ?_⟩
  obtain ⟨_, _, -, -, -, rfl⟩ := redirect_ok done
  exact a.inFront

theorem dropTerminator (a : g.Arranged) (done : g.dropTerminator id = .ok g') : g'.Arranged := by
  refine ⟨a.laid.dropTerminator done, a.distinct.dropTerminator done, ?_⟩
  obtain ⟨_, -, -, -, rfl⟩ := dropTerminator_ok done
  exact a.inFront

theorem splitAt (a : g.Arranged) {index : Nat} (live : g.block? id = some b) (cut : 0 < index)
    (inside : index < b.instrs.length) : (g.splitAt id b index).Arranged := by
  refine ⟨a.laid.splitAt live cut inside, a.distinct.splitAt live index, ?_⟩
  intro r listed
  obtain ⟨r, was, rfl⟩ := List.mem_map.mp listed
  exact (a.inFront r was).inherit a.laid.nodup id g.slots.length

theorem remove (a : g.Arranged) {removed : List BlockId} {n : Nat}
    (done : g.remove removed = .ok (n, g')) : g'.Arranged := by
  refine ⟨a.laid.remove done, a.distinct.remove done, ?_⟩
  obtain ⟨-, -, rfl⟩ := remove_ok done
  intro r listed
  obtain ⟨r, was, rfl⟩ := List.mem_map.mp listed
  exact (a.inFront r (List.mem_of_mem_filter was)).without removed

theorem joined (a : g.Arranged) {pred : BlockId} {first second : Block}
    (j : Joinable g pred id first second) :
    ((g.drop id).modify pred fun b => join b second).Arranged := by
  refine ⟨a.laid.joined j, a.distinct.joined j, ?_⟩
  intro r listed
  obtain ⟨r, was, rfl⟩ := List.mem_map.mp listed
  have inFront := (a.inFront r was).without [id]
  rw [← layout_drop] at inFront
  exact inFront

theorem apply (a : g.Arranged) {e : Edit} (structural : e.Structural) : (e.apply g).Arranged := by
  have does := e.does a.laid.listed_of_live
  generalize e.apply g = g' at does ⊢
  cases does with
  | idle => exact a
  | redirect done => exact a.redirect done
  | dropTerminator done => exact a.dropTerminator done
  | split live cut inside => exact a.splitAt live cut inside
  | remove done | removeDead done => exact a.remove done
  | merge => exact mergeUpTo_keeps (fun a j => a.joined j) g.layout.length a
  | repartition | allocInstr | inline | fold => exact structural.elim

theorem applyAll (a : g.Arranged) {edits : List Edit} (structural : ∀ e ∈ edits, e.Structural) :
    (g.applyAll edits).Arranged :=
  List.foldlRecOn edits _ a fun _ a e inside => a.apply (structural e inside)

end Arranged

theorem mem_of_startId {ids : List InstrId} {t : BlockId} {m : InstrId}
    (found : startId ids (extents 0 written) t = .ok m) : t ∈ written.map Piece.block := by
  unfold startId at found
  split at found
  · rename_i there
    obtain ⟨e, extent, -⟩ := Option.bind_eq_some_iff.mp there
    have same : e.block = t := by simpa using List.find?_some extent
    rw [← map_block_extents 0 written, ← same]
    exact List.mem_map_of_mem (List.mem_of_find?_eq_some extent)
  · cases found

namespace Written

theorem live_of_link (w : Written g written last body) (l : g.Laid) {d : Draft}
    (drafted : d ∈ written.flatMap Piece.code) :
    (∀ t, d.link = .jump t → g.contains t = true) ∧
      ∀ ts, d.link = .cases ts → ∀ t ∈ ts, g.contains t = true := by
  have live : ∀ {t m}, startId (writtenIds written) (extents 0 written) t = .ok m →
      g.contains t = true := by
    intro t m found
    rw [← l.listed, ← w.blocks]
    exact mem_of_startId found
  obtain ⟨n, here⟩ := List.getElem?_of_mem drafted
  obtain ⟨i, offset, linked, -⟩ := w.instr here
  rcases linkDraft_ok linked with ⟨kept, -⟩ | ⟨t, m, jump, found, -⟩ | ⟨ts, ms, cases_, found, -⟩
  · simp [kept]
  · refine ⟨fun t' same => ?_, by simp [jump]⟩
    cases jump.symm.trans same
    exact live found
  · refine ⟨by simp [cases_], fun ts' same t inside => ?_⟩
    cases cases_.symm.trans same
    obtain ⟨m, -, start⟩ := exists_of_forall₂_mem found inside
    exact live start

theorem tight (w : Written g written last body) (l : g.Laid) : g.Tight := by
  intro id b alive s leads
  have listed := l.listed_of_live alive
  rw [← w.blocks] at listed
  obtain ⟨p, among, rfl⟩ := List.mem_map.mp listed
  obtain ⟨k, here⟩ := List.getElem?_of_mem among
  obtain ⟨d, link, jump, f, piece⟩ := (pieces_at w.pieces).2 here
  cases alive.symm.trans piece.live
  have drafts : ∀ d ∈ p.code, d ∈ written.flatMap Piece.code :=
    fun d inside => List.mem_flatMap.mpr ⟨p, among, inside⟩
  obtain ⟨front, final, code⟩ := Block.exists_last (l.filled alive)
  have linked : ⟨final, link⟩ ∈ p.code := by
    rw [piece.code]
    simp [draftCode, code]
  obtain ⟨jumps, cases_⟩ := w.live_of_link l (drafts _ linked)
  have head : ∀ t, lastLink b = .ok (.jump t) → g.contains t = true := fun t same => by
    rw [piece.linked] at same
    cases same
    exact jumps t rfl
  have fall : ∀ t, b.fall = some t →
      b.kind = .fallThrough ∨ b.kind = .conditional ∨ b.kind = .switch → g.contains t = true := by
    intro t falls open_
    have chosen := piece.jump_eq falls open_
    split at chosen
    · rename_i next
      exact (l.listed t).mp (List.mem_of_getElem? next.symm)
    · have added : addedJump f t ∈ p.code := by
        rw [piece.code, chosen]
        simp
      exact (w.live_of_link l (drafts _ added)).1 t rfl
  unfold Block.successors at leads
  split at leads <;> rename_i kind
  · exact fall s (Option.mem_toList.mp leads) (.inl kind)
  · exact head s (by simp [lastLink, kind, Option.mem_toList.mp leads])
  · exact head s (by simp [lastLink, kind, Option.mem_toList.mp leads])
  · rcases List.mem_append.mp leads with leads | leads
    · exact head s (by simp [lastLink, kind, Option.mem_toList.mp leads])
    · exact fall s (Option.mem_toList.mp leads) (.inr (.inl kind))
  · rcases List.mem_append.mp leads with leads | leads
    · have same : lastLink b = .ok (.cases b.targets) := by simp [lastLink, kind]
      rw [piece.linked] at same
      cases same
      exact cases_ _ rfl s leads
    · exact fall s (Option.mem_toList.mp leads) (.inr (.inr kind))
  · cases leads

theorem proper_of_region (w : Written g written last body) (c : g.Consistent) {r : Region}
    (inside : r ∈ g.regions) (inFront : r.InFront g.layout) {clause : Clause}
    (made : clauseOf? (writtenIds written) (extents 0 written) r = some clause) :
    clause.Proper body := by
  have some_ : ∀ {blocks a}, span? (extents 0 written) blocks = some a → blocks ≠ [] := by
    rintro blocks a found rfl
    simp [span?] at found
  have parts := c.regions r inside
  obtain ⟨tries, trySpan, rest⟩ := Option.bind_eq_some_iff.mp made
  obtain ⟨handles, handlerSpan, rest⟩ := Option.bind_eq_some_iff.mp rest
  -- The clause does not depend on a filter that is not asked for.
  let kept := { r with filterBlocks := if r.flags.isFilter then r.filterBlocks else [] }
  have same : clauseOf? (writtenIds written) (extents 0 written) kept =
      clauseOf? (writtenIds written) (extents 0 written) r := by
    cases flag : r.flags.isFilter <;> simp [clauseOf?, kept, flag]
  have whole : kept.Whole g.layout := by
    cases flag : r.flags.isFilter with
    | false =>
      refine ⟨some_ trySpan, some_ handlerSpan, by simp [kept, flag], ?_⟩
      simpa [kept, flag] using parts r.handlerBlocks (by simp [Region.lists])
    | true =>
      dsimp only at rest
      rw [if_pos flag] at rest
      obtain ⟨start, filterSpan, -⟩ := Option.bind_eq_some_iff.mp rest
      refine ⟨some_ trySpan, some_ handlerSpan, ?_, ?_⟩
      · simpa [kept, flag] using some_ filterSpan
      · simpa [kept, flag] using inFront (some_ filterSpan) (some_ handlerSpan)
  have tried : kept.tryBlocks <:+: g.layout := parts r.tryBlocks (by simp [Region.lists])
  obtain ⟨clause', a, z, h, e, made', bounds⟩ := w.exists_clause c tried whole
  rw [same, made] at made'
  cases made'
  exact w.proper_of_bounds c whole bounds

end Written

theorem place_place (start other : Nat) (instrs : List Instr) :
    place start (place other instrs) = place start instrs := by
  induction instrs generalizing start other with
  | nil => rfl
  | cons i rest ih =>
    rw [place, place, place, ih]
    rfl

theorem placed_of_toBody (l : g.Laid) (done : g.toBody = .ok body) : body.placed = body := by
  obtain ⟨⟨written, last⟩, found, -⟩ := bind_ok_iff.mp done
  rw [toBody_eq l found] at done
  obtain ⟨instrs, -, rfl⟩ := map_ok_iff.mp done
  simp only [Body.placed, place_place]

theorem Arranged.proper (a : g.Arranged) (room : g.RoomToWrite) (wrote : g.toBody = .ok body) :
    g.Consistent ∧ body.Numbered ∧ body.Wired ∧ ∀ clause ∈ body.clauses, clause.Proper body := by
  obtain ⟨written, last, w⟩ := toBody_ok a.laid room wrote
  have c : g.Consistent := a.laid.consistent a.distinct (w.tight a.laid)
  refine ⟨c, w.numbered c, w.wired c, fun clause inside => ?_⟩
  rw [w.clauses] at inside
  obtain ⟨r, listed, made⟩ := List.mem_filterMap.mp inside
  exact w.proper_of_region c listed (a.inFront r listed) made

theorem Arranged.repartition_again (a : g.Arranged) (room : g.RoomToWrite)
    (done : g.repartition = .ok g') : g'.repartition = .ok g' := by
  obtain ⟨body, wrote, cut⟩ := repartition_ok done
  obtain ⟨-, numbered, wired, proper⟩ := a.proper room wrote
  have back : g'.toBody = .ok body := by
    rw [Body.toBody_toGraph cut wired numbered.fresh proper, placed_of_toBody a.laid wrote]
  simp only [repartition, back, bind, Except.bind, cut]

end Graph

namespace Body
variable {body : Body} {starts : List Nat} {g : Graph}

theorem Cut.inFront (cut : Cut body starts) (c : Clause) :
    (body.regionOf starts c).InFront (List.range starts.length) := by
  intro filters handles
  cases filter : c.filterStart with
  | none => simp [regionOf, filter] at filters
  | some id =>
    simp only [regionOf, filter] at filters handles ⊢
    obtain ⟨k, inside⟩ := List.exists_mem_of_ne_nil _ filters
    obtain ⟨s, -, above, below⟩ := mem_covered.mp inside
    obtain ⟨k', inside'⟩ := List.exists_mem_of_ne_nil _ handles
    obtain ⟨s', -, above', below'⟩ := mem_covered.mp inside'
    rw [covered_append cut.sorted (by omega) (by omega)]
    exact covered_isInfix cut.sorted _ _

theorem toGraph_arranged (numbered : body.Numbered) (done : body.toGraph = .ok g) :
    g.Arranged := by
  refine ⟨toGraph_laid done, toGraph_distinct numbered done, ?_⟩
  obtain ⟨starts, from_⟩ := cutFrom_of_toGraph done
  rw [from_.regions, from_.layout]
  intro r inside
  obtain ⟨c, -, rfl⟩ := List.mem_map.mp inside
  exact from_.cut.inFront c

/-- A body comes back from its graph, and however its blocks are rearranged, cutting the graph anew
    is done once and for all, unless the id counter overflows. -/
theorem comes_back (cut : body.toGraph = .ok g) :
    (body.Wired → (∀ i ∈ body.instrs, i.id < body.nextId) →
      (∀ c ∈ body.clauses, c.Proper body) → g.toBody = .ok body.placed) ∧
    (body.Numbered → ∀ edits : List Graph.Edit, (∀ e ∈ edits, e.Structural) →
      (g.applyAll edits).RoomToWrite →
      ∀ g', (g.applyAll edits).repartition = .ok g' → g'.repartition = .ok g') := by
  refine ⟨fun wired fresh proper => toBody_toGraph cut wired fresh proper, ?_⟩
  intro numbered edits structural room g' done
  exact ((toGraph_arranged numbered cut).applyAll structural).repartition_again room done

/-- The terminators of the test and of the code behind it are dropped, so that the code runs into
    its own handler; then the handler is split and chains are merged. -/
theorem guardedTest_comes_back :
    ∃ g, Graph.guardedTest.toGraph = .ok g ∧ g.toBody = .ok Graph.guardedTest.placed ∧
      ∃ g', (g.applyAll [.dropTerminator 0, .dropTerminator 1, .split 2 1, .removeDead,
        .merge]).repartition = .ok g' ∧ g'.repartition = .ok g' := by
  have wired : Graph.guardedTest.Wired :=
    ⟨by simp [Graph.guardedTest, Linked, Instr.flow, Opcode.flow],
      by simp [Graph.guardedTest, Instr.flow, Opcode.flow]⟩
  have numbered : Graph.guardedTest.Numbered := ⟨by decide, by decide⟩
  have proper : ∀ c ∈ Graph.guardedTest.clauses, c.Proper Graph.guardedTest := by
    intro c inside
    rw [List.mem_singleton.mp inside]
    exact ⟨⟨0, 3, rfl, rfl, by decide⟩, ⟨3, 5, rfl, rfl, by decide⟩, rfl, by simp⟩
  have structural : ∀ e ∈ [Graph.Edit.dropTerminator 0, .dropTerminator 1, .split 2 1, .removeDead,
      .merge], e.Structural := by
    simp [Graph.Edit.Structural]
  refine ⟨_, rfl, (comes_back rfl).1 wired numbered.fresh proper, _, rfl, ?_⟩
  exact (comes_back rfl).2 numbered _ structural (by decide +kernel) _ rfl

end Body
end Unravel
