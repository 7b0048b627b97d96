import Unravel.Proofs.Graph.Survival

/-!
Removing dead blocks again. A removal drops the regions that have lost or never had a handler, while
what it takes for reached was found with all regions in place. A filter without a handler therefore
outlives its region by one removal. Where every filter has its handler, one removal leaves nothing
dead; two do so in any case, since a removal that removes something leaves handlers only.
-/
namespace Unravel

def Clause.Filters (b : Body) (c : Clause) : Prop :=
  ∃ f, c.filterStart = some f ∧ b.Spans f (some c.handlerStart)

namespace Body
variable {body : Body} {starts : List Nat}

theorem Cut.filters (cut : Cut body starts) {c : Clause} (inside : c ∈ body.clauses)
    (filtered : (body.regionOf starts c).filterBlocks ≠ []) : c.Filters body := by
  cases filter : c.filterStart with
  | none => simp [regionOf, filter] at filtered
  | some id =>
    obtain ⟨f, -, begins⟩ := cut.bounds c inside id (by simp [Clause.bounds, filter])
    obtain ⟨h, -, ends⟩ := cut.bounds c inside c.handlerStart (by simp [Clause.bounds])
    simp only [regionOf, filter, begins, ends, Option.getD_some] at filtered
    obtain ⟨k, among⟩ := List.exists_mem_of_ne_nil _ filtered
    obtain ⟨s, -, above, below⟩ := mem_covered.mp among
    exact ⟨id, filter, f, h, begins, ends, by omega⟩

theorem Cut.handles (cut : Cut body starts) {c : Clause} (inside : c ∈ body.clauses)
    (handles : body.Spans c.handlerStart c.handlerEnd) :
    (body.regionOf starts c).handlerBlocks ≠ [] := by
  obtain ⟨h, e, begins, ends, below⟩ := handles
  have handled : (body.regionOf starts c).handlerBlocks = covered starts h e := by
    simp only [regionOf, begins, Option.getD_some, stop_of_stopIndex? ends]
  rw [handled]
  exact cut.covered_ne_nil inside (by simp [Clause.bounds]) begins below

theorem toGraph_handled {g : Graph}
    (handles : ∀ c ∈ body.clauses, c.Filters body → body.Spans c.handlerStart c.handlerEnd)
    (done : body.toGraph = .ok g) : g.Handled := by
  obtain ⟨starts, cut, -, rfl⟩ := toGraph_ok done
  intro r inside filtered
  obtain ⟨c, listed, rfl⟩ := List.mem_map.mp inside
  exact cut.handles listed (handles c listed (cut.filters listed filtered))

end Body

namespace Graph
variable {g g' : Graph} {n : Nat}

theorem lasting_handled : Lasting fun r => r.filterBlocks ≠ [] → r.handlerBlocks ≠ [] where
  inherit _ _ handled filtered :=
    Region.insertAfter_ne_nil.mpr (handled (Region.insertAfter_ne_nil.mp filtered))
  survives survives _ _ := by
    obtain ⟨⟨h, first, stays⟩, -, -⟩ := Region.survives_iff.mp survives
    exact Region.filter_ne_nil first stays
  merge apart together handled filtered := by
    simp only [Region.membership, Prod.mk.injEq] at together
    refine Region.filter_ne_nil_of_together apart together.2.1 (handled fun none => filtered ?_)
    simp [Region.without, Region.mapLists, none]
  whole whole _ := whole.handles

theorem handled_of_remove {removed : List BlockId} (done : g.remove removed = .ok (n, g')) :
    g'.Handled := by
  obtain ⟨-, -, rfl⟩ := remove_ok done
  intro r inside _
  obtain ⟨r, was, rfl⟩ := List.mem_map.mp inside
  obtain ⟨⟨h, first, stays⟩, -, -⟩ := Region.survives_iff.mp (List.mem_filter.mp was).2
  exact Region.filter_ne_nil first stays

theorem Handled.removeDead_again (handled : g.Handled) (l : g.Laid)
    (done : g.removeDead = .ok (n, g')) : g'.removeDead = .ok (0, g') := by
  have laid : g'.Laid := l.removeDead done
  have none : g'.unreachable = [] := (unreachable_eq_nil laid).mpr fun id listed =>
    handled.reached_removeDead l done ((laid.listed id).mp listed)
  rw [removeDead, none]
  rfl

theorem Laid.removeDead_thrice (l : g.Laid) (done : g.removeDead = .ok (n, g')) {m : Nat}
    {last : Graph} (again : g'.removeDead = .ok (m, last)) : last.removeDead = .ok (0, last) := by
  rcases removeDead_cases l done with ⟨-, rfl, none⟩ | ⟨some_, -⟩
  · rw [Graph.removeDead, none] at again
    cases again
    rw [Graph.removeDead, none]
    rfl
  · have handled : g'.Handled := by
      rcases removeDead_ok done with ⟨-, none, -⟩ | ⟨-, done⟩
      · exact absurd none some_
      · exact handled_of_remove done
    exact handled.removeDead_again (l.removeDead done) again

/-- After any edits with any arguments: once dead blocks are removed from a graph in which every
    filter has its handler, none are left, and after two removals none are left at all. Filters
    have their handlers if the clauses of the body are so. Where the graph has been cut anew on the
    way, this needs ids of their own and a counter that has not overflowed. -/
theorem nothing_dead_left {body : Body} (cut : body.toGraph = .ok g) (edits : List Edit) :
    ∃ n g', (g.applyAll edits).removeDead = .ok (n, g') ∧
      ((g.applyAll edits).Handled → g'.removeDead = .ok (0, g')) ∧
      (∃ m last, g'.removeDead = .ok (m, last) ∧ last.removeDead = .ok (0, last)) ∧
      ((∀ c ∈ body.clauses, c.Filters body → body.Spans c.handlerStart c.handlerEnd) →
        (Edit.repartition ∈ edits → body.Numbered ∧ FitsAll g edits) →
        (g.applyAll edits).Handled) := by
  have laid := Body.toGraph_laid cut
  have edited := laid.afterAll edits
  obtain ⟨n, g', done⟩ := edited.exists_removeDead
  obtain ⟨m, last, again⟩ := (edited.removeDead done).exists_removeDead
  refine ⟨n, g', done, fun handled => handled.removeDead_again edited done,
    ⟨m, last, again, edited.removeDead_thrice done again⟩, fun handles recut => ?_⟩
  refine lasting_handled.afterAll laid (Body.toGraph_handled handles cut) fun anew => ?_
  obtain ⟨numbered, fits⟩ := recut anew
  exact ⟨Body.toGraph_arranged numbered cut, fits⟩

/-- A protected jump with a filter and a handler, and a return that nothing reaches. -/
def filteredJump : Body where
  instrs := [⟨0, .leave .long, .target 4, 0⟩, ⟨1, .endfilter, .none, 0⟩,
    ⟨2, .leave .long, .target 4, 0⟩, ⟨3, .ret, .none, 0⟩, ⟨4, .ret, .none, 0⟩]
  clauses := [⟨.filter, 0, some 1, 2, some 3, some 1, none⟩]
  nextId := 5

theorem filteredJump_nothing_dead_left :
    ∃ g n g', filteredJump.toGraph = .ok g ∧
      (∀ c ∈ filteredJump.clauses, c.Filters filteredJump ∧
        filteredJump.Spans c.handlerStart c.handlerEnd) ∧ filteredJump.Numbered ∧
      FitsAll g [.merge, .repartition] ∧
      (g.applyAll [.merge, .repartition]).removeDead = .ok (n, g') ∧
      (g.applyAll [.merge, .repartition]).Handled ∧ g'.removeDead = .ok (0, g') := by
  have numbered : filteredJump.Numbered := ⟨by decide, by decide⟩
  have spans : ∀ c ∈ filteredJump.clauses, c.Filters filteredJump ∧
      filteredJump.Spans c.handlerStart c.handlerEnd := by
    intro c inside
    cases List.mem_singleton.mp inside
    exact ⟨⟨1, rfl, 1, 2, rfl, rfl, by decide⟩, ⟨2, 3, rfl, rfl, by decide⟩⟩
  obtain ⟨g, cut, fits⟩ : ∃ g, filteredJump.toGraph = .ok g ∧
      FitsAll g [.merge, .repartition] := ⟨_, rfl, by decide +kernel⟩
  obtain ⟨n, g', done, again, -, handled⟩ := nothing_dead_left cut [.merge, .repartition]
  have handled := handled (fun c inside _ => (spans c inside).2) fun _ => ⟨numbered, fits⟩
  exact ⟨g, n, g', cut, spans, numbered, fits, done, handled, again handled⟩

def loneFilter : Body where
  instrs := [⟨0, .br .long, .target 2, 0⟩, ⟨1, .endfilter, .none, 0⟩, ⟨2, .ret, .none, 0⟩,
    ⟨3, .ret, .none, 0⟩]
  clauses := [⟨.filter, 0, some 1, 2, some 2, some 1, none⟩]
  nextId := 4

/-- The filter is reached as long as its region is there. The region goes with the return that
    nothing reaches, and the next removal takes the filter. -/
theorem loneFilter_goes_late :
    ∃ g g' last, loneFilter.toGraph = .ok g ∧ g.removeDead = .ok (1, g') ∧
      g'.removeDead = .ok (1, last) ∧ last ≠ g' :=
  ⟨_, _, _, rfl, rfl, rfl, by decide⟩

end Graph
end Unravel
