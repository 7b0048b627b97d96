import Unravel.Proofs.Flow.Recutting

/-!
Restructuring keeps what a graph can do. Regions stay whole through every history of a graph, so at
any time blocks can be split, merged, cut anew, or removed if they are dead, without a change to the
paths of control from the entry.
-/
namespace Unravel

namespace Region
variable {r : Region} {layout : List BlockId}

theorem insertAfter_append_of_nodup {head added : BlockId} {xs ys : List BlockId}
    (nodup : (xs ++ ys).Nodup) :
    insertAfter head added (xs ++ ys) = insertAfter head added xs ++ insertAfter head added ys := by
  rw [insertAfter_append]
  split
  · rename_i inside
    have outside : head ∉ ys := (List.nodup_append'.mp nodup).2.2 inside
    rw [insertAfter_of_not_mem outside]
  · rename_i outside
    rw [insertAfter_of_not_mem outside]

theorem insertAfter_ne_nil {head added : BlockId} {blocks : List BlockId} :
    insertAfter head added blocks ≠ [] ↔ blocks ≠ [] := by
  refine not_congr ?_
  rw [← List.head?_eq_none_iff, head?_insertAfter, List.head?_eq_none_iff]

theorem Whole.inherit (whole : r.Whole layout) (nodup : layout.Nodup) (head added : BlockId) :
    (r.inherit head added).Whole (insertAfter head added layout) where
  tries := insertAfter_ne_nil.mpr whole.tries
  handles := insertAfter_ne_nil.mpr whole.handles
  filters := insertAfter_ne_nil.trans whole.filters
  inFront := by
    have part : insertAfter head added (r.filterBlocks ++ r.handlerBlocks) <:+:
        insertAfter head added layout := insertAfter_infix nodup whole.inFront
    rwa [insertAfter_append_of_nodup (nodup.sublist whole.inFront.sublist)] at part

end Region

namespace Graph
variable {g g' : Graph}

namespace Guarded

theorem splitAt (c : g.Consistent) (guarded : g.Guarded) (id : BlockId) (b : Block) (index : Nat) :
    (g.splitAt id b index).Guarded := by
  intro r listed
  obtain ⟨r, was, rfl⟩ := List.mem_map.mp listed
  exact (guarded r was).inherit c.nodup id g.slots.length

theorem apply (c : g.Consistent) (guarded : g.Guarded) {e : Edit}
    (room : InstrId.Room g.nextInstr (e.idsTaken g)) : (e.apply g).Guarded := by
  have does := e.does c.listed_of_live
  generalize e.apply g = g' at does ⊢
  cases does with
  | idle | allocInstr => exact guarded
  | redirect done =>
    obtain ⟨_, _, -, -, -, rfl⟩ := redirect_ok done
    exact guarded
  | dropTerminator done =>
    obtain ⟨_, -, -, -, rfl⟩ := dropTerminator_ok done
    exact guarded
  | split => exact guarded.splitAt c _ _ _
  | remove done | removeDead done => exact guarded.remove done
  | merge => exact guarded.mergeUpTo g.layout.length
  | repartition done => exact guarded.repartition c room done
  | inline round ctx => exact guarded.inline round ctx
  | fold round ctx => exact guarded.fold round ctx

theorem applyAll (c : g.Consistent) (guarded : g.Guarded) {edits : List Edit}
    (allowed : AllowedAll g edits) (fits : FitsAll g edits) : (g.applyAll edits).Guarded := by
  have both : (g.applyAll edits).Consistent ∧ (g.applyAll edits).Guarded :=
    applyAll_keeps_fitting (P := fun g => g.Consistent ∧ g.Guarded) ⟨c, guarded⟩ allowed fits
      fun _ allowed room held => ⟨held.1.apply allowed room, held.2.apply held.1 room⟩
  exact both.2

end Guarded

/-- A graph and what it becomes when its blocks are arranged anew without an overflow of the id
    counter. -/
inductive Restructures (g : Graph) : Graph → Prop where
  | split (id : BlockId) (index : Nat) : Restructures g (g.split id index).1
  | merge : Restructures g g.merge.2
  | removeDead {n : Nat} {g' : Graph} (done : g.removeDead = .ok (n, g')) : Restructures g g'
  | repartition {g' : Graph} (room : g.RoomToWrite) (done : g.repartition = .ok g') :
      Restructures g g'

theorem Restructures.trail (c : g.Consistent) (guarded : g.Guarded) (complete : g.Complete)
    (arranged : Restructures g g') (shown : List Sign) :
    g.control.Trail (g.entry, 0) shown ↔ g'.control.Trail (g'.entry, 0) shown := by
  cases arranged with
  | split id index => exact trail_split c id index shown
  | merge => exact trail_mergeUpTo c g.layout.length shown
  | removeDead done => exact trail_removeDead c guarded done shown
  | repartition room done => exact trail_repartition c guarded complete room done shown

/-- At any time in the history of a graph that was cut from a sound body, arranging its blocks anew
    keeps the paths of control from the entry. -/
theorem paths_kept {body : Body} (numbered : body.Numbered) (closed : body.Closed)
    (proper : ∀ clause ∈ body.clauses, clause.Proper body) (cut : body.toGraph = .ok g)
    {edits : List Edit} (allowed : AllowedAll g edits) (fits : FitsAll g edits)
    (arranged : Restructures (g.applyAll edits) g') (shown : List Sign) :
    (g.applyAll edits).control.Trail ((g.applyAll edits).entry, 0) shown ↔
      g'.control.Trail (g'.entry, 0) shown := by
  have c := Body.toGraph_consistent numbered cut
  have guarded := Body.toGraph_guarded proper cut
  have complete := Body.toGraph_complete closed cut
  exact arranged.trail (c.applyAll allowed fits) (guarded.applyAll c allowed fits)
    (complete.applyAll c allowed fits) shown

theorem guardedTest_paths_kept :
    ∃ g g', guardedTest.toGraph = .ok g ∧ guardedTest.Numbered ∧ guardedTest.Closed ∧
      (∀ clause ∈ guardedTest.clauses, clause.Proper guardedTest) ∧
      AllowedAll g [.dropTerminator 0, .merge] ∧ FitsAll g [.dropTerminator 0, .merge] ∧
      (g.applyAll [.dropTerminator 0, .merge]).RoomToWrite ∧
      (g.applyAll [.dropTerminator 0, .merge]).repartition = .ok g' ∧
      ∀ shown, (g.applyAll [.dropTerminator 0, .merge]).control.Trail
          ((g.applyAll [.dropTerminator 0, .merge]).entry, 0) shown ↔
        g'.control.Trail (g'.entry, 0) shown := by
  have numbered : guardedTest.Numbered := ⟨by decide, by decide⟩
  have closed : guardedTest.Closed := by
    refine ⟨?_, ?_, ?_⟩ <;> simp [guardedTest, Instr.flow, Opcode.flow, Flow.fallsThrough]
  have proper : ∀ clause ∈ guardedTest.clauses, clause.Proper guardedTest := by
    intro clause inside
    rw [List.mem_singleton.mp inside]
    refine ⟨⟨0, 3, rfl, rfl, by decide⟩, ⟨3, 5, rfl, rfl, by decide⟩, rfl, ?_⟩
    rintro f ⟨⟩
  have allowed : ∀ g, guardedTest.toGraph = .ok g →
      AllowedAll g [.dropTerminator 0, .merge] := by
    rintro g ⟨⟩
    refine ⟨?_, trivial, trivial⟩
    rintro b ⟨⟩
    exact .inl rfl
  have room : InstrId.Room 6 0 := fun none => absurd rfl none
  refine ⟨_, _, rfl, numbered, closed, proper, allowed _ rfl, by decide, room, rfl, ?_⟩
  exact paths_kept numbered closed proper rfl (allowed _ rfl) (by decide) (.repartition room rfl)

end Graph
end Unravel
