import Unravel.Graph.Merge
import Unravel.Graph.Reach

namespace Unravel

theorem bind_ok_iff {ε α β : Type} {x : Except ε α} {f : α → Except ε β} {b : β} :
    (x >>= f) = .ok b ↔ ∃ a, x = .ok a ∧ f a = .ok b := by
  cases x <;> simp [bind, Except.bind]

theorem map_ok_iff {ε α β : Type} {x : Except ε α} {f : α → β} {b : β} :
    x.map f = .ok b ↔ ∃ a, x = .ok a ∧ f a = b := by
  cases x <;> simp [Except.map]

theorem ofExcept_bind {σ α β : Type} (x : Except Error α) (k : α → EStateM Error σ β) (s : σ) :
    (ofExcept x >>= k).run s = match x with
      | .ok a => (k a).run s
      | .error cause => .error cause s := by
  cases x <;> rfl

namespace Graph
variable {g g' : Graph} {id target : BlockId}

theorem seek_ok {b : Block} (found : g.seek id = .ok b) : g.block? id = some b := by
  unfold seek at found
  split at found
  · cases found
    assumption
  · cases found

theorem modify_same {b : Block} {f : Block → Block} (live : g.block? id = some b)
    (same : f b = b) : g.modify id f = g := by
  have slots : g.slots.modify id (Option.map f) = g.slots := by
    refine List.ext_getElem? fun k => ?_
    rw [List.getElem?_modify]
    split
    · rename_i here
      subst here
      simp [block?_eq_some.mp live, same]
    · simp
  rw [modify, slots]

theorem redirect_ok (done : g.redirect id target = .ok g') :
    ∃ destination block, g.block? target = some destination ∧ g.block? id = some block ∧
      block.terminator? ≠ none ∧
      g' = g.modify id fun b =>
        { b.setLast (jumpInstr destination.firstId?) with targets := [target], fall := none } := by
  unfold redirect at done
  cases goal : g.block? target with
  | none => simp [goal, throw, throwThe, MonadExceptOf.throw] at done
  | some destination =>
    rw [goal] at done
    obtain ⟨block, found, done⟩ := bind_ok_iff.mp done
    split at done
    · cases done
    · rename_i ends
      cases done
      exact ⟨destination, block, rfl, seek_ok found, by simpa using ends, rfl⟩

theorem dropTerminator_ok (done : g.dropTerminator id = .ok g') :
    ∃ block, g.block? id = some block ∧ block.fall ≠ none ∧ block.terminator? ≠ none ∧
      g' = g.modify id fun b => { b.setLast Instr.erase with targets := [] } := by
  obtain ⟨block, found, done⟩ := bind_ok_iff.mp done
  simp only [bind, Except.bind] at done
  split at done
  · cases done
  · rename_i falls
    split at done
    · cases done
    · rename_i ends
      cases done
      exact ⟨block, seek_ok found, by simpa using falls, by simpa using ends, rfl⟩

theorem exists_redirect_iff {b : Block} (live : g.block? id = some b)
    (ends : b.terminator? ≠ none) :
    (∃ g', g.redirect id target = .ok g') ↔ g.contains target = true := by
  constructor
  · rintro ⟨g', done⟩
    obtain ⟨destination, -, goal, -⟩ := redirect_ok done
    rw [contains, goal]
    rfl
  · intro there
    obtain ⟨destination, goal⟩ := Option.isSome_iff_exists.mp there
    have open_ : b.terminator?.isNone = false := by simpa [Option.isSome_iff_ne_none] using ends
    simp only [redirect, goal, seek, live, bind, Except.bind, open_]
    exact ⟨_, rfl⟩

theorem exists_dropTerminator_iff {b : Block} (live : g.block? id = some b)
    (ends : b.terminator? ≠ none) : (∃ g', g.dropTerminator id = .ok g') ↔ b.fall ≠ none := by
  constructor
  · rintro ⟨g', done⟩
    obtain ⟨block, found, falls, -⟩ := dropTerminator_ok done
    cases live.symm.trans found
    exact falls
  · intro falls
    have onward : b.fall.isNone = false := by simpa [Option.isSome_iff_ne_none] using falls
    have open_ : b.terminator?.isNone = false := by simpa [Option.isSome_iff_ne_none] using ends
    simp only [dropTerminator, seek, live, bind, Except.bind, onward, open_]
    exact ⟨_, rfl⟩

theorem block?_eq_none_of_le (beyond : g.slots.length ≤ id) : g.block? id = none := by
  rw [block?, List.getElem?_eq_none beyond]
  rfl

def splitAt (g : Graph) (id : BlockId) (b : Block) (index : Nat) : Graph :=
  { g with
    slots := (g.modify id fun b => headOf b index g.slots.length).slots ++
      [some (tailOf b index g.slots.length)]
    layout := Region.insertAfter id g.slots.length g.layout
    regions := g.regions.map fun r => r.inherit id g.slots.length }

theorem split_cases (g : Graph) (id : BlockId) (index : Nat)
    (listed : ∀ b, g.block? id = some b → id ∈ g.layout) :
    (g.split id index).1 = g ∨
      ∃ b, g.block? id = some b ∧ 0 < index ∧ index < b.instrs.length ∧
        (g.split id index).1 = g.splitAt id b index := by
  unfold split
  cases live : g.block? id with
  | none => exact .inl rfl
  | some b =>
    dsimp only
    split
    · exact .inl rfl
    · rename_i inside
      refine .inr ⟨b, rfl, by omega, by omega, ?_⟩
      rw [if_pos (by simpa using listed b live)]
      rfl

theorem block?_splitAt (b : Block) (index : Nat) (live : g.block? id = some b) (other : Nat) :
    (g.splitAt id b index).block? other =
      if other = g.slots.length then some (tailOf b index g.slots.length)
      else if other = id then some (headOf b index g.slots.length)
      else g.block? other := by
  have size : (g.modify id fun b => headOf b index g.slots.length).slots.length =
      g.slots.length := by simp [modify]
  have front := g.block?_modify id other fun b => headOf b index g.slots.length
  unfold block? splitAt at *
  dsimp only
  split
  · rename_i new
    rw [List.getElem?_append_right (by omega), size, new]
    simp
  · rename_i old
    by_cases below : other < g.slots.length
    · rw [List.getElem?_append_left (by omega), front]
      split
      · rename_i same
        subst same
        rw [if_pos rfl, live]
        rfl
      · rename_i away
        rw [if_neg (fun same => away same.symm)]
    · rw [List.getElem?_eq_none (by simp [modify]; omega), if_neg]
      · rw [List.getElem?_eq_none (by omega)]
      · rintro rfl
        rw [List.getElem?_eq_none (by omega)] at live
        cases live

theorem remove_ok {removed : List BlockId} {n : Nat} (done : g.remove removed = .ok (n, g')) :
    g.entry ∉ removed ∧ g.danglingEdge? removed = none ∧
      g' = { g with
        slots := g.slots.mapIdx fun id slot =>
          if removed.contains id then none else slot.map (pruneEdges removed)
        layout := g.layout.filter fun id => !removed.contains id
        regions := (g.regions.filter fun r => r.survives removed).map fun r =>
          r.without removed } := by
  unfold remove at done
  simp only [bind, Except.bind, pure, Except.pure, throw, throwThe, MonadExceptOf.throw] at done
  split at done
  · cases done
  · rename_i kept
    split at done
    · cases done
    · rename_i closed
      cases done
      refine ⟨by simpa using kept, ?_, rfl⟩
      exact Option.eq_none_iff_forall_ne_some.mpr fun edge found => closed edge.1 edge.2 found

theorem removeDead_ok {n : Nat} (done : g.removeDead = .ok (n, g')) :
    (g.unreachable = [] ∧ n = 0 ∧ g' = g) ∨
      g.unreachable ≠ [] ∧ g.remove g.unreachable = .ok (n, g') := by
  unfold removeDead at done
  split at done
  · rename_i none
    cases done
    exact .inl ⟨List.isEmpty_iff.mp none, rfl, rfl⟩
  · rename_i dead
    exact .inr ⟨mt List.isEmpty_iff.mpr dead, done⟩

theorem exists_remove {removed : List BlockId} (stays : g.entry ∉ removed)
    (clean : g.danglingEdge? removed = none) : ∃ n g', g.remove removed = .ok (n, g') := by
  simp only [remove, bind, Except.bind, pure, Except.pure, List.contains_iff_mem, stays, clean,
    if_false]
  exact ⟨_, _, rfl⟩

theorem block?_remove {removed : List BlockId} {n : Nat} (done : g.remove removed = .ok (n, g'))
    (other : BlockId) :
    g'.block? other =
      if other ∈ removed then none else (g.block? other).map (pruneEdges removed) := by
  obtain ⟨-, -, rfl⟩ := remove_ok done
  simp only [block?, List.getElem?_mapIdx, List.contains_iff_mem]
  cases g.slots[other]? with
  | none => split <;> rfl
  | some slot => cases slot <;> by_cases gone : other ∈ removed <;> simp [gone]

theorem not_removed_of_successor {removed : List BlockId} (clean : g.danglingEdge? removed = none)
    {b : Block} (listed : b ∈ g.blocks) (stays : b.id ∉ removed) {s : BlockId}
    (leads : s ∈ b.successors) : s ∉ removed := by
  intro gone
  simp only [danglingEdge?, List.findSome?_eq_none_iff, Option.map_eq_none_iff,
    List.find?_eq_none] at clean
  have kept : b ∈ g.blocks.filter fun b => !removed.contains b.id :=
    List.mem_filter.mpr ⟨listed, by simpa using stays⟩
  exact clean b kept s leads (by simpa using gone)

/-- All that makes two blocks one: the second is not entered otherwise. -/
structure Joinable (g : Graph) (pred id : BlockId) (first second : Block) : Prop where
  before : g.block? pred = some first
  behind : g.block? id = some second
  notEntry : id ≠ g.entry
  notHandler : g.isRegionEntry id = false
  only : g.predecessors id = [pred]
  chained : chains first id = true
  apart : pred ≠ id
  together : g.sameRegions pred id = true

theorem mergeOnce?_some (done : g.mergeOnce? = some g') :
    ∃ pred id first second, Joinable g pred id first second ∧
      g' = (g.drop id).modify pred fun b => join b second := by
  obtain ⟨⟨pred, id⟩, found, done⟩ := Option.bind_eq_some_iff.mp done
  obtain ⟨second, behind, done⟩ := Option.bind_eq_some_iff.mp done
  cases done
  obtain ⟨other, -, found⟩ := List.exists_of_findSome?_eq_some found
  obtain ⟨pred, into, same⟩ := Option.map_eq_some_iff.mp found
  cases same
  unfold mergeInto? at into
  split at into
  · cases into
  · rename_i enters
    split at into
    · rename_i only
      split at into
      · rename_i first before
        split at into
        · rename_i fits
          cases into
          simp only [Bool.or_eq_true, decide_eq_true_eq, not_or, Bool.not_eq_true] at enters
          simp only [Bool.and_eq_true, bne_iff_ne] at fits
          exact ⟨_, _, first, second, ⟨before, behind, enters.1, enters.2, only, fits.1.1,
            fits.1.2, fits.2⟩, rfl⟩
        · cases into
      · cases into
    · cases into

theorem block?_drop (g : Graph) (id other : BlockId) :
    (g.drop id).block? other = if other = id then none else g.block? other := by
  simp only [block?, drop, List.getElem?_set]
  split
  · rename_i same
    subst same
    rw [if_pos rfl]
    split <;> rfl
  · rename_i away
    rw [if_neg fun same => away same.symm]

theorem block?_joined {pred : BlockId} {first second : Block}
    (joinable : Joinable g pred id first second) (other : BlockId) :
    ((g.drop id).modify pred fun b => join b second).block? other =
      if other = id then none
      else if other = pred then some (join first second)
      else g.block? other := by
  rw [block?_modify, block?_drop]
  by_cases gone : other = id
  · rw [if_pos gone, if_pos gone]
    split <;> rfl
  · rw [if_neg gone, if_neg gone]
    split
    · rename_i same
      rw [if_pos same.symm, ← same, joinable.before]
      rfl
    · rename_i away
      rw [if_neg fun same => away same.symm]

end Graph
end Unravel
