import Unravel.Proofs.Graph.Restructure

namespace Unravel
variable {w : Instr → Nat}

def weigh (w : Instr → Nat) (code : List Instr) : Nat := (code.map w).sum

@[simp] theorem weigh_nil (w : Instr → Nat) : weigh w [] = 0 := rfl

@[simp] theorem weigh_cons (w : Instr → Nat) (i : Instr) (code : List Instr) :
    weigh w (i :: code) = w i + weigh w code := by
  rw [weigh, List.map_cons, List.sum_cons]
  rfl

@[simp] theorem weigh_append (w : Instr → Nat) (first second : List Instr) :
    weigh w (first ++ second) = weigh w first + weigh w second := by
  rw [weigh, List.map_append, List.sum_append]
  rfl

theorem weigh_congr {w' : Instr → Nat} {code : List Instr} (same : ∀ i ∈ code, w i = w' i) :
    weigh w code = weigh w' code :=
  congrArg List.sum (List.map_congr_left same)

theorem weigh_mapIdx_le {f : Nat → Instr → Instr} (lighter : ∀ n i, w (f n i) ≤ w i)
    (code : List Instr) : weigh w (code.mapIdx f) ≤ weigh w code := by
  induction code generalizing f with
  | nil => exact Nat.le_refl 0
  | cons i rest ih =>
    rw [List.mapIdx_cons, weigh_cons, weigh_cons]
    exact Nat.add_le_add (lighter 0 i) (ih fun n => lighter (n + 1))

theorem weigh_mapIdx_lt {f : Nat → Instr → Instr} (lighter : ∀ n i, w (f n i) ≤ w i)
    {code : List Instr} {k : Nat} {i : Instr} (here : code[k]? = some i) (less : w (f k i) < w i) :
    weigh w (code.mapIdx f) < weigh w code := by
  induction code generalizing f k with
  | nil => cases here
  | cons j rest ih =>
    rw [List.mapIdx_cons, weigh_cons, weigh_cons]
    cases k with
    | zero =>
      cases here
      exact Nat.add_lt_add_of_lt_of_le less (weigh_mapIdx_le (fun n => lighter (n + 1)) rest)
    | succ k =>
      exact Nat.add_lt_add_of_le_of_lt (lighter 0 j) (ih (fun n => lighter (n + 1)) here less)

namespace Graph
variable {g g' : Graph} {id : BlockId} {b : Block}

def weightAt (w : Instr → Nat) (g : Graph) (id : BlockId) : Nat :=
  ((g.block? id).map fun b => weigh w b.instrs).getD 0

def weight (w : Instr → Nat) (g : Graph) : Nat := (g.layout.map (g.weightAt w)).sum

theorem weightAt_of_live (live : g.block? id = some b) : g.weightAt w id = weigh w b.instrs := by
  rw [weightAt, live]
  rfl

theorem sum_exchange {ids : List BlockId} (nodup : ids.Nodup) {x : BlockId} (inside : x ∈ ids)
    {f f' : BlockId → Nat} (same : ∀ y ∈ ids, y ≠ x → f' y = f y) :
    (ids.map f').sum + f x = (ids.map f).sum + f' x := by
  have rest : (ids.erase x).map f' = (ids.erase x).map f := by
    refine List.map_congr_left fun y among => ?_
    obtain ⟨away, among⟩ := nodup.mem_erase_iff.mp among
    exact same y among away
  rw [← List.sum_map_erase f' inside, ← List.sum_map_erase f inside, rest]
  omega

theorem weight_exchange (l : g.Laid) (live : g.block? id = some b) {b' : Block}
    (layout : g'.layout = g.layout)
    (blocks : ∀ other, g'.block? other = if id = other then some b' else g.block? other) :
    g'.weight w + weigh w b.instrs = g.weight w + weigh w b'.instrs := by
  have there : g'.block? id = some b' := by rw [blocks, if_pos rfl]
  rw [← weightAt_of_live live, ← weightAt_of_live there, weight, layout, weight]
  refine sum_exchange l.nodup (l.listed_of_live live) fun y _ away => ?_
  rw [weightAt, weightAt, blocks, if_neg fun same => away same.symm]

theorem weight_remove {removed : List BlockId} {n : Nat} (done : g.remove removed = .ok (n, g')) :
    g'.weight w ≤ g.weight w := by
  have layout : g'.layout = g.layout.filter fun id => !removed.contains id := by
    obtain ⟨-, -, rfl⟩ := remove_ok done
    rfl
  have same : g'.layout.map (g'.weightAt w) = g'.layout.map (g.weightAt w) := by
    refine List.map_congr_left fun id inside => ?_
    rw [layout, List.mem_filter] at inside
    have stays : id ∉ removed := by simpa using inside.2
    rw [weightAt, weightAt, block?_remove done, if_neg stays, Option.map_map]
    rfl
  rw [weight, same, layout, weight]
  exact (List.filter_sublist.map _).sum_le_sum fun _ _ => Nat.zero_le _

theorem Laid.perm (l : g.Laid) :
    ((g.slots.zipIdx.filter fun slot => slot.1.isSome).map Prod.snd).Perm g.layout := by
  have nodup : (g.slots.zipIdx.map Prod.snd).Nodup := by
    rw [List.zipIdx_map_snd]
    exact List.nodup_range'
  refine (List.perm_ext_iff_of_nodup (nodup.sublist (List.filter_sublist.map _)) l.nodup).mpr ?_
  intro id
  rw [l.listed, contains_iff]
  simp only [List.mem_map, List.mem_filter, Prod.exists, exists_eq_right,
    List.mk_mem_zipIdx_iff_getElem?, Option.isSome_iff_exists, block?_eq_some]
  constructor
  · rintro ⟨slot, there, b, rfl⟩
    exact ⟨b, there⟩
  · rintro ⟨b, there⟩
    exact ⟨some b, there, b, rfl⟩

theorem count_remove (l : g.Laid) {removed : List BlockId} {n : Nat}
    (done : g.remove removed = .ok (n, g')) : n = (g.layout.filter removed.contains).length := by
  unfold remove at done
  simp only [bind, Except.bind, pure, Except.pure, throw, throwThe, MonadExceptOf.throw] at done
  split at done
  · cases done
  · split at done
    · cases done
    · cases done
      rw [← List.countP_eq_length_filter, ← l.perm.countP_eq, List.countP_map, List.countP_filter]
      exact List.countP_congr fun slot _ => by simp [and_comm]

theorem length_remove (l : g.Laid) {removed : List BlockId} {n : Nat}
    (done : g.remove removed = .ok (n, g')) : g'.layout.length + n = g.layout.length := by
  have layout : g'.layout = g.layout.filter fun id => !removed.contains id := by
    obtain ⟨-, -, rfl⟩ := remove_ok done
    rfl
  have parts := List.length_eq_length_filter_add (l := g.layout) removed.contains
  rw [count_remove l done, layout]
  omega

theorem weigh_join (first second : Block) :
    weigh w (join first second).instrs ≤ weigh w first.instrs + weigh w second.instrs := by
  have code : (openCode first).Sublist first.instrs := by
    unfold openCode
    split
    · exact List.dropLast_sublist _
    · exact List.Sublist.refl _
  have less : weigh w (openCode first) ≤ weigh w first.instrs :=
    (code.map w).sum_le_sum fun _ _ => Nat.zero_le _
  rw [join, weigh_append]
  omega

theorem weight_joined (l : g.Laid) {pred : BlockId} {first second : Block}
    (j : Joinable g pred id first second) :
    ((g.drop id).modify pred fun b => join b second).weight w ≤ g.weight w := by
  set joint := (g.drop id).modify pred fun b => join b second with made
  have layout : joint.layout = g.layout.erase id := (l.nodup.erase_eq_filter id).symm
  have listed : id ∈ g.layout := l.listed_of_live j.behind
  have nodup : (g.layout.erase id).Nodup := l.nodup.erase id
  have inside : pred ∈ g.layout.erase id :=
    l.nodup.mem_erase_iff.mpr ⟨j.apart, l.listed_of_live j.before⟩
  have there : joint.block? pred = some (join first second) := by
    rw [block?_joined j, if_neg j.apart, if_pos rfl]
  have moved : (joint.layout.map (joint.weightAt w)).sum + g.weightAt w pred =
      ((g.layout.erase id).map (g.weightAt w)).sum + joint.weightAt w pred := by
    rw [layout]
    refine sum_exchange nodup inside fun y among away => ?_
    obtain ⟨other, -⟩ := l.nodup.mem_erase_iff.mp among
    rw [weightAt, weightAt, block?_joined j, if_neg other, if_neg away]
  have whole := List.sum_map_erase (g.weightAt w) listed
  have joined := weigh_join (w := w) first second
  rw [weightAt_of_live there, weightAt_of_live j.before] at moved
  rw [weightAt_of_live j.behind] at whole
  rw [weight, weight, ← whole]
  omega

theorem length_joined (l : g.Laid) {pred : BlockId} {first second : Block}
    (j : Joinable g pred id first second) :
    ((g.drop id).modify pred fun b => join b second).layout.length + 1 = g.layout.length := by
  change (g.layout.filter fun b => b != id).length + 1 = _
  rw [← l.nodup.erase_eq_filter]
  exact List.length_erase_add_one (l.listed_of_live j.behind)

theorem removeDead_cases (l : g.Laid) {n : Nat} (done : g.removeDead = .ok (n, g')) :
    (n = 0 ∧ g' = g ∧ g.unreachable = []) ∨ (n ≠ 0 ∧ g'.layout.length < g.layout.length) := by
  rcases removeDead_ok done with ⟨none, zero, same⟩ | ⟨some_, done⟩
  · exact .inl ⟨zero, same, none⟩
  · obtain ⟨id, dead⟩ := List.exists_mem_of_ne_nil _ some_
    have gone : id ∈ g.layout.filter g.unreachable.contains :=
      List.mem_filter.mpr ⟨(List.mem_filter.mp dead).1, by simpa using dead⟩
    have counted : n ≠ 0 := by
      rw [count_remove l done]
      exact (List.length_pos_of_mem gone).ne'
    have fewer := length_remove l done
    exact .inr ⟨counted, by omega⟩

theorem length_removeDead (l : g.Laid) {n : Nat} (done : g.removeDead = .ok (n, g')) :
    g'.layout.length + n = g.layout.length := by
  rcases removeDead_ok done with ⟨-, rfl, rfl⟩ | ⟨-, done⟩
  · rfl
  · exact length_remove l done

theorem weight_removeDead {n : Nat} (done : g.removeDead = .ok (n, g')) :
    g'.weight w ≤ g.weight w := by
  rcases removeDead_ok done with ⟨-, -, rfl⟩ | ⟨-, done⟩
  · exact Nat.le_refl _
  · exact weight_remove done

theorem weight_merge (l : g.Laid) : g.merge.2.weight w ≤ g.weight w := by
  refine (mergeUpTo_keeps (P := fun h => h.Laid ∧ h.weight w ≤ g.weight w) ?_ g.layout.length
    ⟨l, Nat.le_refl _⟩).2
  rintro h pred id first second ⟨laid, less⟩ j
  exact ⟨laid.joined j, (weight_joined laid j).trans less⟩

theorem length_mergeUpTo (l : g.Laid) (n : Nat) :
    (g.mergeUpTo n).2.layout.length + (g.mergeUpTo n).1 = g.layout.length := by
  induction n generalizing g with
  | zero => rfl
  | succ n ih =>
    rw [mergeUpTo]
    split
    · rfl
    · rename_i next merged
      obtain ⟨pred, id, first, second, j, rfl⟩ := mergeOnce?_some merged
      have fewer := length_joined l j
      have rest := ih (l.joined j)
      dsimp only
      omega

theorem length_merge (l : g.Laid) : g.merge.2.layout.length + g.merge.1 = g.layout.length :=
  length_mergeUpTo l g.layout.length

theorem merge_of_none (none : g.mergeOnce? = none) : g.merge = (0, g) := by
  unfold merge
  cases g.layout.length with
  | zero => rfl
  | succ n => rw [mergeUpTo, none]

theorem merge_idle (l : g.Laid) (idle : g.merge.1 = 0) : g.mergeOnce? = none := by
  obtain ⟨rest, layout⟩ := List.head?_eq_some_iff.mp l.entryFirst
  rw [merge, layout, List.length_cons, mergeUpTo] at idle
  cases merged : g.mergeOnce? with
  | none => rfl
  | some next => simp [merged] at idle

end Graph
end Unravel
