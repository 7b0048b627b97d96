import Unravel.Proofs.Graph.Invariant

namespace Unravel
namespace Region

theorem mem_insertAfter {head added x : BlockId} {blocks : List BlockId} (inside : head ∈ blocks) :
    x ∈ insertAfter head added blocks ↔ x = added ∨ x ∈ blocks := by
  induction blocks with
  | nil => cases inside
  | cons b rest ih =>
    rw [insertAfter]
    split
    · simp only [List.mem_cons]
      exact or_left_comm
    · rename_i away
      have later : head ∈ rest := by
        rcases List.mem_cons.mp inside with same | later
        · exact absurd same.symm away
        · exact later
      simp only [List.mem_cons, ih later]
      exact or_left_comm

theorem insertAfter_of_not_mem {head added : BlockId} {blocks : List BlockId}
    (outside : head ∉ blocks) : insertAfter head added blocks = blocks := by
  induction blocks with
  | nil => rfl
  | cons b rest ih =>
    rw [List.mem_cons, not_or] at outside
    rw [insertAfter, if_neg fun same => outside.1 same.symm, ih outside.2]

theorem insertAfter_append {head added : BlockId} (xs ys : List BlockId) :
    insertAfter head added (xs ++ ys) =
      if head ∈ xs then insertAfter head added xs ++ ys
      else xs ++ insertAfter head added ys := by
  induction xs with
  | nil => simp
  | cons b rest ih =>
    rw [List.cons_append, insertAfter, insertAfter, ih]
    by_cases same : b = head
    · simp [same]
    · have away : head ≠ b := fun equal => same equal.symm
      by_cases inside : head ∈ rest <;> simp [same, away, inside]

theorem nodup_insertAfter {head added : BlockId} {blocks : List BlockId} (nodup : blocks.Nodup)
    (new : added ∉ blocks) : (insertAfter head added blocks).Nodup := by
  induction blocks with
  | nil => exact nodup
  | cons b rest ih =>
    rw [List.nodup_cons] at nodup
    rw [List.mem_cons, not_or] at new
    rw [insertAfter]
    split
    · simp only [List.nodup_cons, List.mem_cons, not_or]
      exact ⟨⟨fun same => new.1 same.symm, nodup.1⟩, new.2, nodup.2⟩
    · rename_i away
      rw [List.nodup_cons]
      refine ⟨?_, ih nodup.2 new.2⟩
      by_cases inside : head ∈ rest
      · rw [mem_insertAfter inside, not_or]
        exact ⟨fun same => new.1 same.symm, nodup.1⟩
      · rw [insertAfter_of_not_mem inside]
        exact nodup.1

theorem head?_insertAfter (head added : BlockId) (blocks : List BlockId) :
    (insertAfter head added blocks).head? = blocks.head? := by
  cases blocks with
  | nil => rfl
  | cons b rest =>
    rw [insertAfter]
    split <;> rfl

theorem insertAfter_infix {head added : BlockId} {blocks layout : List BlockId}
    (nodup : layout.Nodup) (part : blocks <:+: layout) :
    insertAfter head added blocks <:+: insertAfter head added layout := by
  obtain ⟨before, behind, rfl⟩ := part
  rw [List.append_assoc, insertAfter_append]
  by_cases early : head ∈ before
  · have outside : head ∉ blocks := by
      intro inside
      rw [List.append_assoc, List.nodup_append'] at nodup
      exact nodup.2.2 early (List.mem_append_left behind inside)
    rw [if_pos early, insertAfter_of_not_mem outside]
    exact ⟨insertAfter head added before, behind, by simp⟩
  · rw [if_neg early, insertAfter_append]
    split
    · exact ⟨before, behind, by simp⟩
    · rename_i outside
      rw [insertAfter_of_not_mem outside]
      exact ⟨before, insertAfter head added behind, by simp⟩

end Region

namespace Graph
variable {g g' : Graph} {id : BlockId} {b : Block}

theorem mapLists_infix {f : List BlockId → List BlockId} {layout : List BlockId} {r : Region}
    (parts : ∀ blocks ∈ r.lists, blocks <:+: layout)
    (keeps : ∀ {blocks}, blocks <:+: layout → f blocks <:+: f layout) :
    ∀ blocks ∈ (r.mapLists f).lists, blocks <:+: f layout := by
  intro blocks inside
  simp only [Region.lists, Region.mapLists, List.mem_cons, List.not_mem_nil, or_false] at inside
  rcases inside with rfl | rfl | rfl
  · exact keeps (parts _ (by simp [Region.lists]))
  · exact keeps (parts _ (by simp [Region.lists]))
  · exact keeps (parts _ (by simp [Region.lists]))

theorem head?_filter {layout : List BlockId} {entry : BlockId} {p : BlockId → Bool}
    (first : layout.head? = some entry) (stays : p entry = true) :
    (layout.filter p).head? = some entry := by
  cases layout with
  | nil => cases first
  | cons head rest =>
    rw [List.head?_cons, Option.some.injEq] at first
    subst first
    rw [List.filter_cons_of_pos stays, List.head?_cons]

theorem mem_take_dropLast {index : Nat} {code : List Instr} (inside : index < code.length)
    {i : Instr} (early : i ∈ code.take index) : i ∈ code.dropLast := by
  rw [List.dropLast_eq_take]
  exact (List.take_prefix_take_left (by omega)).subset early

theorem kind_headOf {index : Nat} {tail : BlockId} (straight : b.Straight) (cut : 0 < index)
    (inside : index < b.instrs.length) : (headOf b index tail).kind = .fallThrough := by
  have filled : (headOf b index tail).instrs ≠ [] := by
    intro empty
    rw [headOf, List.take_eq_nil_iff] at empty
    rcases empty with none | none
    · omega
    · simp [none] at inside
  obtain ⟨front, last, code⟩ := Block.exists_last filled
  have early : last ∈ b.instrs.take index := by
    have code : b.instrs.take index = front ++ [last] := code
    simp [code]
  have plain := straight last (mem_take_dropLast inside early)
  rw [Block.kind_eq code, Instr.kind_of_plain plain]

theorem kind_tailOf {index : Nat} {tail : BlockId} (inside : index < b.instrs.length) :
    (tailOf b index tail).kind = b.kind := by
  simp only [Block.kind, tailOf, List.getLast?_drop, if_neg (Nat.not_le.mpr inside)]

theorem successors_tailOf {index : Nat} {tail : BlockId} (inside : index < b.instrs.length) :
    (tailOf b index tail).successors = b.successors := by
  simp only [Block.successors, kind_tailOf inside]
  rfl

theorem head?_pruneEdges {removed : List BlockId} (clean : ∀ s ∈ b.successors, s ∉ removed)
    (jumps : b.kind = .branch ∨ b.kind = .leave ∨ b.kind = .conditional) :
    (pruneEdges removed b).targets.head? = b.targets.head? := by
  cases targets : b.targets with
  | nil => simp [pruneEdges, targets]
  | cons first rest =>
    have leads : first ∈ b.successors := by
      rcases jumps with kind | kind | kind <;> simp [Block.successors, kind, targets]
    simp [pruneEdges, targets, clean first leads]

theorem fall_pruneEdges {removed : List BlockId} (clean : ∀ s ∈ b.successors, s ∉ removed)
    (open_ : b.kind = .fallThrough ∨ b.kind = .conditional ∨ b.kind = .switch) :
    (pruneEdges removed b).fall = b.fall := by
  cases falls : b.fall with
  | none => simp [pruneEdges, falls]
  | some f => simp [pruneEdges, falls, clean f (Block.fall_mem_successors falls open_)]

theorem targets_pruneEdges {removed : List BlockId} (clean : ∀ s ∈ b.successors, s ∉ removed)
    (switches : b.kind = .switch) : (pruneEdges removed b).targets = b.targets := by
  refine List.filter_eq_self.mpr fun t listed => ?_
  have leads : t ∈ b.successors := by simp [Block.successors, switches, listed]
  simpa using clean t leads

theorem edges_pruneEdges {removed : List BlockId} (clean : ∀ s ∈ b.successors, s ∉ removed) :
    (pruneEdges removed b).edges = b.edges := by
  have kind : (pruneEdges removed b).kind = b.kind := rfl
  have id : (pruneEdges removed b).id = b.id := rfl
  have head := head?_pruneEdges clean
  have fall := fall_pruneEdges clean
  simp only [Block.edges, kind, id]
  cases shape : b.kind with
  | fallThrough => rw [fall (.inl shape)]
  | branch => rw [head (.inl shape)]
  | leave => rw [head (.inr (.inl shape))]
  | conditional => rw [head (.inr (.inr shape)), fall (.inr (.inl shape))]
  | switch => rw [fall (.inr (.inr shape)), targets_pruneEdges clean shape]
  | exit => rfl

theorem successors_pruneEdges {removed : List BlockId}
    (clean : ∀ s ∈ b.successors, s ∉ removed) :
    (pruneEdges removed b).successors = b.successors := by
  rw [← Block.map_target_edges, ← Block.map_target_edges, edges_pruneEdges clean]

theorem mem_predecessors (l : g.Laid) (live : g.block? id = some b) {s : BlockId}
    (leads : s ∈ b.successors) : id ∈ g.predecessors s := by
  rw [← l.named live]
  exact List.mem_map_of_mem (List.mem_filter.mpr
    ⟨l.mem_blocks_of_live live, by simpa using leads⟩)

theorem kind_join (first : Block) {second : Block} (filled : second.instrs ≠ []) :
    (join first second).kind = second.kind := by
  obtain ⟨front, last, code⟩ := Block.exists_last filled
  have whole : (join first second).instrs = (openCode first ++ front) ++ [last] := by
    simp [join, code]
  rw [Block.kind_eq whole, Block.kind_eq code]

theorem ids_join_sublist (first second : Block) :
    (join first second).ids.Sublist (first.ids ++ second.ids) := by
  have code : (openCode first).Sublist first.instrs := by
    unfold openCode
    split
    · exact List.dropLast_sublist _
    · exact List.Sublist.refl _
  simp only [Block.ids, join, List.map_append]
  exact (code.map _).append (List.Sublist.refl _)

theorem openCode_plain {first : Block} (filled : first.instrs ≠ []) (straight : first.Straight)
    (chained : chains first id = true) : ∀ i ∈ openCode first, i.isTerminal = false := by
  obtain ⟨front, last, code⟩ := Block.exists_last filled
  rw [Block.straight_iff code] at straight
  unfold openCode
  split
  · rw [code, List.dropLast_concat]
    exact straight
  · rename_i kind
    have open_ : last.isTerminal = false := by
      rw [Block.kind_eq code] at kind
      unfold chains at chained
      rw [Block.kind_eq code] at chained
      revert kind chained
      rw [Instr.isTerminal]
      cases last.flow <;> simp [Flow.endsBlock, BlockKind.ofFlow]
    intro i inside
    rw [code, List.mem_append, List.mem_singleton] at inside
    rcases inside with early | rfl
    · exact straight i early
    · exact open_

theorem straight_join {first second : Block} (filled₁ : first.instrs ≠ [])
    (straight₁ : first.Straight) (filled₂ : second.instrs ≠ []) (straight₂ : second.Straight)
    (chained : chains first id = true) : (join first second).Straight := by
  intro i inside
  rw [join, List.dropLast_append_of_ne_nil filled₂] at inside
  rcases List.mem_append.mp inside with early | late
  · exact openCode_plain filled₁ straight₁ chained i early
  · exact straight₂ i late

section Remove
variable {removed : List BlockId} {n : Nat}

theorem block?_of_remove (done : g.remove removed = .ok (n, g')) {other : BlockId} {d : Block}
    (found : g'.block? other = some d) :
    ∃ e, g.block? other = some e ∧ other ∉ removed ∧ d = pruneEdges removed e := by
  rw [block?_remove done] at found
  split at found
  · cases found
  · obtain ⟨e, was, rfl⟩ := Option.map_eq_some_iff.mp found
    exact ⟨e, was, ‹_›, rfl⟩

theorem contains_remove (done : g.remove removed = .ok (n, g')) (x : BlockId) :
    g'.contains x = true ↔ g.contains x = true ∧ x ∉ removed := by
  rw [contains, contains, block?_remove done]
  by_cases gone : x ∈ removed <;> simp [gone]

theorem Laid.remove (l : g.Laid) (done : g.remove removed = .ok (n, g')) : g'.Laid := by
  obtain ⟨entry, -, same⟩ := remove_ok done
  have layout : g'.layout = g.layout.filter fun id => !removed.contains id := by rw [same]
  refine ⟨?_, ?_, ?_, ?_, ?_, ?_, ?_⟩
  · rw [layout]
    exact l.nodup.filter _
  · intro x
    rw [contains_remove done, layout, List.mem_filter, l.listed]
    simp
  · intro other d found
    obtain ⟨e, was, -, rfl⟩ := block?_of_remove done found
    exact (l.named was :)
  · rw [layout, same]
    exact head?_filter l.entryFirst (by simpa using entry)
  · intro other d found
    obtain ⟨e, was, -, rfl⟩ := block?_of_remove done found
    exact (l.filled was :)
  · intro other d found
    obtain ⟨e, was, -, rfl⟩ := block?_of_remove done found
    exact (l.straight was :)
  · intro r inside
    rw [same] at inside
    obtain ⟨r, was, rfl⟩ := List.mem_map.mp inside
    rw [layout]
    exact mapLists_infix (l.regions r (List.mem_of_mem_filter was)) fun part => part.filter _

theorem Distinct.remove (distinct : g.Distinct) (done : g.remove removed = .ok (n, g')) :
    g'.Distinct := by
  obtain ⟨-, -, same⟩ := remove_ok done
  refine ⟨?_, ?_, ?_⟩
  · intro other d found
    obtain ⟨e, was, -, rfl⟩ := block?_of_remove done found
    exact (distinct.unique was :)
  · intro first second d e found there different
    obtain ⟨d, was₁, -, rfl⟩ := block?_of_remove done found
    obtain ⟨e, was₂, -, rfl⟩ := block?_of_remove done there
    exact (distinct.apart was₁ was₂ different :)
  · intro other d found k among
    obtain ⟨e, was, -, rfl⟩ := block?_of_remove done found
    rw [same]
    exact (distinct.fresh was k among :)

theorem Laid.successor_stays (l : g.Laid) (done : g.remove removed = .ok (n, g'))
    (live : g.block? id = some b) (stays : id ∉ removed) {s : BlockId} (leads : s ∈ b.successors) :
    s ∉ removed := by
  obtain ⟨-, clean, -⟩ := remove_ok done
  exact not_removed_of_successor clean (l.mem_blocks_of_live live) (by rwa [l.named live]) leads

theorem Tight.remove (tight : g.Tight) (l : g.Laid) (done : g.remove removed = .ok (n, g')) :
    g'.Tight := by
  intro other d found s leads
  obtain ⟨e, was, stays, rfl⟩ := block?_of_remove done found
  have kept : ∀ s ∈ e.successors, s ∉ removed := fun s => l.successor_stays done was stays
  rw [successors_pruneEdges kept] at leads
  rw [contains_remove done]
  exact ⟨tight was s leads, kept s leads⟩

theorem Forked.remove (forked : g.Forked) (l : g.Laid) (done : g.remove removed = .ok (n, g')) :
    g'.Forked := by
  intro other d found test
  obtain ⟨e, was, stays, rfl⟩ := block?_of_remove done found
  rw [fall_pruneEdges (fun s => l.successor_stays done was stays) (.inr (.inl test))]
  exact forked was test

end Remove

section Split
variable {index : Nat}

theorem Laid.new (l : g.Laid) : g.slots.length ∉ g.layout := by
  rw [l.listed, contains, block?_eq_none_of_le (Nat.le_refl _)]
  exact Bool.false_ne_true

theorem block?_of_splitAt (live : g.block? id = some b) {other : BlockId} {d : Block}
    (found : (g.splitAt id b index).block? other = some d) :
    (other = g.slots.length ∧ d = tailOf b index g.slots.length) ∨
      (other = id ∧ d = headOf b index g.slots.length) ∨
      (other ≠ g.slots.length ∧ other ≠ id ∧ g.block? other = some d) := by
  rw [block?_splitAt b index live] at found
  split at found
  · cases found
    exact .inl ⟨‹_›, rfl⟩
  · split at found
    · cases found
      exact .inr (.inl ⟨‹_›, rfl⟩)
    · exact .inr (.inr ⟨‹_›, ‹_›, found⟩)

theorem contains_splitAt (live : g.block? id = some b) (x : BlockId) :
    (g.splitAt id b index).contains x = true ↔ x = g.slots.length ∨ g.contains x = true := by
  rw [contains, block?_splitAt b index live]
  split
  · simp [*]
  · split
    · rename_i away here
      subst here
      simp [contains, live]
    · simp [contains, *]

theorem Laid.splitAt (l : g.Laid) (live : g.block? id = some b) (cut : 0 < index)
    (inside : index < b.instrs.length) : (g.splitAt id b index).Laid := by
  refine ⟨Region.nodup_insertAfter l.nodup l.new, ?_, ?_, ?_, ?_, ?_, ?_⟩
  · intro x
    rw [contains_splitAt live, ← l.listed]
    exact Region.mem_insertAfter (l.listed_of_live live)
  · intro other d found
    rcases block?_of_splitAt live found with ⟨rfl, rfl⟩ | ⟨rfl, rfl⟩ | ⟨-, -, found⟩
    · rfl
    · exact (l.named live :)
    · exact l.named found
  · exact (Region.head?_insertAfter id g.slots.length g.layout).trans l.entryFirst
  · intro other d found
    rcases block?_of_splitAt live found with ⟨rfl, rfl⟩ | ⟨rfl, rfl⟩ | ⟨-, -, found⟩
    · simp [tailOf, inside]
    · simp only [headOf, ne_eq, List.take_eq_nil_iff, not_or]
      exact ⟨by omega, l.filled live⟩
    · exact l.filled found
  · intro other d found
    rcases block?_of_splitAt live found with ⟨rfl, rfl⟩ | ⟨rfl, rfl⟩ | ⟨-, -, found⟩
    · intro i late
      refine l.straight live i ?_
      have whole : b.instrs.dropLast = b.instrs.take index ++ (b.instrs.drop index).dropLast := by
        rw [← List.dropLast_append_of_ne_nil (by simpa using inside), List.take_append_drop]
      rw [whole]
      exact List.mem_append_right _ late
    · intro i early
      exact l.straight live i (mem_take_dropLast inside (List.mem_of_mem_dropLast early))
    · exact l.straight found
  · intro r inside
    obtain ⟨r, was, rfl⟩ := List.mem_map.mp inside
    exact mapLists_infix (l.regions r was) (Region.insertAfter_infix l.nodup)

theorem Distinct.splitAt (distinct : g.Distinct) (live : g.block? id = some b) (index : Nat) :
    (g.splitAt id b index).Distinct := by
  set n := g.slots.length with size
  have blocks : ∀ {other d}, (g.splitAt id b index).block? other = some d →
      (other = n ∧ d = tailOf b index n) ∨ (other = id ∧ d = headOf b index n) ∨
        (other ≠ n ∧ other ≠ id ∧ g.block? other = some d) := block?_of_splitAt live
  have parts : b.ids = (headOf b index n).ids ++ (tailOf b index n).ids := by
    simp only [Block.ids, headOf, tailOf, ← List.map_append, List.take_append_drop]
  have uniqueParts := distinct.unique live
  rw [parts, List.nodup_append'] at uniqueParts
  have tailIds : (tailOf b index n).ids ⊆ b.ids := by simp [parts]
  have headIds : (headOf b index n).ids ⊆ b.ids := by simp [parts]
  have away : ∀ {other d}, g.block? other = some d → other ≠ id → b.ids.Disjoint d.ids :=
    fun found other => distinct.apart live found fun same => other same.symm
  refine ⟨?_, ?_, ?_⟩
  · intro other d found
    rcases blocks found with ⟨rfl, rfl⟩ | ⟨rfl, rfl⟩ | ⟨-, -, found⟩
    · exact uniqueParts.2.1
    · exact uniqueParts.1
    · exact distinct.unique found
  · intro first second d e found there different
    rcases blocks found with ⟨rfl, rfl⟩ | ⟨rfl, rfl⟩ | ⟨-, other₁, was₁⟩
    · rcases blocks there with ⟨rfl, rfl⟩ | ⟨rfl, rfl⟩ | ⟨-, other₂, was₂⟩
      · exact absurd rfl different
      · exact uniqueParts.2.2.symm
      · exact List.disjoint_of_subset_left tailIds (away was₂ other₂)
    · rcases blocks there with ⟨rfl, rfl⟩ | ⟨rfl, rfl⟩ | ⟨-, other₂, was₂⟩
      · exact uniqueParts.2.2
      · exact absurd rfl different
      · exact List.disjoint_of_subset_left headIds (away was₂ other₂)
    · rcases blocks there with ⟨rfl, rfl⟩ | ⟨rfl, rfl⟩ | ⟨-, -, was₂⟩
      · exact (List.disjoint_of_subset_left tailIds (away was₁ other₁)).symm
      · exact (List.disjoint_of_subset_left headIds (away was₁ other₁)).symm
      · exact distinct.apart was₁ was₂ different
  · intro other d found k among
    change k < g.nextInstr
    rcases blocks found with ⟨rfl, rfl⟩ | ⟨rfl, rfl⟩ | ⟨-, -, found⟩
    · exact distinct.fresh live k (tailIds among)
    · exact distinct.fresh live k (headIds among)
    · exact distinct.fresh found k among

theorem Tight.splitAt (tight : g.Tight) (l : g.Laid) (live : g.block? id = some b) (cut : 0 < index)
    (inside : index < b.instrs.length) : (g.splitAt id b index).Tight := by
  intro other d found s leads
  rw [contains_splitAt live]
  rcases block?_of_splitAt live found with ⟨rfl, rfl⟩ | ⟨rfl, rfl⟩ | ⟨-, -, found⟩
  · rw [successors_tailOf inside] at leads
    exact .inr (tight live s leads)
  · simp only [Block.successors, kind_headOf (l.straight live) cut inside] at leads
    simp only [headOf, Option.toList_some, List.mem_singleton] at leads
    exact .inl leads
  · exact .inr (tight found s leads)

end Split

section Join
variable {pred : BlockId} {first second : Block}

theorem block?_of_joined (j : Joinable g pred id first second) {other : BlockId} {d : Block}
    (found : ((g.drop id).modify pred fun b => join b second).block? other = some d) :
    (other = pred ∧ d = join first second) ∨
      (other ≠ id ∧ other ≠ pred ∧ g.block? other = some d) := by
  rw [block?_joined j] at found
  split at found
  · cases found
  · split at found
    · cases found
      exact .inl ⟨‹_›, rfl⟩
    · exact .inr ⟨‹_›, ‹_›, found⟩

theorem contains_joined (j : Joinable g pred id first second) (x : BlockId) :
    ((g.drop id).modify pred fun b => join b second).contains x = true ↔
      g.contains x = true ∧ x ≠ id := by
  rw [contains, contains, block?_joined j]
  by_cases gone : x = id
  · simp [gone]
  · by_cases here : x = pred
    · simp [here, j.before, j.apart]
    · simp [gone, here]

theorem successors_join (first : Block) (filled : second.instrs ≠ []) :
    (join first second).successors = second.successors := by
  simp only [Block.successors, kind_join first filled]
  rfl

theorem layout_drop (g : Graph) (id : BlockId) :
    (g.drop id).layout = g.layout.filter fun b => !([id].contains b) := by
  refine List.filter_congr fun b _ => ?_
  rw [bne, List.contains_cons, List.contains_nil, Bool.or_false]

theorem Laid.joined (l : g.Laid) (j : Joinable g pred id first second) :
    ((g.drop id).modify pred fun b => join b second).Laid := by
  refine ⟨l.nodup.filter _, ?_, ?_, ?_, ?_, ?_, ?_⟩
  · intro x
    rw [contains_joined j, ← l.listed]
    change x ∈ g.layout.filter (fun b => b != id) ↔ _
    simp
  · intro other d found
    rcases block?_of_joined j found with ⟨rfl, rfl⟩ | ⟨-, -, was⟩
    · exact (l.named j.before :)
    · exact l.named was
  · exact head?_filter l.entryFirst (bne_iff_ne.mpr j.notEntry.symm)
  · intro other d found
    rcases block?_of_joined j found with ⟨rfl, rfl⟩ | ⟨-, -, was⟩
    · simp [join, l.filled j.behind]
    · exact l.filled was
  · intro other d found
    rcases block?_of_joined j found with ⟨rfl, rfl⟩ | ⟨-, -, was⟩
    · exact straight_join (l.filled j.before) (l.straight j.before) (l.filled j.behind)
        (l.straight j.behind) j.chained
    · exact l.straight was
  · intro r inside
    obtain ⟨r, was, rfl⟩ := List.mem_map.mp inside
    change ∀ blocks ∈ (r.without [id]).lists, blocks <:+: (g.drop id).layout
    rw [layout_drop]
    exact mapLists_infix (l.regions r was) fun part => part.filter _

theorem Distinct.joined (distinct : g.Distinct) (j : Joinable g pred id first second) :
    ((g.drop id).modify pred fun b => join b second).Distinct := by
  have sub := ids_join_sublist first second
  have idsOf : ∀ k ∈ (join first second).ids, k ∈ first.ids ∨ k ∈ second.ids :=
    fun k among => List.mem_append.mp (sub.subset among)
  have disjoint : ∀ {other d}, g.block? other = some d → other ≠ id → other ≠ pred →
      (join first second).ids.Disjoint d.ids := by
    intro other d found away₁ away₂ k among there
    rcases idsOf k among with k₁ | k₂
    · exact distinct.apart j.before found (fun same => away₂ same.symm) k₁ there
    · exact distinct.apart j.behind found (fun same => away₁ same.symm) k₂ there
  refine ⟨?_, ?_, ?_⟩
  · intro other d found
    rcases block?_of_joined j found with ⟨rfl, rfl⟩ | ⟨-, -, was⟩
    · refine sub.nodup (List.nodup_append'.mpr
        ⟨distinct.unique j.before, distinct.unique j.behind, ?_⟩)
      exact distinct.apart j.before j.behind j.apart
    · exact distinct.unique was
  · intro one two d e found there different
    rcases block?_of_joined j found with ⟨rfl, rfl⟩ | ⟨away₁, other₁, was₁⟩
    · rcases block?_of_joined j there with ⟨rfl, rfl⟩ | ⟨away₂, other₂, was₂⟩
      · exact absurd rfl different
      · exact disjoint was₂ away₂ other₂
    · rcases block?_of_joined j there with ⟨rfl, rfl⟩ | ⟨-, -, was₂⟩
      · exact (disjoint was₁ away₁ other₁).symm
      · exact distinct.apart was₁ was₂ different
  · intro other d found k among
    change k < g.nextInstr
    rcases block?_of_joined j found with ⟨rfl, rfl⟩ | ⟨-, -, was⟩
    · rcases idsOf k among with k₁ | k₂
      · exact distinct.fresh j.before k k₁
      · exact distinct.fresh j.behind k k₂
    · exact distinct.fresh was k among

theorem Tight.joined (tight : g.Tight) (l : g.Laid) (j : Joinable g pred id first second) :
    ((g.drop id).modify pred fun b => join b second).Tight := by
  have unled : ∀ {other d}, g.block? other = some d → other ≠ pred → id ∉ d.successors := by
    intro other d found away leads
    have pred := mem_predecessors l found leads
    rw [j.only, List.mem_singleton] at pred
    exact away pred
  intro other d found s leads
  rw [contains_joined j]
  rcases block?_of_joined j found with ⟨rfl, rfl⟩ | ⟨-, away, was⟩
  · rw [successors_join first (l.filled j.behind)] at leads
    refine ⟨tight j.behind s leads, ?_⟩
    rintro rfl
    exact unled j.behind j.apart.symm leads
  · refine ⟨tight was s leads, ?_⟩
    rintro rfl
    exact unled was away leads

theorem Forked.joined (forked : g.Forked) (l : g.Laid) (j : Joinable g pred id first second) :
    ((g.drop id).modify pred fun b => join b second).Forked := by
  intro other d found
  rcases block?_of_joined j found with ⟨-, rfl⟩ | ⟨-, -, found⟩
  · rw [kind_join first (l.filled j.behind)]
    exact forked j.behind
  · exact forked found

end Join

theorem mergeUpTo_keeps {P : Graph → Prop}
    (joins : ∀ {g pred id first second}, P g → Joinable g pred id first second →
      P ((g.drop id).modify pred fun b => join b second))
    (n : Nat) (holds : P g) : P (g.mergeUpTo n).2 := by
  induction n generalizing g with
  | zero => exact holds
  | succ n ih =>
    rw [Graph.mergeUpTo]
    split
    · exact holds
    · rename_i next merged
      obtain ⟨pred, id, first, second, joinable, rfl⟩ := mergeOnce?_some merged
      exact ih (joins holds joinable)

structure Workable (g : Graph) : Prop where
  laid : g.Laid
  tight : g.Tight
  forked : g.Forked

namespace Workable

theorem remove (workable : g.Workable) {removed : List BlockId} {n : Nat}
    (done : g.remove removed = .ok (n, g')) : g'.Workable where
  laid := workable.laid.remove done
  tight := workable.tight.remove workable.laid done
  forked := workable.forked.remove workable.laid done

theorem joined (workable : g.Workable) {pred : BlockId} {first second : Block}
    (j : Joinable g pred id first second) :
    ((g.drop id).modify pred fun b => join b second).Workable where
  laid := workable.laid.joined j
  tight := workable.tight.joined workable.laid j
  forked := workable.forked.joined workable.laid j

end Workable

namespace Consistent

theorem remove (c : g.Consistent) {removed : List BlockId} {n : Nat}
    (done : g.remove removed = .ok (n, g')) : g'.Consistent :=
  (c.laid.remove done).consistent (c.distinct.remove done) (c.tight.remove c.laid done)

theorem splitAt (c : g.Consistent) {index : Nat} (live : g.block? id = some b) (cut : 0 < index)
    (inside : index < b.instrs.length) : (g.splitAt id b index).Consistent :=
  (c.laid.splitAt live cut inside).consistent (c.distinct.splitAt live index)
    (c.tight.splitAt c.laid live cut inside)

theorem joined (c : g.Consistent) {pred : BlockId} {first second : Block}
    (j : Joinable g pred id first second) :
    ((g.drop id).modify pred fun b => join b second).Consistent :=
  (c.laid.joined j).consistent (c.distinct.joined j) (c.tight.joined c.laid j)

theorem mergeUpTo (c : g.Consistent) (n : Nat) : (g.mergeUpTo n).2.Consistent :=
  mergeUpTo_keeps (fun c j => c.joined j) n c

end Consistent
end Graph
end Unravel
