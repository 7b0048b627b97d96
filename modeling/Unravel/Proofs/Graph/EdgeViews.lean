import Unravel.Proofs.Graph.Invariant

/-!
Four views of the edges of a graph: the successors of a block, the list of all edges, the
predecessors of a block, and the map of all predecessors. Each goes through the stored edges of the
blocks by itself, and all count the same edges: those that match the kind of a block, to blocks that
are live or not.
-/
namespace Unravel.Graph
variable {g : Graph}

/-- The id that a live block carries. It is the number of its slot, unless somebody changed it. -/
def nameOf (g : Graph) (id : BlockId) : BlockId := ((g.block? id).map Block.id).getD id

/-- The list has each live block with an edge to a block once, in layout order. -/
structure Precede (g : Graph) (preds : List BlockId) (id : BlockId) : Prop where
  once : preds.Nodup
  ordered : preds.Sublist g.layout
  exactly : ∀ p, p ∈ preds ↔ g.contains p = true ∧ id ∈ g.successors p

theorem successors_of_live {id : BlockId} {b : Block} (live : g.block? id = some b) :
    g.successors id = b.successors := by
  rw [successors, live, Option.map_some, Option.getD_some]

theorem precede_filter (nodup : g.layout.Nodup)
    (listed : ∀ id, id ∈ g.layout ↔ g.contains id = true) (id : BlockId) :
    g.Precede (g.layout.filter fun p => (g.successors p).contains id) id where
  once := nodup.filter _
  ordered := List.filter_sublist
  exactly p := by rw [List.mem_filter, List.contains_iff_mem, listed]

theorem source_of_mem_edges {b : Block} {e : Edge} (inside : e ∈ b.edges) : e.source = b.id := by
  unfold Block.edges at inside
  cases kind : b.kind <;>
    simp only [kind, List.mem_append, List.mem_map, List.not_mem_nil] at inside
  case conditional | switch =>
    rcases inside with ⟨_, -, rfl⟩ | ⟨_, -, rfl⟩ <;> rfl
  all_goals
    obtain ⟨_, -, rfl⟩ := inside
    rfl

theorem flatMap_eq_of_others {α β : Type} {f : α → List β} {xs : List α} {x : α}
    (nodup : xs.Nodup) (inside : x ∈ xs) (others : ∀ y ∈ xs, y ≠ x → f y = []) :
    xs.flatMap f = f x := by
  obtain ⟨front, back, rfl⟩ := List.append_of_mem inside
  have apart := List.nodup_append'.mp nodup
  have before : front.flatMap f = [] := by
    refine List.flatMap_eq_nil_iff.mpr fun y here => others y (List.mem_append_left _ here) ?_
    rintro rfl
    exact apart.2.2 here List.mem_cons_self
  have after : back.flatMap f = [] := by
    refine List.flatMap_eq_nil_iff.mpr fun y here => others y (by simp [here]) ?_
    rintro rfl
    exact (List.nodup_cons.mp apart.2.1).1 here
  rw [List.flatMap_append, List.flatMap_cons, before, after, List.nil_append, List.append_nil]

theorem edges_eq_flatMap (g : Graph) :
    g.edges = g.layout.flatMap fun id => ((g.block? id).map Block.edges).getD [] := by
  rw [edges, blocks, List.filterMap_eq_flatMap_toList, List.flatMap_assoc]
  refine congrArg (g.layout.flatMap ·) (funext fun id => ?_)
  cases g.block? id with
  | none => rfl
  | some b => exact List.append_nil _

theorem filter_edges (nodup : g.layout.Nodup) {id : BlockId} {b : Block} (listed : id ∈ g.layout)
    (live : g.block? id = some b)
    (own : ∀ other c, g.block? other = some c → c.id = b.id → other = id) :
    (g.edges.filter fun e => e.source == b.id) = b.edges := by
  have here : ((g.block? id).map Block.edges).getD [] = b.edges := by rw [live]; rfl
  rw [edges_eq_flatMap, List.filter_flatMap, flatMap_eq_of_others nodup listed ?_, here]
  · exact List.filter_eq_self.mpr fun e inside => beq_iff_eq.mpr (source_of_mem_edges inside)
  · intro other _ away
    rw [List.filter_eq_nil_iff]
    intro e inside same
    cases there : g.block? other with
    | none => simp [there] at inside
    | some c =>
      rw [there] at inside
      have source := (source_of_mem_edges inside).symm.trans (beq_iff_eq.mp same)
      exact away (own other c there source)

namespace PredecessorMap

theorem lookup_cons_ite (key k : BlockId) (preds : List BlockId) (rest : PredecessorMap) :
    List.lookup key ((k, preds) :: rest) = if key = k then some preds else rest.lookup key := by
  rw [List.lookup_cons]
  by_cases same : key = k
  · simp [same]
  · simp [beq_false_of_ne same, same]

theorem lookup_note (pred : BlockId) (map : PredecessorMap) (id key : BlockId) :
    (PredecessorMap.note pred map id).lookup key =
      if key = id then some ((map.lookup key).getD [] ++ [pred]) else map.lookup key := by
  induction map with
  | nil => simp [PredecessorMap.note, lookup_cons_ite]
  | cons first rest ih =>
    obtain ⟨k, preds⟩ := first
    rw [PredecessorMap.note]
    split <;> simp only [lookup_cons_ite, ih] <;> grind

theorem keys_note (pred : BlockId) (map : PredecessorMap) (id : BlockId) :
    (PredecessorMap.note pred map id).map Prod.fst =
      if id ∈ map.map Prod.fst then map.map Prod.fst else map.map Prod.fst ++ [id] := by
  induction map with
  | nil => rfl
  | cons first rest ih =>
    obtain ⟨k, preds⟩ := first
    rw [PredecessorMap.note]
    split
    · rename_i here
      simp [here]
    · rename_i away
      simp only [List.map_cons, ih, List.mem_cons, Ne.symm away, false_or]
      split <;> rfl

theorem lookup_isSome_iff (map : PredecessorMap) (key : BlockId) :
    (map.lookup key).isSome = true ↔ key ∈ map.map Prod.fst := by
  induction map with
  | nil => simp
  | cons first rest ih =>
    obtain ⟨k, preds⟩ := first
    rw [lookup_cons_ite, List.map_cons, List.mem_cons, ← ih]
    by_cases same : key = k <;> simp [same]

theorem lookup_noteAll (pred : BlockId) {ids : List BlockId} (nodup : ids.Nodup)
    (map : PredecessorMap) (key : BlockId) :
    (ids.foldl (PredecessorMap.note pred) map).lookup key =
      if key ∈ ids then some ((map.lookup key).getD [] ++ [pred]) else map.lookup key := by
  induction ids generalizing map with
  | nil => simp
  | cons id rest ih =>
    obtain ⟨new, nodup⟩ := List.nodup_cons.mp nodup
    rw [List.foldl_cons, ih nodup, lookup_note]
    by_cases same : key = id
    · subst same
      simp [new]
    · simp [same]

theorem nodup_noteAll (pred : BlockId) (ids : List BlockId) {map : PredecessorMap}
    (nodup : (map.map Prod.fst).Nodup) :
    ((ids.foldl (PredecessorMap.note pred) map).map Prod.fst).Nodup := by
  induction ids generalizing map with
  | nil => exact nodup
  | cons id rest ih =>
    refine ih ?_
    rw [keys_note]
    split
    · exact nodup
    · rename_i new
      exact List.nodup_append'.mpr ⟨nodup, List.nodup_singleton id, by simpa using new⟩

end PredecessorMap

theorem nodup_eraseDups (ids : List BlockId) : ids.eraseDups.Nodup := by
  induction size : ids.length using Nat.strong_induction_on generalizing ids with
  | h n ih =>
    cases ids with
    | nil => simp
    | cons id rest =>
      rw [List.eraseDups_cons, List.nodup_cons]
      refine ⟨by simp, ih _ ?_ _ rfl⟩
      have := List.length_filter_le (fun x => !x == id) rest
      rw [List.length_cons] at size
      omega

def noteBlocks (blocks : List Block) (map : PredecessorMap) : PredecessorMap :=
  blocks.foldl (fun map b => b.successors.eraseDups.foldl (PredecessorMap.note b.id) map) map

theorem getD_lookup_noteBlocks (blocks : List Block) (map : PredecessorMap) (key : BlockId) :
    ((noteBlocks blocks map).lookup key).getD [] = (map.lookup key).getD [] ++
      (blocks.filter fun b => b.successors.contains key).map Block.id := by
  induction blocks generalizing map with
  | nil => simp [noteBlocks]
  | cons b rest ih =>
    rw [noteBlocks, List.foldl_cons, ← noteBlocks, ih,
      PredecessorMap.lookup_noteAll _ (nodup_eraseDups _), List.filter_cons]
    by_cases leads : key ∈ b.successors <;> simp [leads]

theorem mem_keys_noteBlocks (blocks : List Block) (map : PredecessorMap) (key : BlockId) :
    key ∈ (noteBlocks blocks map).map Prod.fst ↔
      key ∈ map.map Prod.fst ∨ ∃ b ∈ blocks, key ∈ b.successors := by
  induction blocks generalizing map with
  | nil => simp [noteBlocks]
  | cons b rest ih =>
    rw [noteBlocks, List.foldl_cons, ← noteBlocks, ih, ← PredecessorMap.lookup_isSome_iff,
      ← PredecessorMap.lookup_isSome_iff, PredecessorMap.lookup_noteAll _ (nodup_eraseDups _)]
    by_cases leads : key ∈ b.successors <;> simp [leads]

theorem nodup_keys_noteBlocks (blocks : List Block) {map : PredecessorMap}
    (nodup : (map.map Prod.fst).Nodup) : ((noteBlocks blocks map).map Prod.fst).Nodup := by
  induction blocks generalizing map with
  | nil => exact nodup
  | cons b rest ih => exact ih (PredecessorMap.nodup_noteAll b.id _ nodup)

def noPredecessors (g : Graph) : PredecessorMap := g.layout.map fun id => (id, [])

theorem predecessorMap_eq (g : Graph) :
    g.predecessorMap = noteBlocks g.blocks g.noPredecessors := rfl

theorem keys_noPredecessors (g : Graph) : g.noPredecessors.map Prod.fst = g.layout := by
  rw [noPredecessors, List.map_map]
  exact List.map_id _

theorem getD_lookup_noPredecessors (g : Graph) (id : BlockId) :
    (g.noPredecessors.lookup id).getD [] = [] := by
  unfold noPredecessors
  induction g.layout with
  | nil => rfl
  | cons first rest ih =>
    rw [List.map_cons, PredecessorMap.lookup_cons_ite]
    split
    · rfl
    · exact ih

theorem mem_keys_predecessorMap (id : BlockId) :
    id ∈ g.predecessorMap.map Prod.fst ↔ id ∈ g.layout ∨ ∃ b ∈ g.blocks, id ∈ b.successors := by
  rw [predecessorMap_eq, mem_keys_noteBlocks, keys_noPredecessors]

theorem lookup_predecessorMap {id : BlockId} (known : id ∈ g.predecessorMap.map Prod.fst) :
    g.predecessorMap.lookup id = some (g.predecessors id) := by
  obtain ⟨preds, found⟩ := Option.isSome_iff_exists.mp
    ((PredecessorMap.lookup_isSome_iff _ _).mpr known)
  have same := getD_lookup_noteBlocks g.blocks g.noPredecessors id
  rw [getD_lookup_noPredecessors, List.nil_append, ← predecessorMap_eq, found] at same
  rw [found]
  exact congrArg some same

theorem predecessors_eq_map (g : Graph) (id : BlockId) :
    g.predecessors id =
      (g.layout.filter fun p => (g.successors p).contains id).map g.nameOf := by
  rw [predecessors, blocks]
  induction g.layout with
  | nil => rfl
  | cons p rest ih =>
    cases live : g.block? p with
    | none =>
      have idle : (g.successors p).contains id = false := by simp [successors, live]
      rw [List.filterMap_cons_none live, ih, List.filter_cons, idle]
      rfl
    | some b =>
      have named : g.nameOf p = b.id := by rw [nameOf, live]; rfl
      rw [List.filterMap_cons_some live, List.filter_cons, List.filter_cons,
        successors_of_live live]
      split
      · rw [List.map_cons, List.map_cons, ih, named]
      · exact ih

/-- The views agree in every graph that lists its live blocks once, whatever edges are stored. The
    edges of a block lead to its successors, in order; each block has the same predecessors in both
    views, namely every live block with an edge to it, once, in layout order; and the map has a list
    for the live blocks and their successors, and no others. -/
theorem edge_views_agree (nodup : g.layout.Nodup)
    (listed : ∀ id, id ∈ g.layout ↔ g.contains id = true) :
    (∀ id b, g.block? id = some b →
      (∀ other c, g.block? other = some c → c.id = b.id → other = id) →
      (g.edges.filter fun e => e.source == b.id).map Edge.target = g.successors id) ∧
    (∀ id, g.contains id = true → g.predecessorMap.lookup id = some (g.predecessors id)) ∧
    (∀ id, ∃ preds, g.Precede preds id ∧ g.predecessors id = preds.map g.nameOf) ∧
    (g.predecessorMap.map Prod.fst).Nodup ∧
    ∀ id, id ∈ g.predecessorMap.map Prod.fst ↔
      g.contains id = true ∨ ∃ p, g.contains p = true ∧ id ∈ g.successors p := by
  refine ⟨?_, ?_, ?_, ?_, ?_⟩
  · intro id b live own
    have inside := (listed id).mpr (contains_iff.mpr ⟨b, live⟩)
    rw [filter_edges nodup inside live own, Block.map_target_edges, successors_of_live live]
  · intro id live
    exact lookup_predecessorMap ((mem_keys_predecessorMap id).mpr (.inl ((listed id).mpr live)))
  · intro id
    exact ⟨_, precede_filter nodup listed id, predecessors_eq_map g id⟩
  · rw [predecessorMap_eq]
    refine nodup_keys_noteBlocks g.blocks ?_
    rw [keys_noPredecessors]
    exact nodup
  · intro id
    rw [mem_keys_predecessorMap, listed]
    refine or_congr_right ⟨?_, ?_⟩
    · rintro ⟨b, inside, leads⟩
      obtain ⟨p, -, live⟩ := mem_blocks.mp inside
      exact ⟨p, contains_iff.mpr ⟨b, live⟩, (successors_of_live live).symm ▸ leads⟩
    · rintro ⟨p, live, leads⟩
      obtain ⟨b, found⟩ := contains_iff.mp live
      exact ⟨b, mem_blocks.mpr ⟨p, (listed p).mpr live, found⟩, successors_of_live found ▸ leads⟩

/-- A switch with a repeated case and a case that is gone, a branch to where it falls, and a return
    that still stores edges. -/
def staleEdges : Graph where
  slots := [some ⟨0, [⟨0, .switch, .switch [1, 1, 2], 0⟩], [2, 2, 1, 3], some 3⟩,
    none,
    some ⟨2, [⟨1, .branch .isTrue .short, .target 2, 17⟩], [3, 0], some 3⟩,
    some ⟨3, [⟨2, .ret, .none, 19⟩], [0], some 2⟩]
  layout := [0, 3, 2]
  regions := []
  entry := 0
  nextInstr := 3
  locals := 0
  maxStack := 8

theorem staleEdges_views_agree :
    staleEdges.layout.Nodup ∧
    (∀ id, id ∈ staleEdges.layout ↔ staleEdges.contains id = true) ∧
    (staleEdges.edges.filter fun e => e.source == 0).map Edge.target = [2, 2, 1, 3, 3] ∧
    staleEdges.predecessorMap.lookup 3 = some [0, 2] := by
  have nodup : staleEdges.layout.Nodup := by decide
  have listed : ∀ id, id ∈ staleEdges.layout ↔ staleEdges.contains id = true := by
    intro id
    rcases id with _ | _ | _ | _ | n
    · decide
    · decide
    · decide
    · decide
    · simp [staleEdges, contains, block?]
  obtain ⟨edges, same, -⟩ := edge_views_agree nodup listed
  refine ⟨nodup, listed, edges 0 _ rfl ?_, same 3 rfl⟩
  intro other c there named
  rcases other with _ | _ | _ | _ | n
  · rfl
  · cases there
  · cases there
    cases named
  · cases there
    cases named
  · simp [staleEdges, block?] at there

end Unravel.Graph
