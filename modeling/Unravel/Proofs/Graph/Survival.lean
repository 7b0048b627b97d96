import Unravel.Proofs.Graph.Pruning
import Unravel.Proofs.Graph.StoredEdges
import Unravel.Proofs.Graph.Weight

/-!
What survives the removal of dead blocks. Blocks that control reaches stay as they are, whatever was
done to the graph before. A region stays with its entries as long as control reaches one of the
blocks it protects; this needs a handler in every region, which all edits keep. Cutting a graph anew
finds handlers by the ids of their instructions, so for that the ids have to be distinct.
-/
namespace Unravel

theorem Block.source_of_edge {b : Block} {e : Edge} (edge : e ∈ b.edges) : e.source = b.id := by
  unfold edges at edge
  split at edge <;> grind

namespace Graph
variable {g g' : Graph} {id : BlockId} {b : Block} {r : Region} {n : Nat}

def Ranged (g : Graph) : Prop := ∀ r ∈ g.regions, r.tryBlocks ≠ [] ∧ r.handlerBlocks ≠ []

theorem flatMap_edges_filter {keep : BlockId → Bool} {f : Block → Block} {blocks : List Block}
    (same : ∀ b ∈ blocks, keep b.id = true → (f b).edges = b.edges) :
    ((blocks.filter fun b => keep b.id).map f).flatMap Block.edges =
      (blocks.flatMap Block.edges).filter fun e => keep e.source := by
  induction blocks with
  | nil => rfl
  | cons b rest ih =>
    obtain ⟨here, later⟩ := List.forall_mem_cons.mp same
    rw [List.flatMap_cons, List.filter_append, ← ih later]
    cases stays : keep b.id with
    | true =>
      have all : (b.edges.filter fun e => keep e.source) = b.edges :=
        List.filter_eq_self.mpr fun e edge => by rw [Block.source_of_edge edge, stays]
      rw [List.filter_cons_of_pos (p := fun b : Block => keep b.id) stays, List.map_cons,
        List.flatMap_cons, here stays, all]
    | false =>
      have none : (b.edges.filter fun e => keep e.source) = [] :=
        List.filter_eq_nil_iff.mpr fun e edge => by simp [Block.source_of_edge edge, stays]
      rw [List.filter_cons_of_neg (p := fun b : Block => keep b.id) (by simp [stays]), none,
        List.nil_append]

section RemoveDead

theorem Laid.contains_unreachable (l : g.Laid) (listed : id ∈ g.layout) :
    (!g.unreachable.contains id) = g.reachable.contains id := by
  rw [Bool.eq_iff_iff, Bool.not_eq_true', List.contains_eq_mem, decide_eq_false_iff_not,
    List.contains_iff_mem, mem_unreachable l, mem_reachable l]
  simp [listed]

theorem Laid.layout_removeDead (l : g.Laid) (done : g.removeDead = .ok (n, g')) :
    g'.layout = g.layout.filter g.reachable.contains := by
  rw [Graph.layout_removeDead done]
  exact List.filter_congr fun id listed => l.contains_unreachable listed

theorem Laid.blocks_removeDead (l : g.Laid) (done : g.removeDead = .ok (n, g')) :
    g'.blocks = (g.blocks.filter fun b => g.reachable.contains b.id).map
      (pruneEdges g.unreachable) := by
  rw [blocks, l.layout_removeDead done, List.filterMap_filter, blocks, List.filter_filterMap,
    List.map_filterMap]
  refine List.filterMap_congr fun id listed => ?_
  obtain ⟨b, live⟩ := contains_iff.mp ((l.listed id).mp listed)
  rw [block?_removeDead done, live]
  by_cases reached : id ∈ g.reachable
  · have stays : id ∉ g.unreachable := ((mem_reachable l).mp reached).stays l
    simp [stays, l.named live, reached]
  · simp [l.named live, reached]

theorem Reached.successors_stay (l : g.Laid) (reached : g.Reached id)
    (live : g.block? id = some b) : ∀ s ∈ b.successors, s ∉ g.unreachable :=
  fun _ leads => reached.leads_stays l (mem_leadsTo.mpr (.inl ⟨b, live, leads⟩))

theorem Laid.edges_removeDead (l : g.Laid) (done : g.removeDead = .ok (n, g')) :
    g'.edges = g.edges.filter fun e => g.reachable.contains e.source := by
  rw [edges, l.blocks_removeDead done, edges]
  refine flatMap_edges_filter fun b listed reached => ?_
  obtain ⟨id, -, live⟩ := mem_blocks.mp listed
  rw [l.named live, List.contains_iff_mem, mem_reachable l] at reached
  exact edges_pruneEdges (reached.successors_stay l live)

theorem survives_iff_reached (l : g.Laid) (inside : r ∈ g.regions)
    (handles : r.handlerBlocks ≠ []) :
    r.survives g.unreachable = r.tryBlocks.any g.reachable.contains := by
  rw [Bool.eq_iff_iff, List.any_eq_true]
  constructor
  · intro survives
    obtain ⟨-, -, tries⟩ := Region.survives_iff.mp survives
    obtain ⟨id, among⟩ := List.exists_mem_of_ne_nil _ tries
    obtain ⟨tried, stays⟩ := List.mem_filter.mp among
    have listed := (l.regions r inside r.tryBlocks (by simp [Region.lists])).subset tried
    exact ⟨id, tried, by rw [← l.contains_unreachable listed]; exact stays⟩
  · rintro ⟨id, tried, reached⟩
    exact survives_of_reached l inside handles tried
      ((mem_reachable l).mp (List.contains_iff_mem.mp reached))

theorem without_unreachable (l : g.Laid) (inside : r ∈ g.regions) :
    r.without g.unreachable = r.mapLists (List.filter g.reachable.contains) := by
  have same : ∀ blocks ∈ r.lists, (blocks.filter fun b => !g.unreachable.contains b) =
      blocks.filter g.reachable.contains := by
    intro blocks among
    refine List.filter_congr fun id member => ?_
    exact l.contains_unreachable ((l.regions r inside blocks among).subset member)
  simp only [Region.without, Region.mapLists, same r.tryBlocks (by simp [Region.lists]),
    same r.handlerBlocks (by simp [Region.lists]), same r.filterBlocks (by simp [Region.lists])]

theorem Ranged.regions_removeDead (ranged : g.Ranged) (done : g.removeDead = .ok (n, g')) :
    g'.regions = (g.regions.filter fun r => r.survives g.unreachable).map fun r =>
      r.without g.unreachable := by
  rcases removeDead_ok done with ⟨none, -, same⟩ | ⟨-, done⟩
  · rw [same, none]
    have all : (g.regions.filter fun r => r.survives []) = g.regions := by
      refine List.filter_eq_self.mpr fun r inside => ?_
      obtain ⟨tries, handles⟩ := ranged r inside
      obtain ⟨h, rest, blocks⟩ := List.exists_cons_of_ne_nil handles
      refine Region.survives_iff.mpr ⟨⟨h, ?_, List.not_mem_nil⟩, fun _ _ => List.not_mem_nil, ?_⟩
      · rw [ Region.handlerEntry?, blocks]
        rfl
      · simpa [Region.without, Region.mapLists] using tries
    rw [all]
    have same : ∀ r : Region, r.without [] = r := by simp [Region.without, Region.mapLists]
    exact (List.map_id'' same g.regions).symm
  · obtain ⟨-, -, rfl⟩ := remove_ok done
    rfl

end RemoveDead

/-- What removing dead blocks leaves of a graph: the blocks that control reaches, as they were. -/
structure Pruned (g : Graph) (count : Nat) (g' : Graph) : Prop where
  reaches : ∀ id, id ∈ g.reachable ↔ g.Reached id
  layout : g'.layout = g.layout.filter g.reachable.contains
  counts : count = (g.layout.filter fun id => !g.reachable.contains id).length
  blocks : ∀ id, g.Reached id → ∃ b b', g.block? id = some b ∧ g'.block? id = some b' ∧
    b'.instrs = b.instrs ∧ b'.successors = b.successors
  gone : ∀ id, ¬ g.Reached id → g'.contains id = false
  edges : g'.edges = g.edges.filter fun e => g.reachable.contains e.source

/-- What it leaves of the regions: those that protect a block that control reaches, without the
    blocks that are gone and with the entries they had. -/
structure RegionsPruned (g g' : Graph) : Prop where
  regions : g'.regions =
    (g.regions.filter fun r => r.tryBlocks.any g.reachable.contains).map fun r =>
      r.mapLists (List.filter g.reachable.contains)
  entries : ∀ r ∈ g.regions, (∃ id ∈ r.tryBlocks, g.Reached id) →
    Region.handlerEntry? (r.mapLists (List.filter g.reachable.contains)) = r.handlerEntry? ∧
      Region.filterEntry? (r.mapLists (List.filter g.reachable.contains)) = r.filterEntry?

theorem Laid.pruned (l : g.Laid) (done : g.removeDead = .ok (n, g')) : g.Pruned n g' where
  reaches _ := mem_reachable l
  layout := l.layout_removeDead done
  counts := by
    have parts := List.length_eq_length_filter_add (l := g.layout) g.reachable.contains
    have fewer := length_removeDead l done
    rw [l.layout_removeDead done] at fewer
    omega
  blocks := by
    intro id reached
    obtain ⟨b, live⟩ := contains_iff.mp (reached.live l)
    refine ⟨b, pruneEdges g.unreachable b, live, ?_, rfl,
      successors_pruneEdges (reached.successors_stay l live)⟩
    rw [block?_of_reached l done reached, live]
    rfl
  gone := by
    intro id dead
    rw [← Bool.not_eq_true, contains_iff]
    rintro ⟨b, found⟩
    exact dead (reached_of_block? l done found).1
  edges := l.edges_removeDead done

theorem Ranged.pruned (ranged : g.Ranged) (l : g.Laid) (done : g.removeDead = .ok (n, g')) :
    g.RegionsPruned g' where
  regions := by
    rw [ranged.regions_removeDead done, List.filter_congr fun r inside =>
      survives_iff_reached l inside (ranged r inside).2]
    exact List.map_congr_left fun r among =>
      without_unreachable l (List.mem_of_mem_filter among)
  entries := by
    rintro r inside ⟨id, tried, reached⟩
    rw [← without_unreachable l inside]
    exact entry_without (stay_of_survives
      (survives_of_reached l inside (ranged r inside).2 tried reached))

theorem Laid.after (l : g.Laid) (e : Edit) : (e.apply g).Laid := by
  cases e with
  | repartition =>
    refine unlessFailed_keeps l fun g' done => ?_
    obtain ⟨body, -, cut⟩ := repartition_ok done
    exact Body.toGraph_laid cut
  | allocInstr => exact ⟨l.nodup, l.listed, l.named, l.entryFirst, l.filled, l.straight, l.regions⟩
  | inline round ctx => exact Inline.pass_laid l round ctx
  | fold round ctx => exact Fold.pass_laid l round ctx
  | _ => exact l.apply trivial

theorem Laid.afterAll (l : g.Laid) (edits : List Edit) : (g.applyAll edits).Laid :=
  List.foldlRecOn edits _ l fun _ l e _ => l.after e

theorem Arranged.inFront_frame (a : g.Arranged) (frame : g.SameFrame g') :
    ∀ r ∈ g'.regions, r.InFront g'.layout := by
  rw [frame.regions, frame.layout]
  exact a.inFront

/-- An edit that does not make the id counter overflow also leaves instructions distinct, and
    filters in front of their handlers. -/
theorem Arranged.after (a : g.Arranged) {e : Edit}
    (room : InstrId.Room g.nextInstr (e.idsTaken g)) : (e.apply g).Arranged := by
  cases e with
  | repartition =>
    refine unlessFailed_keeps a fun g' done => ?_
    obtain ⟨body, wrote, cut⟩ := repartition_ok done
    exact Body.toGraph_arranged (a.proper room wrote).2.1 cut
  | allocInstr =>
    have next : g.allocInstr.2.nextInstr = (g.nextInstr + 1 : Nat) := InstrId.next_of_room room
    have distinct : g.allocInstr.2.Distinct := by
      refine ⟨a.distinct.unique, a.distinct.apart, fun live n inside => ?_⟩
      rw [next]
      exact Nat.lt_succ_of_lt (a.distinct.fresh live n inside)
    exact ⟨a.laid.after .allocInstr, distinct, a.inFront⟩
  | inline round ctx =>
    have distinct : (Inline.pass.run round ctx g).graph.Distinct :=
      Inline.runAll_keeps_room (P := Distinct) id
        (fun distinct live room => (Inline.inlineBlock_distinct distinct live room).1)
        a.laid.nodup a.distinct room
    exact ⟨a.laid.after (.inline round ctx), distinct,
      a.inFront_frame (Inline.pass_frame g round ctx)⟩
  | fold round ctx =>
    have distinct : (Fold.pass.run round ctx g).graph.Distinct :=
      Fold.runAll_keeps Fold.foldBlock_distinct g.layout a.distinct
    exact ⟨a.laid.after (.fold round ctx), distinct,
      a.inFront_frame (Fold.pass_frame g round ctx)⟩
  | _ => exact a.apply trivial

/-- A property of regions that lasts through edits: splitting a block, a removal that the region
    survives and a merge keep it, and a region that is cut anew from a proper clause has it. -/
structure Lasting (P : Region → Prop) : Prop where
  inherit : ∀ {r} head added, P r → P (r.inherit head added)
  survives : ∀ {r removed}, r.survives removed = true → P r → P (r.without removed)
  merge : ∀ {r pred id}, pred ≠ id → r.membership pred = r.membership id → P r →
    P (r.without [id])
  whole : ∀ {r layout}, r.Whole layout → P r

def Each (P : Region → Prop) (g : Graph) : Prop := ∀ r ∈ g.regions, P r

namespace Lasting
variable {P : Region → Prop}

theorem splitAt (lasting : Lasting P) (each : g.Each P) (id : BlockId) (b : Block) (index : Nat) :
    (g.splitAt id b index).Each P := by
  intro r inside
  obtain ⟨r, was, rfl⟩ := List.mem_map.mp inside
  exact lasting.inherit id g.slots.length (each r was)

theorem remove (lasting : Lasting P) (each : g.Each P) {removed : List BlockId}
    (done : g.remove removed = .ok (n, g')) : g'.Each P := by
  obtain ⟨-, -, rfl⟩ := remove_ok done
  intro r inside
  obtain ⟨r, was, rfl⟩ := List.mem_map.mp inside
  obtain ⟨was, survives⟩ := List.mem_filter.mp was
  exact lasting.survives survives (each r was)

theorem joined (lasting : Lasting P) (each : g.Each P) {pred : BlockId}
    {first second : Block} (j : Joinable g pred id first second) :
    ((g.drop id).modify pred fun b => join b second).Each P := by
  intro r inside
  obtain ⟨r, was, rfl⟩ := List.mem_map.mp inside
  have together : r.membership pred = r.membership id := by
    simpa using List.all_eq_true.mp j.together r was
  exact lasting.merge j.apart together (each r was)

theorem repartition (lasting : Lasting P) (a : g.Arranged) (room : g.RoomToWrite)
    (done : g.repartition = .ok g') : g'.Each P := by
  obtain ⟨body, wrote, cut⟩ := repartition_ok done
  exact fun r inside =>
    lasting.whole (Body.toGraph_guarded (a.proper room wrote).2.2.2 cut r inside)

theorem after (lasting : Lasting P) (l : g.Laid) (each : g.Each P) {e : Edit}
    (arranged : e = .repartition → g.Arranged ∧ g.RoomToWrite) : (e.apply g).Each P := by
  have does := e.does l.listed_of_live
  generalize e.apply g = g' at does ⊢
  cases does with
  | idle | allocInstr => exact each
  | redirect done =>
    obtain ⟨_, _, -, -, -, rfl⟩ := redirect_ok done
    exact each
  | dropTerminator done =>
    obtain ⟨_, -, -, -, rfl⟩ := dropTerminator_ok done
    exact each
  | split => exact lasting.splitAt each _ _ _
  | remove done | removeDead done => exact lasting.remove each done
  | merge => exact mergeUpTo_keeps (fun each j => lasting.joined each j) g.layout.length each
  | repartition done =>
    obtain ⟨a, room⟩ := arranged rfl
    exact lasting.repartition a room done
  | inline round ctx =>
    intro r inside
    rw [(Inline.pass_frame g round ctx).regions] at inside
    exact each r inside
  | fold round ctx =>
    intro r inside
    rw [(Fold.pass_frame g round ctx).regions] at inside
    exact each r inside

theorem afterAll (lasting : Lasting P) (l : g.Laid) (each : g.Each P) {edits : List Edit}
    (arranged : Edit.repartition ∈ edits → g.Arranged ∧ FitsAll g edits) :
    (g.applyAll edits).Each P := by
  induction edits generalizing g with
  | nil => exact each
  | cons e rest ih =>
    have kept : (e.apply g).Each P := by
      refine lasting.after l each fun same => ?_
      subst same
      obtain ⟨a, room, -⟩ := arranged List.mem_cons_self
      exact ⟨a, room⟩
    refine ih (l.after e) kept fun later => ?_
    obtain ⟨a, room, fits⟩ := arranged (List.mem_cons_of_mem e later)
    exact ⟨a.after room, fits⟩

end Lasting

theorem lasting_ranged :
    Lasting fun r => r.tryBlocks ≠ [] ∧ r.handlerBlocks ≠ [] where
  inherit _ _ ranged := ranged.imp Region.insertAfter_ne_nil.mpr Region.insertAfter_ne_nil.mpr
  survives survives _ := by
    obtain ⟨⟨h, first, stays⟩, -, tries⟩ := Region.survives_iff.mp survives
    exact ⟨tries, Region.filter_ne_nil first stays⟩
  merge apart together ranged := by
    simp only [Region.membership, Prod.mk.injEq] at together
    exact ranged.imp (Region.filter_ne_nil_of_together apart together.1)
      (Region.filter_ne_nil_of_together apart together.2.1)
  whole whole := ⟨whole.tries, whole.handles⟩

theorem Ranged.afterAll (ranged : g.Ranged) (l : g.Laid) {edits : List Edit}
    (arranged : Edit.repartition ∈ edits → g.Arranged ∧ FitsAll g edits) :
    (g.applyAll edits).Ranged :=
  lasting_ranged.afterAll l ranged arranged

end Graph

theorem Body.toGraph_ranged {body : Body} {g : Graph}
    (tries : ∀ c ∈ body.clauses, body.Spans c.tryStart c.tryEnd)
    (handles : ∀ c ∈ body.clauses, body.Spans c.handlerStart c.handlerEnd)
    (done : body.toGraph = .ok g) : g.Ranged := by
  obtain ⟨starts, cut, -, rfl⟩ := toGraph_ok done
  intro r inside
  obtain ⟨c, listed, rfl⟩ := List.mem_map.mp inside
  exact cut.ranged listed (tries c listed) (handles c listed)

namespace Graph
variable {g : Graph}

/-- After any edits with any arguments, removing dead blocks succeeds and leaves exactly what
    control reaches, and of the regions those that protect something of it. Where the graph has been
    cut anew on the way, regions need ids of their own and a counter that has not overflowed. -/
theorem live_blocks_survive {body : Body} (cut : body.toGraph = .ok g)
    (tries : ∀ c ∈ body.clauses, body.Spans c.tryStart c.tryEnd)
    (handles : ∀ c ∈ body.clauses, body.Spans c.handlerStart c.handlerEnd) (edits : List Edit) :
    ∃ n g', (g.applyAll edits).removeDead = .ok (n, g') ∧ (g.applyAll edits).Pruned n g' ∧
      ((Edit.repartition ∈ edits → body.Numbered ∧ FitsAll g edits) →
        (g.applyAll edits).RegionsPruned g') := by
  have laid := Body.toGraph_laid cut
  have edited := laid.afterAll edits
  obtain ⟨n, g', done⟩ := edited.exists_removeDead
  refine ⟨n, g', done, edited.pruned done, fun recut => ?_⟩
  have ranged : (g.applyAll edits).Ranged := by
    refine (Body.toGraph_ranged tries handles cut).afterAll laid fun anew => ?_
    obtain ⟨numbered, fits⟩ := recut anew
    exact ⟨Body.toGraph_arranged numbered cut, fits⟩
  exact ranged.pruned edited done

/-- The test is decided, so that what it guards is dead; then the graph is cut anew. -/
theorem guardedTest_live_blocks_survive :
    ∃ g, guardedTest.toGraph = .ok g ∧
      (∀ c ∈ guardedTest.clauses, guardedTest.Spans c.tryStart c.tryEnd ∧
        guardedTest.Spans c.handlerStart c.handlerEnd) ∧ guardedTest.Numbered ∧
      FitsAll g [.fold 0 default, .merge, .repartition] ∧
      ∃ n g', (g.applyAll [.fold 0 default, .merge, .repartition]).removeDead = .ok (n, g') ∧
        (g.applyAll [.fold 0 default, .merge, .repartition]).Pruned n g' ∧
        (g.applyAll [.fold 0 default, .merge, .repartition]).RegionsPruned g' := by
  have numbered : guardedTest.Numbered := ⟨by decide, by decide⟩
  have spans : ∀ c ∈ guardedTest.clauses, guardedTest.Spans c.tryStart c.tryEnd ∧
      guardedTest.Spans c.handlerStart c.handlerEnd := by
    intro c inside
    cases List.mem_singleton.mp inside
    exact ⟨⟨0, 3, rfl, rfl, by decide⟩, ⟨3, 5, rfl, rfl, by decide⟩⟩
  obtain ⟨g, cut, fits⟩ : ∃ g, guardedTest.toGraph = .ok g ∧
      FitsAll g [.fold 0 default, .merge, .repartition] := ⟨_, rfl, by decide +kernel⟩
  obtain ⟨n, g', done, pruned, regions⟩ := live_blocks_survive cut
    (fun c inside => (spans c inside).1) (fun c inside => (spans c inside).2)
    [.fold 0 default, .merge, .repartition]
  exact ⟨g, cut, spans, numbered, fits, n, g', done, pruned, regions fun _ => ⟨numbered, fits⟩⟩

end Graph
end Unravel
