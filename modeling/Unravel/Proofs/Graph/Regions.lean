import Unravel.Proofs.Graph.Reachability

namespace Unravel

/-- The index at which a range ends: that of an instruction, or the end of the body. -/
def Body.stopIndex? (b : Body) : Option InstrId → Option Nat
  | some id => b.index? id
  | none => some b.instrs.length

/-- A range of a body holds an instruction. -/
def Body.Spans (b : Body) (start : InstrId) (stop : Option InstrId) : Prop :=
  ∃ m n, b.index? start = some m ∧ b.stopIndex? stop = some n ∧ m < n

/-- No range of a clause is empty, and a clause has a filter, in front of its handler, exactly if
    its flags say so. -/
structure Clause.Proper (b : Body) (c : Clause) : Prop where
  tries : b.Spans c.tryStart c.tryEnd
  handles : b.Spans c.handlerStart c.handlerEnd
  filters : c.filterStart.isSome = c.flags.isFilter
  inFront : ∀ f, c.filterStart = some f → b.Spans f (some c.handlerStart)

namespace Region

structure Whole (layout : List BlockId) (r : Region) : Prop where
  tries : r.tryBlocks ≠ []
  handles : r.handlerBlocks ≠ []
  filters : r.filterBlocks ≠ [] ↔ r.flags.isFilter = true
  inFront : r.filterBlocks ++ r.handlerBlocks <:+: layout

variable {r : Region} {layout removed : List BlockId}

theorem Whole.without (whole : r.Whole layout) (tries : (r.without removed).tryBlocks ≠ [])
    (handles : (r.without removed).handlerBlocks ≠ [])
    (filters : r.filterBlocks ≠ [] → (r.without removed).filterBlocks ≠ []) :
    (r.without removed).Whole (layout.filter fun b => !removed.contains b) where
  tries := tries
  handles := handles
  filters := by
    refine Iff.trans ⟨?_, filters⟩ whole.filters
    intro left none
    apply left
    simp [Region.without, mapLists, none]
  inFront := by
    have part := whole.inFront.filter fun b => !removed.contains b
    rwa [List.filter_append] at part

theorem head?_without {b : BlockId} {blocks : List BlockId} (first : blocks.head? = some b)
    (stays : b ∉ removed) :
    (blocks.filter fun b => !removed.contains b).head? = some b :=
  Graph.head?_filter first (by simpa using stays)

theorem filter_ne_nil {b : BlockId} {blocks : List BlockId} (first : blocks.head? = some b)
    (stays : b ∉ removed) : (blocks.filter fun b => !removed.contains b) ≠ [] :=
  List.ne_nil_of_mem (List.mem_of_mem_head? (head?_without first stays))

theorem survives_iff : r.survives removed = true ↔
    (∃ b, r.handlerEntry? = some b ∧ b ∉ removed) ∧ (∀ b, r.filterEntry? = some b → b ∉ removed) ∧
      (r.without removed).tryBlocks ≠ [] := by
  cases first : r.handlerEntry? with
  | none => simp [survives, first]
  | some b =>
    have handles : b ∉ removed → (r.without removed).handlerBlocks ≠ [] := filter_ne_nil first
    simp only [survives, first, Option.some.injEq]
    cases filter : r.filterEntry? with
    | none => simp; tauto
    | some f => simp; tauto

theorem Whole.of_survives (whole : r.Whole layout) (survives : r.survives removed = true) :
    (r.without removed).Whole (layout.filter fun b => !removed.contains b) := by
  obtain ⟨⟨b, handler, stays⟩, filter, tries⟩ := survives_iff.mp survives
  refine whole.without tries (filter_ne_nil handler stays) ?_
  intro filtered
  obtain ⟨f, rest, blocks⟩ := List.exists_cons_of_ne_nil filtered
  have first : r.filterEntry? = some f := by rw [ filterEntry?, blocks]; rfl
  exact filter_ne_nil first (filter f first)

theorem filter_ne_nil_of_together {pred id : BlockId} {blocks : List BlockId} (apart : pred ≠ id)
    (together : blocks.contains pred = blocks.contains id) (filled : blocks ≠ []) :
    (blocks.filter fun b => !([id].contains b)) ≠ [] := by
  obtain ⟨b, inside⟩ := List.exists_mem_of_ne_nil blocks filled
  have other : ∃ b ∈ blocks, b ≠ id := by
    by_cases here : b = id
    · subst here
      have there : blocks.contains pred = true := by rw [together]; simpa using inside
      exact ⟨pred, by simpa using there, apart⟩
    · exact ⟨b, inside, here⟩
  obtain ⟨b, inside, away⟩ := other
  exact List.ne_nil_of_mem (List.mem_filter.mpr ⟨inside, by simpa using away⟩)

theorem Whole.of_merge {pred id : BlockId} (whole : r.Whole layout) (apart : pred ≠ id)
    (together : r.membership pred = r.membership id) :
    (r.without [id]).Whole (layout.filter fun b => !([id].contains b)) := by
  simp only [membership, Prod.mk.injEq] at together
  exact whole.without (filter_ne_nil_of_together apart together.1 whole.tries)
    (filter_ne_nil_of_together apart together.2.1 whole.handles)
    (filter_ne_nil_of_together apart together.2.2)

end Region

namespace Graph
variable {g g' : Graph} {id : BlockId} {b : Block}

def Guarded (g : Graph) : Prop := ∀ r ∈ g.regions, r.Whole g.layout

namespace Guarded

theorem remove {removed : List BlockId} {n : Nat} (guarded : g.Guarded)
    (done : g.remove removed = .ok (n, g')) : g'.Guarded := by
  obtain ⟨-, -, rfl⟩ := remove_ok done
  intro r inside
  obtain ⟨r, was, rfl⟩ := List.mem_map.mp inside
  obtain ⟨was, survives⟩ := List.mem_filter.mp was
  exact (guarded r was).of_survives survives

theorem removeDead {n : Nat} (guarded : g.Guarded) (done : g.removeDead = .ok (n, g')) :
    g'.Guarded := by
  rcases removeDead_ok done with ⟨-, -, rfl⟩ | ⟨-, done⟩
  · exact guarded
  · exact guarded.remove done

theorem joined {pred : BlockId} {first second : Block} (guarded : g.Guarded)
    (j : Joinable g pred id first second) :
    ((g.drop id).modify pred fun b => join b second).Guarded := by
  intro r inside
  obtain ⟨r, was, rfl⟩ := List.mem_map.mp inside
  have together : r.membership pred = r.membership id := by
    simpa using List.all_eq_true.mp j.together r was
  have whole := (guarded r was).of_merge j.apart together
  change (r.without [id]).Whole (g.drop id).layout
  rwa [layout_drop]

theorem mergeUpTo (guarded : g.Guarded) (n : Nat) : (g.mergeUpTo n).2.Guarded :=
  mergeUpTo_keeps (fun guarded j => guarded.joined j) n guarded

theorem frame (guarded : g.Guarded) (frame : g.SameFrame g') : g'.Guarded := by
  intro r inside
  rw [frame.regions] at inside
  rw [frame.layout]
  exact guarded r inside

theorem inline (guarded : g.Guarded) (round : Nat) (ctx : PassContext) :
    (Inline.pass.run round ctx g).graph.Guarded :=
  guarded.frame (Inline.pass_frame g round ctx)

theorem fold (guarded : g.Guarded) (round : Nat) (ctx : PassContext) :
    (Fold.pass.run round ctx g).graph.Guarded :=
  guarded.frame (Fold.pass_frame g round ctx)

end Guarded

theorem mem_leadsTo {s : BlockId} : s ∈ g.leadsTo id ↔
    (∃ b, g.block? id = some b ∧ s ∈ b.successors) ∨
      ∃ r ∈ g.regions, id ∈ r.tryBlocks ∧
        (r.handlerEntry? = some s ∨ r.filterEntry? = some s) := by
  rw [leadsTo, List.mem_append]
  refine or_congr ?_ ?_
  · cases live : g.block? id <;> simp [successors, live]
  · simp [Region.entries, and_assoc]

theorem Laid.exists_removeDead (l : g.Laid) : ∃ n g', g.removeDead = .ok (n, g') := by
  unfold Graph.removeDead
  split
  · exact ⟨0, g, rfl⟩
  · refine exists_remove (Reached.entry.stays l) ?_
    simp only [danglingEdge?, List.findSome?_eq_none_iff, List.mem_filter, Option.map_eq_none_iff,
      List.find?_eq_none, Bool.not_eq_true', List.contains_eq_mem, decide_eq_false_iff_not,
      decide_eq_true_eq]
    rintro b ⟨listed, stays⟩ s leads
    obtain ⟨id, laidOut, live⟩ := mem_blocks.mp listed
    rw [l.named live] at stays
    have reached : g.Reached id := by
      by_contra dead
      exact stays ((mem_unreachable l).mpr ⟨laidOut, dead⟩)
    exact reached.leads_stays l (mem_leadsTo.mpr (.inl ⟨b, live, leads⟩))

theorem survives_of_reached (l : g.Laid) {r : Region} (inside : r ∈ g.regions)
    (handles : r.handlerBlocks ≠ []) {a : BlockId} (tried : a ∈ r.tryBlocks)
    (reached : g.Reached a) : r.survives g.unreachable = true := by
  have enters : ∀ {s}, r.handlerEntry? = some s ∨ r.filterEntry? = some s →
      s ∉ g.unreachable := by
    intro s entry
    exact reached.leads_stays l (mem_leadsTo.mpr (.inr ⟨r, inside, tried, entry⟩))
  obtain ⟨h, rest, blocks⟩ := List.exists_cons_of_ne_nil handles
  have first : r.handlerEntry? = some h := by rw [ Region.handlerEntry?, blocks]; rfl
  refine Region.survives_iff.mpr ⟨⟨h, first, enters (.inl first)⟩, fun f entry =>
    enters (.inr entry), ?_⟩
  exact List.ne_nil_of_mem (List.mem_filter.mpr ⟨tried, by simpa using reached.stays l⟩)

/-- A region with a filter has a handler, too. -/
def Handled (g : Graph) : Prop := ∀ r ∈ g.regions, r.filterBlocks ≠ [] → r.handlerBlocks ≠ []

theorem Guarded.handled (guarded : g.Guarded) : g.Handled :=
  fun r inside _ => (guarded r inside).handles

theorem Handled.handles (handled : g.Handled) {r : Region} (inside : r ∈ g.regions) {s : BlockId}
    (entry : r.handlerEntry? = some s ∨ r.filterEntry? = some s) : r.handlerBlocks ≠ [] := by
  rcases entry with handler | filter
  · exact List.ne_nil_of_mem (List.mem_of_mem_head? handler)
  · exact handled r inside (List.ne_nil_of_mem (List.mem_of_mem_head? filter))

theorem leadsTo_remove {n : Nat} (l : g.Laid) (handled : g.Handled)
    (done : g.remove g.unreachable = .ok (n, g')) {a s : BlockId} (reached : g.Reached a)
    (leads : s ∈ g.leadsTo a) : s ∈ g'.leadsTo a := by
  have away := reached.leads_stays l leads
  rw [mem_leadsTo] at leads ⊢
  rcases leads with ⟨b, here, leads⟩ | ⟨r, inside, tried, entry⟩
  · refine .inl ⟨pruneEdges g.unreachable b, ?_, ?_⟩
    · rw [block?_remove done, if_neg (reached.stays l), here]
      rfl
    · rw [successors_pruneEdges]
      · exact leads
      · exact fun t leads => reached.leads_stays l (mem_leadsTo.mpr (.inl ⟨b, here, leads⟩))
  · have survives := survives_of_reached l inside (handled.handles inside entry) tried reached
    obtain ⟨-, -, rfl⟩ := remove_ok done
    refine .inr ⟨r.without g.unreachable, ?_, ?_, ?_⟩
    · exact List.mem_map_of_mem (List.mem_filter.mpr ⟨inside, survives⟩)
    · exact List.mem_filter.mpr ⟨tried, by simpa using reached.stays l⟩
    · exact entry.imp (fun entry => Region.head?_without entry away)
        fun entry => Region.head?_without entry away

/-- What is left after the removal of dead blocks is reached, also where a region has neither
    handler nor filter. -/
theorem Handled.reached_removeDead {n : Nat} (handled : g.Handled) (l : g.Laid)
    (done : g.removeDead = .ok (n, g')) {id : BlockId} (live : g'.contains id = true) :
    g'.Reached id := by
  rcases removeDead_ok done with ⟨none, -, rfl⟩ | ⟨-, done⟩
  · exact (unreachable_eq_nil l).mp none id ((l.listed id).mpr live)
  · have entry : g'.entry = g.entry := by
      obtain ⟨-, -, rfl⟩ := remove_ok done
      rfl
    have left : ∀ {s}, g.Reached s → g'.contains s = true := fun reached =>
      (contains_remove done _).mpr ⟨reached.live l, reached.stays l⟩
    have kept : ∀ {s}, g.Reached s → g'.Reached s := by
      intro s reached
      induction reached with
      | entry =>
        rw [← entry]
        exact .entry
      | step from_ leads alive ih =>
        exact ih.step (leadsTo_remove l handled done from_ leads) (left (from_.step leads alive))
    obtain ⟨was, stays⟩ := (contains_remove done id).mp live
    apply kept
    by_contra dead
    exact stays ((mem_unreachable l).mpr ⟨(l.listed id).mpr was, dead⟩)

theorem reached_removeDead {n : Nat} (l : g.Laid) (guarded : g.Guarded)
    (done : g.removeDead = .ok (n, g')) {id : BlockId} (live : g'.contains id = true) :
    g'.Reached id :=
  guarded.handled.reached_removeDead l done live

end Graph

namespace Body
variable {body : Body} {starts : List Nat}

theorem stop_of_stopIndex? {stop : Option InstrId} {n : Nat}
    (found : body.stopIndex? stop = some n) :
    (stop.map fun id => (body.index? id).getD 0).getD body.instrs.length = n := by
  cases stop with
  | none => simpa [stopIndex?] using found
  | some id =>
    have index : body.index? id = some n := found
    simp [index]

theorem ranges_regionOf (starts : List Nat) {c : Clause} {a z h e : Nat}
    (tryStart : body.index? c.tryStart = some a)
    (tryStop : body.stopIndex? c.tryEnd = some z)
    (handlerStart : body.index? c.handlerStart = some h)
    (handlerStop : body.stopIndex? c.handlerEnd = some e) :
    (body.regionOf starts c).tryBlocks = covered starts a z ∧
      (body.regionOf starts c).handlerBlocks = covered starts h e ∧
      (∀ id f, c.filterStart = some id → body.index? id = some f →
        (body.regionOf starts c).filterBlocks = covered starts f h) := by
  refine ⟨?_, ?_, ?_⟩
  · simp only [regionOf, tryStart, Option.getD_some, stop_of_stopIndex? tryStop]
  · simp only [regionOf, handlerStart, Option.getD_some, stop_of_stopIndex? handlerStop]
  · intro id f filter found
    simp only [regionOf, filter, found, handlerStart, Option.getD_some]

theorem Cut.covered_ne_nil (cut : Cut body starts) {c : Clause} (inside : c ∈ body.clauses)
    {id : InstrId} (bound : id ∈ c.bounds) {a z : Nat} (index : body.index? id = some a)
    (below : a < z) : covered starts a z ≠ [] := by
  obtain ⟨n, listed, found⟩ := cut.bounds c inside id bound
  rw [index] at found
  cases found
  obtain ⟨k, here⟩ := List.getElem?_of_mem listed
  exact List.ne_nil_of_mem (mem_covered.mpr ⟨a, here, Nat.le_refl a, below⟩)

theorem Cut.ranged (cut : Cut body starts) {c : Clause} (inside : c ∈ body.clauses)
    (tries : body.Spans c.tryStart c.tryEnd) (handles : body.Spans c.handlerStart c.handlerEnd) :
    (body.regionOf starts c).tryBlocks ≠ [] ∧ (body.regionOf starts c).handlerBlocks ≠ [] := by
  obtain ⟨a, z, tryStart, tryStop, tries⟩ := tries
  obtain ⟨h, e, handlerStart, handlerStop, handles⟩ := handles
  obtain ⟨tried, handled, -⟩ := ranges_regionOf starts tryStart tryStop handlerStart handlerStop
  rw [tried, handled]
  exact ⟨cut.covered_ne_nil inside (by simp [Clause.bounds]) tryStart tries,
    cut.covered_ne_nil inside (by simp [Clause.bounds]) handlerStart handles⟩

theorem Cut.whole (cut : Cut body starts) {c : Clause} (inside : c ∈ body.clauses)
    (proper : c.Proper body) : (body.regionOf starts c).Whole (List.range starts.length) := by
  obtain ⟨tries, handles⟩ := cut.ranged inside proper.tries proper.handles
  obtain ⟨a, z, tryStart, tryStop, -⟩ := proper.tries
  obtain ⟨h, e, handlerStart, handlerStop, below⟩ := proper.handles
  obtain ⟨-, handled, filtered⟩ :=
    ranges_regionOf starts tryStart tryStop handlerStart handlerStop
  have flags : (body.regionOf starts c).flags = c.flags := rfl
  refine ⟨tries, handles, ?_, ?_⟩
  · rw [flags, ← proper.filters]
    cases filter : c.filterStart with
    | none => simp [regionOf, filter]
    | some id =>
      obtain ⟨f, h', found, again, before⟩ := proper.inFront id filter
      rw [show body.index? c.handlerStart = some h' from again] at handlerStart
      cases handlerStart
      rw [filtered id f filter found]
      simp only [Option.isSome_some, iff_true]
      exact cut.covered_ne_nil inside (by simp [Clause.bounds, filter]) found before
  · rw [handled]
    cases filter : c.filterStart with
    | none =>
      have none : (body.regionOf starts c).filterBlocks = [] := by simp [regionOf, filter]
      rw [none]
      exact covered_isInfix cut.sorted h e
    | some id =>
      obtain ⟨f, h', found, again, before⟩ := proper.inFront id filter
      rw [show body.index? c.handlerStart = some h' from again] at handlerStart
      cases handlerStart
      rw [filtered id f filter found,
        covered_append cut.sorted (Nat.le_of_lt before) (Nat.le_of_lt below)]
      exact covered_isInfix cut.sorted f e

theorem toGraph_guarded {g : Graph} (proper : ∀ c ∈ body.clauses, c.Proper body)
    (done : body.toGraph = .ok g) : g.Guarded := by
  obtain ⟨starts, cut, -, rfl⟩ := toGraph_ok done
  have size : (body.cutBlocks starts).length = starts.length := length_blocksFrom ..
  intro r inside
  obtain ⟨c, listed, rfl⟩ := List.mem_map.mp inside
  rw [graphOf, size]
  exact cut.whole listed (proper c listed)

end Body
end Unravel
