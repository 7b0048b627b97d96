import Unravel.Proofs.Flow.Coverage

namespace Unravel

theorem mapM_filterMap {ε α β : Type} {f : α → Option β} {back : β → Except ε α} {xs : List α}
    (each : ∀ x ∈ xs, ∃ y, f x = some y ∧ back y = .ok x) :
    (xs.filterMap f).mapM back = .ok xs := by
  induction xs with
  | nil => rfl
  | cons x rest ih =>
    obtain ⟨y, found, again⟩ := each x List.mem_cons_self
    rw [List.filterMap_cons_some found, mapM_ok_iff]
    refine .cons again (mapM_ok_iff.mp ?_)
    exact ih fun z inside => each z (List.mem_cons_of_mem x inside)

theorem freshId_le {instrs : List Instr} {n : InstrId} (below : ∀ i ∈ instrs, i.id < n) :
    freshId instrs ≤ n := by
  have grows : ∀ {low : Nat}, low ≤ n →
      instrs.foldl (fun m i => max m (InstrId.succ i.id)) low ≤ n := by
    induction instrs with
    | nil => exact fun start => start
    | cons i rest ih =>
      intro low start
      refine ih (fun j inside => below j (List.mem_cons_of_mem i inside))
        (Nat.max_le.mpr ⟨start, ?_⟩)
      have here : i.id + 1 ≤ n := below i List.mem_cons_self
      exact Nat.le_trans (Nat.min_le_left _ _) here
  exact grows (Nat.zero_le n)

namespace Graph
variable {g : Graph} {b : Block}

theorem jumpBehind_next {next : Option BlockId} (falls : b.fall = next)
    (ends : Body.isOpenEnd b = false) : jumpBehind b next = .ok none := by
  subst falls
  unfold jumpBehind
  split
  case h_1 fall | h_2 fall | h_3 fall => rw [if_pos fall.symm]
  case h_4 kind none | h_5 kind none => simp [Body.isOpenEnd, kind, none] at ends
  case h_6 none => simp [none]
  case h_7 => rfl

theorem pieces_of_next {ids : List BlockId} (fresh : InstrId)
    (each : ∀ k id, ids[k]? = some id → ∃ b link, g.block? id = some b ∧ lastLink b = .ok link ∧
      jumpBehind b ids[k + 1]? = .ok none) :
    ∃ written, g.pieces fresh ids = .ok (written, fresh) := by
  induction ids with
  | nil => exact ⟨[], rfl⟩
  | cons id rest ih =>
    obtain ⟨b, link, live, linked, behind⟩ := each 0 id rfl
    obtain ⟨more, later⟩ := ih fun k other here => each (k + 1) other here
    have behind : jumpBehind b rest.head? = .ok none := by
      rw [List.head?_eq_getElem?]
      exact behind
    refine ⟨⟨id, draftCode link b.instrs⟩ :: more, ?_⟩
    rw [pieces]
    simp only [live, linked, behind, later, bind, Except.bind]
    rfl

end Graph

namespace Body
variable {body : Body} {starts : List Nat} {g : Graph}

/-- The index at which a block starts; behind the last block, the end of the body. -/
def startAt (body : Body) (starts : List Nat) (k : Nat) : Nat :=
  starts[k]?.getD body.instrs.length

theorem stopOf_eq (body : Body) (starts : List Nat) (k : Nat) :
    body.stopOf starts k = body.startAt starts (k + 1) := rfl

theorem startAt_eq (body : Body) {k start : Nat} (here : starts[k]? = some start) :
    body.startAt starts k = start := by
  rw [startAt, here, Option.getD_some]

theorem startAt_end (body : Body) (starts : List Nat) :
    body.startAt starts starts.length = body.instrs.length := by
  rw [startAt, List.getElem?_eq_none (Nat.le_refl _), Option.getD_none]

namespace Cut

theorem startAt_lt (cut : Cut body starts) {k m : Nat} (before : k < m)
    (within : m ≤ starts.length) : body.startAt starts k < body.startAt starts m := by
  have here : k < starts.length := by omega
  rw [startAt, List.getElem?_eq_getElem here, Option.getD_some]
  rcases Nat.lt_or_eq_of_le within with inside | rfl
  · rw [startAt, List.getElem?_eq_getElem inside, Option.getD_some]
    exact List.pairwise_iff_getElem.mp cut.sorted k m here inside before
  · rw [startAt_end]
    exact cut.within _ (List.getElem_mem here)

theorem startAt_lt_iff (cut : Cut body starts) {k m : Nat} (here : k ≤ starts.length)
    (there : m ≤ starts.length) :
    body.startAt starts k < body.startAt starts m ↔ k < m := by
  refine ⟨fun less => ?_, fun before => cut.startAt_lt before there⟩
  by_contra behind
  rcases Nat.lt_or_eq_of_le (Nat.not_lt.mp behind) with after | rfl
  · have := cut.startAt_lt after here
    omega
  · exact absurd less (Nat.lt_irrefl _)

theorem covered_startAt (cut : Cut body starts) {k m : Nat} (here : k ≤ starts.length)
    (there : m ≤ starts.length) :
    covered starts (body.startAt starts k) (body.startAt starts m) = List.range' k (m - k) := by
  have increasing := List.pairwise_lt_range.sublist
    (covered_isInfix cut.sorted (body.startAt starts k) (body.startAt starts m)).sublist
  have members : ∀ j : Nat, j ∈ covered starts (body.startAt starts k) (body.startAt starts m) ↔
      j ∈ List.range' k (m - k) := by
    intro j
    rw [mem_covered, List.mem_range'_1]
    constructor
    · rintro ⟨s, found, above, below⟩
      have inside := (List.getElem?_eq_some_iff.mp found).1
      rw [← startAt_eq body found] at above below
      have after := (cut.startAt_lt_iff (Nat.le_of_lt inside) there).mp below
      have before := mt (cut.startAt_lt_iff (Nat.le_of_lt inside) here).mpr (Nat.not_lt.mpr above)
      omega
    · rintro ⟨above, below⟩
      have before : ¬ j < k := Nat.not_lt.mpr above
      have inside : j < starts.length := by omega
      refine ⟨starts[j], List.getElem?_eq_getElem inside, ?_, ?_⟩
      · rw [← startAt_eq body (List.getElem?_eq_getElem inside)]
        exact Nat.not_lt.mp (mt (cut.startAt_lt_iff (Nat.le_of_lt inside) here).mp before)
      · rw [← startAt_eq body (List.getElem?_eq_getElem inside)]
        exact cut.startAt_lt (by omega) there
  have same :=
    (List.perm_ext_iff_of_nodup (increasing.imp Nat.ne_of_lt) List.nodup_range').mpr members
  exact same.eq_of_pairwise (fun _ _ _ _ one other => absurd one (Nat.lt_asymm other)) increasing
    List.pairwise_lt_range'

theorem fall (cut : Cut body starts) {k start : Nat} (here : starts[k]? = some start) :
    (body.blockOf starts k start (body.stopOf starts k)).fall =
      (List.range starts.length)[k + 1]? := by
  have inside := (List.getElem?_eq_some_iff.mp here).1
  have more : body.stopOf starts k < body.instrs.length ↔ k + 1 < starts.length := by
    rw [stopOf_eq, ← startAt_end body starts]
    exact cut.startAt_lt_iff inside (Nat.le_refl _)
  by_cases next : k + 1 < starts.length
  · simp [blockOf, more.mpr next, next]
  · simp [blockOf, mt more.mp next, next]

theorem exists_start_of_bound (cut : Cut body starts) {c : Clause} (inside : c ∈ body.clauses)
    {id : InstrId} (bound : id ∈ c.bounds) {n : Nat} (index : body.index? id = some n) :
    ∃ k < starts.length, body.startAt starts k = n := by
  obtain ⟨n', listed, index'⟩ := cut.bounds c inside id bound
  cases index.symm.trans index'
  obtain ⟨k, here⟩ := List.getElem?_of_mem listed
  exact ⟨k, (List.getElem?_eq_some_iff.mp here).1, startAt_eq body here⟩

theorem exists_stop_of_bound (cut : Cut body starts) {c : Clause} (inside : c ∈ body.clauses)
    {stop : Option InstrId} (bound : ∀ id, stop = some id → id ∈ c.bounds) {n : Nat}
    (index : body.stopIndex? stop = some n) : ∃ k ≤ starts.length, body.startAt starts k = n := by
  cases stop with
  | none =>
    cases index
    exact ⟨starts.length, Nat.le_refl _, startAt_end body starts⟩
  | some id =>
    obtain ⟨k, below, same⟩ := cut.exists_start_of_bound inside (bound id rfl) index
    exact ⟨k, Nat.le_of_lt below, same⟩

end Cut

theorem id_of_index? {id : InstrId} {n : Nat} (index : body.index? id = some n) :
    (body.instrs.map Instr.id)[n]? = some id := by
  rw [List.getElem?_map]
  exact id_of_lastIndex? index

theorem id_of_stopIndex? {stop : Option InstrId} {n : Nat} (index : body.stopIndex? stop = some n) :
    (body.instrs.map Instr.id)[n]? = stop := by
  cases stop with
  | none =>
    cases index
    rw [List.getElem?_eq_none (by simp)]
  | some id => exact id_of_index? index

structure Rewrites (body : Body) (starts : List Nat) (g : Graph) (written : List Graph.Piece) :
    Prop where
  from_ : CutFrom body starts g
  ends : (body.cutBlocks starts).any isOpenEnd = false
  pieces : ∃ fresh last : InstrId, g.pieces fresh g.layout = .ok (written, last)

theorem closed_blockOf (ends : (body.cutBlocks starts).any isOpenEnd = false) {k start : Nat}
    (here : starts[k]? = some start) :
    isOpenEnd (body.blockOf starts k start (body.stopOf starts k)) = false := by
  rw [List.any_eq_false] at ends
  have listed : (body.cutBlocks starts)[k]? =
      some (body.blockOf starts k start (body.stopOf starts k)) := by
    rw [getElem?_cutBlocks, here]
    rfl
  simpa using ends _ (List.mem_of_getElem? listed)

namespace Rewrites
variable {written : List Graph.Piece}

theorem blocks (w : Rewrites body starts g written) :
    written.map Graph.Piece.block = List.range starts.length := by
  obtain ⟨fresh, last, done⟩ := w.pieces
  rw [(Graph.pieces_at done).1, w.from_.layout]

theorem length (w : Rewrites body starts g written) : written.length = starts.length := by
  rw [← List.length_map, w.blocks, List.length_range]

theorem piece (w : Rewrites body starts g written) {k : Nat} {p : Graph.Piece}
    (here : written[k]? = some p) :
    ∃ start link, starts[k]? = some start ∧ p.block = k ∧
      Graph.lastLink (body.blockOf starts k start (body.stopOf starts k)) = .ok link ∧
      p.code =
        Graph.draftCode link (body.blockOf starts k start (body.stopOf starts k)).instrs := by
  have inside := (List.getElem?_eq_some_iff.mp here).1
  rw [w.length] at inside
  have named : p.block = k := by
    have found : (written.map Graph.Piece.block)[k]? = some p.block := by
      rw [List.getElem?_map, here, Option.map_some]
    rw [w.blocks, List.getElem?_range inside] at found
    exact (Option.some.inj found).symm
  have start : starts[k]? = some starts[k] := List.getElem?_eq_getElem inside
  obtain ⟨fresh, last, done⟩ := w.pieces
  obtain ⟨b, link, jump, f, piece⟩ := (Graph.pieces_at done).2 here
  have live := piece.live
  rw [named, w.from_.block start] at live
  cases live
  have unmoved := Graph.jumpBehind_next (w.from_.cut.fall start) (closed_blockOf w.ends start)
  rw [← w.from_.layout] at unmoved
  cases unmoved.symm.trans piece.behind
  exact ⟨starts[k], link, start, named, piece.linked, by simpa using piece.code⟩

theorem codeBefore (w : Rewrites body starts g written) {k : Nat} (within : k ≤ starts.length) :
    Graph.codeBefore written k = body.startAt starts k := by
  induction k with
  | zero =>
    rw [startAt_eq body (by rw [← List.head?_eq_getElem?, w.from_.cut.first])]
    rfl
  | succ k ih =>
    have bound : k < written.length := by rw [w.length]; omega
    have here : written[k]? = some written[k] := List.getElem?_eq_getElem bound
    obtain ⟨start, link, found, -, -, code⟩ := w.piece here
    obtain ⟨before, inside, -⟩ := w.from_.cut.gap found
    rw [Graph.codeBefore_succ here, ih (by omega), code, Graph.length_draftCode,
      length_blockOf starts k before inside, startAt_eq body found, ← stopOf_eq]
    omega

theorem size (w : Rewrites body starts g written) :
    (written.flatMap Graph.Piece.code).length = body.instrs.length := by
  have whole := w.codeBefore (Nat.le_refl starts.length)
  rw [startAt_end, ← w.length, Graph.codeBefore, List.take_length] at whole
  exact whole

theorem draft (w : Rewrites body starts g written) {n : Nat} {i : Instr}
    (here : body.instrs[n]? = some i) :
    ∃ link, (written.flatMap Graph.Piece.code)[n]? = some ⟨i, link⟩ ∧
      (link = .kept ∨ ∃ k start, starts[k]? = some start ∧
        (body.blockOf starts k start (body.stopOf starts k)).instrs.getLast? = some i ∧
        Graph.lastLink (body.blockOf starts k start (body.stopOf starts k)) = .ok link) := by
  have inside := (List.getElem?_eq_some_iff.mp here).1
  rw [← w.size] at inside
  obtain ⟨k, p, j, there, bound, rfl⟩ := Graph.exists_piece inside
  obtain ⟨start, link, found, -, linked, code⟩ := w.piece there
  obtain ⟨before, within, -⟩ := w.from_.cut.gap found
  have drafted := Graph.getElem?_written there bound
  rw [code, Graph.length_draftCode, length_blockOf starts k before within] at bound
  rw [w.codeBefore (Nat.le_of_lt (List.getElem?_eq_some_iff.mp found).1), startAt_eq body found]
    at here
  have own : (body.blockOf starts k start (body.stopOf starts k)).instrs[j]? = some i := by
    rw [getElem?_blockOf body starts k (by omega), here]
  have length := length_blockOf starts k before within
  rw [drafted, code]
  rcases Nat.lt_or_eq_of_le (Nat.succ_le_of_lt bound) with early | final
  · exact ⟨.kept, Graph.getElem?_draftCode_early own (by omega), .inl rfl⟩
  · refine ⟨link, Graph.getElem?_draftCode_last own (by omega), .inr ⟨k, start, found, ?_, linked⟩⟩
    rw [List.getLast?_eq_getElem?, length, ← own]
    congr 1
    omega

theorem ids (w : Rewrites body starts g written) :
    Graph.writtenIds written = body.instrs.map Instr.id := by
  apply List.ext_getElem?
  intro n
  rw [Graph.writtenIds, List.getElem?_map, List.getElem?_map]
  cases here : body.instrs[n]? with
  | some i =>
    obtain ⟨link, drafted, -⟩ := w.draft here
    rw [drafted]
    rfl
  | none =>
    rw [List.getElem?_eq_none_iff, ← w.size, ← List.getElem?_eq_none_iff] at here
    rw [here]
    rfl

theorem nodup (w : Rewrites body starts g written) : (written.map Graph.Piece.block).Nodup := by
  rw [w.blocks]
  exact List.nodup_range

theorem startId (w : Rewrites body starts g written) {t : InstrId} {k : BlockId}
    (found : body.blockAt? starts t = some k) :
    Graph.startId (Graph.writtenIds written) (Graph.extents 0 written) k = .ok t := by
  obtain ⟨n, index, start⟩ := getElem?_of_blockAt? found
  have inside := (List.getElem?_eq_some_iff.mp start).1
  have bound : k < written.length := by rw [w.length]; exact inside
  have here : written[k]? = some written[k] := List.getElem?_eq_getElem bound
  obtain ⟨-, -, -, named, -⟩ := w.piece here
  have extent := Graph.find?_extents w.nodup here
  rw [named] at extent
  simp only [Graph.startId, extent, Option.bind_some, Graph.extentOf,
    w.codeBefore (Nat.le_of_lt inside), startAt_eq body start, w.ids, id_of_index? index]

theorem link (w : Rewrites body starts g written) (wired : body.Wired) {n : Nat} {i : Instr}
    (here : body.instrs[n]? = some i) :
    ∃ d, (written.flatMap Graph.Piece.code)[n]? = some d ∧
      Graph.linkDraft (Graph.startId (Graph.writtenIds written) (Graph.extents 0 written)) d =
        .ok i := by
  have listed := List.mem_of_getElem? here
  obtain ⟨link, drafted, rfl | ⟨k, start, found, ends, linked⟩⟩ := w.draft here
  · exact ⟨_, drafted, rfl⟩
  · refine ⟨_, drafted, ?_⟩
    have kind : (body.blockOf starts k start (body.stopOf starts k)).kind = .ofFlow i.flow := by
      rw [Block.kind, ends]
    have targets := targets_blockOf ends
    have jump : i.flow = .unconditional ∨ i.flow = .leave ∨ i.flow = .conditional →
        ∃ t k, i.operand = .target t ∧ body.blockAt? starts t = some k ∧
          i.targets.filterMap (body.blockAt? starts) = [k] := by
      intro flow
      obtain ⟨t, operand⟩ := wired.jumps i listed flow
      have jumps : i.isJump = true := by
        rw [Instr.isJump]
        rcases flow with flow | flow | flow <;> rw [flow] <;> rfl
      have goes : i.targets = [t] := by simp [Instr.targets, operand, jumps]
      obtain ⟨k, found⟩ := w.from_.cut.exists_blockAt? listed (t := t) (by simp [goes])
      exact ⟨t, k, operand, found, by simp [goes, found]⟩
    unfold Graph.lastLink at linked
    rw [kind, targets] at linked
    cases flow : i.flow with
    | unconditional | leave | conditional =>
      obtain ⟨t, k, operand, found, only⟩ := jump (by simp [flow])
      rw [flow, only] at linked
      cases linked
      simp only [Graph.linkDraft, w.startId found, Except.map, ← operand]
    | switch =>
      obtain ⟨ts, operand⟩ := wired.switches i listed flow
      have goes : i.targets = ts := by
        simp [Instr.targets, operand, Opcode.eq_switch_of_flow flow]
      rw [flow, goes] at linked
      cases linked
      have back : (ts.filterMap (body.blockAt? starts)).mapM
          (Graph.startId (Graph.writtenIds written) (Graph.extents 0 written)) = .ok ts := by
        refine mapM_filterMap fun t inside => ?_
        obtain ⟨k, found⟩ := w.from_.cut.exists_blockAt? listed (t := t) (by rwa [goes])
        exact ⟨k, found, w.startId found⟩
      simp only [Graph.linkDraft, back, Except.map, ← operand]
    | _ =>
      rw [flow] at linked
      cases linked
      rfl

theorem linkAll (w : Rewrites body starts g written) (wired : body.Wired) :
    (written.flatMap Graph.Piece.code).mapM
      (Graph.linkDraft (Graph.startId (Graph.writtenIds written) (Graph.extents 0 written))) =
        .ok body.instrs := by
  rw [mapM_ok_iff, List.forall₂_iff_get]
  refine ⟨w.size, fun n inside bound => ?_⟩
  obtain ⟨d, drafted, linked⟩ := w.link wired (List.getElem?_eq_getElem bound)
  rw [List.getElem?_eq_getElem inside] at drafted
  cases drafted
  exact linked

theorem takes (w : Rewrites body starts g written) {k m : Nat} (order : k ≤ m)
    (within : m ≤ starts.length) :
    Graph.Takes written (covered starts (body.startAt starts k) (body.startAt starts m))
      (body.startAt starts k) (body.startAt starts m) := by
  rw [w.from_.cut.covered_startAt (Nat.le_trans order within) within]
  refine ⟨List.range k, List.range' m (starts.length - m), ?_, ?_, ?_⟩
  · rw [w.blocks, List.range_eq_range', List.range_eq_range']
    have first := List.range'_append_1 (s := 0) (m := k) (n := m - k)
    have second := List.range'_append_1 (s := 0) (m := k + (m - k)) (n := starts.length - m)
    rw [Nat.zero_add] at first second
    rw [first, Nat.add_sub_cancel' order]
    rw [Nat.add_sub_cancel' order, Nat.add_sub_cancel' within] at second
    exact second.symm
  · rw [List.length_range, w.codeBefore (Nat.le_trans order within)]
  · rw [List.length_range, List.length_range', Nat.add_sub_cancel' order, w.codeBefore within]

theorem filled (w : Rewrites body starts g written) : ∀ p ∈ written, 0 < p.code.length := by
  intro p inside
  obtain ⟨k, here⟩ := List.getElem?_of_mem inside
  obtain ⟨start, link, found, -, -, code⟩ := w.piece here
  obtain ⟨before, within, -⟩ := w.from_.cut.gap found
  rw [code, Graph.length_draftCode, length_blockOf starts k before within]
  omega

theorem span (w : Rewrites body starts g written) {c : Clause} (inside : c ∈ body.clauses)
    {start : InstrId} {stop : Option InstrId} {a z : Nat} (index : body.index? start = some a)
    (end_ : body.stopIndex? stop = some z) (order : a < z) (first : start ∈ c.bounds)
    (last : ∀ id, stop = some id → id ∈ c.bounds) :
    Graph.span? (Graph.extents 0 written) (covered starts a z) = some (a, z) := by
  obtain ⟨k, within, rfl⟩ := w.from_.cut.exists_start_of_bound inside first index
  obtain ⟨m, within', rfl⟩ := w.from_.cut.exists_stop_of_bound inside last end_
  have before := (w.from_.cut.startAt_lt_iff (Nat.le_of_lt within) within').mp order
  refine (w.takes (Nat.le_of_lt before) within').span?_eq w.nodup w.filled ?_
  rw [w.from_.cut.covered_startAt (Nat.le_of_lt within) within']
  simp [List.range'_eq_nil_iff]
  omega

theorem clause (w : Rewrites body starts g written) {c : Clause} (inside : c ∈ body.clauses)
    (proper : c.Proper body) :
    Graph.clauseOf? (Graph.writtenIds written) (Graph.extents 0 written) (body.regionOf starts c) =
      some c := by
  obtain ⟨a, z, tryStart, tryStop, tries⟩ := proper.tries
  obtain ⟨h, e, handlerStart, handlerStop, handles⟩ := proper.handles
  obtain ⟨tried, handled, filtered⟩ :=
    ranges_regionOf starts tryStart tryStop handlerStart handlerStop
  have flags : (body.regionOf starts c).flags = c.flags := rfl
  have catchType : (body.regionOf starts c).catchType = c.catchType := rfl
  have trySpan := w.span inside tryStart tryStop tries (by simp [Clause.bounds])
    fun id same => by simp [Clause.bounds, same]
  have handlerSpan := w.span inside handlerStart handlerStop handles (by simp [Clause.bounds])
    fun id same => by simp [Clause.bounds, same]
  have filters := proper.filters
  simp only [Graph.clauseOf?, tried, handled, flags, catchType, trySpan, handlerSpan, w.ids,
    id_of_index? tryStart, id_of_stopIndex? tryStop, id_of_index? handlerStart,
    id_of_stopIndex? handlerStop, Option.bind_eq_bind, Option.bind_some, Option.pure_def]
  cases filter : c.filterStart with
  | none =>
    rw [filter, Option.isSome_none] at filters
    simp only [← filters, Bool.false_eq_true, if_false, ← filter]
  | some id =>
    rw [filter, Option.isSome_some] at filters
    obtain ⟨f, h', found, again, before⟩ := proper.inFront id filter
    cases (show body.index? c.handlerStart = some h' from again).symm.trans handlerStart
    have filterSpan := w.span inside found again before (by simp [Clause.bounds, filter])
      fun _ same => by cases same; simp [Clause.bounds]
    simp only [← filters, if_true, filtered id f filter found, filterSpan, id_of_index? found,
      Option.bind_some]
    rw [← filter]

theorem clauses (w : Rewrites body starts g written)
    (proper : ∀ c ∈ body.clauses, c.Proper body) :
    g.regions.filterMap (Graph.clauseOf? (Graph.writtenIds written) (Graph.extents 0 written)) =
      body.clauses := by
  rw [w.from_.regions, List.filterMap_map]
  conv_rhs => rw [← @List.filterMap_some _ body.clauses]
  exact List.filterMap_congr fun c inside => w.clause inside (proper c inside)

end Rewrites

theorem toBody_toGraph (cut : body.toGraph = .ok g) (wired : body.Wired)
    (fresh : ∀ i ∈ body.instrs, i.id < body.nextId)
    (proper : ∀ c ∈ body.clauses, c.Proper body) : g.toBody = .ok body.placed := by
  have laid := toGraph_laid cut
  obtain ⟨starts, isCut, ends, made⟩ := toGraph_ok cut
  have from_ : CutFrom body starts g := by
    subst made
    exact ⟨isCut, rfl, rfl, congrArg List.range (length_blocksFrom ..), rfl⟩
  have each : ∀ k id, g.layout[k]? = some id → ∃ b link, g.block? id = some b ∧
      Graph.lastLink b = .ok link ∧ Graph.jumpBehind b g.layout[k + 1]? = .ok none := by
    intro k id here
    rw [from_.layout] at here ⊢
    have inside : k < starts.length := by simpa using (List.getElem?_eq_some_iff.mp here).1
    rw [List.getElem?_range inside] at here
    cases here
    have start : starts[k]? = some starts[k] := List.getElem?_eq_getElem inside
    obtain ⟨link, linked⟩ := Graph.exists_lastLink (isCut.targets_ne_nil wired.jumps start)
    exact ⟨_, link, from_.block start, linked,
      Graph.jumpBehind_next (isCut.fall start) (closed_blockOf ends start)⟩
  obtain ⟨written, done⟩ := Graph.pieces_of_next g.nextInstr each
  have w : Rewrites body starts g written := ⟨from_, ends, _, _, done⟩
  have most : max (freshId body.instrs) body.nextId = body.nextId :=
    Nat.max_eq_right (freshId_le fresh)
  have nextInstr : g.nextInstr = body.nextId := by rw [made]; rfl
  have locals : g.locals = body.locals := by rw [made]; rfl
  have maxStack : g.maxStack = body.maxStack := by rw [made]; rfl
  rw [Graph.toBody_eq laid done, w.linkAll wired, w.clauses proper, Except.map, nextInstr, locals,
    maxStack]
  simp only [ofCode, reserve, most]

end Body
end Unravel
