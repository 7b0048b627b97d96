import Unravel.Proofs.Graph.Clauses
import Unravel.Proofs.Graph.Complete

namespace Unravel

/-- Control can come to an index of a body: from the instruction before it, by a jump, or because a
    clause protects an instruction that control can come to. -/
inductive Body.Reached (body : Body) : Nat → Prop where
  | first : Reached body 0
  | next {n : Nat} {i : Instr} (from_ : Reached body n) (here : body.instrs[n]? = some i)
      (falls : i.flow.fallsThrough = true) (more : n + 1 < body.instrs.length) :
      Reached body (n + 1)
  | jump {n m : Nat} {i : Instr} {t : InstrId} (from_ : Reached body n)
      (here : body.instrs[n]? = some i) (goes : t ∈ i.targets) (index : body.index? t = some m) :
      Reached body m
  | caught {n m a z : Nat} {clause : Clause} {t : InstrId} (from_ : Reached body n)
      (inside : clause ∈ body.clauses) (start : body.index? clause.tryStart = some a)
      (stop : body.stopIndex? clause.tryEnd = some z) (above : a ≤ n) (below : n < z)
      (enters : t = clause.handlerStart ∨ clause.filterStart = some t)
      (index : body.index? t = some m) : Reached body m

theorem Instr.falls_of_plain {i : Instr} (plain : i.isTerminal = false) :
    i.flow.fallsThrough = true := by
  revert plain
  rw [Instr.isTerminal]
  cases i.flow <;> simp [Flow.endsBlock, Flow.fallsThrough]

theorem Instr.targets_single {i : Instr} {t : InstrId} (goes : t ∈ i.targets)
    (other : i.opcode ≠ .switch) : i.targets = [t] ∧ i.isJump = true := by
  unfold Instr.targets at goes ⊢
  split at goes
  · split at goes
    · rename_i jump
      rw [List.mem_singleton.mp goes]
      simp [jump]
    · cases goes
  · rw [if_neg other] at goes
    cases goes
  · cases goes

theorem Instr.isTerminal_of_target {i : Instr} {t : InstrId} (goes : t ∈ i.targets) :
    i.isTerminal = true := by
  by_cases switches : i.opcode = .switch
  · rw [Instr.isTerminal, Instr.flow, switches]
    rfl
  · have jump := (Instr.targets_single goes switches).2
    rw [Instr.isJump] at jump
    rw [Instr.isTerminal]
    revert jump
    cases i.flow <;> simp [Flow.isJump, Flow.endsBlock]

namespace Graph
variable {g : Graph} {id : BlockId} {b : Block} {written : List Piece} {last : Nat} {body : Body}

theorem Begins.unique (nodup : (written.map Piece.block).Nodup) {n m : Nat}
    (first : Begins written id n) (second : Begins written id m) : n = m := by
  obtain ⟨k, p, here, same, rfl⟩ := first
  obtain ⟨l, q, there, same', rfl⟩ := second
  have blocks : (written.map Piece.block)[k]? = (written.map Piece.block)[l]? := by
    rw [List.getElem?_map, List.getElem?_map, here, there, Option.map_some, Option.map_some, same,
      same']
  have bound : k < (written.map Piece.block).length := by
    rw [List.length_map]
    exact (List.getElem?_eq_some_iff.mp here).1
  rw [(List.getElem?_inj bound nodup).mp blocks]

namespace Written
variable {start : Nat}

theorem targets_found (w : Written g written last body) (c : g.Consistent) {i : Instr}
    (inside : i ∈ body.instrs) {t : InstrId} (goes : t ∈ i.targets) :
    ∃ n, body.index? t = some n := by
  obtain ⟨n, here⟩ := List.getElem?_of_mem inside
  by_cases switches : i.opcode = .switch
  · obtain ⟨ms, operand, found⟩ := w.switches_closed c here (by rw [Instr.flow, switches]; rfl)
    simp only [Instr.targets, operand, switches, if_true] at goes
    exact found t goes
  · obtain ⟨single, jump⟩ := Instr.targets_single goes switches
    have jumps : i.flow = .unconditional ∨ i.flow = .leave ∨ i.flow = .conditional := by
      have other : i.flow ≠ .switch := fun flow => switches (Opcode.eq_switch_of_flow flow)
      rw [Instr.isJump] at jump
      revert jump other
      cases i.flow <;> simp [Flow.isJump]
    obtain ⟨m, goal, operand, index⟩ := w.jumps_closed c here jumps
    simp only [Instr.targets, operand, jump, if_true, List.mem_singleton] at goes
    rw [goes]
    exact ⟨goal, index⟩

theorem reached_inside (w : Written g written last body) (c : g.Consistent)
    (begins : Begins written id start) (live : g.block? id = some b)
    (reached : body.Reached start) {j : Nat} (inside : j < b.instrs.length) :
    body.Reached (start + j) := by
  induction j with
  | zero => exact reached
  | succ j ih =>
    have here : b.instrs[j]? = some b.instrs[j] := List.getElem?_eq_getElem (by omega)
    have there : b.instrs[j + 1]? = some b.instrs[j + 1] := List.getElem?_eq_getElem inside
    obtain ⟨x, found, opcode⟩ := w.exists_instr begins live here
    obtain ⟨y, next, -⟩ := w.exists_instr begins live there
    have plain : x.isTerminal = false := by
      cases ends : x.isTerminal with
      | false => rfl
      | true =>
        rw [Instr.isTerminal, Instr.flow, opcode] at ends
        have final := c.last_of_terminal live here ends
        omega
    exact (ih (by omega)).next found (Instr.falls_of_plain plain)
      (List.getElem?_eq_some_iff.mp next).1

theorem falls_of_kind {i : Instr} {j : Nat} (here : b.instrs[j]? = some i)
    (final : j + 1 = b.instrs.length)
    (open_ : b.kind = .fallThrough ∨ b.kind = .conditional ∨ b.kind = .switch) :
    i.flow.fallsThrough = true := by
  rw [kind_of_last here final] at open_
  exact BlockKind.ofFlow_open.mp open_

theorem exists_last_instr (c : g.Consistent) (live : g.block? id = some b) :
    ∃ j i, b.instrs[j]? = some i ∧ j + 1 = b.instrs.length := by
  have some_ := List.length_pos_of_ne_nil (c.filled live)
  exact ⟨b.instrs.length - 1, _, List.getElem?_eq_getElem (by omega), by omega⟩

theorem reached_behind (w : Written g written last body) (c : g.Consistent)
    (begins : Begins written id start) (live : g.block? id = some b)
    (reached : body.Reached start)
    (open_ : b.kind = .fallThrough ∨ b.kind = .conditional ∨ b.kind = .switch)
    (more : start + b.instrs.length < body.instrs.length) :
    body.Reached (start + b.instrs.length) := by
  obtain ⟨j, i, here, final⟩ := exists_last_instr c live
  obtain ⟨x, found, opcode⟩ := w.exists_instr begins live here
  have falls : x.flow.fallsThrough = true := by
    rw [Instr.flow, opcode]
    exact falls_of_kind here final open_
  have next : start + b.instrs.length = start + j + 1 := by omega
  rw [next] at more ⊢
  exact (w.reached_inside c begins live reached (by omega)).next found falls more

theorem reached_fall (w : Written g written last body) (c : g.Consistent)
    (begins : Begins written id start) (live : g.block? id = some b)
    (reached : body.Reached start) {t : BlockId} (falls : b.fall = some t)
    (open_ : b.kind = .fallThrough ∨ b.kind = .conditional ∨ b.kind = .switch) :
    ∃ n, Begins written t n ∧ body.Reached n := by
  rcases w.behind c begins live falls open_ with
    direct | ⟨f, m, goal, offset, added, -, there, index⟩
  · exact ⟨_, direct, w.reached_behind c begins live reached open_ (w.begins_lt c direct)⟩
  · have behind :=
      w.reached_behind c begins live reached open_ (List.getElem?_eq_some_iff.mp added).1
    refine ⟨goal, there, behind.jump added ?_ index⟩
    rw [Instr.targets_of_jump (i := ⟨f, .br .long, .none, 0⟩) rfl m offset]
    exact List.mem_cons_self

theorem reached_target (w : Written g written last body) (c : g.Consistent)
    (begins : Begins written id start) (live : g.block? id = some b)
    (reached : body.Reached start) {t : BlockId} (first : b.targets.head? = some t)
    (kind : b.kind = .branch ∨ b.kind = .leave ∨ b.kind = .conditional) :
    ∃ n, Begins written t n ∧ body.Reached n := by
  obtain ⟨j, i, here, final⟩ := exists_last_instr c live
  obtain ⟨t', m, goal, offset, head, there, index, found⟩ :=
    w.last_jump c begins live here final kind
  rw [first] at head
  cases head
  have jump : i.isJump = true := by
    rw [kind_of_last here final] at kind
    rw [Instr.isJump]
    revert kind
    cases i.flow <;> simp [BlockKind.ofFlow, Flow.isJump]
  refine ⟨goal, there, (w.reached_inside c begins live reached (by omega)).jump found ?_ index⟩
  rw [Instr.targets_of_jump jump m offset]
  exact List.mem_cons_self

theorem reached_case (w : Written g written last body) (c : g.Consistent)
    (begins : Begins written id start) (live : g.block? id = some b)
    (reached : body.Reached start) {t : BlockId} (listed : t ∈ b.targets)
    (kind : b.kind = .switch) : ∃ n, Begins written t n ∧ body.Reached n := by
  obtain ⟨j, i, here, final⟩ := exists_last_instr c live
  obtain ⟨ms, offset, starts, found⟩ := w.last_switch c begins live here final kind
  obtain ⟨m, named, goal, there, index⟩ := exists_of_forall₂_mem starts listed
  have opcode : i.opcode = .switch := by
    rw [kind_of_last here final] at kind
    refine Opcode.eq_switch_of_flow ?_
    revert kind
    rw [Instr.flow]
    cases i.opcode.flow <;> simp [BlockKind.ofFlow]
  refine ⟨goal, there, (w.reached_inside c begins live reached (by omega)).jump found ?_ index⟩
  simpa [Instr.targets, opcode] using named

theorem reached_successor (w : Written g written last body) (c : g.Consistent)
    (begins : Begins written id start) (live : g.block? id = some b)
    (reached : body.Reached start) {s : BlockId} (leads : s ∈ b.successors) :
    ∃ n, Begins written s n ∧ body.Reached n := by
  unfold Block.successors at leads
  split at leads
  case h_1 kind =>
    exact w.reached_fall c begins live reached (Option.mem_toList.mp leads) (.inl kind)
  case h_2 kind =>
    exact w.reached_target c begins live reached (Option.mem_toList.mp leads) (.inl kind)
  case h_3 kind =>
    exact w.reached_target c begins live reached (Option.mem_toList.mp leads) (.inr (.inl kind))
  case h_4 kind =>
    rcases List.mem_append.mp leads with leads | leads
    · exact w.reached_target c begins live reached (Option.mem_toList.mp leads) (.inr (.inr kind))
    · exact w.reached_fall c begins live reached (Option.mem_toList.mp leads) (.inr (.inl kind))
  case h_5 kind =>
    rcases List.mem_append.mp leads with leads | leads
    · exact w.reached_case c begins live reached leads kind
    · exact w.reached_fall c begins live reached (Option.mem_toList.mp leads) (.inr (.inr kind))
  case h_6 => cases leads

theorem reached_entry (w : Written g written last body) (c : g.Consistent) (guarded : g.Guarded)
    (begins : Begins written id start) (reached : body.Reached start) {r : Region}
    (inside : r ∈ g.regions) (tried : id ∈ r.tryBlocks) {s : BlockId}
    (entry : r.handlerEntry? = some s ∨ r.filterEntry? = some s) :
    ∃ n, Begins written s n ∧ body.Reached n := by
  have whole := guarded r inside
  obtain ⟨clause, a, z, h, e, made, bounds⟩ := w.clause_of_whole c inside whole
  have listed : clause ∈ body.clauses := by
    rw [w.clauses]
    exact List.mem_filterMap.mpr ⟨r, inside, made⟩
  obtain ⟨above, below⟩ := bounds.tries.covers (w.nodup c.laid) (w.filled c.laid) tried begins
  rcases entry with entry | entry
  · exact ⟨h, bounds.handles.begins entry, reached.caught listed bounds.tryStart bounds.tryStop
      above below (.inl rfl) bounds.handlerStart⟩
  · have flag := whole.filters.mp (List.ne_nil_of_mem (List.mem_of_mem_head? entry))
    obtain ⟨t, f, filter, found, takes⟩ := bounds.filtered flag
    exact ⟨f, takes.begins entry, reached.caught listed bounds.tryStart bounds.tryStop above below
      (.inr filter) found⟩

theorem reached_block (w : Written g written last body) (c : g.Consistent) (guarded : g.Guarded)
    (reached : g.Reached id) : ∃ n, Begins written id n ∧ body.Reached n := by
  induction reached with
  | entry =>
    obtain ⟨rest, layout⟩ := List.head?_eq_some_iff.mp c.entryFirst
    exact ⟨0, begins_entry (w.blocks.trans layout), .first⟩
  | step _ leads _ ih =>
    obtain ⟨start, begins, reached⟩ := ih
    rcases mem_leadsTo.mp leads with ⟨b, live, leads⟩ | ⟨r, inside, tried, entry⟩
    · exact w.reached_successor c begins live reached leads
    · exact w.reached_entry c guarded begins reached inside tried entry

theorem reached_index (w : Written g written last body) (c : g.Consistent) (guarded : g.Guarded)
    (alive : ∀ id, g.contains id = true → g.Reached id) {n : Nat}
    (inside : n < body.instrs.length) : body.Reached n := by
  have starts : ∀ {id b start}, g.block? id = some b → Begins written id start →
      body.Reached start := by
    intro id b start live begins
    obtain ⟨m, begins', reached⟩ := w.reached_block c guarded
      (alive id (contains_iff.mpr ⟨b, live⟩))
    rwa [begins.unique (w.nodup c.laid) begins']
  cases w.source c (List.getElem?_eq_getElem inside) with
  | own live begins place here opcode =>
    rw [place]
    exact w.reached_inside c begins live (starts live begins) (List.getElem?_eq_some_iff.mp here).1
  | added live begins place falls open_ opcode operand there index =>
    rw [place] at inside ⊢
    exact w.reached_behind c begins live (starts live begins) open_ inside

end Written
end Graph

namespace Body
variable {body : Body} {starts : List Nat} {g : Graph}

def InReached (body : Body) (starts : List Nat) (g : Graph) (n : Nat) : Prop :=
  ∃ k start, starts[k]? = some start ∧ start ≤ n ∧ n < body.stopOf starts k ∧ g.Reached k

structure CutFrom (body : Body) (starts : List Nat) (g : Graph) : Prop where
  cut : Cut body starts
  slots : g.slots = (body.cutBlocks starts).map some
  entry : g.entry = 0
  layout : g.layout = List.range starts.length
  regions : g.regions = body.clauses.map (body.regionOf starts)

theorem cutFrom_of_toGraph (done : body.toGraph = .ok g) : ∃ starts, CutFrom body starts g := by
  obtain ⟨starts, cut, -, rfl⟩ := toGraph_ok done
  exact ⟨starts, cut, rfl, rfl, congrArg List.range (length_blocksFrom ..), rfl⟩

namespace CutFrom

theorem contains (from_ : CutFrom body starts g) {k start : Nat} (here : starts[k]? = some start) :
    g.contains k = true := by
  rw [Graph.contains, block?_cut from_.slots k, here]
  rfl

theorem block (from_ : CutFrom body starts g) {k start : Nat} (here : starts[k]? = some start) :
    g.block? k = some (body.blockOf starts k start (body.stopOf starts k)) := by
  rw [block?_cut from_.slots k, here]
  rfl

theorem enters (from_ : CutFrom body starts g) {k m n : Nat} (reached : g.Reached k)
    (there : starts[m]? = some n) (leads : m ∈ g.leadsTo k) : body.InReached starts g n :=
  ⟨m, n, there, Nat.le_refl n, (from_.cut.gap there).1, reached.step leads (from_.contains there)⟩

theorem kind_of_stop (from_ : CutFrom body starts g) {k start n : Nat} {i : Instr}
    (here : starts[k]? = some start) (found : body.instrs[n]? = some i)
    (final : n + 1 = body.stopOf starts k) :
    (body.blockOf starts k start (body.stopOf starts k)).instrs.getLast? = some i := by
  obtain ⟨before, inside, -⟩ := from_.cut.gap here
  rw [getLast?_blockOf starts k before inside, ← final, Nat.add_sub_cancel, found]

theorem reached_next (from_ : CutFrom body starts g) {n : Nat} {i : Instr}
    (covered : body.InReached starts g n) (found : body.instrs[n]? = some i)
    (falls : i.flow.fallsThrough = true) (more : n + 1 < body.instrs.length) :
    body.InReached starts g (n + 1) := by
  obtain ⟨k, start, here, above, below, reached⟩ := covered
  rcases Nat.lt_or_eq_of_le (Nat.succ_le_of_lt below) with early | final
  · exact ⟨k, start, here, by omega, early, reached⟩
  · have next : starts[k + 1]? = some (n + 1) := by
      have stop : (starts[k + 1]?).getD body.instrs.length = n + 1 := final.symm
      cases behind : starts[k + 1]? with
      | none =>
        rw [behind, Option.getD_none] at stop
        omega
      | some s =>
        rw [behind, Option.getD_some] at stop
        rw [stop]
    have ends := from_.kind_of_stop here found final
    refine from_.enters reached next (Graph.mem_leadsTo.mpr (.inl ⟨_, from_.block here, ?_⟩))
    refine Block.fall_mem_successors ?_ ?_
    · simp only [blockOf, ← final]
      rw [if_pos more]
    · rw [Block.kind, ends]
      exact BlockKind.ofFlow_open.mpr falls

theorem successor_of_target (from_ : CutFrom body starts g) {k start n m : Nat} {i : Instr}
    {t : InstrId} (here : starts[k]? = some start) (found : body.instrs[n]? = some i)
    (final : n + 1 = body.stopOf starts k) (goes : t ∈ i.targets)
    (named : body.blockAt? starts t = some m) :
    m ∈ (body.blockOf starts k start (body.stopOf starts k)).successors := by
  have ends := from_.kind_of_stop here found final
  have targets := targets_blockOf ends
  have kind : (body.blockOf starts k start (body.stopOf starts k)).kind = .ofFlow i.flow := by
    rw [Block.kind, ends]
  by_cases switches : i.opcode = .switch
  · have flow : i.flow = .switch := by rw [Instr.flow, switches]; rfl
    rw [flow] at kind
    have kind : (body.blockOf starts k start (body.stopOf starts k)).kind = .switch := kind
    simp only [Block.successors, kind, targets]
    exact List.mem_append_left _ (List.mem_filterMap.mpr ⟨t, goes, named⟩)
  · obtain ⟨single, jump⟩ := Instr.targets_single goes switches
    have first : (body.blockOf starts k start (body.stopOf starts k)).targets.head? = some m := by
      rw [targets, single, List.filterMap_cons_some named]
      rfl
    rw [Instr.isJump] at jump
    unfold Block.successors
    rw [kind, first]
    cases flow : i.flow with
    | unconditional | leave => exact List.mem_cons_self
    | conditional => exact List.mem_append_left _ List.mem_cons_self
    | switch => exact absurd (Opcode.eq_switch_of_flow flow) switches
    | _ =>
      rw [flow] at jump
      cases jump

theorem reached_jump (from_ : CutFrom body starts g) {n m : Nat} {i : Instr} {t : InstrId}
    (covered : body.InReached starts g n) (found : body.instrs[n]? = some i)
    (goes : t ∈ i.targets) (index : body.index? t = some m) : body.InReached starts g m := by
  obtain ⟨k, start, here, above, below, reached⟩ := covered
  have final : n + 1 = body.stopOf starts k := by
    obtain ⟨-, inside, gap⟩ := from_.cut.gap here
    rcases Nat.lt_or_eq_of_le (Nat.succ_le_of_lt below) with early | final
    · have next := from_.cut.terminals found (Instr.isTerminal_of_target goes) (by omega)
      have := gap _ next (by omega)
      omega
    · exact final
  obtain ⟨p, named⟩ := from_.cut.exists_blockAt? (List.mem_of_getElem? found) goes
  obtain ⟨m', index', there⟩ := getElem?_of_blockAt? named
  cases index.symm.trans index'
  refine from_.enters reached there (Graph.mem_leadsTo.mpr (.inl ⟨_, from_.block here, ?_⟩))
  exact from_.successor_of_target here found final goes named

theorem reached_caught (from_ : CutFrom body starts g)
    (proper : ∀ clause ∈ body.clauses, clause.Proper body) {n m a z : Nat} {clause : Clause}
    {t : InstrId} (covered : body.InReached starts g n) (inside : clause ∈ body.clauses)
    (tryStart : body.index? clause.tryStart = some a)
    (tryStop : body.stopIndex? clause.tryEnd = some z) (above : a ≤ n) (below : n < z)
    (enters : t = clause.handlerStart ∨ clause.filterStart = some t)
    (index : body.index? t = some m) : body.InReached starts g m := by
  obtain ⟨k, start, here, before, behind, reached⟩ := covered
  obtain ⟨h, e, handlerStart, handlerStop, handles⟩ := (proper clause inside).handles
  obtain ⟨tries, handlers, filters⟩ :=
    ranges_regionOf starts tryStart tryStop handlerStart handlerStop
  have start_ : ∀ {id n}, id ∈ clause.bounds → body.index? id = some n →
      ∃ k : Nat, starts[k]? = some n := by
    intro id n bound found
    obtain ⟨n', listed, found'⟩ := from_.cut.bounds clause inside id bound
    rw [found] at found'
    cases found'
    exact List.getElem?_of_mem listed
  have tried : k ∈ (body.regionOf starts clause).tryBlocks := by
    rw [tries, mem_covered]
    refine ⟨start, here, ?_, by omega⟩
    by_contra late
    obtain ⟨l, there⟩ := start_ (by simp [Clause.bounds]) tryStart
    have := (from_.cut.gap here).2.2 a (List.mem_of_getElem? there) (by omega)
    omega
  have listed : body.regionOf starts clause ∈ g.regions := by
    rw [from_.regions]
    exact List.mem_map_of_mem inside
  rcases enters with rfl | filter
  · rw [handlerStart] at index
    cases index
    obtain ⟨l, there⟩ := start_ (by simp [Clause.bounds]) handlerStart
    refine from_.enters reached there (Graph.mem_leadsTo.mpr (.inr ⟨_, listed, tried, .inl ?_⟩))
    rw [ Region.handlerEntry?, handlers, head?_covered from_.cut.sorted there handles]
  · obtain ⟨f, h', found, again, order⟩ := (proper clause inside).inFront t filter
    rw [index] at found
    cases found
    rw [show body.index? clause.handlerStart = some h' from again] at handlerStart
    cases handlerStart
    obtain ⟨l, there⟩ := start_ (by simp [Clause.bounds, filter]) index
    refine from_.enters reached there (Graph.mem_leadsTo.mpr (.inr ⟨_, listed, tried, .inr ?_⟩))
    rw [ Region.filterEntry?, filters t m filter index, head?_covered from_.cut.sorted there order]

theorem inReached (from_ : CutFrom body starts g)
    (proper : ∀ clause ∈ body.clauses, clause.Proper body) {n : Nat} (reached : body.Reached n) :
    body.InReached starts g n := by
  induction reached with
  | first =>
    have here : starts[0]? = some 0 := by rw [← List.head?_eq_getElem?, from_.cut.first]
    refine ⟨0, 0, here, Nat.le_refl 0, (from_.cut.gap here).1, ?_⟩
    rw [← from_.entry]
    exact .entry
  | next _ here falls more ih => exact from_.reached_next ih here falls more
  | jump _ here goes index ih => exact from_.reached_jump ih here goes index
  | caught _ inside start stop above below enters index ih =>
    exact from_.reached_caught proper ih inside start stop above below enters index

end CutFrom

theorem Cut.closed (cut : Cut body starts)
    (ends : ∀ i, body.instrs.getLast? = some i → i.flow ≠ .conditional ∧ i.flow ≠ .switch) :
    (body.cutBlocks starts).any isOpenEnd = false := by
  rw [List.any_eq_false]
  intro block inside
  obtain ⟨k, found⟩ := List.getElem?_of_mem inside
  rw [getElem?_cutBlocks] at found
  obtain ⟨start, here, rfl⟩ := Option.map_eq_some_iff.mp found
  obtain ⟨before, within, -⟩ := cut.gap here
  by_cases more : body.stopOf starts k < body.instrs.length
  · simp [isOpenEnd, blockOf, more]
  · have stop : body.stopOf starts k = body.instrs.length := by omega
    have final := getLast?_blockOf starts k before within
    rw [stop, ← List.getLast?_eq_getElem?] at final
    obtain ⟨front, last, code⟩ := Block.exists_last (cut.filled here)
    rw [stop] at code
    rw [code, List.getLast?_concat] at final
    obtain ⟨notTest, notSwitch⟩ := ends last final.symm
    have kind := Block.kind_eq code
    rw [stop]
    simp only [isOpenEnd, kind]
    revert notTest notSwitch
    cases last.flow <;> simp [BlockKind.ofFlow]

/-- A body is accepted if all that it names is in it and its last instruction is no branch that may
    fall. -/
theorem toGraph_accepts (filled : body.instrs ≠ [])
    (targets : ∀ i ∈ body.instrs, ∀ t ∈ i.targets, ∃ n, body.index? t = some n)
    (bounds : ∀ clause ∈ body.clauses, ∀ t ∈ clause.bounds, ∃ n, body.index? t = some n)
    (ends : ∀ i, body.instrs.getLast? = some i → i.flow ≠ .conditional ∧ i.flow ≠ .switch) :
    ∃ g, body.toGraph = .ok g := by
  have found : ∀ {fault : InstrId → BodyFault} {t}, (∃ n, body.index? t = some n) →
      ∃ n, body.seekIndex fault t = .ok n := fun ⟨n, index⟩ => ⟨n, seekIndex_ok.mpr index⟩
  obtain ⟨jumps, jumped⟩ : ∃ jumps, body.targetIndices = .ok jumps := by
    obtain ⟨each, done⟩ := exists_mapM_ok (f := fun i : Instr =>
      i.targets.mapM (body.seekIndex .missingTarget)) fun i inside =>
        exists_mapM_ok fun t goes => found (targets i inside t goes)
    exact ⟨each.flatten, by rw [targetIndices, done]; rfl⟩
  obtain ⟨edges, bounded⟩ : ∃ edges, body.boundIndices = .ok edges := by
    obtain ⟨each, done⟩ := exists_mapM_ok (f := fun c : Clause =>
      c.bounds.mapM (body.seekIndex .missingBound)) fun clause inside =>
        exists_mapM_ok fun t bound => found (bounds clause inside t bound)
    exact ⟨each.flatten, by rw [boundIndices, done]; rfl⟩
  have closed := (cut_of_indices filled jumped bounded).closed ends
  unfold cutBlocks at closed
  unfold toGraph
  simp only [bind, Except.bind, pure, Except.pure, throw, throwThe, MonadExceptOf.throw, jumped,
    bounded, closed, List.isEmpty_eq_false_iff.mpr filled, Bool.false_eq_true, if_false]
  exact ⟨_, rfl⟩

theorem unreachable_eq_nil (proper : ∀ clause ∈ body.clauses, clause.Proper body)
    (done : body.toGraph = .ok g) (reached : ∀ n, n < body.instrs.length → body.Reached n) :
    g.unreachable = [] := by
  obtain ⟨starts, from_⟩ := cutFrom_of_toGraph done
  rw [Graph.unreachable_eq_nil (toGraph_laid done), from_.layout]
  intro k listed
  obtain ⟨start, here⟩ : ∃ start, starts[k]? = some start :=
    ⟨_, List.getElem?_eq_getElem (List.mem_range.mp listed)⟩
  obtain ⟨l, other, there, above, below, alive⟩ := from_.inReached proper
    (reached start (from_.cut.within start (List.mem_of_getElem? here)))
  obtain ⟨bound, rfl⟩ := List.getElem?_eq_some_iff.mp here
  obtain ⟨bound', rfl⟩ := List.getElem?_eq_some_iff.mp there
  have ordered := List.pairwise_iff_getElem.mp from_.cut.sorted
  rcases Nat.lt_trichotomy l k with before | rfl | behind
  · have := (from_.cut.gap there).2.2 _ (List.getElem_mem bound) (ordered l k bound' bound before)
    omega
  · exact alive
  · have := ordered k l bound bound' behind
    omega

end Body
end Unravel
