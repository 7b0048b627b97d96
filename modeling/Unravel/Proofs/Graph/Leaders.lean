import Unravel.Proofs.Graph.Pruning

/-!
Where blocks start. A body is cut if and only if all that it names is in it and control does not run
out of its end. The blocks one after another are the code; they start at the leaders and nowhere
else, and edges and regions name them by the indices that jumps and clauses name. Ids may repeat,
and ranges of clauses may be open, empty or inverted.
-/
namespace Unravel

theorem mem_mapM_flatten {ε α β γ : Type} {names : α → List β} {seek : β → Except ε γ}
    {xs : List α} {all : List γ}
    (done : (xs.mapM fun x => (names x).mapM seek).map List.flatten = .ok all) {z : γ} :
    z ∈ all ↔ ∃ x ∈ xs, ∃ y ∈ names x, seek y = .ok z := by
  constructor
  · cases each : xs.mapM fun x => (names x).mapM seek with
    | error e =>
      rw [each] at done
      cases done
    | ok lists =>
      rw [each] at done
      cases done
      intro inside
      obtain ⟨found, listed, here⟩ := List.mem_flatten.mp inside
      obtain ⟨x, among, made⟩ := exists_of_forall₂_mem (mapM_ok_iff.mp each).flip listed
      obtain ⟨y, named, sought⟩ := exists_of_forall₂_mem (mapM_ok_iff.mp made).flip here
      exact ⟨x, among, y, named, sought⟩
  · rintro ⟨x, among, y, named, sought⟩
    obtain ⟨z', inside, sought'⟩ := exists_of_mapM_flatten done among named
    cases sought.symm.trans sought'
    exact inside

theorem lastIndex?_eq_some_iff {id : InstrId} {instrs : List Instr} {n : Nat} :
    lastIndex? id instrs = some n ↔
      (instrs.map Instr.id)[n]? = some id ∧ ∀ m, n < m → (instrs.map Instr.id)[m]? ≠ some id := by
  induction instrs generalizing n with
  | nil => simp [lastIndex?]
  | cons i rest ih =>
    cases n with
    | zero =>
      have front : lastIndex? id (i :: rest) = some 0 ↔
          lastIndex? id rest = none ∧ i.id = id := by
        rw [lastIndex?]
        cases lastIndex? id rest <;> simp
      have absent : (∀ m, 0 < m → ((i :: rest).map Instr.id)[m]? ≠ some id) ↔
          id ∉ rest.map Instr.id := by
        rw [List.mem_iff_getElem?, not_exists]
        constructor
        · intro none k
          exact none (k + 1) (Nat.succ_pos k)
        · intro none m above
          obtain ⟨k, rfl⟩ := Nat.exists_eq_add_of_le' above
          exact none k
      rw [front, absent, lastIndex?_eq_none_iff, and_comm]
      simp
    | succ n =>
      have behind : lastIndex? id (i :: rest) = some (n + 1) ↔ lastIndex? id rest = some n := by
        rw [lastIndex?]
        cases lastIndex? id rest <;> simp
      have later : (∀ m, n + 1 < m → ((i :: rest).map Instr.id)[m]? ≠ some id) ↔
          ∀ m, n < m → (rest.map Instr.id)[m]? ≠ some id := by
        constructor
        · intro none m above
          exact none (m + 1) (Nat.succ_lt_succ above)
        · intro none m above
          obtain ⟨k, rfl⟩ := Nat.exists_eq_add_of_le' (Nat.zero_lt_of_lt above)
          exact none k (Nat.lt_of_succ_lt_succ above)
      rw [behind, ih, later]
      simp

namespace Graph

/-- The number of instructions in front of a block, counted in layout order. -/
def startOf (g : Graph) (k : Nat) : Nat := ((g.layout.take k).flatMap g.code).length

def Holds (g : Graph) (k : BlockId) (n : Nat) : Prop :=
  k ∈ g.layout ∧ g.startOf k ≤ n ∧ n < g.startOf (k + 1)

/-- A list names, in layout order, the blocks whose instructions lie in a range. -/
structure Fills (g : Graph) (blocks : List BlockId) (inside : Nat → Prop) : Prop where
  ordered : blocks.Sublist g.layout
  exactly : ∀ {k n}, g.Holds k n → (k ∈ blocks ↔ inside n)

end Graph

namespace Body
variable {body : Body} {starts : List Nat} {g : Graph}

/-- Code of which all that it names is there, with an end that control does not run out of. -/
structure Cuttable (body : Body) : Prop where
  filled : body.instrs ≠ []
  targets : ∀ i ∈ body.instrs, ∀ t ∈ i.targets, t ∈ body.instrs.map Instr.id
  bounds : ∀ c ∈ body.clauses, ∀ t ∈ c.bounds, t ∈ body.instrs.map Instr.id
  ends : ∀ i, body.instrs.getLast? = some i → i.flow ≠ .conditional ∧ i.flow ≠ .switch

inductive Leader (body : Body) : Nat → Prop where
  | first : Leader body 0
  | behind {n : Nat} {i : Instr} (here : body.instrs[n]? = some i) (ends : i.isTerminal = true)
      (more : n + 1 < body.instrs.length) : Leader body (n + 1)
  | target {n : Nat} {i : Instr} {t : InstrId} (inside : i ∈ body.instrs) (goes : t ∈ i.targets)
      (index : body.index? t = some n) : Leader body n
  | bound {n : Nat} {c : Clause} {t : InstrId} (inside : c ∈ body.clauses) (bounds : t ∈ c.bounds)
      (index : body.index? t = some n) : Leader body n

/-- A region has the blocks of which the instructions lie in the ranges of a clause. -/
structure Covers (body : Body) (g : Graph) (c : Clause) (r : Region) : Prop where
  flags : r.flags = c.flags
  catchType : r.catchType = c.catchType
  tries : g.Fills r.tryBlocks (body.Within c.tryStart c.tryEnd)
  handles : g.Fills r.handlerBlocks (body.Within c.handlerStart c.handlerEnd)
  filters : g.Fills r.filterBlocks fun n =>
    ∃ f, c.filterStart = some f ∧ body.Within f (some c.handlerStart) n

/-- The blocks of a graph are the parts of a body between its leaders. -/
structure Partitions (body : Body) (g : Graph) : Prop where
  layout : g.layout = List.range g.slots.length
  filled : ∀ k ∈ g.layout, ∃ b, g.block? k = some b ∧ b.instrs ≠ []
  code : g.blocks.flatMap Block.instrs = body.instrs
  leaders : ∀ n, (∃ k ∈ g.layout, g.startOf k = n) ↔ body.Leader n
  targets : ∀ {k b}, g.block? k = some b → ∃ last, b.instrs.getLast? = some last ∧
    List.Forall₂ (fun t j => j ∈ g.layout ∧ body.index? t = some (g.startOf j))
      last.targets b.targets
  falls : ∀ {k b}, g.block? k = some b → b.fall = g.layout[k + 1]?
  regions : List.Forall₂ (body.Covers g) body.clauses g.regions

theorem mem_starts_iff {jumps bounds : List Nat} (filled : body.instrs ≠ [])
    (jumped : body.targetIndices = .ok jumps) (bounded : body.boundIndices = .ok bounds) (n : Nat) :
    n ∈ body.starts (jumps ++ bounds) ↔ body.Leader n := by
  have member : n ∈ body.starts (jumps ++ bounds) ↔ n < body.instrs.length ∧
      (n = 0 ∨ body.followsTerminator n = true ∨ n ∈ jumps ∨ n ∈ bounds) := by
    simp [starts, or_assoc]
  rw [member, mem_mapM_flatten jumped, mem_mapM_flatten bounded]
  simp only [seekIndex_ok]
  constructor
  · rintro ⟨inside, rfl | follows | ⟨i, among, t, goes, index⟩ | ⟨c, among, t, bound, index⟩⟩
    · exact .first
    · cases n with
      | zero => cases follows
      | succ n =>
        obtain ⟨i, here⟩ : ∃ i, body.instrs[n]? = some i :=
          ⟨_, List.getElem?_eq_getElem (Nat.lt_of_succ_lt inside)⟩
        rw [followsTerminator, here] at follows
        exact .behind here follows inside
    · exact .target among goes index
    · exact .bound among bound index
  · intro leader
    cases leader with
    | first => exact ⟨List.length_pos_iff.mpr filled, .inl rfl⟩
    | behind here ends more =>
      exact ⟨more, .inr (.inl (by simp [followsTerminator, here, ends]))⟩
    | target among goes index =>
      exact ⟨lastIndex?_lt index, .inr (.inr (.inl ⟨_, among, _, goes, index⟩))⟩
    | bound among bound index =>
      exact ⟨lastIndex?_lt index, .inr (.inr (.inr ⟨_, among, _, bound, index⟩))⟩

namespace CutFrom

theorem startOf (from_ : CutFrom body starts g) {k : Nat} (within : k ≤ starts.length) :
    g.startOf k = body.startAt starts k := by
  have bound : body.startAt starts k ≤ body.instrs.length := by
    rw [← startAt_end body starts]
    exact Nat.not_lt.mp (mt (from_.cut.startAt_lt_iff (Nat.le_refl _) within).mp (by omega))
  rw [Graph.startOf, from_.layout, List.take_range, Nat.min_eq_left within,
    from_.code_before within, List.length_take, Nat.min_eq_left bound]

theorem mem_layout (from_ : CutFrom body starts g) {k : Nat} :
    k ∈ g.layout ↔ k < starts.length := by
  rw [from_.layout, List.mem_range]

theorem startOf_eq (from_ : CutFrom body starts g) {k start : Nat}
    (here : starts[k]? = some start) : g.startOf k = start := by
  rw [from_.startOf (Nat.le_of_lt (List.getElem?_eq_some_iff.mp here).1), startAt_eq body here]

theorem exists_startOf_iff (from_ : CutFrom body starts g) (n : Nat) :
    (∃ k ∈ g.layout, g.startOf k = n) ↔ n ∈ starts := by
  constructor
  · rintro ⟨k, listed, rfl⟩
    have here := List.getElem?_eq_getElem (from_.mem_layout.mp listed)
    rw [from_.startOf_eq here]
    exact List.mem_of_getElem? here
  · intro inside
    obtain ⟨k, here⟩ := List.getElem?_of_mem inside
    exact ⟨k, from_.mem_layout.mpr (List.getElem?_eq_some_iff.mp here).1, from_.startOf_eq here⟩

theorem targets_found (from_ : CutFrom body starts g) {ids : List InstrId}
    (found : ∀ t ∈ ids, ∃ n ∈ starts, body.index? t = some n) :
    List.Forall₂ (fun t j => j ∈ g.layout ∧ body.index? t = some (g.startOf j)) ids
      (ids.filterMap (body.blockAt? starts)) := by
  induction ids with
  | nil => exact .nil
  | cons t rest ih =>
    obtain ⟨n, listed, index⟩ := found t List.mem_cons_self
    obtain ⟨j, named, there⟩ := blockAt?_of_index index listed
    rw [List.filterMap_cons_some named]
    refine .cons ⟨from_.mem_layout.mpr (List.getElem?_eq_some_iff.mp there).1, ?_⟩
      (ih fun t inside => found t (List.mem_cons_of_mem _ inside))
    rw [from_.startOf_eq there, index]

theorem fills (from_ : CutFrom body starts g) {clause : Clause} (inside : clause ∈ body.clauses)
    {first : InstrId} {last : Option InstrId} (opens : first ∈ clause.bounds)
    (closes : ∀ id, last = some id → id ∈ clause.bounds) {a z : Nat}
    (index : body.index? first = some a) (stop : body.stopIndex? last = some z) :
    g.Fills (covered starts a z) (body.Within first last) where
  ordered := by
    rw [from_.layout]
    exact (covered_isInfix from_.cut.sorted a z).sublist
  exactly := by
    rintro k n ⟨listed, above, below⟩
    have within := from_.mem_layout.mp listed
    have here := List.getElem?_eq_getElem within
    rw [from_.startOf_eq here] at above
    rw [from_.startOf within, ← stopOf_eq] at below
    rw [within_iff index stop]
    exact from_.covered_cut inside opens closes index stop here above below

theorem covers (from_ : CutFrom body starts g) {clause : Clause}
    (inside : clause ∈ body.clauses) : body.Covers g clause (body.regionOf starts clause) := by
  have found : ∀ {id}, id ∈ clause.bounds → ∃ n, body.index? id = some n := fun bound =>
    (from_.cut.bounds clause inside _ bound).imp fun _ named => named.2
  have ended : ∀ {stop : Option InstrId}, (∀ id, stop = some id → id ∈ clause.bounds) →
      ∃ n, body.stopIndex? stop = some n := by
    rintro (_ | id) bounds
    · exact ⟨_, rfl⟩
    · exact found (bounds id rfl)
  have tries : clause.tryStart ∈ clause.bounds := by simp [Clause.bounds]
  have triesEnd : ∀ id, clause.tryEnd = some id → id ∈ clause.bounds := by
    simp +contextual [Clause.bounds]
  have handles : clause.handlerStart ∈ clause.bounds := by simp [Clause.bounds]
  have handlesEnd : ∀ id, clause.handlerEnd = some id → id ∈ clause.bounds := by
    simp +contextual [Clause.bounds]
  have filters : ∀ id, clause.filterStart = some id → id ∈ clause.bounds := by
    simp +contextual [Clause.bounds]
  obtain ⟨a, tryStart⟩ := found tries
  obtain ⟨z, tryStop⟩ := ended triesEnd
  obtain ⟨h, handlerStart⟩ := found handles
  obtain ⟨e, handlerStop⟩ := ended handlesEnd
  obtain ⟨tried, handled, filtered⟩ :=
    ranges_regionOf starts tryStart tryStop handlerStart handlerStop
  refine ⟨rfl, rfl, ?_, ?_, ?_⟩
  · rw [tried]
    exact from_.fills inside tries triesEnd tryStart tryStop
  · rw [handled]
    exact from_.fills inside handles handlesEnd handlerStart handlerStop
  · cases filter : clause.filterStart with
    | none => exact ⟨by simp [regionOf, filter], by simp [regionOf, filter]⟩
    | some id =>
      obtain ⟨f, index⟩ := found (filters id filter)
      rw [filtered id f filter index]
      have closes : ∀ id, some clause.handlerStart = some id → id ∈ clause.bounds := by
        rintro id ⟨⟩
        exact handles
      have range := from_.fills inside (filters id filter) closes index handlerStart
      exact ⟨range.ordered, fun holds => by simp [range.exactly holds]⟩

theorem partitions (from_ : CutFrom body starts g) (leaders : ∀ n, n ∈ starts ↔ body.Leader n) :
    body.Partitions g where
  layout := by
    rw [from_.layout, from_.slots, List.length_map, cutBlocks, length_blocksFrom]
  filled k listed := by
    have here := List.getElem?_eq_getElem (from_.mem_layout.mp listed)
    exact ⟨_, from_.block here, from_.cut.filled here⟩
  code := from_.code_eq
  leaders n := by rw [from_.exists_startOf_iff, leaders]
  targets {k b} live := by
    obtain ⟨start, here, rfl⟩ := exists_start from_.slots live
    obtain ⟨last, found, ends, -⟩ := from_.cut.exists_last here
    refine ⟨last, ends, ?_⟩
    rw [targets_blockOf ends]
    exact from_.targets_found (from_.cut.targets last (List.mem_of_getElem? found))
  falls {k b} live := by
    obtain ⟨start, here, rfl⟩ := exists_start from_.slots live
    rw [from_.layout]
    exact from_.cut.fall here
  regions := by
    rw [from_.regions, List.forall₂_map_right_iff, List.forall₂_same]
    exact fun clause inside => from_.covers inside

end CutFrom

theorem exists_index_iff {id : InstrId} :
    (∃ n, body.index? id = some n) ↔ id ∈ body.instrs.map Instr.id := by
  rw [← Option.isSome_iff_exists, Option.isSome_iff_ne_none, ne_eq, index?,
    lastIndex?_eq_none_iff, not_not]

theorem Cut.ends_of_closed (cut : Cut body starts)
    (closed : (body.cutBlocks starts).any isOpenEnd = false) {i : Instr}
    (last : body.instrs.getLast? = some i) : i.flow ≠ .conditional ∧ i.flow ≠ .switch := by
  have some_ : starts ≠ [] := fun none => by simpa [none] using cut.first
  have final : starts.length - 1 < starts.length := by
    have := List.length_pos_iff.mpr some_
    omega
  have here := List.getElem?_eq_getElem final
  have stop : body.stopOf starts (starts.length - 1) = body.instrs.length := by
    rw [stopOf_eq, Nat.sub_add_cancel (List.length_pos_iff.mpr some_), startAt_end]
  obtain ⟨i', found, -, kind⟩ := cut.exists_last here
  rw [stop, ← List.getLast?_eq_getElem?, last] at found
  cases found
  have shut := closed_blockOf closed here
  have falls : (body.blockOf starts (starts.length - 1) starts[starts.length - 1]
      (body.stopOf starts (starts.length - 1))).fall = none := by
    simp [blockOf, stop]
  simp only [isOpenEnd, kind, falls, Option.isNone_none, Bool.true_and] at shut
  revert shut
  cases i.flow <;> simp [BlockKind.ofFlow]

theorem leaders_of_toGraph (done : body.toGraph = .ok g) :
    ∃ starts, CutFrom body starts g ∧ (∀ n, n ∈ starts ↔ body.Leader n) ∧ body.Cuttable := by
  obtain ⟨jumps, bounds, filled, jumped, bounded, closed, rfl⟩ := toGraph_found done
  have cut := cut_of_indices filled jumped bounded
  refine ⟨_, ⟨cut, rfl, rfl, congrArg List.range (length_blocksFrom ..), rfl⟩,
    mem_starts_iff filled jumped bounded, filled, ?_, ?_,
    fun i last => cut.ends_of_closed closed last⟩
  · exact fun i inside t goes => exists_index_iff.mp
      ((cut.targets i inside t goes).imp fun _ named => named.2)
  · exact fun c inside t bound => exists_index_iff.mp
      ((cut.bounds c inside t bound).imp fun _ named => named.2)

/-- Names stand for the last instruction that has them. A body has a graph exactly if it is fit to
    be cut, and then the graph is its partition at the leaders. -/
theorem cut_exactly (body : Body) :
    (∀ id n, body.index? id = some n ↔ (body.instrs.map Instr.id)[n]? = some id ∧
      ∀ m, n < m → (body.instrs.map Instr.id)[m]? ≠ some id) ∧
    ((∃ g, body.toGraph = .ok g) ↔ body.Cuttable) ∧
    ∀ g, body.toGraph = .ok g → body.Partitions g := by
  refine ⟨fun id n => lastIndex?_eq_some_iff, ⟨?_, fun fit => ?_⟩, fun g done => ?_⟩
  · rintro ⟨g, done⟩
    obtain ⟨-, -, -, fit⟩ := leaders_of_toGraph done
    exact fit
  · exact toGraph_accepts fit.filled
      (fun i inside t goes => exists_index_iff.mpr (fit.targets i inside t goes))
      (fun c inside t bound => exists_index_iff.mpr (fit.bounds c inside t bound)) fit.ends
  · obtain ⟨starts, from_, leaders, -⟩ := leaders_of_toGraph done
    exact from_.partitions leaders

/-- Two instructions share an id, a protected range is open at its end, and two ranges of the second
    clause end before they start. -/
def sharedTarget : Body where
  instrs := [⟨0, .nop, .none, 0⟩, ⟨1, .branch .isTrue .short, .target 5, 1⟩, ⟨5, .nop, .none, 3⟩,
    ⟨2, .leave .short, .target 5, 4⟩, ⟨5, .ret, .none, 6⟩]
  clauses := [⟨.typed, 1, some 5, 5, none, none, none⟩, ⟨.filter, 5, some 0, 2, none, some 5, none⟩]
  nextId := 6

theorem sharedTarget_cut_exactly :
    ∃ g, sharedTarget.toGraph = .ok g ∧ sharedTarget.index? 5 = some 4 ∧
      sharedTarget.Cuttable ∧ sharedTarget.Partitions g := by
  obtain ⟨-, fit, partitions⟩ := cut_exactly sharedTarget
  exact ⟨_, rfl, rfl, fit.mp ⟨_, rfl⟩, partitions _ rfl⟩

end Body
end Unravel
