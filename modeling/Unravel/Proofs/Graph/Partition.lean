import Unravel.Graph.Flatten
import Unravel.Proofs.Graph.Restructure

namespace Unravel

theorem mapM_ok_iff {ε α β : Type} {f : α → Except ε β} {xs : List α} {ys : List β} :
    xs.mapM f = .ok ys ↔ List.Forall₂ (fun x y => f x = .ok y) xs ys := by
  induction xs generalizing ys with
  | nil => simp [List.mapM_nil, pure, Except.pure, eq_comm]
  | cons x rest ih =>
    rw [List.mapM_cons]
    constructor
    · intro done
      obtain ⟨y, first, done⟩ := bind_ok_iff.mp done
      obtain ⟨more, later, done⟩ := bind_ok_iff.mp done
      cases done
      exact .cons first (ih.mp later)
    · rintro (_ | ⟨first, later⟩)
      rw [first, ih.mpr later]
      rfl

theorem getElem?_of_forall₂ {α β : Type} {R : α → β → Prop} {xs : List α} {ys : List β}
    (all : List.Forall₂ R xs ys) {n : Nat} {x : α} (here : xs[n]? = some x) :
    ∃ y, ys[n]? = some y ∧ R x y := by
  induction all generalizing n with
  | nil => cases here
  | cons related _ ih =>
    cases n with
    | zero =>
      cases here
      exact ⟨_, rfl, related⟩
    | succ n => exact ih here

theorem exists_of_forall₂_mem {α β : Type} {R : α → β → Prop} {xs : List α} {ys : List β}
    (all : List.Forall₂ R xs ys) {x : α} (inside : x ∈ xs) : ∃ y ∈ ys, R x y := by
  obtain ⟨n, here⟩ := List.getElem?_of_mem inside
  obtain ⟨y, there, related⟩ := getElem?_of_forall₂ all here
  exact ⟨y, List.mem_of_getElem? there, related⟩

theorem exists_of_mapM_flatten {ε α β γ : Type} {names : α → List β} {seek : β → Except ε γ}
    {xs : List α} {all : List γ}
    (done : (xs.mapM fun x => (names x).mapM seek).map List.flatten = .ok all) {x : α}
    (inside : x ∈ xs) {y : β} (named : y ∈ names x) : ∃ z ∈ all, seek y = .ok z := by
  cases each : xs.mapM fun x => (names x).mapM seek with
  | error e =>
    rw [each] at done
    cases done
  | ok lists =>
    rw [each] at done
    cases done
    obtain ⟨found, listed, here⟩ := exists_of_forall₂_mem (mapM_ok_iff.mp each) inside
    obtain ⟨z, there, sought⟩ := exists_of_forall₂_mem (mapM_ok_iff.mp here) named
    exact ⟨z, List.mem_flatten.mpr ⟨found, listed, there⟩, sought⟩

namespace Body
variable {body : Body} {starts : List Nat}

theorem seekIndex_ok {fault : InstrId → BodyFault} {id : InstrId} {n : Nat} :
    body.seekIndex fault id = .ok n ↔ body.index? id = some n := by
  unfold seekIndex
  cases body.index? id with
  | none => simp
  | some m => simp

structure Cut (body : Body) (starts : List Nat) : Prop where
  sorted : starts.Pairwise (· < ·)
  within : ∀ s ∈ starts, s < body.instrs.length
  first : starts.head? = some 0
  terminals : ∀ {n i}, body.instrs[n]? = some i → i.isTerminal = true →
    n + 1 < body.instrs.length → n + 1 ∈ starts
  targets : ∀ i ∈ body.instrs, ∀ t ∈ i.targets, ∃ n ∈ starts, body.index? t = some n
  bounds : ∀ c ∈ body.clauses, ∀ t ∈ c.bounds, ∃ n ∈ starts, body.index? t = some n

theorem lastIndex?_lt {id : InstrId} {instrs : List Instr} {n : Nat}
    (found : lastIndex? id instrs = some n) : n < instrs.length := by
  have named := id_of_lastIndex? found
  by_contra beyond
  rw [List.getElem?_eq_none (by omega)] at named
  cases named

theorem cut_starts {named : List Nat} (filled : body.instrs ≠ [])
    (targets : ∀ i ∈ body.instrs, ∀ t ∈ i.targets, ∃ n ∈ named, body.index? t = some n)
    (bounds : ∀ c ∈ body.clauses, ∀ t ∈ c.bounds, ∃ n ∈ named, body.index? t = some n) :
    Cut body (body.starts named) := by
  have member : ∀ {n}, n ∈ body.starts named ↔ n < body.instrs.length ∧
      (n = 0 ∨ body.followsTerminator n = true ∨ n ∈ named) := by
    intro n
    simp [starts, or_assoc]
  refine ⟨List.pairwise_lt_range.filter _, fun s inside => (member.mp inside).1, ?_, ?_, ?_, ?_⟩
  · obtain ⟨i, rest, code⟩ := List.exists_cons_of_ne_nil filled
    simp [starts, code, List.range_succ_eq_map]
  · intro n i found ends inside
    refine member.mpr ⟨inside, .inr (.inl ?_)⟩
    simp [followsTerminator, found, ends]
  · intro i inside t goes
    obtain ⟨n, listed, index⟩ := targets i inside t goes
    exact ⟨n, member.mpr ⟨lastIndex?_lt index, .inr (.inr listed)⟩, index⟩
  · intro c inside t bound
    obtain ⟨n, listed, index⟩ := bounds c inside t bound
    exact ⟨n, member.mpr ⟨lastIndex?_lt index, .inr (.inr listed)⟩, index⟩

theorem cut_of_indices {jumps bounds : List Nat} (filled : body.instrs ≠ [])
    (jumped : body.targetIndices = .ok jumps) (bounded : body.boundIndices = .ok bounds) :
    Cut body (body.starts (jumps ++ bounds)) := by
  refine cut_starts filled ?_ ?_
  · intro i inside t goes
    obtain ⟨n, listed, found⟩ := exists_of_mapM_flatten jumped inside goes
    exact ⟨n, List.mem_append_left _ listed, seekIndex_ok.mp found⟩
  · intro c inside t bound
    obtain ⟨n, listed, found⟩ := exists_of_mapM_flatten bounded inside bound
    exact ⟨n, List.mem_append_right _ listed, seekIndex_ok.mp found⟩

def cutBlocks (body : Body) (starts : List Nat) : List Block := body.blocksFrom starts 0 starts

def graphOf (body : Body) (starts : List Nat) : Graph where
  slots := (body.cutBlocks starts).map some
  layout := List.range (body.cutBlocks starts).length
  regions := body.clauses.map (body.regionOf starts)
  entry := 0
  nextInstr := body.nextId
  locals := body.locals
  maxStack := body.maxStack

theorem toGraph_found {g : Graph} (done : body.toGraph = .ok g) :
    ∃ jumps bounds, body.instrs ≠ [] ∧ body.targetIndices = .ok jumps ∧
      body.boundIndices = .ok bounds ∧
      (body.cutBlocks (body.starts (jumps ++ bounds))).any isOpenEnd = false ∧
      g = body.graphOf (body.starts (jumps ++ bounds)) := by
  unfold toGraph at done
  simp only [bind, Except.bind, pure, Except.pure, throw, throwThe, MonadExceptOf.throw] at done
  split at done
  · cases done
  · rename_i filled
    split at done
    · cases done
    · rename_i jumps jumped
      split at done
      · cases done
      · rename_i bounds bounded
        split at done
        · cases done
        · rename_i closed
          cases done
          exact ⟨jumps, bounds, by simpa using filled, jumped, bounded,
            by simpa [cutBlocks] using closed, rfl⟩

theorem toGraph_ok {g : Graph} (done : body.toGraph = .ok g) :
    ∃ starts, Cut body starts ∧ (body.cutBlocks starts).any isOpenEnd = false ∧
      g = body.graphOf starts := by
  obtain ⟨jumps, bounds, filled, jumped, bounded, closed, made⟩ := toGraph_found done
  exact ⟨body.starts (jumps ++ bounds), cut_of_indices filled jumped bounded, closed, made⟩

theorem getElem?_blocksFrom (body : Body) (all : List Nat) (id : BlockId) (starts : List Nat)
    (k : Nat) :
    (body.blocksFrom all id starts)[k]? = starts[k]?.map fun start =>
      body.blockOf all (id + k) start (starts[k + 1]?.getD body.instrs.length) := by
  induction starts generalizing id k with
  | nil => simp [blocksFrom]
  | cons start rest ih =>
    cases rest with
    | nil => cases k <;> simp [blocksFrom]
    | cons stop rest =>
      rw [blocksFrom]
      cases k with
      | zero => simp
      | succ k =>
        rw [List.getElem?_cons_succ, ih (id + 1) k, Nat.add_assoc, Nat.add_comm 1 k]
        rfl

def stopOf (body : Body) (starts : List Nat) (k : Nat) : Nat :=
  starts[k + 1]?.getD body.instrs.length

theorem getElem?_cutBlocks (body : Body) (starts : List Nat) (k : Nat) :
    (body.cutBlocks starts)[k]? =
      starts[k]?.map fun start => body.blockOf starts k start (body.stopOf starts k) := by
  rw [cutBlocks, getElem?_blocksFrom, Nat.zero_add]
  rfl

theorem length_blocksFrom (body : Body) (all : List Nat) (id : BlockId) (starts : List Nat) :
    (body.blocksFrom all id starts).length = starts.length := by
  induction starts generalizing id with
  | nil => rfl
  | cons start rest ih =>
    cases rest with
    | nil => rfl
    | cons stop rest =>
      rw [blocksFrom, List.length_cons, ih (id + 1)]
      rfl

theorem instrs_blockOf (body : Body) (starts : List Nat) (id : BlockId) (start stop : Nat) :
    (body.blockOf starts id start stop).instrs =
      (body.instrs.drop start).take (stop - start) := rfl

theorem getElem?_blockOf (body : Body) (starts : List Nat) (id : BlockId) {start stop j : Nat}
    (below : start + j < stop) :
    (body.blockOf starts id start stop).instrs[j]? = body.instrs[start + j]? := by
  rw [instrs_blockOf, List.getElem?_take_of_lt (by omega), List.getElem?_drop]

theorem length_blockOf (starts : List Nat) (id : BlockId) {start stop : Nat}
    (before : start < stop) (inside : stop ≤ body.instrs.length) :
    (body.blockOf starts id start stop).instrs.length = stop - start := by
  rw [instrs_blockOf, List.length_take, List.length_drop]
  omega

theorem fall_blockOf {k start next : Nat}
    (falls : (body.blockOf starts k start (body.stopOf starts k)).fall = some next) :
    next < starts.length := by
  simp only [blockOf] at falls
  split at falls
  · rename_i more
    cases falls
    by_contra beyond
    unfold stopOf at more
    rw [List.getElem?_eq_none (Nat.not_lt.mp beyond), Option.getD_none] at more
    exact absurd more (Nat.lt_irrefl _)
  · cases falls

theorem blockAt?_lt {id : InstrId} {k : BlockId} (found : body.blockAt? starts id = some k) :
    k < starts.length := by
  obtain ⟨n, -, found⟩ := Option.bind_eq_some_iff.mp found
  rw [List.idxOf?_eq_some_iff] at found
  exact found.1

theorem successors_blockOf {k start : Nat} {s : BlockId}
    (leads : s ∈ (body.blockOf starts k start (body.stopOf starts k)).successors) :
    s < starts.length := by
  have named : ∀ t ∈ (body.blockOf starts k start (body.stopOf starts k)).targets,
      t < starts.length := by
    intro t inside
    obtain ⟨id, -, found⟩ := List.mem_filterMap.mp inside
    exact blockAt?_lt found
  have falls : ∀ t ∈ (body.blockOf starts k start (body.stopOf starts k)).fall.toList,
      t < starts.length := by
    intro t inside
    exact fall_blockOf (Option.mem_toList.mp inside)
  have head : ∀ t ∈ (body.blockOf starts k start (body.stopOf starts k)).targets.head?.toList,
      t < starts.length := by
    intro t inside
    exact named t (List.mem_of_mem_head? (Option.mem_toList.mp inside))
  unfold Block.successors at leads
  split at leads
  · exact falls s leads
  · exact head s leads
  · exact head s leads
  · exact (List.mem_append.mp leads).elim (head s) (falls s)
  · exact (List.mem_append.mp leads).elim (named s) (falls s)
  · cases leads

namespace Cut

theorem gap (cut : Cut body starts) {k start : Nat} (here : starts[k]? = some start) :
    start < body.stopOf starts k ∧ body.stopOf starts k ≤ body.instrs.length ∧
      ∀ s ∈ starts, start < s → body.stopOf starts k ≤ s := by
  obtain ⟨inside, rfl⟩ := List.getElem?_eq_some_iff.mp here
  have ordered := List.pairwise_iff_getElem.mp cut.sorted
  unfold stopOf
  by_cases more : k + 1 < starts.length
  · rw [List.getElem?_eq_getElem more, Option.getD_some]
    refine ⟨ordered k (k + 1) inside more (Nat.lt_succ_self k), ?_, ?_⟩
    · exact Nat.le_of_lt (cut.within _ (List.getElem_mem more))
    · intro s listed later
      obtain ⟨m, bound, rfl⟩ := List.getElem_of_mem listed
      rcases Nat.lt_trichotomy m (k + 1) with before | rfl | behind
      · rcases Nat.lt_or_eq_of_le (Nat.le_of_lt_succ before) with early | rfl
        · exact absurd (ordered m k bound inside early) (by omega)
        · exact absurd later (Nat.lt_irrefl _)
      · exact Nat.le_refl _
      · exact Nat.le_of_lt (ordered (k + 1) m more bound behind)
  · rw [List.getElem?_eq_none (by omega), Option.getD_none]
    refine ⟨cut.within _ (List.getElem_mem inside), Nat.le_refl _, ?_⟩
    intro s listed later
    obtain ⟨m, bound, rfl⟩ := List.getElem_of_mem listed
    rcases Nat.lt_or_ge k m with behind | before
    · omega
    · rcases Nat.lt_or_eq_of_le before with early | rfl
      · exact absurd (ordered m k bound inside early) (by omega)
      · exact absurd later (Nat.lt_irrefl _)

theorem filled (cut : Cut body starts) {k start : Nat} (here : starts[k]? = some start) :
    (body.blockOf starts k start (body.stopOf starts k)).instrs ≠ [] := by
  obtain ⟨before, inside, -⟩ := cut.gap here
  have size := length_blockOf starts k before inside
  intro empty
  rw [empty, List.length_nil] at size
  omega

theorem straight (cut : Cut body starts) {k start : Nat} (here : starts[k]? = some start) :
    (body.blockOf starts k start (body.stopOf starts k)).Straight := by
  obtain ⟨before, inside, none⟩ := cut.gap here
  have size := length_blockOf starts k before inside
  intro i early
  obtain ⟨j, bound, rfl⟩ := List.getElem_of_mem early
  rw [List.length_dropLast, size] at bound
  rw [List.getElem_dropLast]
  have found := getElem?_blockOf body starts k (show start + j < body.stopOf starts k by omega)
  rw [List.getElem?_eq_getElem (by omega)] at found
  by_contra ends
  have next := cut.terminals found.symm (by simpa using ends) (by omega)
  exact absurd (none _ next (by omega)) (by omega)

end Cut

theorem filter_below_isPrefix {pairs : List (Nat × Nat)}
    (sorted : pairs.Pairwise fun p q => p.1 < q.1) (z : Nat) :
    pairs.filter (fun p => decide (p.1 < z)) <+: pairs := by
  induction pairs with
  | nil => exact List.nil_prefix
  | cons p rest ih =>
    rw [List.pairwise_cons] at sorted
    by_cases below : p.1 < z
    · rw [List.filter_cons_of_pos (by simpa using below)]
      exact (List.prefix_cons_inj p).mpr (ih sorted.2)
    · have none : (p :: rest).filter (fun p => decide (p.1 < z)) = [] := by
        rw [List.filter_eq_nil_iff]
        intro q inside
        rcases List.mem_cons.mp inside with rfl | later
        · simpa using below
        · have := sorted.1 q later
          simp
          omega
      rw [none]
      exact List.nil_prefix

theorem filter_between_isInfix {pairs : List (Nat × Nat)}
    (sorted : pairs.Pairwise fun p q => p.1 < q.1) (a z : Nat) :
    pairs.filter (fun p => decide (a ≤ p.1) && decide (p.1 < z)) <:+: pairs := by
  induction pairs with
  | nil => exact List.infix_rfl
  | cons p rest ih =>
    by_cases early : p.1 < a
    · rw [List.filter_cons_of_neg (by simp; omega)]
      exact (ih (List.pairwise_cons.mp sorted).2).trans (List.suffix_cons p rest).isInfix
    · have same : (p :: rest).filter (fun p => decide (a ≤ p.1) && decide (p.1 < z)) =
          (p :: rest).filter (fun p => decide (p.1 < z)) := by
        apply List.filter_congr
        intro q inside
        have from_ : a ≤ q.1 := by
          rcases List.mem_cons.mp inside with rfl | later
          · omega
          · have := (List.pairwise_cons.mp sorted).1 q later
            omega
        simp [from_]
      rw [same]
      exact (filter_below_isPrefix sorted z).isInfix

theorem covered_isInfix (sorted : starts.Pairwise (· < ·)) (a z : Nat) :
    covered starts a z <:+: List.range starts.length := by
  have pairs : starts.zipIdx.Pairwise fun p q => p.1 < q.1 := by
    rw [← List.pairwise_map (f := Prod.fst), List.zipIdx_map_fst]
    exact sorted
  have all : starts.zipIdx.map Prod.snd = List.range starts.length := by
    rw [List.zipIdx_map_snd, List.range_eq_range']
  rw [← all]
  exact (filter_between_isInfix pairs a z).map Prod.snd

theorem mem_covered {a z k : Nat} :
    k ∈ covered starts a z ↔ ∃ s, starts[k]? = some s ∧ a ≤ s ∧ s < z := by
  simp only [covered, List.mem_map, List.mem_filter, Bool.and_eq_true, decide_eq_true_eq]
  constructor
  · rintro ⟨⟨s, k⟩, ⟨here, above, below⟩, rfl⟩
    exact ⟨s, List.mem_zipIdx_iff_getElem?.mp here, above, below⟩
  · rintro ⟨s, here, above, below⟩
    exact ⟨(s, k), ⟨List.mem_zipIdx_iff_getElem?.mpr here, above, below⟩, rfl⟩

theorem head?_covered (sorted : starts.Pairwise (· < ·)) {k a z : Nat}
    (here : starts[k]? = some a) (below : a < z) : (covered starts a z).head? = some k := by
  have inside : k ∈ covered starts a z := mem_covered.mpr ⟨a, here, Nat.le_refl a, below⟩
  have increasing : (covered starts a z).Pairwise (· < ·) :=
    List.pairwise_lt_range.sublist (covered_isInfix sorted a z).sublist
  obtain ⟨h, rest, list⟩ := List.exists_cons_of_ne_nil (List.ne_nil_of_mem inside)
  have first : h ∈ covered starts a z := by rw [list]; exact List.mem_cons_self
  obtain ⟨s, there, above, -⟩ := mem_covered.mp first
  rw [list] at inside increasing
  rw [list, List.head?_cons]
  rcases List.mem_cons.mp inside with rfl | later
  · rfl
  · obtain ⟨bound, rfl⟩ := List.getElem?_eq_some_iff.mp here
    obtain ⟨bound', rfl⟩ := List.getElem?_eq_some_iff.mp there
    have before := (List.pairwise_cons.mp increasing).1 k later
    have := List.pairwise_iff_getElem.mp sorted h k bound' bound before
    omega

theorem filter_between_append {pairs : List (Nat × Nat)}
    (sorted : pairs.Pairwise fun p q => p.1 < q.1) {a m z : Nat} (low : a ≤ m) (high : m ≤ z) :
    pairs.filter (fun p => decide (a ≤ p.1) && decide (p.1 < m)) ++
      pairs.filter (fun p => decide (m ≤ p.1) && decide (p.1 < z)) =
      pairs.filter (fun p => decide (a ≤ p.1) && decide (p.1 < z)) := by
  induction pairs with
  | nil => rfl
  | cons p rest ih =>
    have ih := ih (List.pairwise_cons.mp sorted).2
    by_cases below : p.1 < m
    · by_cases early : p.1 < a
      · rw [List.filter_cons_of_neg (by simp; omega), List.filter_cons_of_neg (by simp; omega),
          List.filter_cons_of_neg (by simp; omega), ih]
      · rw [List.filter_cons_of_pos (by simp; omega), List.filter_cons_of_neg (by simp; omega),
          List.filter_cons_of_pos (by simp; omega), List.cons_append, ih]
    · have from_ : ∀ q ∈ p :: rest, m ≤ q.1 := by
        intro q inside
        rcases List.mem_cons.mp inside with rfl | later
        · omega
        · have := (List.pairwise_cons.mp sorted).1 q later
          omega
      have none : (p :: rest).filter (fun p => decide (a ≤ p.1) && decide (p.1 < m)) = [] := by
        rw [List.filter_eq_nil_iff]
        intro q inside
        have := from_ q inside
        simp
        omega
      rw [none, List.nil_append]
      apply List.filter_congr
      intro q inside
      have := from_ q inside
      simp [this, Nat.le_trans low this]

theorem covered_append (sorted : starts.Pairwise (· < ·)) {a m z : Nat} (low : a ≤ m)
    (high : m ≤ z) : covered starts a m ++ covered starts m z = covered starts a z := by
  have pairs : starts.zipIdx.Pairwise fun p q => p.1 < q.1 := by
    rw [← List.pairwise_map (f := Prod.fst), List.zipIdx_map_fst]
    exact sorted
  rw [covered, covered, ← List.map_append, filter_between_append pairs low high]
  rfl

/-- The instructions of a body have ids of their own, below those that are still free. -/
structure Numbered (body : Body) : Prop where
  nodup : (body.instrs.map Instr.id).Nodup
  fresh : ∀ i ∈ body.instrs, i.id < body.nextId

theorem ids_blockOf (body : Body) (starts : List Nat) (id : BlockId) (start stop : Nat) :
    (body.blockOf starts id start stop).ids =
      ((body.instrs.map Instr.id).drop start).take (stop - start) := by
  rw [Block.ids, instrs_blockOf, List.map_take, List.map_drop]

theorem getElem?_of_mem_ids_blockOf {id : BlockId} {start stop n : Nat}
    (inside : n ∈ (body.blockOf starts id start stop).ids) :
    ∃ m, start ≤ m ∧ m < stop ∧ (body.instrs.map Instr.id)[m]? = some n := by
  rw [ids_blockOf] at inside
  obtain ⟨j, found⟩ := List.getElem?_of_mem inside
  rw [List.getElem?_take] at found
  split at found
  · rw [List.getElem?_drop] at found
    exact ⟨start + j, by omega, by omega, found⟩
  · cases found

theorem block?_cut {g : Graph} (slots : g.slots = (body.cutBlocks starts).map some) (k : Nat) :
    g.block? k =
      starts[k]?.map fun start => body.blockOf starts k start (body.stopOf starts k) := by
  rw [Graph.block?, slots, List.getElem?_map, getElem?_cutBlocks]
  cases starts[k]? <;> rfl

theorem contains_cut {g : Graph} (slots : g.slots = (body.cutBlocks starts).map some) (k : Nat) :
    g.contains k = true ↔ k < starts.length := by
  rw [Graph.contains, block?_cut slots k, Option.isSome_map]
  simp

theorem exists_start {g : Graph} (slots : g.slots = (body.cutBlocks starts).map some) {k : Nat}
    {b : Block} (live : g.block? k = some b) : ∃ start, starts[k]? = some start ∧
      b = body.blockOf starts k start (body.stopOf starts k) := by
  rw [block?_cut slots k] at live
  obtain ⟨start, here, rfl⟩ := Option.map_eq_some_iff.mp live
  exact ⟨start, here, rfl⟩

theorem Cut.apart (cut : Cut body starts) (numbered : body.Numbered) {k m a z : Nat}
    (first : starts[k]? = some a) (second : starts[m]? = some z) (before : k < m) :
    (body.blockOf starts k a (body.stopOf starts k)).ids.Disjoint
      (body.blockOf starts m z (body.stopOf starts m)).ids := by
  obtain ⟨inside₁, rfl⟩ := List.getElem?_eq_some_iff.mp first
  obtain ⟨inside₂, rfl⟩ := List.getElem?_eq_some_iff.mp second
  have later := List.pairwise_iff_getElem.mp cut.sorted k m inside₁ inside₂ before
  have stops := (cut.gap first).2.2 _ (List.getElem_mem inside₂) later
  intro n here there
  obtain ⟨p, -, below, found₁⟩ := getElem?_of_mem_ids_blockOf here
  obtain ⟨q, above, -, found₂⟩ := getElem?_of_mem_ids_blockOf there
  have bound := (List.getElem?_eq_some_iff.mp found₁).1
  have same := (List.getElem?_inj bound numbered.nodup).mp (found₁.trans found₂.symm)
  omega

theorem toGraph_laid {g : Graph} (done : body.toGraph = .ok g) : g.Laid := by
  obtain ⟨starts, cut, -, made⟩ := toGraph_ok done
  have slots : g.slots = (body.cutBlocks starts).map some := by rw [made]; rfl
  have size : (body.cutBlocks starts).length = starts.length := length_blocksFrom ..
  have layout : g.layout = List.range starts.length := by rw [made, ← size]; rfl
  have entry : g.entry = 0 := by rw [made]; rfl
  refine ⟨?_, ?_, ?_, ?_, ?_, ?_, ?_⟩
  · rw [layout]
    exact List.nodup_range
  · intro k
    rw [layout, List.mem_range, contains_cut slots]
  · intro k b live
    obtain ⟨start, -, rfl⟩ := exists_start slots live
    rfl
  · have some_ : starts ≠ [] := by
      intro none
      have := cut.first
      rw [none] at this
      cases this
    obtain ⟨first, rest, list⟩ := List.exists_cons_of_ne_nil some_
    rw [layout, entry, list, List.length_cons, List.range_succ_eq_map, List.head?_cons]
  · intro k b live
    obtain ⟨start, here, rfl⟩ := exists_start slots live
    exact cut.filled here
  · intro k b live
    obtain ⟨start, here, rfl⟩ := exists_start slots live
    exact cut.straight here
  · intro r inside
    rw [made] at inside
    obtain ⟨c, -, rfl⟩ := List.mem_map.mp inside
    rw [layout]
    intro range listed
    simp only [Region.lists, regionOf, List.mem_cons, List.not_mem_nil, or_false] at listed
    rcases listed with rfl | rfl | rfl
    · exact covered_isInfix cut.sorted _ _
    · exact covered_isInfix cut.sorted _ _
    · split
      · exact covered_isInfix cut.sorted _ _
      · exact List.nil_infix

theorem toGraph_distinct {g : Graph} (numbered : body.Numbered) (done : body.toGraph = .ok g) :
    g.Distinct := by
  obtain ⟨starts, cut, -, made⟩ := toGraph_ok done
  have slots : g.slots = (body.cutBlocks starts).map some := by rw [made]; rfl
  refine ⟨?_, ?_, ?_⟩
  · intro k b live
    obtain ⟨start, -, rfl⟩ := exists_start slots live
    rw [ids_blockOf]
    exact (numbered.nodup.sublist (List.drop_sublist _ _)).sublist (List.take_sublist _ _)
  · intro k m b c live there different
    obtain ⟨a, first, rfl⟩ := exists_start slots live
    obtain ⟨z, second, rfl⟩ := exists_start slots there
    rcases Nat.lt_or_gt_of_ne different with before | behind
    · exact cut.apart numbered first second before
    · exact (cut.apart numbered second first behind).symm
  · intro k b live n inside
    obtain ⟨start, -, rfl⟩ := exists_start slots live
    obtain ⟨m, -, -, found⟩ := getElem?_of_mem_ids_blockOf inside
    obtain ⟨i, among, rfl⟩ := List.mem_map.mp (List.mem_of_getElem? found)
    rw [made]
    exact numbered.fresh i among

theorem toGraph_tight {g : Graph} (done : body.toGraph = .ok g) : g.Tight := by
  obtain ⟨starts, cut, -, made⟩ := toGraph_ok done
  have slots : g.slots = (body.cutBlocks starts).map some := by rw [made]; rfl
  intro k b live s leads
  obtain ⟨start, -, rfl⟩ := exists_start slots live
  rw [contains_cut slots]
  exact successors_blockOf leads

theorem toGraph_forked {g : Graph} (done : body.toGraph = .ok g) : g.Forked := by
  obtain ⟨starts, -, closed, made⟩ := toGraph_ok done
  intro k b live test falls
  rw [Graph.block?, made, graphOf, List.getElem?_map] at live
  obtain ⟨b', found, same⟩ := Option.map_eq_some_iff.mp (Option.join_eq_some_iff.mp live)
  cases same
  have shut := List.any_eq_false.mp closed b (List.mem_of_getElem? found)
  simp [isOpenEnd, test, falls] at shut

theorem toGraph_consistent {g : Graph} (numbered : body.Numbered) (done : body.toGraph = .ok g) :
    g.Consistent :=
  (toGraph_laid done).consistent (toGraph_distinct numbered done) (toGraph_tight done)

end Body
end Unravel
