import Unravel.Proofs.Graph.Pruning
import Unravel.Proofs.Graph.Weight

/-!
Merging puts chains together and loses nothing. While blocks are merged, every block that is left
stands for a chain of blocks of the graph at the start: it has their code without the jumps between
them and the edges of the last. Each merge puts the chain of a block behind that of its predecessor.
The chains share no block and leave none out, and what merging has found to be joinable was so at
the start.
-/
namespace Unravel.Graph
variable {g h : Graph} {id pred next : BlockId} {b first second : Block} {ids : List BlockId}
  {code gone : List Instr}

/-- A chain of blocks, each of which can be joined to the one before it, with the code of the chain
    and the jumps from each block to the next, which that code does without. -/
inductive Strung (g : Graph) : List BlockId → List Instr → List Instr → Prop where
  | one {id : BlockId} {b : Block} (live : g.block? id = some b) : Strung g [id] b.instrs []
  | falls {id next : BlockId} {b c : Block} {ids : List BlockId} {code gone : List Instr}
      (link : Joinable g id next b c) (kind : b.kind = .fallThrough)
      (rest : Strung g (next :: ids) code gone) :
      Strung g (id :: next :: ids) (b.instrs ++ code) gone
  | jumps {id next : BlockId} {b c : Block} {front : List Instr} {jump : Instr}
      {ids : List BlockId} {code gone : List Instr} (link : Joinable g id next b c)
      (ends : b.instrs = front ++ [jump]) (leaps : jump.isBr = true)
      (rest : Strung g (next :: ids) code gone) :
      Strung g (id :: next :: ids) (front ++ code) (jump :: gone)

namespace Strung

theorem filled (strung : Strung g ids code gone) (l : g.Laid) : code ≠ [] := by
  induction strung with
  | one live => exact l.filled live
  | falls link kind rest ih => exact List.append_ne_nil_of_right_ne_nil _ ih
  | jumps link ends leaps rest ih => exact List.append_ne_nil_of_right_ne_nil _ ih

theorem perm (strung : Strung g ids code gone) : (code ++ gone).Perm (ids.flatMap g.code) := by
  induction strung with
  | one live => simp [code_of_live live]
  | falls link kind rest ih =>
    rw [List.append_assoc, List.flatMap_cons, code_of_live link.before]
    exact ih.append_left _
  | @jumps id next b c front jump ids code gone link ends leaps rest ih =>
    rw [List.append_assoc, List.flatMap_cons, code_of_live link.before, ends, List.append_assoc]
    exact (List.perm_middle.trans (ih.cons jump)).append_left front

theorem last_or_link (strung : Strung g ids code gone) {x : BlockId} (inside : x ∈ ids) :
    ids.getLast? = some x ∨ ∃ y b c, y ∈ ids.tail ∧ Joinable g x y b c := by
  induction strung with
  | one live =>
    rw [List.mem_singleton.mp inside]
    exact .inl rfl
  | falls link _ _ ih | jumps link _ _ _ ih =>
    rcases List.mem_cons.mp inside with rfl | inside
    · exact .inr ⟨_, _, _, List.mem_cons_self, link⟩
    · refine (ih inside).imp (fun last => ?_) fun ⟨y, b, c, behind, link⟩ => ?_
      · rw [List.getLast?_cons_cons]
        exact last
      · exact ⟨y, b, c, List.mem_cons_of_mem _ behind, link⟩

theorem together (strung : Strung g ids code gone) {a : BlockId} (head : ids.head? = some a)
    {x : BlockId} (inside : x ∈ ids) {r : Region} (listed : r ∈ g.regions) :
    r.membership a = r.membership x := by
  induction strung generalizing a with
  | one live =>
    cases head
    rw [List.mem_singleton.mp inside]
  | falls link _ _ ih | jumps link _ _ _ ih =>
    cases head
    rcases List.mem_cons.mp inside with rfl | inside
    · rfl
    · refine Eq.trans ?_ (ih rfl inside)
      simpa using List.all_eq_true.mp link.together r listed

theorem append (strung : Strung g ids code gone) (l : g.Laid) {last : BlockId} {c d : Block}
    (ends : ids.getLast? = some last) (link : Joinable g last next c d) {more : List BlockId}
    {code' gone' : List Instr} (rest : Strung g (next :: more) code' gone') :
    ∃ all, Strung g (ids ++ next :: more)
      ((if c.kind = .branch then code.dropLast else code) ++ code') all := by
  induction strung with
  | one live =>
    cases ends
    cases live.symm.trans link.before
    rcases (chains_cases link.chained).1 with kind | kind
    · rw [if_neg (by simp [kind])]
      exact ⟨_, .falls link kind rest⟩
    · obtain ⟨front, jump, whole, leaps⟩ := exists_jump kind
      rw [if_pos kind, whole, List.dropLast_concat]
      exact ⟨_, .jumps link whole leaps rest⟩
  | @falls a n b c' ids code gone link' kind tail ih =>
    rw [List.getLast?_cons_cons] at ends
    obtain ⟨all, longer⟩ := ih ends
    refine ⟨all, ?_⟩
    have open_ : (if c.kind = .branch then (b.instrs ++ code).dropLast else b.instrs ++ code) =
        b.instrs ++ if c.kind = .branch then code.dropLast else code := by
      split
      · exact List.dropLast_append_of_ne_nil (tail.filled l)
      · rfl
    rw [open_, List.append_assoc]
    exact .falls link' kind longer
  | @jumps a n b c' front jump ids code gone link' whole leaps tail ih =>
    rw [List.getLast?_cons_cons] at ends
    obtain ⟨all, longer⟩ := ih ends
    refine ⟨jump :: all, ?_⟩
    have open_ : (if c.kind = .branch then (front ++ code).dropLast else front ++ code) =
        front ++ if c.kind = .branch then code.dropLast else code := by
      split
      · exact List.dropLast_append_of_ne_nil (tail.filled l)
      · rfl
    rw [open_, List.append_assoc]
    exact .jumps link' whole leaps longer

end Strung

theorem mem_predecessors_iff (l : g.Laid) {s : BlockId} :
    id ∈ g.predecessors s ↔ ∃ b, g.block? id = some b ∧ s ∈ b.successors := by
  refine ⟨fun inside => ?_, fun ⟨b, live, leads⟩ => mem_predecessors l live leads⟩
  obtain ⟨b, leads, rfl⟩ := List.mem_map.mp inside
  obtain ⟨listed, leads⟩ := List.mem_filter.mp leads
  obtain ⟨x, -, live⟩ := mem_blocks.mp listed
  rw [l.named live]
  exact ⟨b, live, List.contains_iff_mem.mp leads⟩

theorem map_id_blocks (l : g.Laid) : g.blocks.map Block.id = g.layout := by
  have live : ∀ id ∈ g.layout, (g.block? id).map Block.id = some id := by
    intro id listed
    obtain ⟨b, live⟩ := contains_iff.mp ((l.listed id).mp listed)
    rw [live, Option.map_some, l.named live]
  rw [blocks, List.map_filterMap]
  exact (List.filterMap_congr live).trans List.filterMap_some

theorem nodup_predecessors (l : g.Laid) (s : BlockId) : (g.predecessors s).Nodup := by
  have nodup : (g.blocks.map Block.id).Nodup := (map_id_blocks l).symm ▸ l.nodup
  exact nodup.sublist (List.filter_sublist.map _)

theorem sameRegions_iff {a z : BlockId} : g.sameRegions a z = true ↔
    g.regions.map (Region.membership · a) = g.regions.map (Region.membership · z) := by
  simp [sameRegions, List.map_inj_left]

theorem isRegionEntry_iff : g.isRegionEntry id = true ↔ ∃ r ∈ g.regions, id ∈ r.entries := by
  simp [isRegionEntry, Region.isEntry, mem_entries]

theorem perm_of_update {ids : List BlockId} (nodup : ids.Nodup) {a z : BlockId} (here : a ∈ ids)
    (there : z ∈ ids) (apart : a ≠ z) (f : BlockId → List BlockId) :
    ((ids.erase z).flatMap (Function.update f a (f a ++ f z))).Perm (ids.flatMap f) := by
  have inside : a ∈ ids.erase z := nodup.mem_erase_iff.mpr ⟨apart, here⟩
  have others : ((ids.erase z).erase a).flatMap (Function.update f a (f a ++ f z)) =
      ((ids.erase z).erase a).flatMap f :=
    List.flatMap_congr fun x among =>
      Function.update_of_ne ((nodup.erase z).mem_erase_iff.mp among).1 _ _
  have split := (List.perm_cons_erase there).trans ((List.perm_cons_erase inside).cons z)
  refine ((List.perm_cons_erase inside).flatMap_right _).trans ?_
  refine List.Perm.trans ?_ (split.flatMap_right f).symm
  rw [List.flatMap_cons, Function.update_self, others, List.flatMap_cons, List.flatMap_cons,
    ← List.append_assoc]
  exact List.perm_append_comm.append_right _

/-- A graph in which every block stands for a chain of blocks of another graph. -/
structure Merged (g h : Graph) (chain : BlockId → List BlockId) : Prop where
  heads : ∀ id ∈ h.layout, (chain id).head? = some id
  parts : (h.layout.flatMap chain).Perm g.layout
  strung : ∀ {id b}, h.block? id = some b → ∃ gone, Strung g (chain id) b.instrs gone
  ends : ∀ {id b}, h.block? id = some b → ∃ last c, (chain id).getLast? = some last ∧
    g.block? last = some c ∧ b.kind = c.kind ∧ b.targets = c.targets ∧ b.fall = c.fall
  entry : h.entry = g.entry
  entries : h.regions.map Region.entries = g.regions.map Region.entries
  memberships : ∀ x ∈ h.layout,
    h.regions.map (Region.membership · x) = g.regions.map (Region.membership · x)

namespace Merged
variable {chain : BlockId → List BlockId}

theorem start (g : Graph) : Merged g g fun id => [id] where
  heads _ _ := rfl
  parts := by rw [List.flatMap_singleton']
  strung live := ⟨[], .one live⟩
  ends live := ⟨_, _, rfl, live, rfl, rfl, rfl⟩
  entry := rfl
  entries := rfl
  memberships _ _ := rfl

section
variable (m : Merged g h chain)
include m

theorem same_chain (l : g.Laid) {x y z : BlockId} (first : y ∈ h.layout) (second : z ∈ h.layout)
    (here : x ∈ chain y) (there : x ∈ chain z) : y = z := by
  by_contra away
  have nodup := m.parts.nodup_iff.mpr l.nodup
  have : Std.Symm (Function.onFun List.Disjoint chain) := ⟨fun _ _ apart => apart.symm⟩
  exact (List.nodup_flatMap.mp nodup).2.forall first second away here there

theorem isRegionEntry (id : BlockId) : h.isRegionEntry id = g.isRegionEntry id := by
  rw [Bool.eq_iff_iff, isRegionEntry_iff, isRegionEntry_iff]
  have listed : ∀ {f : Graph}, (∃ r ∈ f.regions, id ∈ r.entries) ↔
      ∃ ids ∈ f.regions.map Region.entries, id ∈ ids := by simp
  rw [listed, listed, m.entries]

theorem head_mem {id : BlockId} (listed : id ∈ h.layout) : id ∈ chain id :=
  List.mem_of_head? (m.heads id listed)

theorem successors {b c : Block} {last : BlockId} (live : h.block? id = some b)
    (ends : (chain id).getLast? = some last) (was : g.block? last = some c) :
    b.successors = c.successors ∧ ∀ next, chains b next = chains c next := by
  obtain ⟨last', c', ends', was', kind, targets, fall⟩ := m.ends live
  cases ends.symm.trans ends'
  cases was.symm.trans was'
  simp only [Block.successors, chains, kind, targets, fall, implies_true, and_self]

theorem predecessors (l : g.Laid) (l' : h.Laid) {last : BlockId}
    (j : Joinable h pred id first second) (ends : (chain pred).getLast? = some last) :
    g.predecessors id = [last] := by
  have listed := l'.listed_of_live j.behind
  have unique : ∀ x, x ∈ g.predecessors id ↔ x = last := by
    intro x
    rw [mem_predecessors_iff l]
    constructor
    · rintro ⟨c, live, leads⟩
      obtain ⟨y, owner, inside⟩ :=
        List.mem_flatMap.mp (m.parts.mem_iff.mpr (l.listed_of_live live))
      obtain ⟨b, there⟩ := contains_iff.mp ((l'.listed y).mp owner)
      obtain ⟨gone, strung⟩ := m.strung there
      rcases strung.last_or_link inside with final | ⟨z, c', d, behind, link⟩
      · rw [← (m.successors there final live).1] at leads
        have only := mem_predecessors l' there leads
        rw [j.only, List.mem_singleton] at only
        subst only
        exact Option.some.inj (final.symm.trans ends)
      · -- Control goes on inside the chain, whose first block nothing inside leads to.
        cases live.symm.trans link.before
        rw [(chains_cases link.chained).2, List.mem_singleton] at leads
        subst leads
        have same := m.same_chain l owner listed (List.mem_of_mem_tail behind) (m.head_mem listed)
        subst same
        obtain ⟨tail, whole⟩ := List.head?_eq_some_iff.mp (m.heads _ listed)
        have nodup := (List.nodup_flatMap.mp (m.parts.nodup_iff.mpr l.nodup)).1 _ listed
        rw [whole] at behind nodup
        exact absurd behind (List.nodup_cons.mp nodup).1
    · rintro rfl
      obtain ⟨x', c, ends', live, -⟩ := m.ends j.before
      cases ends.symm.trans ends'
      refine ⟨c, live, ?_⟩
      rw [← (m.successors j.before ends live).1, (chains_cases j.chained).2]
      exact List.mem_singleton_self id
  exact List.perm_singleton.mp
    ((List.perm_ext_iff_of_nodup (nodup_predecessors l id) (List.nodup_singleton last)).mpr
      fun x => (unique x).trans List.mem_singleton.symm)

/-- What can be joined could be joined at the start: the first block of one chain to the last block
    of the other. -/
theorem link (l : g.Laid) (l' : h.Laid) (j : Joinable h pred id first second) :
    ∃ last c d, (chain pred).getLast? = some last ∧ first.kind = c.kind ∧
      Joinable g last id c d := by
  obtain ⟨last, c, ends, was, kind, -⟩ := m.ends j.before
  have here := l'.listed_of_live j.before
  have there := l'.listed_of_live j.behind
  have inside : id ∈ g.layout :=
    m.parts.mem_iff.mp (List.mem_flatMap.mpr ⟨id, there, m.head_mem there⟩)
  obtain ⟨d, live⟩ := contains_iff.mp ((l.listed id).mp inside)
  obtain ⟨gone, strung⟩ := m.strung j.before
  refine ⟨last, c, d, ends, kind, was, live, m.entry ▸ j.notEntry, ?_, m.predecessors l l' j ends,
    ?_, ?_, ?_⟩
  · rw [← m.isRegionEntry]
    exact j.notHandler
  · rw [← (m.successors j.before ends was).2]
    exact j.chained
  · rintro rfl
    exact j.apart (m.same_chain l here there (List.mem_of_getLast? ends) (m.head_mem there))
  · have same := sameRegions_iff.mp j.together
    rw [m.memberships pred here, m.memberships id there] at same
    refine sameRegions_iff.mpr (Eq.trans (List.map_congr_left fun r listed => ?_) same)
    exact (strung.together (m.heads pred here) (List.mem_of_getLast? ends) listed).symm

theorem joined (l : g.Laid) (l' : h.Laid) (j : Joinable h pred id first second) :
    Merged g ((h.drop id).modify pred fun b => join b second)
      (Function.update chain pred (chain pred ++ chain id)) := by
  set joint := (h.drop id).modify pred fun b => join b second with made
  have here := l'.listed_of_live j.before
  have there := l'.listed_of_live j.behind
  have layout : joint.layout = h.layout.erase id := (l'.nodup.erase_eq_filter id).symm
  have listed : ∀ x, x ∈ joint.layout → x ∈ h.layout ∧ x ≠ id := by
    intro x inside
    rw [layout, l'.nodup.mem_erase_iff] at inside
    exact inside.symm
  refine ⟨?_, ?_, ?_, ?_, m.entry, ?_, ?_⟩
  · intro x inside
    have head := m.heads x (listed x inside).1
    by_cases same : x = pred
    · subst same
      rw [Function.update_self, List.head?_append, head]
      rfl
    · rw [Function.update_of_ne same]
      exact head
  · rw [layout]
    exact (perm_of_update l'.nodup here there j.apart chain).trans m.parts
  · intro x b live
    rcases block?_of_joined j live with ⟨rfl, rfl⟩ | ⟨-, away, live⟩
    · -- The code follows the chain of `pred`, then that of `id`, with the jump between them gone.
      obtain ⟨last, c, d, ends, kind, link⟩ := m.link l l' j
      obtain ⟨gone, strung⟩ := m.strung j.before
      obtain ⟨gone', behind⟩ := m.strung j.behind
      obtain ⟨tail, whole⟩ := List.head?_eq_some_iff.mp (m.heads id there)
      rw [whole] at behind
      rw [Function.update_self, whole, join, openCode, kind]
      exact strung.append l ends link behind
    · rw [Function.update_of_ne away]
      exact m.strung live
  · intro x b live
    rcases block?_of_joined j live with ⟨rfl, rfl⟩ | ⟨-, away, live⟩
    · obtain ⟨last, c, ends, was, kind, edges⟩ := m.ends j.behind
      rw [Function.update_self, List.getLast?_append, ends, kind_join first (l'.filled j.behind)]
      exact ⟨last, c, rfl, was, kind, edges⟩
    · rw [Function.update_of_ne away]
      exact m.ends live
  · rw [← m.entries, made]
    change (h.regions.map _).map _ = _
    rw [List.map_map]
    exact List.map_congr_left fun r inside => entries_without (j.stays inside)
  · intro x inside
    obtain ⟨inside, away⟩ := listed x inside
    rw [← m.memberships x inside, made]
    change (h.regions.map _).map _ = _
    rw [List.map_map]
    refine List.map_congr_left fun r _ => ?_
    simp [Region.membership, Region.without, Region.mapLists, away]

end

theorem mergeUpTo (l : g.Laid) (n : Nat) : ∃ chain, Merged g (g.mergeUpTo n).2 chain := by
  refine (mergeUpTo_keeps (P := fun h => h.Laid ∧ ∃ chain, Merged g h chain) ?_ n
    ⟨l, _, start g⟩).2
  rintro h pred id first second ⟨l', chain, m⟩ j
  exact ⟨l'.joined j, _, m.joined l l' j⟩

theorem exists_jumps {chain : BlockId → List BlockId} (m : Merged g h chain) :
    ∃ jumps : BlockId → List Instr, ∀ id b, h.block? id = some b →
      Strung g (chain id) b.instrs (jumps id) := by
  have each : ∀ id, ∃ gone, ∀ b, h.block? id = some b → Strung g (chain id) b.instrs gone := by
    intro id
    cases live : h.block? id with
    | none => exact ⟨[], nofun⟩
    | some b =>
      obtain ⟨gone, strung⟩ := m.strung live
      exact ⟨gone, fun _ same => Option.some.inj same ▸ strung⟩
  choose jumps strung using each
  exact ⟨jumps, strung⟩

theorem perm {chain : BlockId → List BlockId} (m : Merged g h chain)
    {jumps : BlockId → List Instr} (l : h.Laid)
    (strung : ∀ {id b}, h.block? id = some b → Strung g (chain id) b.instrs (jumps id)) :
    (h.blocks.flatMap Block.instrs ++ h.layout.flatMap jumps).Perm
      (g.blocks.flatMap Block.instrs) := by
  have each : ∀ id ∈ h.layout, (h.code id ++ jumps id).Perm ((chain id).flatMap g.code) := by
    intro id listed
    obtain ⟨b, live⟩ := contains_iff.mp ((l.listed id).mp listed)
    rw [code_of_live live]
    exact (strung live).perm
  rw [flatMap_blocks, flatMap_blocks]
  calc
    List.Perm _ (h.layout.flatMap fun id => h.code id ++ jumps id) :=
      List.flatMap_append_perm _ _ _
    List.Perm _ (h.layout.flatMap fun id => (chain id).flatMap g.code) := .flatMap_left _ each
    List.Perm _ (g.layout.flatMap g.code) := by
      rw [← List.flatMap_assoc]
      exact m.parts.flatMap_right _

end Merged

/-- Merging as long as two blocks can be joined, with the number of merges. -/
inductive Merges : Graph → Nat → Graph → Prop where
  | done {g : Graph} (none : g.mergeOnce? = none) : Merges g 0 g
  | step {g next last : Graph} {n : Nat} (merged : g.mergeOnce? = some next)
      (rest : Merges next n last) : Merges g (n + 1) last

theorem Merges.settled {n : Nat} (merges : Merges g n h) : h.mergeOnce? = none := by
  induction merges with
  | done none => exact none
  | step _ _ ih => exact ih

theorem merges_mergeUpTo (l : g.Laid) {n : Nat} (enough : g.layout.length ≤ n) :
    Merges g (g.mergeUpTo n).1 (g.mergeUpTo n).2 := by
  induction n generalizing g with
  | zero =>
    have empty := List.length_eq_zero_iff.mp (Nat.le_zero.mp enough)
    have first := l.entryFirst
    rw [empty] at first
    cases first
  | succ n ih =>
    rw [mergeUpTo]
    split
    · exact .done ‹_›
    · rename_i next merged
      refine .step merged ?_
      obtain ⟨pred, id, first, second, j, rfl⟩ := mergeOnce?_some merged
      have fewer := length_joined l j
      exact ih (l.joined j) (by omega)

theorem mergeInto?_of_joinable (j : Joinable g pred id first second) :
    g.mergeInto? id = some pred := by
  simp [mergeInto?, j.notEntry, j.notHandler, j.only, j.before, j.chained, j.apart, j.together]

theorem not_joinable_of_none (l : g.Laid) (none : g.mergeOnce? = none) :
    ¬ Joinable g pred id first second := by
  intro j
  have candidate : g.mergeable? ≠ Option.none := by
    intro nothing
    have fails := List.findSome?_eq_none_iff.mp nothing id (l.listed_of_live j.behind)
    rw [mergeInto?_of_joinable j] at fails
    cases fails
  obtain ⟨⟨before, behind⟩, found⟩ := Option.ne_none_iff_exists'.mp candidate
  obtain ⟨x, listed, into⟩ := List.exists_of_findSome?_eq_some found
  obtain ⟨_, -, same⟩ := Option.map_eq_some_iff.mp into
  cases same
  obtain ⟨b, live⟩ := contains_iff.mp ((l.listed behind).mp listed)
  simp [mergeOnce?, found, live] at none

theorem chains_of_edge {x t : BlockId} (edge : ⟨x, t, .always⟩ ∈ b.edges) :
    b.id = x ∧ chains b t = true := by
  unfold Block.edges at edge
  unfold chains
  split at edge <;> simp_all

/-- Where nothing is left to join, no block that may be joined to its only predecessor is led to
    by an edge that is always taken. -/
theorem Consistent.no_chain_of_none (c : g.Consistent) (none : g.mergeOnce? = none)
    (notEntry : id ≠ g.entry) (notHandler : g.isRegionEntry id = false)
    (only : g.predecessors id = [pred]) (apart : pred ≠ id)
    (together : g.sameRegions pred id = true) : ⟨pred, id, .always⟩ ∉ g.edges := by
  intro edge
  obtain ⟨b, listed, edge⟩ := List.mem_flatMap.mp edge
  obtain ⟨rfl, chained⟩ := chains_of_edge edge
  obtain ⟨x, -, live⟩ := mem_blocks.mp listed
  rw [← c.named live] at live
  have leads : id ∈ b.successors := by
    rw [(chains_cases chained).2]
    exact List.mem_singleton_self id
  obtain ⟨d, behind⟩ := contains_iff.mp (c.closed live id leads)
  exact not_joinable_of_none c.laid none
    ⟨live, behind, notEntry, notHandler, only, chained, apart, together⟩

theorem Consistent.unique_block (c : g.Consistent) {i : Instr}
    (inside : i ∈ g.blocks.flatMap Block.instrs) : ∃! id, i ∈ g.code id := by
  rw [flatMap_blocks] at inside
  obtain ⟨id, -, here⟩ := List.mem_flatMap.mp inside
  refine ⟨id, here, fun other there => ?_⟩
  obtain ⟨b, live, among⟩ := mem_code.mp here
  obtain ⟨b', live', among'⟩ := mem_code.mp there
  by_contra away
  exact c.apart live' live away (List.mem_map_of_mem among') (List.mem_map_of_mem among)

theorem Laid.live_entry (l : g.Laid) (enters : id = g.entry ∨ g.isRegionEntry id = true) :
    ∃ b, g.block? id = some b ∧ b.id = id := by
  have listed : id ∈ g.layout := by
    rcases enters with rfl | enters
    · exact List.mem_of_head? l.entryFirst
    · obtain ⟨r, inside, entry⟩ := isRegionEntry_iff.mp enters
      rcases mem_entries.mp entry with first | first
      · exact (l.regions r inside r.handlerBlocks (by simp [Region.lists])).subset
          (List.mem_of_head? first)
      · exact (l.regions r inside r.filterBlocks (by simp [Region.lists])).subset
          (List.mem_of_head? first)
  obtain ⟨b, live⟩ := contains_iff.mp ((l.listed id).mp listed)
  exact ⟨b, live, l.named live⟩

/-- Merging comes to an end and counts the blocks that go; nothing is left to merge. Every block
    that is left has the code of a chain of blocks, one behind the other, without the jumps between
    them. All blocks are in those chains and no instruction but the jumps is lost or repeated. The
    entry, the handlers and the filters stay. -/
theorem merge_joins_chains (c : g.Consistent) :
    ∃ n g', g.merge = (n, g') ∧ Merges g n g' ∧ g'.blocks.length + n = g.blocks.length ∧
      g'.merge = (0, g') ∧
      (∀ id pred, id ≠ g'.entry → g'.isRegionEntry id = false → g'.predecessors id = [pred] →
        pred ≠ id → g'.sameRegions pred id = true → ⟨pred, id, .always⟩ ∉ g'.edges) ∧
      (∃ chain jumps, (∀ id ∈ g'.layout, (chain id).head? = some id) ∧
        (g'.layout.flatMap chain).Perm g.layout ∧
        (∀ id b, g'.block? id = some b → Strung g (chain id) b.instrs (jumps id)) ∧
        (g'.blocks.flatMap Block.instrs ++ g'.layout.flatMap jumps).Perm
          (g.blocks.flatMap Block.instrs) ∧
        ∀ i ∈ g.blocks.flatMap Block.instrs, i ∉ g'.layout.flatMap jumps →
          ∃! id, i ∈ g'.code id) ∧
      g'.entry = g.entry ∧ g'.regions.map Region.entries = g.regions.map Region.entries ∧
      ∀ id, id = g.entry ∨ g.isRegionEntry id = true → ∃ b, g'.block? id = some b ∧ b.id = id := by
  have merges := merges_mergeUpTo c.laid (Nat.le_refl _)
  have c' : g.merge.2.Consistent := c.mergeUpTo _
  obtain ⟨chain, m⟩ := Merged.mergeUpTo c.laid g.layout.length
  refine ⟨_, g.merge.2, rfl, merges, ?_, merge_of_none merges.settled, fun id pred =>
    c'.no_chain_of_none merges.settled, ?_, m.entry, m.entries, fun id enters => ?_⟩
  · have count := length_merge c.laid
    rwa [← map_id_blocks c.laid, ← map_id_blocks c'.laid, List.length_map, List.length_map] at count
  · obtain ⟨jumps, strung⟩ := m.exists_jumps
    have whole := m.perm c'.laid fun live => strung _ _ live
    refine ⟨chain, jumps, m.heads, m.parts, strung, whole, fun i inside stays => ?_⟩
    exact c'.unique_block ((List.mem_append.mp (whole.mem_iff.mpr inside)).resolve_right stays)
  · refine c'.laid.live_entry (enters.imp (fun same => same.trans m.entry.symm) fun entry => ?_)
    exact (m.isRegionEntry id).trans entry

def jumpChain : Body where
  instrs := [⟨0, .nop, .none, 0⟩, ⟨1, .br .long, .target 3, 0⟩, ⟨2, .ret, .none, 0⟩,
    ⟨3, .nop, .none, 0⟩, ⟨4, .br .long, .target 5, 0⟩, ⟨5, .ret, .none, 0⟩]
  nextId := 6

theorem jumpChain_merge_joins_chains :
    ∃ g g', jumpChain.toGraph = .ok g ∧ g.Consistent ∧ g.merge = (2, g') ∧ Merges g 2 g' ∧
      g'.merge = (0, g') ∧ g'.blocks.length = 2 ∧ (g'.code 0).map Instr.id = [0, 3, 5] := by
  have c := @Body.toGraph_consistent jumpChain _ ⟨by decide, by decide⟩ rfl
  obtain ⟨n, g', done, merges, -, again, -⟩ := merge_joins_chains c
  cases done
  exact ⟨_, _, rfl, c, rfl, merges, again, rfl, rfl⟩

end Unravel.Graph
