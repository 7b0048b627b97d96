import Unravel.Proofs.Execution
import Unravel.Proofs.Graph.Edits

/-!
The representation invariant of block graphs: slots, layout, edges, instruction ids and regions fit
together. Each edit is shown to keep it. No edit checks all of it, so the parts lean on one another:
a block is deleted because no edge leads to it, and regions stay contiguous because they are edited
just as the layout is.
-/
namespace Unravel

def Block.ids (b : Block) : List InstrId := b.instrs.map Instr.id

def Region.lists (r : Region) : List (List BlockId) :=
  [r.tryBlocks, r.handlerBlocks, r.filterBlocks]

theorem Instr.kind_of_plain {i : Instr} (plain : i.isTerminal = false) :
    BlockKind.ofFlow i.flow = .fallThrough := by
  revert plain
  rw [Instr.isTerminal]
  cases i.flow <;> simp [Flow.endsBlock, BlockKind.ofFlow]

theorem BlockKind.ofFlow_open {flow : Flow} :
    (ofFlow flow = .fallThrough ∨ ofFlow flow = .conditional ∨ ofFlow flow = .switch) ↔
      flow.fallsThrough = true := by
  cases flow <;> simp [ofFlow, Flow.fallsThrough]

namespace Block
variable {b : Block} {front : List Instr} {last : Instr}

theorem kind_eq (code : b.instrs = front ++ [last]) : b.kind = .ofFlow last.flow := by
  simp [kind, code]

theorem straight_iff (code : b.instrs = front ++ [last]) :
    b.Straight ↔ ∀ i ∈ front, i.isTerminal = false := by
  simp [Straight, code]

theorem setLast_instrs (code : b.instrs = front ++ [last]) (f : Instr → Instr) :
    (b.setLast f).instrs = front ++ [f last] := by
  simp [setLast, code]

theorem exists_last (filled : b.instrs ≠ []) : ∃ front last, b.instrs = front ++ [last] := by
  rcases b.instrs.eq_nil_or_concat with empty | ⟨front, last, code⟩
  · exact absurd empty filled
  · exact ⟨front, last, by simpa using code⟩

theorem ids_setLast {f : Instr → Instr} (keeps : ∀ i, (f i).id = i.id) :
    (b.setLast f).ids = b.ids := by
  rcases b.instrs.eq_nil_or_concat with empty | ⟨front, last, code⟩
  · simp [ids, setLast, empty]
  · simp [ids, setLast, code, keeps]

theorem straight_setLast (straight : b.Straight) (f : Instr → Instr) : (b.setLast f).Straight := by
  rcases b.instrs.eq_nil_or_concat with empty | ⟨front, last, code⟩
  · simp [Straight, setLast, empty]
  · simpa [Straight, setLast, code] using straight

theorem fall_mem_successors {fall : BlockId} (falls : b.fall = some fall)
    (open_ : b.kind = .fallThrough ∨ b.kind = .conditional ∨ b.kind = .switch) :
    fall ∈ b.successors := by
  rcases open_ with kind | kind | kind <;> simp [successors, kind, falls]

end Block

namespace Graph

/-- A list of blocks that stand side by side in the layout is an infix of it; since the layout
    repeats nothing and lists live blocks, so does the list. -/
structure Consistent (g : Graph) : Prop where
  nodup : g.layout.Nodup
  listed : ∀ id, id ∈ g.layout ↔ g.contains id = true
  named : ∀ {id b}, g.block? id = some b → b.id = id
  entryFirst : g.layout.head? = some g.entry
  filled : ∀ {id b}, g.block? id = some b → b.instrs ≠ []
  straight : ∀ {id b}, g.block? id = some b → b.Straight
  unique : ∀ {id b}, g.block? id = some b → b.ids.Nodup
  apart : ∀ {id other b c}, g.block? id = some b → g.block? other = some c → id ≠ other →
    b.ids.Disjoint c.ids
  fresh : ∀ {id b}, g.block? id = some b → ∀ n ∈ b.ids, n < g.nextInstr
  closed : ∀ {id b}, g.block? id = some b → ∀ s ∈ b.successors, g.contains s = true
  regions : ∀ r ∈ g.regions, ∀ blocks ∈ r.lists, blocks <:+: g.layout

/-- Slots and layout have the same blocks, blocks are straight, and regions are parts of the
    layout. -/
structure Laid (g : Graph) : Prop where
  nodup : g.layout.Nodup
  listed : ∀ id, id ∈ g.layout ↔ g.contains id = true
  named : ∀ {id b}, g.block? id = some b → b.id = id
  entryFirst : g.layout.head? = some g.entry
  filled : ∀ {id b}, g.block? id = some b → b.instrs ≠ []
  straight : ∀ {id b}, g.block? id = some b → b.Straight
  regions : ∀ r ∈ g.regions, ∀ blocks ∈ r.lists, blocks <:+: g.layout

structure Distinct (g : Graph) : Prop where
  unique : ∀ {id b}, g.block? id = some b → b.ids.Nodup
  apart : ∀ {id other b c}, g.block? id = some b → g.block? other = some c → id ≠ other →
    b.ids.Disjoint c.ids
  fresh : ∀ {id b}, g.block? id = some b → ∀ n ∈ b.ids, n < g.nextInstr

def Tight (g : Graph) : Prop :=
  ∀ ⦃id b⦄, g.block? id = some b → ∀ s ∈ b.successors, g.contains s = true

def Forked (g : Graph) : Prop :=
  ∀ ⦃id b⦄, g.block? id = some b → b.kind = .conditional → b.fall ≠ none

variable {g g' : Graph} {id : BlockId} {b : Block}

theorem Forked.exchange (forked : g.Forked) {b' : Block}
    (blocks : ∀ other, g'.block? other = if id = other then some b' else g.block? other)
    (forks : b'.kind = .conditional → b'.fall ≠ none) : g'.Forked := by
  intro other d found
  rw [blocks] at found
  split at found
  · cases found
    exact forks
  · exact forked found

/-- Layout and regions are the same, whatever is in the blocks. -/
structure SameFrame (g g' : Graph) : Prop where
  layout : g'.layout = g.layout
  regions : g'.regions = g.regions

theorem SameFrame.trans {h : Graph} (first : g.SameFrame g') (second : g'.SameFrame h) :
    g.SameFrame h :=
  ⟨second.layout.trans first.layout, second.regions.trans first.regions⟩

theorem contains_iff {id : BlockId} : g.contains id = true ↔ ∃ b, g.block? id = some b := by
  rw [contains, Option.isSome_iff_exists]

theorem mem_blocks : b ∈ g.blocks ↔ ∃ id ∈ g.layout, g.block? id = some b :=
  List.mem_filterMap

namespace Consistent

theorem laid (c : g.Consistent) : g.Laid where
  nodup := c.nodup
  listed := c.listed
  named := c.named
  entryFirst := c.entryFirst
  filled := c.filled
  straight := c.straight
  regions := c.regions

theorem distinct (c : g.Consistent) : g.Distinct where
  unique := c.unique
  apart := c.apart
  fresh := c.fresh

theorem tight (c : g.Consistent) : g.Tight := fun _ _ live => c.closed live

end Consistent

namespace Laid

theorem consistent (l : g.Laid) (distinct : g.Distinct) (tight : g.Tight) : g.Consistent where
  nodup := l.nodup
  listed := l.listed
  named := l.named
  entryFirst := l.entryFirst
  filled := l.filled
  straight := l.straight
  unique := distinct.unique
  apart := distinct.apart
  fresh := distinct.fresh
  closed live := tight live
  regions := l.regions

theorem listed_of_live (l : g.Laid) (live : g.block? id = some b) : id ∈ g.layout :=
  (l.listed id).mpr (contains_iff.mpr ⟨b, live⟩)

theorem mem_blocks_of_live (l : g.Laid) (live : g.block? id = some b) : b ∈ g.blocks :=
  mem_blocks.mpr ⟨id, l.listed_of_live live, live⟩

end Laid

def rewritten (g : Graph) (id : BlockId) (f : Block → Block) (n : InstrId) : Graph :=
  { g.modify id f with nextInstr := n }

section Rewritten
variable {n : InstrId} {f : Block → Block}

theorem block?_rewritten (live : g.block? id = some b) {other : BlockId} {d : Block}
    (found : (g.rewritten id f n).block? other = some d) :
    (other = id ∧ d = f b) ∨ (other ≠ id ∧ g.block? other = some d) := by
  have found : (g.modify id f).block? other = some d := found
  rw [block?_modify] at found
  split at found
  · rename_i same
    subst same
    rw [live] at found
    cases found
    exact .inl ⟨rfl, rfl⟩
  · rename_i away
    exact .inr ⟨fun same => away same.symm, found⟩

theorem contains_rewritten (id : BlockId) (f : Block → Block) (n : InstrId) (x : BlockId) :
    (g.rewritten id f n).contains x = g.contains x := by
  change ((g.modify id f).block? x).isSome = (g.block? x).isSome
  rw [block?_modify]
  split <;> simp

theorem Laid.rewritten (l : g.Laid) (live : g.block? id = some b) (named : (f b).id = b.id)
    (filled : (f b).instrs ≠ []) (straight : (f b).Straight) : (g.rewritten id f n).Laid where
  nodup := l.nodup
  listed x := by
    rw [contains_rewritten]
    exact l.listed x
  named found := by
    rcases block?_rewritten live found with ⟨rfl, rfl⟩ | ⟨-, found⟩
    · exact named.trans (l.named live)
    · exact l.named found
  entryFirst := l.entryFirst
  filled found := by
    rcases block?_rewritten live found with ⟨rfl, rfl⟩ | ⟨-, found⟩
    · exact filled
    · exact l.filled found
  straight found := by
    rcases block?_rewritten live found with ⟨rfl, rfl⟩ | ⟨-, found⟩
    · exact straight
    · exact l.straight found
  regions := l.regions

theorem Distinct.rewritten (distinct : g.Distinct) (live : g.block? id = some b)
    (more : g.nextInstr ≤ n) (unique : (f b).ids.Nodup)
    (ids : ∀ k ∈ (f b).ids, k ∈ b.ids ∨ (g.nextInstr ≤ k ∧ k < n)) :
    (g.rewritten id f n).Distinct := by
  have disjoint : ∀ {other d}, g.block? other = some d → other ≠ id → (f b).ids.Disjoint d.ids := by
    intro other d found away k inside there
    rcases ids k inside with old | ⟨new, -⟩
    · exact distinct.apart live found (fun same => away same.symm) old there
    · exact absurd (distinct.fresh found k there) (Nat.not_lt.mpr new)
  refine ⟨?_, ?_, ?_⟩
  · intro other d found
    rcases block?_rewritten live found with ⟨rfl, rfl⟩ | ⟨-, found⟩
    · exact unique
    · exact distinct.unique found
  · intro first second d e found there away
    rcases block?_rewritten live found with ⟨rfl, rfl⟩ | ⟨away₁, was₁⟩
    · rcases block?_rewritten live there with ⟨rfl, rfl⟩ | ⟨away₂, was₂⟩
      · exact absurd rfl away
      · exact disjoint was₂ away₂
    · rcases block?_rewritten live there with ⟨rfl, rfl⟩ | ⟨away₂, was₂⟩
      · exact (disjoint was₁ away₁).symm
      · exact distinct.apart was₁ was₂ away
  · intro other d found k inside
    change k < n
    rcases block?_rewritten live found with ⟨rfl, rfl⟩ | ⟨-, found⟩
    · rcases ids k inside with old | ⟨-, new⟩
      · exact Nat.lt_of_lt_of_le (distinct.fresh live k old) more
      · exact new
    · exact Nat.lt_of_lt_of_le (distinct.fresh found k inside) more

theorem Tight.rewritten (tight : g.Tight) (live : g.block? id = some b)
    (closed : ∀ s ∈ (f b).successors, g.contains s = true) : (g.rewritten id f n).Tight := by
  intro other d found s leads
  rw [contains_rewritten]
  rcases block?_rewritten live found with ⟨rfl, rfl⟩ | ⟨-, found⟩
  · exact closed s leads
  · exact tight found s leads

end Rewritten

theorem Laid.filled_of_ids (l : g.Laid) {d : Block} (live : g.block? id = some b)
    (same : d.ids = b.ids) : d.instrs ≠ [] := by
  intro empty
  have none : b.ids = [] := by rw [← same, Block.ids, empty]; rfl
  exact l.filled live (List.map_eq_nil_iff.mp none)

theorem Laid.edit (l : g.Laid) {f : Block → Block} (live : g.block? id = some b)
    (named : (f b).id = b.id) (same : (f b).ids = b.ids) (straight : (f b).Straight) :
    (g.modify id f).Laid :=
  (l.rewritten live named (l.filled_of_ids live same) straight :
    (g.rewritten id f g.nextInstr).Laid)

theorem Distinct.edit (distinct : g.Distinct) {f : Block → Block} (live : g.block? id = some b)
    (same : (f b).ids = b.ids) : (g.modify id f).Distinct := by
  refine (distinct.rewritten live (Nat.le_refl _) ?_ ?_ : (g.rewritten id f g.nextInstr).Distinct)
  · rw [same]
    exact distinct.unique live
  · intro k inside
    rw [same] at inside
    exact .inl inside

theorem Laid.redirect (l : g.Laid) {target : BlockId} (done : g.redirect id target = .ok g') :
    g'.Laid := by
  obtain ⟨destination, b, -, live, -, rfl⟩ := redirect_ok done
  exact l.edit live rfl (Block.ids_setLast fun _ => rfl)
    (Block.straight_setLast (l.straight live) (jumpInstr destination.firstId?))

theorem Distinct.redirect (distinct : g.Distinct) {target : BlockId}
    (done : g.redirect id target = .ok g') : g'.Distinct := by
  obtain ⟨destination, b, -, live, -, rfl⟩ := redirect_ok done
  exact distinct.edit live (Block.ids_setLast fun _ => rfl)

theorem Tight.redirect (tight : g.Tight) (l : g.Laid) {target : BlockId}
    (done : g.redirect id target = .ok g') : g'.Tight := by
  obtain ⟨destination, b, there, live, ends, rfl⟩ := redirect_ok done
  obtain ⟨front, last, code⟩ := Block.exists_last (l.filled live)
  refine (tight.rewritten live ?_ : (g.rewritten id _ g.nextInstr).Tight)
  have kind : ({ b.setLast (jumpInstr destination.firstId?) with
      targets := [target], fall := none } : Block).kind = .branch :=
    Block.kind_eq (Block.setLast_instrs code _)
  intro s leads
  simp only [Block.successors, kind, List.head?_cons, Option.toList_some,
    List.mem_singleton] at leads
  rw [leads]
  exact contains_iff.mpr ⟨destination, there⟩

theorem Laid.dropTerminator (l : g.Laid) (done : g.dropTerminator id = .ok g') : g'.Laid := by
  obtain ⟨b, live, -, -, rfl⟩ := dropTerminator_ok done
  exact l.edit live rfl (Block.ids_setLast fun _ => rfl)
    (Block.straight_setLast (l.straight live) Instr.erase)

theorem Distinct.dropTerminator (distinct : g.Distinct) (done : g.dropTerminator id = .ok g') :
    g'.Distinct := by
  obtain ⟨b, live, -, -, rfl⟩ := dropTerminator_ok done
  exact distinct.edit live (Block.ids_setLast fun _ => rfl)

theorem Tight.dropTerminator (tight : g.Tight) (l : g.Laid) (done : g.dropTerminator id = .ok g')
    (chooses : ∀ b, g.block? id = some b → b.kind = .conditional ∨ b.kind = .switch) :
    g'.Tight := by
  obtain ⟨b, live, falls, ends, rfl⟩ := dropTerminator_ok done
  obtain ⟨fall, falls⟩ := Option.ne_none_iff_exists'.mp falls
  obtain ⟨front, last, code⟩ := Block.exists_last (l.filled live)
  refine (tight.rewritten live ?_ : (g.rewritten id _ g.nextInstr).Tight)
  have kind : ({ b.setLast Instr.erase with targets := [] } : Block).kind = .fallThrough :=
    Block.kind_eq (Block.setLast_instrs code _)
  have kept : (b.setLast Instr.erase).fall = some fall := falls
  intro s leads
  simp only [Block.successors, kind] at leads
  simp only [kept, Option.toList_some, List.mem_singleton] at leads
  rw [leads]
  exact tight live fall (Block.fall_mem_successors falls (.inr (chooses b live)))

namespace Consistent

theorem listed_of_live (c : g.Consistent) (live : g.block? id = some b) : id ∈ g.layout :=
  c.laid.listed_of_live live

theorem mem_blocks_of_live (c : g.Consistent) (live : g.block? id = some b) : b ∈ g.blocks :=
  c.laid.mem_blocks_of_live live

theorem redirect (c : g.Consistent) {target : BlockId} (done : g.redirect id target = .ok g') :
    g'.Consistent :=
  (c.laid.redirect done).consistent (c.distinct.redirect done) (c.tight.redirect c.laid done)

theorem dropTerminator (c : g.Consistent) (done : g.dropTerminator id = .ok g')
    (chooses : ∀ b, g.block? id = some b → b.kind = .conditional ∨ b.kind = .switch) :
    g'.Consistent :=
  (c.laid.dropTerminator done).consistent (c.distinct.dropTerminator done)
    (c.tight.dropTerminator c.laid done chooses)

end Consistent
end Graph
end Unravel
