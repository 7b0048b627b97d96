import Unravel.Proofs.Graph.Protection
import Unravel.Proofs.Graph.Repartition

/-!
What is left of a body without its dead blocks. A graph that was just cut names every target by the
first instruction of its block and falls from each block to the next. Removing dead blocks keeps
both, so the blocks that are left are written one after another just as they stood in the body, with
no jump between them and no operand changed.
-/
namespace Unravel

def Body.Live (body : Body) (i : Instr) : Prop :=
  ∃ g id b, body.toGraph = .ok g ∧ g.Reached id ∧ g.block? id = some b ∧ i ∈ b.instrs

/-- A body has the live code of another one, in the same order and with the same ids and operands;
    only the widths of branches may differ. -/
def Body.Prunes (body written : Body) : Prop :=
  ∃ kept, kept.Sublist body.instrs ∧ (∀ i ∈ body.instrs, i ∈ kept ↔ body.Live i) ∧
    Recoded kept written.instrs

theorem recoded_of_getElem? {xs ys : List Instr} (size : ys.length = xs.length)
    (each : ∀ {n : Nat} {i : Instr}, xs[n]? = some i → ∃ j, ys[n]? = some j ∧ Kin i j) :
    Recoded xs ys := by
  refine List.forall₂_iff_get.mpr ⟨size.symm, fun n here there => ?_⟩
  obtain ⟨j, found, kin⟩ := each (List.getElem?_eq_getElem here)
  rw [List.getElem?_eq_getElem there] at found
  cases found
  exact kin

theorem getElem?_succ_of_infix {xs : List Nat} (nodup : xs.Nodup) {k x y : Nat}
    (pair : [x, y] <:+: xs) (here : xs[k]? = some x) : xs[k + 1]? = some y := by
  obtain ⟨before, behind, rfl⟩ := pair
  have first : (before ++ [x, y] ++ behind)[before.length]? = some x := by simp
  have same : k = before.length :=
    (List.getElem?_inj (List.getElem?_eq_some_iff.mp here).1 nodup).mp (here.trans first.symm)
  subst same
  simp

theorem pair_infix {xs : List Nat} {k x y : Nat} (here : xs[k]? = some x)
    (behind : xs[k + 1]? = some y) : [x, y] <:+: xs := by
  have inside := (List.getElem?_eq_some_iff.mp behind).1
  have room : [x, y].length + k ≤ xs.length := by
    rw [List.length_cons, List.length_singleton]
    omega
  refine List.infix_iff_getElem?.mpr ⟨k, room, fun i small => ?_⟩
  match i, small with
  | 0, _ => simpa using here
  | 1, _ => simpa [Nat.add_comm] using behind

namespace Graph
variable {g live : Graph} {id : BlockId} {b : Block} {written : List Piece} {last : Nat}
variable {body : Body}

theorem First.unique {m n : InstrId} (one : First g id m) (other : First g id n) : m = n := by
  obtain ⟨b, found, first⟩ := one
  obtain ⟨d, again, second⟩ := other
  cases found.symm.trans again
  exact Option.some.inj (first.symm.trans second)

/-- An operand names the blocks of a link by their first instructions. -/
inductive Names (g : Graph) : Link → Operand → Prop where
  | kept {operand : Operand} : Names g .kept operand
  | jump {t : BlockId} {m : InstrId} (first : First g t m) : Names g (.jump t) (.target m)
  | cases {ts : List BlockId} {ms : List InstrId} (firsts : List.Forall₂ (First g) ts ms) :
      Names g (.cases ts) (.switch ms)

/-- Written out, the graph gives the instructions of its blocks as they are. -/
structure Verbatim (g : Graph) : Prop where
  names : ∀ ⦃id b i link⦄, g.block? id = some b → b.instrs.getLast? = some i →
    lastLink b = .ok link → Names g link i.operand
  next : ∀ ⦃id b f⦄, g.block? id = some b → b.fall = some f →
    b.kind = .fallThrough ∨ b.kind = .conditional ∨ b.kind = .switch → [id, f] <:+: g.layout

theorem Verbatim.jumpBehind_ne (verbatim : g.Verbatim) (l : g.Laid) {rest : List BlockId}
    (part : id :: rest <:+ g.layout) (live : g.block? id = some b) (t : BlockId) :
    jumpBehind b rest.head? ≠ .ok (some t) := by
  intro behind
  obtain ⟨falls, open_⟩ := jumpBehind_some behind
  obtain ⟨before, layout⟩ := part
  have here : g.layout[before.length]? = some id := by simp [← layout]
  have next := getElem?_succ_of_infix l.nodup (verbatim.next live falls open_) here
  have first : rest.head? = some t := by
    rw [← next, ← layout, List.getElem?_append_right (Nat.le_succ _), List.head?_eq_getElem?]
    simp
  rcases open_ with kind | kind | kind <;> simp [jumpBehind, kind, falls, first] at behind

theorem Verbatim.jumpsAdded (verbatim : g.Verbatim) (l : g.Laid) {ids : List BlockId}
    (part : ids <:+ g.layout) : g.jumpsAdded ids = 0 := by
  induction ids with
  | nil => rfl
  | cons id rest ih =>
    have none := ih ((List.suffix_cons id rest).trans part)
    rw [Graph.jumpsAdded]
    split
    · rename_i t added
      obtain ⟨b, live, behind⟩ := Option.map_eq_some_iff.mp added
      exact absurd behind (verbatim.jumpBehind_ne l part live t)
    · exact none

theorem Verbatim.roomToWrite (verbatim : g.Verbatim) (l : g.Laid) : g.RoomToWrite :=
  fun some_ => absurd (verbatim.jumpsAdded l (List.suffix_refl _)) some_

namespace Written

theorem first_of_startId (w : Written g written last body) (c : g.Consistent) {m : InstrId}
    (found : startId (writtenIds written) (extents 0 written) id = .ok m) : First g id m := by
  obtain ⟨n, begins, index⟩ := w.begins_of_startId c found
  exact w.first_of_begins c begins index

theorem link_names (w : Written g written last body) (c : g.Consistent) {i x : Instr} {link : Link}
    (names : Names g link i.operand)
    (linked : linkDraft (startId (writtenIds written) (extents 0 written)) ⟨i, link⟩ = .ok x) :
    x = i := by
  rcases linkDraft_ok linked with ⟨-, rfl⟩ | ⟨t, m, rfl, found, rfl⟩ | ⟨ts, ms, rfl, found, rfl⟩
  · rfl
  · generalize same : i.operand = operand at names
    cases names with
    | jump first => rw [← first.unique (w.first_of_startId c found), ← same]
  · generalize same : i.operand = operand at names
    cases names with
    | cases firsts =>
      have again := found.imp fun _ _ => w.first_of_startId c
      have unique : Relator.RightUnique (First g) := fun _ _ _ => First.unique
      rw [List.right_unique_forall₂' unique again firsts, ← same]

theorem code_verbatim (w : Written g written last body) (l : g.Laid) (verbatim : g.Verbatim)
    {p : Piece} (inside : p ∈ written) :
    ∃ b link, g.block? p.block = some b ∧ lastLink b = .ok link ∧
      p.code = draftCode link b.instrs := by
  obtain ⟨k, here⟩ := List.getElem?_of_mem inside
  obtain ⟨b, link, jump, f, piece⟩ := (pieces_at w.pieces).2 here
  have placed : g.layout[k]? = some p.block := by
    rw [← w.blocks, List.getElem?_map, here]
    rfl
  cases jump with
  | none => exact ⟨b, link, piece.live, piece.linked, by simpa using piece.code⟩
  | some t =>
    have part : p.block :: g.layout.drop (k + 1) <:+ g.layout := by
      obtain ⟨bound, same⟩ := List.getElem?_eq_some_iff.mp placed
      rw [← same, ← List.drop_eq_getElem_cons bound]
      exact List.drop_suffix k g.layout
    have behind := piece.behind
    rw [← List.head?_drop] at behind
    exact absurd behind (verbatim.jumpBehind_ne l part piece.live t)

theorem drafts_verbatim (w : Written g written last body) (l : g.Laid) (verbatim : g.Verbatim) :
    (written.flatMap Piece.code).map Draft.instr = g.blocks.flatMap Block.instrs := by
  rw [Graph.blocks, ← w.blocks]
  have each := fun p => w.code_verbatim l verbatim (p := p)
  clear w
  induction written with
  | nil => rfl
  | cons p rest ih =>
    obtain ⟨b, link, found, -, code⟩ := each p List.mem_cons_self
    rw [List.flatMap_cons, List.map_append, code, map_instr_draftCode, List.map_cons,
      List.filterMap_cons_some found, List.flatMap_cons,
      ih fun q inside => each q (List.mem_cons_of_mem p inside)]

theorem draft_verbatim (w : Written g written last body) (c : g.Consistent)
    (verbatim : g.Verbatim) {d : Draft} (drafted : d ∈ written.flatMap Piece.code) {x : Instr}
    (linked : linkDraft (startId (writtenIds written) (extents 0 written)) d = .ok x) :
    x = d.instr := by
  obtain ⟨p, inside, listed⟩ := List.mem_flatMap.mp drafted
  obtain ⟨b, link, found, ends, code⟩ := w.code_verbatim c.laid verbatim inside
  rw [code, draftCode, List.mem_append] at listed
  rcases listed with early | final
  · obtain ⟨i, -, rfl⟩ := List.mem_map.mp early
    cases linked
    rfl
  · obtain ⟨i, here, rfl⟩ := List.mem_map.mp final
    exact w.link_names c (verbatim.names found (Option.mem_toList.mp here) ends) linked

theorem recoded (w : Written g written last body) (c : g.Consistent) (verbatim : g.Verbatim) :
    Recoded (g.blocks.flatMap Block.instrs) body.instrs := by
  rw [← w.drafts_verbatim c.laid verbatim]
  refine recoded_of_getElem? (by rw [w.size, List.length_map]) fun {n i} here => ?_
  rw [List.getElem?_map] at here
  obtain ⟨d, drafted, rfl⟩ := Option.map_eq_some_iff.mp here
  obtain ⟨x, offset, linked, found⟩ := w.instr drafted
  cases w.draft_verbatim c verbatim (List.mem_of_getElem? drafted) linked
  exact ⟨_, found, rfl, rfl, rfl⟩

end Written

def code (g : Graph) (id : BlockId) : List Instr := ((g.block? id).map Block.instrs).getD []

theorem code_of_live (live : g.block? id = some b) : g.code id = b.instrs := by
  rw [code, live]
  rfl

theorem mem_code {i : Instr} : i ∈ g.code id ↔ ∃ b, g.block? id = some b ∧ i ∈ b.instrs := by
  cases found : g.block? id <;> simp [code, found]

theorem flatMap_blocks (g : Graph) : g.blocks.flatMap Block.instrs = g.layout.flatMap g.code := by
  rw [blocks]
  induction g.layout with
  | nil => rfl
  | cons id rest ih =>
    rw [List.flatMap_cons, ← ih]
    cases found : g.block? id with
    | none => simp [code, found]
    | some b => simp [code, found]

theorem pruneEdges_nil (b : Block) : pruneEdges [] b = b := by
  cases b with
  | mk id instrs targets fall => cases fall <;> simp [pruneEdges]

section RemoveDead
variable {n : Nat}

theorem layout_removeDead (done : g.removeDead = .ok (n, live)) :
    live.layout = g.layout.filter fun id => !g.unreachable.contains id := by
  rcases removeDead_ok done with ⟨none, -, rfl⟩ | ⟨-, done⟩
  · simp [none]
  · obtain ⟨-, -, rfl⟩ := remove_ok done
    rfl

theorem block?_removeDead (done : g.removeDead = .ok (n, live)) (id : BlockId) :
    live.block? id =
      if id ∈ g.unreachable then none else (g.block? id).map (pruneEdges g.unreachable) := by
  rcases removeDead_ok done with ⟨none, -, rfl⟩ | ⟨-, done⟩
  · cases live.block? id <;> simp [none, pruneEdges_nil]
  · exact block?_remove done id

theorem reached_of_block? (l : g.Laid) (done : g.removeDead = .ok (n, live))
    (found : live.block? id = some b) :
    g.Reached id ∧ ∃ d, g.block? id = some d ∧ b = pruneEdges g.unreachable d := by
  rw [block?_removeDead done] at found
  split at found
  · cases found
  · rename_i stays
    obtain ⟨d, was, rfl⟩ := Option.map_eq_some_iff.mp found
    refine ⟨?_, d, was, rfl⟩
    by_contra dead
    exact stays ((mem_unreachable l).mpr ⟨l.listed_of_live was, dead⟩)

theorem block?_of_reached (l : g.Laid) (done : g.removeDead = .ok (n, live))
    (reached : g.Reached id) :
    live.block? id = (g.block? id).map (pruneEdges g.unreachable) := by
  rw [block?_removeDead done, if_neg (reached.stays l)]

theorem First.removeDead (c : g.Consistent) (done : g.removeDead = .ok (n, live))
    (reached : g.Reached id) {m : InstrId} (first : First g id m) : First live id m := by
  obtain ⟨b, found, first⟩ := first
  refine ⟨pruneEdges g.unreachable b, ?_, first⟩
  rw [block?_of_reached c.laid done reached, found]
  rfl

theorem lastLink_pruneEdges {removed : List BlockId} (clean : ∀ s ∈ b.successors, s ∉ removed) :
    lastLink (pruneEdges removed b) = lastLink b := by
  have kind : (pruneEdges removed b).kind = b.kind := rfl
  have id : (pruneEdges removed b).id = b.id := rfl
  have head := head?_pruneEdges clean
  simp only [lastLink, kind, id]
  cases shape : b.kind with
  | branch => rw [head (.inl shape)]
  | leave => rw [head (.inr (.inl shape))]
  | conditional => rw [head (.inr (.inr shape))]
  | switch => rw [targets_pruneEdges clean shape]
  | fallThrough | exit => rfl

theorem Verbatim.removeDead (c : g.Consistent) (verbatim : g.Verbatim)
    (done : g.removeDead = .ok (n, live)) : live.Verbatim where
  names := by
    intro id b i link found final linked
    obtain ⟨reached, d, was, rfl⟩ := reached_of_block? c.laid done found
    have leads : ∀ t ∈ d.successors, g.Reached t := fun t => reached.successor c was
    rw [lastLink_pruneEdges fun t follows => (leads t follows).stays c.laid] at linked
    have names := verbatim.names was final linked
    generalize same : i.operand = operand at names ⊢
    cases names with
    | kept => exact .kept
    | jump first =>
      exact .jump (first.removeDead c done (leads _ (successor_of_lastLink linked)))
    | @cases ts ms firsts =>
      have all : ∀ t ∈ ts, g.Reached t := fun t inside =>
        leads t (successors_of_lastLink linked inside)
      exact .cases (((List.forall₂_and_left ts ms).mpr ⟨all, firsts⟩).imp
        fun t m first => first.2.removeDead c done first.1)
  next := by
    intro id b f found falls open_
    obtain ⟨reached, d, was, rfl⟩ := reached_of_block? c.laid done found
    have leads : ∀ t ∈ d.successors, g.Reached t := fun t => reached.successor c was
    rw [fall_pruneEdges (fun t follows => (leads t follows).stays c.laid) open_] at falls
    have follows : g.Reached f := leads f (Block.fall_mem_successors falls open_)
    have pair := (verbatim.next was falls open_).filter fun x => !g.unreachable.contains x
    rw [layout_removeDead done]
    simpa [reached.stays c.laid, follows.stays c.laid] using pair

end RemoveDead

theorem code_removeDead (c : g.Consistent) {n : Nat} (done : g.removeDead = .ok (n, live)) :
    (live.blocks.flatMap Block.instrs).Sublist (g.blocks.flatMap Block.instrs) ∧
      ∀ i, i ∈ live.blocks.flatMap Block.instrs ↔
        ∃ id b, g.Reached id ∧ g.block? id = some b ∧ i ∈ b.instrs := by
  have layout := layout_removeDead done
  have stays : ∀ id, id ∈ live.layout ↔ g.Reached id := by
    intro id
    rw [layout, List.mem_filter]
    simp only [List.contains_eq_mem, Bool.not_eq_true', decide_eq_false_iff_not,
      mem_unreachable c.laid, not_and_or, not_not]
    constructor
    · rintro ⟨listed, absent | reached⟩
      · exact absurd listed absent
      · exact reached
    · intro reached
      exact ⟨(c.listed id).mpr (reached.live c.laid), .inr reached⟩
  have same : ∀ id ∈ live.layout, live.code id = g.code id := by
    intro id listed
    rw [code, block?_of_reached c.laid done ((stays id).mp listed), code]
    cases g.block? id <;> rfl
  have whole : live.blocks.flatMap Block.instrs = live.layout.flatMap g.code := by
    rw [flatMap_blocks]
    exact List.flatMap_congr same
  refine ⟨?_, fun i => ?_⟩
  · rw [whole, flatMap_blocks, layout]
    exact List.filter_sublist.flatMap g.code
  · rw [whole, List.mem_flatMap]
    simp only [stays, mem_code]
    constructor
    · rintro ⟨id, reached, b, found, inside⟩
      exact ⟨id, b, reached, found, inside⟩
    · rintro ⟨id, b, reached, found, inside⟩
      exact ⟨id, reached, b, found, inside⟩

end Graph

namespace Body
variable {body code : Body} {starts : List Nat} {g live : Graph}

namespace CutFrom

theorem first (from_ : CutFrom body starts g) {t : InstrId} {k : BlockId}
    (found : body.blockAt? starts t = some k) : Graph.First g k t := by
  obtain ⟨n, index, here⟩ := getElem?_of_blockAt? found
  have before := (from_.cut.gap here).1
  refine ⟨_, from_.block here, ?_⟩
  rw [Block.firstId?, List.head?_eq_getElem?, getElem?_blockOf body starts k (by omega)]
  exact id_of_lastIndex? index

theorem firsts (from_ : CutFrom body starts g) {ids : List InstrId}
    (found : ∀ t ∈ ids, ∃ k, body.blockAt? starts t = some k) :
    List.Forall₂ (Graph.First g) (ids.filterMap (body.blockAt? starts)) ids := by
  induction ids with
  | nil => exact .nil
  | cons t rest ih =>
    obtain ⟨k, named⟩ := found t List.mem_cons_self
    rw [List.filterMap_cons_some named]
    exact .cons (from_.first named) (ih fun u inside => found u (List.mem_cons_of_mem t inside))

theorem names (from_ : CutFrom body starts g) (wired : body.Wired) {k start : Nat} {i : Instr}
    {link : Graph.Link}
    (final : (body.blockOf starts k start (body.stopOf starts k)).instrs.getLast? = some i)
    (linked : Graph.lastLink (body.blockOf starts k start (body.stopOf starts k)) = .ok link) :
    Graph.Names g link i.operand := by
  have listed : i ∈ body.instrs :=
    List.mem_of_mem_drop (List.mem_of_mem_take (List.mem_of_mem_getLast? final))
  have kind : (body.blockOf starts k start (body.stopOf starts k)).kind = .ofFlow i.flow := by
    rw [Block.kind, final]
  have all := from_.firsts fun t goes => from_.cut.exists_blockAt? listed (t := t) goes
  unfold Graph.lastLink at linked
  rw [kind, targets_blockOf final] at linked
  cases flow : i.flow with
  | unconditional | leave | conditional =>
    obtain ⟨t, operand⟩ := wired.jumps i listed (by simp [flow])
    have goes : i.targets = [t] := by
      simp [Instr.targets, operand, Instr.isJump, flow, Flow.isJump]
    rw [flow, goes] at linked
    rw [goes] at all
    cases named : [t].filterMap (body.blockAt? starts) with
    | nil => simp [named] at all
    | cons k rest =>
      rw [named] at all linked
      cases all with
      | cons first _ =>
        cases linked
        rw [operand]
        exact .jump first
  | switch =>
    obtain ⟨ts, operand⟩ := wired.switches i listed flow
    have goes : i.targets = ts := by
      simp [Instr.targets, operand, Opcode.eq_switch_of_flow flow]
    rw [flow] at linked
    cases linked
    rw [operand, ← goes]
    exact .cases all
  | _ =>
    rw [flow] at linked
    cases linked
    exact .kept

theorem verbatim (from_ : CutFrom body starts g) (wired : body.Wired) : g.Verbatim where
  names := by
    intro id b i link found final linked
    obtain ⟨start, -, rfl⟩ := exists_start from_.slots found
    exact from_.names wired final linked
  next := by
    intro id b f found falls _
    obtain ⟨start, here, rfl⟩ := exists_start from_.slots found
    rw [from_.cut.fall here] at falls
    rw [from_.layout]
    exact pair_infix (List.getElem?_range (List.getElem?_eq_some_iff.mp here).1) falls

theorem code_before (from_ : CutFrom body starts g) {k : Nat} (within : k ≤ starts.length) :
    (List.range k).flatMap g.code = body.instrs.take (body.startAt starts k) := by
  induction k with
  | zero =>
    have first : starts[0]? = some 0 := List.head?_eq_getElem?.symm.trans from_.cut.first
    rw [body.startAt_eq first]
    rfl
  | succ k ih =>
    have here : starts[k]? = some starts[k] := List.getElem?_eq_getElem within
    have before := (from_.cut.gap here).1
    rw [List.range_succ, List.flatMap_append, ih (by omega), List.flatMap_singleton, Graph.code,
      from_.block here, Option.map_some, Option.getD_some, instrs_blockOf, body.startAt_eq here,
      ← stopOf_eq, ← List.take_add, Nat.add_sub_cancel' (Nat.le_of_lt before)]

theorem code_eq (from_ : CutFrom body starts g) :
    g.blocks.flatMap Block.instrs = body.instrs := by
  rw [Graph.flatMap_blocks, from_.layout, from_.code_before (Nat.le_refl _), startAt_end,
    List.take_length]

end CutFrom

theorem verbatim_of_removeDead (numbered : body.Numbered) (wired : body.Wired)
    (cut : body.toGraph = .ok g) {n : Nat} (done : g.removeDead = .ok (n, live)) :
    live.Verbatim := by
  obtain ⟨starts, from_⟩ := cutFrom_of_toGraph cut
  exact (from_.verbatim wired).removeDead (toGraph_consistent numbered cut) done

theorem prunes_of_removeDead (numbered : body.Numbered) (wired : body.Wired)
    (cut : body.toGraph = .ok g) {n : Nat} (done : g.removeDead = .ok (n, live))
    (wrote : live.toBody = .ok code) : body.Prunes code := by
  obtain ⟨starts, from_⟩ := cutFrom_of_toGraph cut
  have c := toGraph_consistent numbered cut
  have c' := c.removeDead done
  have verbatim := verbatim_of_removeDead numbered wired cut done
  obtain ⟨pieces, last, w⟩ := Graph.toBody_ok c'.laid (verbatim.roomToWrite c'.laid) wrote
  obtain ⟨part, kept⟩ := Graph.code_removeDead c done
  rw [from_.code_eq] at part
  refine ⟨_, part, fun i inside => ?_, w.recoded c' verbatim⟩
  rw [kept]
  constructor
  · rintro ⟨id, b, reached, found, inside⟩
    exact ⟨g, id, b, cut, reached, found, inside⟩
  · rintro ⟨h, id, b, again, reached, found, inside⟩
    cases cut.symm.trans again
    exact ⟨id, b, reached, found, inside⟩

end Body
end Unravel
