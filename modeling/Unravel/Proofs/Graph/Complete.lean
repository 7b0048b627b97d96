import Unravel.Proofs.Graph.History
import Unravel.Proofs.Graph.Placing

/-!
Complete graphs: every block that may jump has a target and every block that may fall has a block
to fall to. A body whose jumps name their targets and which does not run off its end is cut into
a complete graph, every edit keeps a graph complete, and a complete graph can be written out.
-/
namespace Unravel

structure Block.Complete (b : Block) : Prop where
  target : b.kind = .branch ∨ b.kind = .leave ∨ b.kind = .conditional → b.targets ≠ []
  fall : b.kind = .fallThrough ∨ b.kind = .conditional ∨ b.kind = .switch → b.fall ≠ none

structure Body.Closed (body : Body) : Prop where
  jumps : ∀ i ∈ body.instrs,
    i.flow = .unconditional ∨ i.flow = .leave ∨ i.flow = .conditional → ∃ t, i.operand = .target t
  switches : ∀ i ∈ body.instrs, i.flow = .switch → ∃ ts, i.operand = .switch ts
  ends : ∀ i, body.instrs.getLast? = some i → i.flow.fallsThrough = false

namespace Block
variable {b b' : Block}

theorem Complete.of_same (complete : b.Complete) (kind : b'.kind = b.kind)
    (targets : b'.targets = b.targets) (fall : b'.fall = b.fall) : b'.Complete := by
  refine ⟨?_, ?_⟩
  · rw [kind, targets]
    exact complete.target
  · rw [kind, fall]
    exact complete.fall

theorem complete_of_branch (kind : b.kind = .branch) (target : b.targets ≠ []) : b.Complete :=
  ⟨fun _ => target, by simp [kind]⟩

theorem complete_of_fallThrough (kind : b.kind = .fallThrough) (fall : b.fall ≠ none) :
    b.Complete :=
  ⟨by simp [kind], fun _ => fall⟩

end Block

theorem Block.Complete.pruneEdges {b : Block} (complete : b.Complete) {removed : List BlockId}
    (kept : ∀ s ∈ b.successors, s ∉ removed) : (Graph.pruneEdges removed b).Complete := by
  refine ⟨fun jumps => ?_, fun open_ => ?_⟩
  · have named := complete.target jumps
    intro empty
    have head := Graph.head?_pruneEdges kept jumps
    rw [empty, List.head?_nil, eq_comm, List.head?_eq_none_iff] at head
    exact named head
  · rw [Graph.fall_pruneEdges kept open_]
    exact complete.fall open_

namespace Graph
variable {g g' : Graph} {id : BlockId} {b : Block}

def Complete (g : Graph) : Prop := ∀ ⦃id b⦄, g.block? id = some b → b.Complete

namespace Complete

theorem modify (complete : g.Complete) {f : Block → Block}
    (made : ∀ b, g.block? id = some b → (f b).Complete) : (g.modify id f).Complete := by
  intro other d live
  rw [block?_modify] at live
  split at live
  · rename_i same
    subst same
    obtain ⟨b, was, rfl⟩ := Option.map_eq_some_iff.mp live
    exact made b was
  · exact complete live

theorem redirect (c : g.Consistent) (complete : g.Complete) {target : BlockId}
    (done : g.redirect id target = .ok g') : g'.Complete := by
  obtain ⟨destination, b, there, live, ends, rfl⟩ := redirect_ok done
  obtain ⟨front, last, code⟩ := Block.exists_last (c.filled live)
  refine complete.modify fun d was => ?_
  rw [live] at was
  cases was
  exact Block.complete_of_branch (Block.kind_eq (Block.setLast_instrs code _)) (by simp)

theorem dropTerminator (c : g.Consistent) (complete : g.Complete)
    (done : g.dropTerminator id = .ok g') : g'.Complete := by
  obtain ⟨b, live, falls, ends, rfl⟩ := dropTerminator_ok done
  obtain ⟨front, last, code⟩ := Block.exists_last (c.filled live)
  refine complete.modify fun d was => ?_
  rw [live] at was
  cases was
  exact Block.complete_of_fallThrough (Block.kind_eq (Block.setLast_instrs code _)) falls

theorem splitAt (c : g.Consistent) (complete : g.Complete) {index : Nat}
    (live : g.block? id = some b) (cut : 0 < index) (inside : index < b.instrs.length) :
    (g.splitAt id b index).Complete := by
  intro other d found
  rw [block?_splitAt b index live] at found
  split at found
  · cases found
    exact (complete live).of_same (kind_tailOf inside) rfl rfl
  · split at found
    · cases found
      exact Block.complete_of_fallThrough (kind_headOf (c.straight live) cut inside)
        (by simp [headOf])
    · exact complete found

theorem remove (c : g.Consistent) (complete : g.Complete) {removed : List BlockId} {n : Nat}
    (done : g.remove removed = .ok (n, g')) : g'.Complete := by
  obtain ⟨-, clean, -⟩ := remove_ok done
  intro other d found
  rw [block?_remove done] at found
  split at found
  · cases found
  · rename_i stays
    obtain ⟨e, was, rfl⟩ := Option.map_eq_some_iff.mp found
    refine (complete was).pruneEdges fun s leads => ?_
    exact not_removed_of_successor clean (c.mem_blocks_of_live was) (by rwa [c.named was]) leads

theorem joined (complete : g.Complete) (c : g.Consistent) {pred : BlockId} {first second : Block}
    (j : Joinable g pred id first second) :
    ((g.drop id).modify pred fun b => join b second).Complete := by
  intro other d found
  rw [block?_joined j] at found
  split at found
  · cases found
  · split at found
    · cases found
      exact (complete j.behind).of_same (kind_join first (c.filled j.behind)) rfl rfl
    · exact complete found

theorem mergeUpTo (complete : g.Complete) (c : g.Consistent) (n : Nat) :
    (g.mergeUpTo n).2.Complete := by
  have both : (g.mergeUpTo n).2.Consistent ∧ (g.mergeUpTo n).2.Complete :=
    mergeUpTo_keeps (P := fun g => g.Consistent ∧ g.Complete)
      (fun held j => ⟨held.1.joined j, held.2.joined held.1 j⟩) n ⟨c, complete⟩
  exact both.2

theorem inlineBlock {ctx : PassContext} (c : g.Consistent) (complete : g.Complete)
    (live : g.block? id = some b) : (Inline.inlineBlock ctx g id b).graph.Complete := by
  have kind := (Inline.expandBlock_shape ctx g.nextInstr (c.filled live) (c.straight live)).2.2
  have made : (g.modify id fun d =>
      { d with instrs := (Inline.expandAll ctx g.nextInstr b.instrs).1 }).Complete := by
    refine complete.modify fun d was => ?_
    rw [live] at was
    cases was
    exact (complete live).of_same kind rfl rfl
  exact made

theorem foldBlock {pinned : List Nat} {extra : Bool} (c : g.Consistent) (complete : g.Complete)
    (live : g.block? id = some b) : (Fold.foldBlock pinned extra g id b).1.Complete := by
  rcases ran : Fold.simulate pinned extra b 0 b.instrs {} with ⟨final, decision⟩
  have kind := (Fold.foldCode_shape (c.filled live) (c.straight live) ran).2
  have folded : (g.modify id (Fold.foldCode final)).Complete := by
    refine complete.modify fun d was => ?_
    rw [live] at was
    cases was
    exact (complete live).of_same kind rfl rfl
  have consistent := Fold.foldCode_consistent c live ran
  rcases Fold.foldBlock_graph g id ran with same | ⟨target, done⟩ | ⟨-, done⟩
  · rw [same]
    exact folded
  · exact redirect consistent folded done
  · exact dropTerminator consistent folded done

end Complete
end Graph

namespace Body
variable {body : Body} {starts : List Nat}

theorem getLast?_blockOf (starts : List Nat) (id : BlockId) {start stop : Nat}
    (before : start < stop) (inside : stop ≤ body.instrs.length) :
    (body.blockOf starts id start stop).instrs.getLast? = body.instrs[stop - 1]? := by
  rw [List.getLast?_eq_getElem?, length_blockOf starts id before inside,
    getElem?_blockOf body starts id (by omega)]
  congr 1
  omega

theorem Cut.exists_last (cut : Cut body starts) {k start : Nat} (here : starts[k]? = some start) :
    ∃ last, body.instrs[body.stopOf starts k - 1]? = some last ∧
      (body.blockOf starts k start (body.stopOf starts k)).instrs.getLast? = some last ∧
      (body.blockOf starts k start (body.stopOf starts k)).kind = .ofFlow last.flow := by
  obtain ⟨before, inside, -⟩ := cut.gap here
  obtain ⟨front, last, code⟩ := Block.exists_last (cut.filled here)
  have final := getLast?_blockOf starts k before inside
  rw [code, List.getLast?_concat] at final
  exact ⟨last, final.symm, by rw [code, List.getLast?_concat], Block.kind_eq code⟩

theorem targets_blockOf {id : BlockId} {start stop : Nat} {i : Instr}
    (ends : (body.blockOf starts id start stop).instrs.getLast? = some i) :
    (body.blockOf starts id start stop).targets = i.targets.filterMap (body.blockAt? starts) := by
  rw [instrs_blockOf] at ends
  simp only [blockOf, ends, Option.map_some, Option.getD_some]

theorem getElem?_of_blockAt? {t : InstrId} {k : BlockId}
    (found : body.blockAt? starts t = some k) :
    ∃ n, body.index? t = some n ∧ starts[k]? = some n := by
  obtain ⟨n, index, place⟩ := Option.bind_eq_some_iff.mp found
  obtain ⟨bound, same, -⟩ := List.idxOf?_eq_some_iff.mp place
  refine ⟨n, index, ?_⟩
  rw [List.getElem?_eq_getElem bound]
  exact congrArg some (by simpa using same)

theorem Cut.exists_blockAt? (cut : Cut body starts) {i : Instr} (inside : i ∈ body.instrs)
    {t : InstrId} (goes : t ∈ i.targets) : ∃ k, body.blockAt? starts t = some k := by
  obtain ⟨n, listed, index⟩ := cut.targets i inside t goes
  obtain ⟨k, place⟩ := Option.isSome_iff_exists.mp (List.isSome_idxOf?.mpr listed)
  exact ⟨k, by rw [blockAt?, index, Option.bind_some, place]⟩

def Linked (body : Body) : Prop :=
  ∀ i ∈ body.instrs, i.flow = .unconditional ∨ i.flow = .leave ∨ i.flow = .conditional →
    ∃ t, i.operand = .target t

/-- Jumps and switches carry operands of their own kind. -/
structure Wired (body : Body) : Prop where
  jumps : body.Linked
  switches : ∀ i ∈ body.instrs, i.flow = .switch → ∃ ts, i.operand = .switch ts

theorem Cut.targets_ne_nil (cut : Cut body starts) (linked : body.Linked) {k start : Nat}
    (here : starts[k]? = some start)
    (jumps : (body.blockOf starts k start (body.stopOf starts k)).kind = .branch ∨
      (body.blockOf starts k start (body.stopOf starts k)).kind = .leave ∨
      (body.blockOf starts k start (body.stopOf starts k)).kind = .conditional) :
    (body.blockOf starts k start (body.stopOf starts k)).targets ≠ [] := by
  obtain ⟨last, found, ends, kind⟩ := cut.exists_last here
  have listed : last ∈ body.instrs := List.mem_of_getElem? found
  have flow : last.flow = .unconditional ∨ last.flow = .leave ∨ last.flow = .conditional := by
    rw [kind] at jumps
    revert jumps
    cases last.flow <;> simp [BlockKind.ofFlow]
  obtain ⟨t, operand⟩ := linked last listed flow
  have jump : last.isJump = true := by
    rw [Instr.isJump]
    rcases flow with flow | flow | flow <;> rw [flow] <;> rfl
  have named : last.targets = [t] := by simp [Instr.targets, operand, jump]
  obtain ⟨m, reached⟩ := cut.exists_blockAt? listed (t := t) (by simp [named])
  rw [targets_blockOf ends]
  simp [named, reached]

theorem Cut.complete (cut : Cut body starts) (closed : body.Closed) {k start : Nat}
    (here : starts[k]? = some start) :
    (body.blockOf starts k start (body.stopOf starts k)).Complete := by
  obtain ⟨before, inside, -⟩ := cut.gap here
  obtain ⟨last, final, -, kind⟩ := cut.exists_last here
  refine ⟨cut.targets_ne_nil closed.jumps here, fun open_ => ?_⟩
  have falls : last.flow.fallsThrough = true := by
    rw [kind] at open_
    exact BlockKind.ofFlow_open.mp open_
  have more : body.stopOf starts k < body.instrs.length := by
    by_contra atEnd
    have stop : body.stopOf starts k = body.instrs.length := by omega
    rw [stop, ← List.getLast?_eq_getElem?] at final
    rw [closed.ends last final] at falls
    cases falls
  simp [blockOf, more]

theorem toGraph_complete {g : Graph} (closed : body.Closed) (done : body.toGraph = .ok g) :
    g.Complete := by
  obtain ⟨starts, cut, -, made⟩ := toGraph_ok done
  intro k b live
  obtain ⟨start, here, rfl⟩ := exists_start (by rw [made]; rfl) live
  exact cut.complete closed here

end Body

theorem exists_mapM_ok {ε α β : Type} {f : α → Except ε β} {xs : List α}
    (each : ∀ x ∈ xs, ∃ y, f x = .ok y) : ∃ ys, xs.mapM f = .ok ys := by
  induction xs with
  | nil => exact ⟨[], rfl⟩
  | cons x rest ih =>
    obtain ⟨y, first⟩ := each x List.mem_cons_self
    obtain ⟨ys, later⟩ := ih fun x inside => each x (List.mem_cons_of_mem _ inside)
    exact ⟨y :: ys, mapM_ok_iff.mpr (.cons first (mapM_ok_iff.mp later))⟩

namespace Graph
variable {g g' : Graph} {id : BlockId} {b : Block}

theorem exists_lastLink
    (target : b.kind = .branch ∨ b.kind = .leave ∨ b.kind = .conditional → b.targets ≠ []) :
    ∃ link, lastLink b = .ok link := by
  unfold lastLink
  split
  · rename_i kind
    split
    · exact ⟨_, rfl⟩
    · rename_i none
      exact absurd (List.head?_eq_none_iff.mp none) (target (.inl kind))
  · rename_i kind
    split
    · exact ⟨_, rfl⟩
    · rename_i none
      exact absurd (List.head?_eq_none_iff.mp none) (target (.inr (.inl kind)))
  · rename_i kind
    split
    · exact ⟨_, rfl⟩
    · rename_i none
      exact absurd (List.head?_eq_none_iff.mp none) (target (.inr (.inr kind)))
  · exact ⟨_, rfl⟩
  · exact ⟨_, rfl⟩
  · exact ⟨_, rfl⟩

theorem jumpBehind_of_complete (complete : b.Complete) (next : Option BlockId) :
    ∃ jump, jumpBehind b next = .ok jump := by
  have fall := complete.fall
  unfold jumpBehind
  split
  · exact ⟨_, rfl⟩
  · exact ⟨_, rfl⟩
  · exact ⟨_, rfl⟩
  · rename_i kind none
    exact absurd none (fall (.inr (.inl kind)))
  · rename_i kind none
    exact absurd none (fall (.inr (.inr kind)))
  · rename_i kind none
    exact absurd none (fall (.inl kind))
  · exact ⟨_, rfl⟩

theorem successor_of_lastLink {t : BlockId} (linked : lastLink b = .ok (.jump t)) :
    t ∈ b.successors := by
  unfold lastLink at linked
  split at linked <;> rename_i kind
  case h_4 | h_5 | h_6 => cases linked
  all_goals
    split at linked
    · rename_i first
      cases linked
      simp [Block.successors, kind, first]
    · cases linked

theorem successors_of_lastLink {ts : List BlockId} (linked : lastLink b = .ok (.cases ts)) :
    ts ⊆ b.successors := by
  unfold lastLink at linked
  split at linked <;> rename_i kind
  case h_4 =>
    cases linked
    simp [Block.successors, kind]
  case h_5 | h_6 => cases linked
  all_goals split at linked <;> cases linked

theorem draft_links_live (tight : g.Tight) {ids : List BlockId} {fresh last : Nat}
    {written : List Piece} (done : g.pieces fresh ids = .ok (written, last)) {d : Draft}
    (drafted : d ∈ written.flatMap Piece.code) :
    (∀ t, d.link = .jump t → g.contains t = true) ∧
      ∀ ts, d.link = .cases ts → ∀ t ∈ ts, g.contains t = true := by
  obtain ⟨p, listed, among⟩ := List.mem_flatMap.mp drafted
  obtain ⟨k, here⟩ := List.getElem?_of_mem listed
  obtain ⟨b, link, jump, f, piece⟩ := (pieces_at done).2 here
  rw [piece.code, List.mem_append] at among
  have closed := tight piece.live
  rcases among with own | added
  · have links : d.link = .kept ∨ d.link = link := by
      rcases List.mem_append.mp own with early | final
      · obtain ⟨i, -, rfl⟩ := List.mem_map.mp early
        exact .inl rfl
      · obtain ⟨i, -, rfl⟩ := List.mem_map.mp final
        exact .inr rfl
    have linked := piece.linked
    refine ⟨fun t jumps => ?_, fun ts cases_ t inside => ?_⟩
    · rcases links with kept | same
      · rw [kept] at jumps
        cases jumps
      · rw [← same, jumps] at linked
        exact closed t (successor_of_lastLink linked)
    · rcases links with kept | same
      · rw [kept] at cases_
        cases cases_
      · rw [← same, cases_] at linked
        exact closed t (successors_of_lastLink linked inside)
  · obtain ⟨t, jumps, rfl⟩ := List.mem_map.mp added
    have behind := piece.behind
    rw [Option.mem_toList.mp jumps] at behind
    refine ⟨?_, by rintro ts ⟨⟩⟩
    rintro t ⟨⟩
    obtain ⟨falls, open_⟩ := jumpBehind_some behind
    exact closed _ (Block.fall_mem_successors falls open_)

theorem pieces_of_complete (complete : g.Complete) {ids : List BlockId}
    (live : ∀ id ∈ ids, g.contains id = true) (fresh : InstrId) :
    ∃ result, g.pieces fresh ids = .ok result := by
  induction ids generalizing fresh with
  | nil => exact ⟨_, rfl⟩
  | cons id rest ih =>
    obtain ⟨b, here⟩ := contains_iff.mp (live id List.mem_cons_self)
    obtain ⟨link, linked⟩ := exists_lastLink (complete here).target
    obtain ⟨jump, behind⟩ := jumpBehind_of_complete (complete here) rest.head?
    have later := ih fun id inside => live id (List.mem_cons_of_mem _ inside)
    rw [pieces]
    cases jump with
    | none =>
      obtain ⟨more, done⟩ := later fresh
      simp only [here, linked, behind, done, bind, Except.bind]
      exact ⟨_, rfl⟩
    | some target =>
      obtain ⟨more, done⟩ := later fresh.next
      simp only [here, linked, behind, done, bind, Except.bind]
      exact ⟨_, rfl⟩

theorem toBody_of_pieces (l : g.Laid) (tight : g.Tight) {written : List Piece} {last : Nat}
    (done : g.pieces g.nextInstr g.layout = .ok (written, last)) :
    ∃ body, g.toBody = .ok body := by
  obtain ⟨blocks, each⟩ := pieces_at done
  have filled : ∀ p ∈ written, 0 < p.code.length := by
    intro p listed
    obtain ⟨k, here⟩ := List.getElem?_of_mem listed
    obtain ⟨b, link, jump, f, piece⟩ := each here
    exact piece.filled l
  have start : ∀ {t}, g.contains t = true →
      ∃ m, startId (writtenIds written) (extents 0 written) t = .ok m := by
    intro t live
    obtain ⟨b, live⟩ := contains_iff.mp live
    exact startId_of_live l blocks filled live
  have links : ∀ d ∈ written.flatMap Piece.code,
      ∃ i, linkDraft (startId (writtenIds written) (extents 0 written)) d = .ok i := by
    intro d drafted
    obtain ⟨jumps, cases_⟩ := draft_links_live tight done drafted
    unfold linkDraft
    split
    · exact ⟨_, rfl⟩
    · rename_i t linked
      obtain ⟨m, found⟩ := start (jumps t linked)
      rw [found]
      exact ⟨_, rfl⟩
    · rename_i ts linked
      obtain ⟨ms, found⟩ := exists_mapM_ok fun t inside => start (cases_ ts linked t inside)
      rw [found]
      exact ⟨_, rfl⟩
  obtain ⟨instrs, linked⟩ := exists_mapM_ok links
  rw [toBody_eq l done, linked]
  exact ⟨_, rfl⟩

theorem toBody_of_complete (c : g.Consistent) (complete : g.Complete) :
    ∃ body, g.toBody = .ok body := by
  obtain ⟨⟨written, last⟩, done⟩ :=
    pieces_of_complete complete (fun id listed => (c.listed id).mp listed) g.nextInstr
  exact toBody_of_pieces c.laid c.tight done

theorem Consistent.last_of_terminal (c : g.Consistent) (live : g.block? id = some b) {j : Nat}
    {i : Instr} (here : b.instrs[j]? = some i) (ends : i.isTerminal = true) :
    j + 1 = b.instrs.length := by
  have bound := (List.getElem?_eq_some_iff.mp here).1
  by_contra more
  have early : b.instrs.dropLast[j]? = some i := by
    rw [List.getElem?_dropLast, if_pos (by omega), here]
  have plain := c.straight live i (List.mem_of_getElem? early)
  rw [plain] at ends
  cases ends

theorem kind_of_last {j : Nat} {i : Instr} (here : b.instrs[j]? = some i)
    (final : j + 1 = b.instrs.length) : b.kind = .ofFlow i.flow := by
  have last : b.instrs.getLast? = some i := by
    rw [List.getLast?_eq_getElem?, ← final, Nat.add_sub_cancel, here]
  rw [Block.kind, last]

namespace Written
variable {written : List Piece} {last : Nat} {body : Body}

theorem jumps_closed (w : Written g written last body) (c : g.Consistent) {n : Nat} {x : Instr}
    (here : body.instrs[n]? = some x)
    (jumps : x.flow = .unconditional ∨ x.flow = .leave ∨ x.flow = .conditional) :
    ∃ m goal, x.operand = .target m ∧ body.index? m = some goal := by
  cases w.source c here with
  | @own id b start j i live begins place found opcode =>
    have flow : x.flow = i.flow := by rw [Instr.flow, Instr.flow, opcode]
    rw [flow] at jumps
    have ends : i.isTerminal = true := by
      rw [Instr.isTerminal]
      rcases jumps with jumps | jumps | jumps <;> rw [jumps] <;> rfl
    have final := c.last_of_terminal live found ends
    have kind : b.kind = .branch ∨ b.kind = .leave ∨ b.kind = .conditional := by
      rw [kind_of_last found final]
      rcases jumps with jumps | jumps | jumps <;> rw [jumps] <;> simp [BlockKind.ofFlow]
    obtain ⟨t, m, goal, offset, -, -, index, there⟩ := w.last_jump c begins live found final kind
    rw [place] at here
    rw [here] at there
    cases there
    exact ⟨m, goal, rfl, index⟩
  | added live begins place falls open_ opcode operand there index => exact ⟨_, _, operand, index⟩

theorem switches_closed (w : Written g written last body) (c : g.Consistent) {n : Nat} {x : Instr}
    (here : body.instrs[n]? = some x) (switches : x.flow = .switch) :
    ∃ ms, x.operand = .switch ms ∧ ∀ m ∈ ms, ∃ goal, body.index? m = some goal := by
  cases w.source c here with
  | @own id b start j i live begins place found opcode =>
    have flow : i.flow = .switch := by
      rw [← switches, Instr.flow, Instr.flow, opcode]
    have final := c.last_of_terminal live found (by rw [Instr.isTerminal, flow]; rfl)
    have kind : b.kind = .switch := by
      rw [kind_of_last found final, flow]
      rfl
    obtain ⟨ms, offset, goals, there⟩ := w.last_switch c begins live found final kind
    rw [place] at here
    rw [here] at there
    cases there
    refine ⟨ms, rfl, fun m inside => ?_⟩
    obtain ⟨k, at_⟩ := List.getElem?_of_mem inside
    obtain ⟨t, -, goal, -, index⟩ := getElem?_of_forall₂ goals.flip at_
    exact ⟨goal, index⟩
  | added live begins place falls open_ opcode operand there index =>
    rw [Instr.flow, opcode] at switches
    cases switches

theorem wired (w : Written g written last body) (c : g.Consistent) : body.Wired where
  jumps i inside flow := by
    obtain ⟨n, here⟩ := List.getElem?_of_mem inside
    obtain ⟨m, -, operand, -⟩ := w.jumps_closed c here flow
    exact ⟨m, operand⟩
  switches i inside flow := by
    obtain ⟨n, here⟩ := List.getElem?_of_mem inside
    obtain ⟨ms, operand, -⟩ := w.switches_closed c here flow
    exact ⟨ms, operand⟩

theorem more_behind (w : Written g written last body) (c : g.Consistent) {n : Nat} {x : Instr}
    (here : body.instrs[n]? = some x) (falls : x.flow.fallsThrough = true)
    (onto : ∀ {id b}, g.block? id = some b → b.kind = .ofFlow x.flow → b.fall ≠ none) :
    n + 1 < body.instrs.length := by
  cases w.source c here with
  | @own id b start j i live begins place found opcode =>
    have bound := (List.getElem?_eq_some_iff.mp found).1
    rcases Nat.lt_or_eq_of_le (Nat.succ_le_of_lt bound) with early | final
    · obtain ⟨z, there, -⟩ := w.exists_instr begins live (List.getElem?_eq_getElem early)
      have bound := (List.getElem?_eq_some_iff.mp there).1
      omega
    · have kind : b.kind = .ofFlow x.flow := by
        rw [kind_of_last found final, Instr.flow, Instr.flow, opcode]
      have open_ : b.kind = .fallThrough ∨ b.kind = .conditional ∨ b.kind = .switch := by
        rw [kind]
        exact BlockKind.ofFlow_open.mpr falls
      obtain ⟨t, target⟩ := Option.ne_none_iff_exists'.mp (onto live kind)
      rcases w.behind c begins live target open_ with next | ⟨f, m, goal, offset, there, -⟩
      · have bound := w.begins_lt c next
        omega
      · have bound := (List.getElem?_eq_some_iff.mp there).1
        omega
  | added live begins place falls' open_ opcode operand there index =>
    rw [Instr.flow, opcode] at falls
    cases falls

theorem closed (w : Written g written last body) (c : g.Consistent) (complete : g.Complete) :
    body.Closed where
  jumps := (w.wired c).jumps
  switches := (w.wired c).switches
  ends i final := by
    rw [List.getLast?_eq_getElem?] at final
    cases falls : i.flow.fallsThrough with
    | false => rfl
    | true =>
      have more := w.more_behind c final falls fun live kind =>
        (complete live).fall (by rw [kind]; exact BlockKind.ofFlow_open.mpr falls)
      omega

end Written

namespace Complete

theorem repartition (c : g.Consistent) (complete : g.Complete) (room : g.RoomToWrite)
    (done : g.repartition = .ok g') : g'.Complete := by
  obtain ⟨body, written, cut⟩ := repartition_ok done
  obtain ⟨pieces, last, w⟩ := toBody_ok c.laid room written
  exact Body.toGraph_complete (w.closed c complete) cut

theorem apply (c : g.Consistent) (complete : g.Complete) {e : Edit}
    (room : InstrId.Room g.nextInstr (e.idsTaken g)) : (e.apply g).Complete := by
  have does := e.does c.listed_of_live
  generalize e.apply g = g' at does ⊢
  cases does with
  | idle => exact complete
  | redirect done => exact redirect c complete done
  | dropTerminator done => exact dropTerminator c complete done
  | split live cut inside => exact splitAt c complete live cut inside
  | remove done | removeDead done => exact remove c complete done
  | merge => exact complete.mergeUpTo c g.layout.length
  | repartition done => exact repartition c complete room done
  | allocInstr => exact complete
  | inline round ctx =>
    have both : (Inline.pass.run round ctx g).graph.Consistent ∧
        (Inline.pass.run round ctx g).graph.Complete :=
      Inline.runAll_keeps_room (P := fun g => g.Consistent ∧ g.Complete)
        (fun held => held.1.distinct) (fun held live room =>
        ⟨Inline.inlineBlock_consistent held.1 live room, inlineBlock held.1 held.2 live⟩)
        c.nodup ⟨c, complete⟩ room
    exact both.2
  | fold round ctx =>
    have both : (Fold.pass.run round ctx g).graph.Consistent ∧
        (Fold.pass.run round ctx g).graph.Complete :=
      Fold.runAll_keeps (P := fun g => g.Consistent ∧ g.Complete) (fun held live =>
        ⟨Fold.foldBlock_consistent held.1 live, foldBlock held.1 held.2 live⟩)
        g.layout ⟨c, complete⟩
    exact both.2

theorem applyAll (c : g.Consistent) (complete : g.Complete) {edits : List Edit}
    (allowed : AllowedAll g edits) (fits : FitsAll g edits) : (g.applyAll edits).Complete := by
  have both : (g.applyAll edits).Consistent ∧ (g.applyAll edits).Complete :=
    applyAll_keeps_fitting (P := fun g => g.Consistent ∧ g.Complete) ⟨c, complete⟩ allowed fits
      fun _ allowed room held => ⟨held.1.apply allowed room, apply held.1 held.2 room⟩
  exact both.2

end Complete
end Graph
end Unravel
