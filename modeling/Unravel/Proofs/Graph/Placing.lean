import Unravel.Proofs.Flow.Walk
import Unravel.Proofs.Graph.Writing

namespace Unravel

theorem lastIndex?_of_nodup {instrs : List Instr} (nodup : (instrs.map Instr.id).Nodup) {n : Nat}
    {i : Instr} (here : instrs[n]? = some i) : lastIndex? i.id instrs = some n := by
  have present : i.id ∈ instrs.map Instr.id := List.mem_map_of_mem (List.mem_of_getElem? here)
  cases found : lastIndex? i.id instrs with
  | none => exact absurd present ((lastIndex?_eq_none_iff _ _).mp found)
  | some m =>
    have named := id_of_lastIndex? found
    have same : (instrs.map Instr.id)[n]? = (instrs.map Instr.id)[m]? := by
      rw [List.getElem?_map, List.getElem?_map, named, here]
      rfl
    have bound : n < (instrs.map Instr.id).length := by
      rw [List.length_map]
      exact (List.getElem?_eq_some_iff.mp here).1
    rw [(List.getElem?_inj bound nodup).mp same]

theorem Instr.targets_of_jump {i : Instr} (jump : i.isJump = true) (m : InstrId) (offset : Nat) :
    ({ i with operand := .target m, offset } : Instr).targets = [m] := by
  have jump' : ({ i with operand := .target m, offset } : Instr).isJump = true := jump
  simp [Instr.targets, jump']

namespace Graph
variable {g : Graph} {id : BlockId} {b : Block} {written : List Piece} {last : Nat} {body : Body}

def Begins (written : List Piece) (id : BlockId) (n : Nat) : Prop :=
  ∃ k p, written[k]? = some p ∧ p.block = id ∧ n = codeBefore written k

/-- An index stands so far into the code of a block. The added jump stands behind all of it. -/
def Stands (written : List Piece) (id : BlockId) (j n : Nat) : Prop :=
  ∃ k p, written[k]? = some p ∧ p.block = id ∧ n = codeBefore written k + j ∧ j < p.code.length

theorem Stands.unique {id other : BlockId} {j k n : Nat} (first : Stands written id j n)
    (second : Stands written other k n) : id = other ∧ j = k := by
  obtain ⟨a, p, here, rfl, place, bound⟩ := first
  obtain ⟨z, q, there, rfl, place', bound'⟩ := second
  have next := codeBefore_succ here
  have next' := codeBefore_succ there
  rcases Nat.lt_trichotomy a z with before | rfl | behind
  · have : codeBefore written (a + 1) ≤ codeBefore written z := codeBefore_mono before
    omega
  · cases here.symm.trans there
    exact ⟨rfl, by omega⟩
  · have : codeBefore written (z + 1) ≤ codeBefore written a := codeBefore_mono behind
    omega

theorem begins_entry {id : BlockId} {rest : List BlockId}
    (blocks : written.map Piece.block = id :: rest) : Begins written id 0 := by
  cases written with
  | nil => cases blocks
  | cons p more =>
    rw [List.map_cons, List.cons.injEq] at blocks
    exact ⟨0, p, rfl, blocks.1, by simp [codeBefore]⟩

theorem getElem?_draftCode_early {link : Link} {instrs : List Instr} {n : Nat} {i : Instr}
    (here : instrs[n]? = some i) (early : n + 1 < instrs.length) :
    (draftCode link instrs)[n]? = some ⟨i, .kept⟩ := by
  rw [draftCode, List.getElem?_append_left (by simp; omega), List.getElem?_map,
    List.getElem?_dropLast, if_pos (by omega), here]
  rfl

theorem getElem?_draftCode_last {link : Link} {instrs : List Instr} {n : Nat} {i : Instr}
    (here : instrs[n]? = some i) (final : n + 1 = instrs.length) :
    (draftCode link instrs)[n]? = some ⟨i, link⟩ := by
  have final' : instrs.getLast? = some i := by
    rw [List.getLast?_eq_getElem?, ← final, Nat.add_sub_cancel, here]
  rw [draftCode, List.getElem?_append_right (by simp; omega), final']
  simp [← final]

theorem length_draftCode (link : Link) (instrs : List Instr) :
    (draftCode link instrs).length = instrs.length := by
  have same := congrArg List.length (map_instr_draftCode link instrs)
  rwa [List.length_map] at same

theorem startId_of_live (l : g.Laid) (blocks : written.map Piece.block = g.layout)
    (filled : ∀ p ∈ written, 0 < p.code.length) (live : g.block? id = some b) :
    ∃ m, startId (writtenIds written) (extents 0 written) id = .ok m := by
  have listed := l.listed_of_live live
  rw [← blocks] at listed
  obtain ⟨p, inside, rfl⟩ := List.mem_map.mp listed
  obtain ⟨k, here⟩ := List.getElem?_of_mem inside
  have nodup : (written.map Piece.block).Nodup := by
    rw [blocks]
    exact l.nodup
  obtain ⟨d, first⟩ : ∃ d, p.code[0]? = some d :=
    ⟨_, List.getElem?_eq_getElem (filled p inside)⟩
  have drafted := getElem?_written here (filled p inside)
  rw [Nat.add_zero, first] at drafted
  refine ⟨d.instr.id, ?_⟩
  simp only [startId, find?_extents nodup here, Option.bind_some, extentOf, writtenIds,
    List.getElem?_map, drafted, Option.map_some]

theorem PieceOf.jump_eq {next : Option BlockId} {fresh : InstrId} {p : Piece} {link : Link}
    {jump : Option BlockId} (piece : PieceOf g next fresh p b link jump) {t : BlockId}
    (falls : b.fall = some t)
    (open_ : b.kind = .fallThrough ∨ b.kind = .conditional ∨ b.kind = .switch) :
    jump = if some t = next then none else some t := by
  have behind := piece.behind
  rcases open_ with kind | kind | kind <;>
  · simp only [jumpBehind, kind, falls, Except.ok.injEq] at behind
    exact behind.symm

namespace Written

theorem exists_begin (w : Written g written last body) (c : g.Consistent)
    (live : g.block? id = some b) : ∃ n, Begins written id n := by
  have listed := c.listed_of_live live
  rw [← w.blocks] at listed
  obtain ⟨p, inside, same⟩ := List.mem_map.mp listed
  obtain ⟨k, here⟩ := List.getElem?_of_mem inside
  exact ⟨codeBefore written k, k, p, here, same, rfl⟩

theorem index_of_draft (w : Written g written last body) (c : g.Consistent) {n : Nat} {d : Draft}
    (drafted : (written.flatMap Piece.code)[n]? = some d) :
    body.index? d.instr.id = some n := by
  obtain ⟨i, offset, linked, here⟩ := w.instr drafted
  rw [← (linkDraft_keeps linked).1]
  exact (lastIndex?_of_nodup (w.numbered c).nodup here :)

theorem begins_of_startId (w : Written g written last body) (c : g.Consistent) {m : InstrId}
    (found : startId (writtenIds written) (extents 0 written) id = .ok m) :
    ∃ n, Begins written id n ∧ body.index? m = some n := by
  unfold startId at found
  split at found
  · rename_i first there
    cases found
    obtain ⟨e, extent, first⟩ := Option.bind_eq_some_iff.mp there
    have same := List.find?_some extent
    obtain ⟨k, here⟩ := List.getElem?_of_mem (List.mem_of_find?_eq_some extent)
    rw [getElem?_extents] at here
    obtain ⟨p, place, rfl⟩ := Option.map_eq_some_iff.mp here
    rw [Nat.zero_add] at first
    rw [writtenIds, List.getElem?_map] at first
    obtain ⟨d, drafted, rfl⟩ := Option.map_eq_some_iff.mp first
    refine ⟨codeBefore written k, ⟨k, p, place, by simpa using same, rfl⟩, ?_⟩
    exact w.index_of_draft c drafted
  · cases found

theorem piece_at (w : Written g written last body) {n : Nat} (begins : Begins written id n)
    (live : g.block? id = some b) :
    ∃ k p link jump, ∃ f : Nat, written[k]? = some p ∧ n = codeBefore written k ∧
      PieceOf g g.layout[k + 1]? f p b link jump ∧ g.nextInstr ≤ f := by
  obtain ⟨k, p, here, rfl, place⟩ := begins
  obtain ⟨d, link, jump, f, piece, low, -⟩ := (pieces_fresh w.pieces w.room).2 here
  have same := piece.live
  rw [live] at same
  cases same
  exact ⟨k, p, link, jump, f, here, place, piece, low⟩

theorem draft_at {k : Nat} {p : Piece} {next : Option BlockId} {f : InstrId} {link : Link}
    {jump : Option BlockId} (here : written[k]? = some p) (piece : PieceOf g next f p b link jump)
    {j : Nat} (inside : j < b.instrs.length) :
    (written.flatMap Piece.code)[codeBefore written k + j]? = (draftCode link b.instrs)[j]? := by
  have size := length_draftCode link b.instrs
  rw [getElem?_written here, piece.code, List.getElem?_append_left (by omega)]
  rw [piece.code, List.length_append]
  omega

theorem instr_early (w : Written g written last body) {n : Nat} (begins : Begins written id n)
    (live : g.block? id = some b) {j : Nat} {i : Instr} (here : b.instrs[j]? = some i)
    (early : j + 1 < b.instrs.length) : ∃ offset, body.instrs[n + j]? = some { i with offset } := by
  obtain ⟨k, p, link, jump, f, place, rfl, piece, -⟩ := w.piece_at begins live
  have drafted := draft_at place piece (Nat.lt_of_succ_lt early)
  rw [getElem?_draftCode_early here early] at drafted
  obtain ⟨x, offset, linked, found⟩ := w.instr drafted
  cases linked
  exact ⟨offset, found⟩

theorem instr_last (w : Written g written last body) {n : Nat} (begins : Begins written id n)
    (live : g.block? id = some b) {j : Nat} {i : Instr} (here : b.instrs[j]? = some i)
    (final : j + 1 = b.instrs.length) :
    ∃ link x offset, lastLink b = .ok link ∧
      linkDraft (startId (writtenIds written) (extents 0 written)) ⟨i, link⟩ = .ok x ∧
      body.instrs[n + j]? = some { x with offset } := by
  obtain ⟨k, p, link, jump, f, place, rfl, piece, -⟩ := w.piece_at begins live
  have drafted := draft_at place piece (show j < b.instrs.length by omega)
  rw [getElem?_draftCode_last here final] at drafted
  obtain ⟨x, offset, linked, found⟩ := w.instr drafted
  exact ⟨link, x, offset, piece.linked, linked, found⟩

theorem exists_instr (w : Written g written last body) {start : Nat}
    (begins : Begins written id start) (live : g.block? id = some b) {j : Nat} {i : Instr}
    (here : b.instrs[j]? = some i) :
    ∃ x, body.instrs[start + j]? = some x ∧ x.opcode = i.opcode := by
  have inside := (List.getElem?_eq_some_iff.mp here).1
  rcases Nat.lt_or_eq_of_le (Nat.succ_le_of_lt inside) with early | final
  · obtain ⟨offset, found⟩ := w.instr_early begins live here early
    exact ⟨_, found, rfl⟩
  · obtain ⟨link, x, offset, -, linked, found⟩ := w.instr_last begins live here final
    exact ⟨_, found, (linkDraft_keeps linked).2⟩

theorem last_kept (w : Written g written last body) {n : Nat} (begins : Begins written id n)
    (live : g.block? id = some b) {j : Nat} {i : Instr} (here : b.instrs[j]? = some i)
    (final : j + 1 = b.instrs.length) (kind : b.kind = .fallThrough ∨ b.kind = .exit) :
    ∃ offset, body.instrs[n + j]? = some { i with offset } := by
  obtain ⟨link, x, offset, linked, made, found⟩ := w.instr_last begins live here final
  have kept : link = .kept := by
    rcases kind with kind | kind <;>
    · simp only [lastLink, kind] at linked
      cases linked
      rfl
  subst kept
  cases made
  exact ⟨offset, found⟩

theorem last_jump (w : Written g written last body) (c : g.Consistent) {n : Nat}
    (begins : Begins written id n) (live : g.block? id = some b) {j : Nat} {i : Instr}
    (here : b.instrs[j]? = some i) (final : j + 1 = b.instrs.length)
    (kind : b.kind = .branch ∨ b.kind = .leave ∨ b.kind = .conditional) :
    ∃ t m goal offset, b.targets.head? = some t ∧ Begins written t goal ∧
      body.index? m = some goal ∧
      body.instrs[n + j]? = some { i with operand := .target m, offset } := by
  obtain ⟨link, x, offset, linked, made, found⟩ := w.instr_last begins live here final
  obtain ⟨t, first, jump⟩ : ∃ t, b.targets.head? = some t ∧ link = .jump t := by
    cases first : b.targets.head? with
    | none => rcases kind with kind | kind | kind <;> simp [lastLink, kind, first] at linked
    | some t =>
      refine ⟨t, rfl, ?_⟩
      rcases kind with kind | kind | kind <;>
      · simp only [lastLink, kind, first] at linked
        cases linked
        rfl
  subst jump
  rcases linkDraft_ok made with ⟨kept, -⟩ | ⟨t', m, same, start, rfl⟩ | ⟨_, _, same, -, -⟩
  · cases kept
  · cases same
    obtain ⟨goal, there, index⟩ := w.begins_of_startId c start
    exact ⟨t, m, goal, offset, first, there, index, found⟩
  · cases same

theorem last_switch (w : Written g written last body) (c : g.Consistent) {n : Nat}
    (begins : Begins written id n) (live : g.block? id = some b) {j : Nat} {i : Instr}
    (here : b.instrs[j]? = some i) (final : j + 1 = b.instrs.length) (kind : b.kind = .switch) :
    ∃ ms offset, List.Forall₂ (fun t m => ∃ goal, Begins written t goal ∧
      body.index? m = some goal) b.targets ms ∧
      body.instrs[n + j]? = some { i with operand := .switch ms, offset } := by
  obtain ⟨link, x, offset, linked, made, found⟩ := w.instr_last begins live here final
  simp only [lastLink, kind] at linked
  cases linked
  rcases linkDraft_ok made with ⟨kept, -⟩ | ⟨_, _, same, -, -⟩ | ⟨ts, ms, same, starts, rfl⟩
  · cases kept
  · cases same
  · cases same
    refine ⟨ms, offset, ?_, found⟩
    exact starts.imp fun t m start => w.begins_of_startId c start

theorem behind (w : Written g written last body) (c : g.Consistent) {n : Nat}
    (begins : Begins written id n) (live : g.block? id = some b) {t : BlockId}
    (falls : b.fall = some t)
    (open_ : b.kind = .fallThrough ∨ b.kind = .conditional ∨ b.kind = .switch) :
    Begins written t (n + b.instrs.length) ∨
      ∃ f m goal offset, body.instrs[n + b.instrs.length]? =
        some { id := f, opcode := .br .long, operand := .target m, offset } ∧
        g.nextInstr ≤ f ∧ Begins written t goal ∧ body.index? m = some goal := by
  obtain ⟨k, p, link, jump, f, place, rfl, piece, low⟩ := w.piece_at begins live
  have chosen := piece.jump_eq falls open_
  have size := length_draftCode link b.instrs
  split at chosen
  · rename_i next
    subst chosen
    rw [← w.blocks, List.getElem?_map] at next
    obtain ⟨q, there, same⟩ := Option.map_eq_some_iff.mp next.symm
    refine .inl ⟨k + 1, q, there, same, ?_⟩
    rw [codeBefore_succ place, piece.code]
    simp [size]
  · subst chosen
    have code : p.code = draftCode link b.instrs ++ [addedJump f t] := piece.code
    have drafted := getElem?_written (j := b.instrs.length) place (by rw [code]; simp [size])
    rw [code, List.getElem?_append_right (by omega), size, Nat.sub_self] at drafted
    obtain ⟨x, offset, linked, found⟩ := w.instr drafted
    rcases linkDraft_ok linked with ⟨kept, -⟩ | ⟨t', m, same, start, rfl⟩ | ⟨_, _, same, -, -⟩
    · cases kept
    · cases same
      obtain ⟨goal, there, index⟩ := w.begins_of_startId c start
      exact .inr ⟨f, m, goal, offset, found, low, there, index⟩
    · cases same

theorem stands_own (w : Written g written last body) {n : Nat} (begins : Begins written id n)
    (live : g.block? id = some b) {j : Nat} (inside : j < b.instrs.length) :
    Stands written id j (n + j) := by
  obtain ⟨k, p, here, rfl, rfl⟩ := begins
  obtain ⟨d, link, jump, f, piece⟩ := (pieces_at w.pieces).2 here
  cases live.symm.trans piece.live
  refine ⟨k, p, here, rfl, rfl, ?_⟩
  rw [piece.code, List.length_append, length_draftCode]
  omega

theorem stands_behind (w : Written g written last body) {n : Nat} (begins : Begins written id n)
    (live : g.block? id = some b) {t : BlockId} (falls : b.fall = some t)
    (open_ : b.kind = .fallThrough ∨ b.kind = .conditional ∨ b.kind = .switch) :
    Begins written t (n + b.instrs.length) ∨
      Stands written id b.instrs.length (n + b.instrs.length) := by
  obtain ⟨k, p, here, rfl, rfl⟩ := begins
  obtain ⟨d, link, jump, f, piece⟩ := (pieces_at w.pieces).2 here
  cases live.symm.trans piece.live
  have chosen := piece.jump_eq falls open_
  have size := congrArg List.length piece.code
  rw [List.length_append, length_draftCode, List.length_map] at size
  split at chosen
  · rename_i next
    subst chosen
    rw [← w.blocks, List.getElem?_map] at next
    obtain ⟨q, there, same⟩ := Option.map_eq_some_iff.mp next.symm
    refine .inl ⟨k + 1, q, there, same, ?_⟩
    rw [codeBefore_succ here, size]
    rfl
  · subst chosen
    refine .inr ⟨k, p, here, rfl, rfl, ?_⟩
    rw [size]
    exact Nat.lt_succ_self _

theorem begins_lt (w : Written g written last body) (c : g.Consistent) {n : Nat}
    (begins : Begins written id n) : n < body.instrs.length := by
  obtain ⟨k, p, here, -, rfl⟩ := begins
  obtain ⟨b, link, jump, f, piece⟩ := (pieces_at w.pieces).2 here
  have drafted := getElem?_written here (piece.filled c.laid)
  rw [Nat.add_zero, List.getElem?_eq_getElem (piece.filled c.laid)] at drafted
  rw [w.size]
  exact (List.getElem?_eq_some_iff.mp drafted).1

end Written

/-- Where an instruction of a written body comes from: from a block, or it is the jump behind a
    block that may fall. -/
inductive Source (g : Graph) (written : List Piece) (body : Body) (n : Nat) (x : Instr) : Prop where
  | own {id : BlockId} {b : Block} {start j : Nat} {i : Instr} (live : g.block? id = some b)
      (begins : Begins written id start) (place : n = start + j) (here : b.instrs[j]? = some i)
      (opcode : x.opcode = i.opcode)
  | added {id : BlockId} {b : Block} {start goal : Nat} {t : BlockId} {m : InstrId}
      (live : g.block? id = some b) (begins : Begins written id start)
      (place : n = start + b.instrs.length) (falls : b.fall = some t)
      (open_ : b.kind = .fallThrough ∨ b.kind = .conditional ∨ b.kind = .switch)
      (opcode : x.opcode = .br .long) (operand : x.operand = .target m)
      (there : Begins written t goal) (index : body.index? m = some goal)
      (stands : Stands written id b.instrs.length n)

theorem jumpBehind_some {next : Option BlockId} {t : BlockId}
    (behind : jumpBehind b next = .ok (some t)) : b.fall = some t ∧
      (b.kind = .fallThrough ∨ b.kind = .conditional ∨ b.kind = .switch) := by
  unfold jumpBehind at behind
  split at behind
  case h_1 kind falls | h_2 kind falls | h_3 kind falls =>
    split at behind
    · cases behind
    · cases behind
      exact ⟨falls, by simp [kind]⟩
  case h_4 | h_5 | h_7 => cases behind
  case h_6 => split at behind <;> cases behind

theorem Written.source (w : Written g written last body) (c : g.Consistent) {n : Nat} {x : Instr}
    (here : body.instrs[n]? = some x) : Source g written body n x := by
  have inside := (List.getElem?_eq_some_iff.mp here).1
  rw [w.size] at inside
  obtain ⟨k, p, j, place, bound, rfl⟩ := exists_piece inside
  obtain ⟨b, link, jump, f, piece, low, -⟩ := (pieces_fresh w.pieces w.room).2 place
  have begins : Begins written p.block (codeBefore written k) := ⟨k, p, place, rfl, rfl⟩
  have size := length_draftCode link b.instrs
  by_cases own : j < b.instrs.length
  · obtain ⟨i, found⟩ : ∃ i, b.instrs[j]? = some i := ⟨_, List.getElem?_eq_getElem own⟩
    obtain ⟨y, there, opcode⟩ := w.exists_instr begins piece.live found
    rw [here] at there
    cases there
    exact .own piece.live begins rfl found opcode
  · have drafted := getElem?_written place bound
    rw [piece.code, List.length_append, List.length_map] at bound
    rw [piece.code, List.getElem?_append_right (by omega)] at drafted
    cases jump with
    | none =>
      rw [Option.toList_none, List.length_nil] at bound
      omega
    | some t =>
      rw [Option.toList_some, List.length_singleton] at bound
      have same : j = b.instrs.length := by omega
      subst same
      rw [size, Nat.sub_self] at drafted
      obtain ⟨falls, open_⟩ := jumpBehind_some piece.behind
      obtain ⟨y, offset, linked, there⟩ := w.instr drafted
      rw [here] at there
      cases there
      rcases linkDraft_ok linked with ⟨kept, -⟩ | ⟨t', m, same, start, rfl⟩ | ⟨_, _, same, -, -⟩
      · cases kept
      · cases same
        obtain ⟨goal, target, index⟩ := w.begins_of_startId c start
        exact .added piece.live begins rfl falls open_ rfl rfl target index
          ⟨k, p, place, rfl, rfl, by rw [piece.code, List.length_append]; exact bound⟩
      · cases same

end Graph
end Unravel
