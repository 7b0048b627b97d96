import Unravel.Proofs.Body.Narrowing
import Unravel.Proofs.Graph.Partition

namespace Unravel.Graph
variable {g : Graph} {id : BlockId} {b : Block} {written : List Piece} {last fresh : Nat}

def addedJump (fresh : InstrId) (target : BlockId) : Draft :=
  ⟨{ id := fresh, opcode := .br .long }, .jump target⟩

/-- A piece is the code of a live block in front of the block `next`. -/
structure PieceOf (g : Graph) (next : Option BlockId) (fresh : InstrId) (p : Piece) (b : Block)
    (link : Link) (jump : Option BlockId) : Prop where
  live : g.block? p.block = some b
  linked : lastLink b = .ok link
  behind : jumpBehind b next = .ok jump
  code : p.code = draftCode link b.instrs ++ jump.toList.map (addedJump fresh)

theorem pieces_cons_ok {rest : List BlockId}
    (done : g.pieces fresh (id :: rest) = .ok (written, last)) :
    ∃ p b link jump more, PieceOf g rest.head? fresh p b link jump ∧ p.block = id ∧
      written = p :: more ∧
      g.pieces (InstrId.after fresh jump.toList.length) rest = .ok (more, last) := by
  rw [pieces] at done
  cases live : g.block? id with
  | none => simp [live, throw, throwThe, MonadExceptOf.throw] at done
  | some b =>
    rw [live] at done
    obtain ⟨link, linked, done⟩ := bind_ok_iff.mp done
    obtain ⟨jump, behind, done⟩ := bind_ok_iff.mp done
    cases jump with
    | none =>
      obtain ⟨⟨more, _⟩, later, done⟩ := bind_ok_iff.mp done
      cases done
      exact ⟨⟨id, draftCode link b.instrs⟩, b, link, none, more,
        ⟨live, linked, behind, by simp⟩, rfl, rfl, later⟩
    | some target =>
      obtain ⟨⟨more, _⟩, later, done⟩ := bind_ok_iff.mp done
      cases done
      exact ⟨⟨id, draftCode link b.instrs ++ [addedJump fresh target]⟩, b, link, some target, more,
        ⟨live, linked, behind, by simp⟩, rfl, rfl, later⟩

theorem pieces_at {ids : List BlockId} (done : g.pieces fresh ids = .ok (written, last)) :
    written.map Piece.block = ids ∧ ∀ {k p}, written[k]? = some p → ∃ b link jump f,
      PieceOf g ids[k + 1]? f p b link jump := by
  induction ids generalizing fresh written with
  | nil =>
    cases done
    exact ⟨rfl, by simp⟩
  | cons id rest ih =>
    obtain ⟨p, b, link, jump, more, piece, rfl, rfl, later⟩ := pieces_cons_ok done
    obtain ⟨blocks, each⟩ := ih later
    refine ⟨by rw [List.map_cons, blocks], ?_⟩
    intro k q here
    cases k with
    | zero =>
      cases here
      rw [List.head?_eq_getElem?] at piece
      exact ⟨b, link, jump, fresh, piece⟩
    | succ k => exact each here

/-- The jumps that are added behind blocks. Each takes an id; where no block is empty, nothing else
    takes one. -/
def jumpsAdded (g : Graph) : List BlockId → Nat
  | [] => 0
  | id :: rest =>
    match (g.block? id).map fun b => jumpBehind b rest.head? with
    | some (.ok (some _)) => g.jumpsAdded rest + 1
    | _ => g.jumpsAdded rest

theorem jumpsAdded_cons {rest : List BlockId} {p : Piece} {link : Link} {jump : Option BlockId}
    (piece : PieceOf g rest.head? fresh p b link jump) :
    g.jumpsAdded (p.block :: rest) = jump.toList.length + g.jumpsAdded rest := by
  rw [jumpsAdded, piece.live, Option.map_some, piece.behind]
  cases jump with
  | none => exact (Nat.zero_add _).symm
  | some target => exact Nat.add_comm _ _

theorem pieces_fresh {ids : List BlockId} (done : g.pieces fresh ids = .ok (written, last))
    (room : InstrId.Room fresh (g.jumpsAdded ids)) :
    last = fresh + g.jumpsAdded ids ∧
      ∀ {k p}, written[k]? = some p → ∃ b link jump, ∃ f : Nat,
        PieceOf g ids[k + 1]? f p b link jump ∧ fresh ≤ f ∧ f + jump.toList.length ≤ last := by
  induction ids generalizing fresh written with
  | nil =>
    cases done
    exact ⟨rfl, by simp⟩
  | cons id rest ih =>
    obtain ⟨p, b, link, jump, more, piece, rfl, rfl, later⟩ := pieces_cons_ok done
    rw [jumpsAdded_cons piece] at room ⊢
    obtain ⟨here, behind⟩ := room.split
    rw [InstrId.after_of_room here] at later
    obtain ⟨end_, each⟩ := ih later behind
    refine ⟨by omega, ?_⟩
    intro k q here
    cases k with
    | zero =>
      cases here
      rw [List.head?_eq_getElem?] at piece
      exact ⟨b, link, jump, fresh, piece, Nat.le_refl _, by omega⟩
    | succ k =>
      obtain ⟨c, link, jump, f, piece, low, high⟩ := each here
      exact ⟨c, link, jump, f, piece, by omega, high⟩

theorem map_instr_draftCode (link : Link) (instrs : List Instr) :
    (draftCode link instrs).map Draft.instr = instrs := by
  rcases instrs.eq_nil_or_concat with rfl | ⟨front, i, rfl⟩
  · rfl
  · simp [draftCode, Function.comp_def]

theorem PieceOf.ids {next : Option BlockId} {p : Piece} {link : Link} {jump : Option BlockId}
    (piece : PieceOf g next fresh p b link jump) :
    p.code.map (fun d => d.instr.id) = b.ids ++ jump.toList.map fun _ => fresh := by
  have own : (draftCode link b.instrs).map (fun d => d.instr.id) = b.ids := by
    rw [Block.ids, ← map_instr_draftCode link b.instrs, List.map_map]
    simp [map_instr_draftCode, Function.comp_def]
  rw [piece.code, List.map_append, own, List.map_map]
  rfl

def writtenIds (written : List Piece) : List InstrId :=
  (written.flatMap Piece.code).map fun d => d.instr.id

theorem mem_writtenIds {ids : List BlockId} (done : g.pieces fresh ids = .ok (written, last))
    (room : InstrId.Room fresh (g.jumpsAdded ids)) {n : Nat}
    (inside : n ∈ writtenIds written) :
    (∃ id ∈ ids, ∃ b, g.block? id = some b ∧ n ∈ b.ids) ∨ (fresh ≤ n ∧ n < last) := by
  obtain ⟨-, each⟩ := pieces_fresh done room
  obtain ⟨d, drafted, rfl⟩ := List.mem_map.mp inside
  obtain ⟨p, listed, among⟩ := List.mem_flatMap.mp drafted
  obtain ⟨k, here⟩ := List.getElem?_of_mem listed
  obtain ⟨b, link, jump, f, piece, low, high⟩ := each here
  have own : d.instr.id ∈ p.code.map fun d => d.instr.id := List.mem_map_of_mem among
  rw [piece.ids, List.mem_append, List.mem_map] at own
  rcases own with own | ⟨target, jumps, same⟩
  · refine .inl ⟨p.block, ?_, b, piece.live, own⟩
    rw [← (pieces_at done).1]
    exact List.mem_map_of_mem listed
  · have one : 1 ≤ jump.toList.length := List.length_pos_of_mem jumps
    rw [← same]
    exact .inr ⟨low, by omega⟩

theorem nodup_writtenIds (c : g.Consistent) {ids : List BlockId} (nodup : ids.Nodup)
    (low : g.nextInstr ≤ fresh) (done : g.pieces fresh ids = .ok (written, last))
    (room : InstrId.Room fresh (g.jumpsAdded ids)) : (writtenIds written).Nodup := by
  induction ids generalizing fresh written with
  | nil =>
    cases done
    exact List.nodup_nil
  | cons id rest ih =>
    rw [List.nodup_cons] at nodup
    obtain ⟨p, b, link, jump, more, piece, rfl, rfl, later⟩ := pieces_cons_ok done
    rw [jumpsAdded_cons piece] at room
    obtain ⟨here, room⟩ := room.split
    rw [InstrId.after_of_room here] at later
    have whole : writtenIds (p :: more) = p.code.map (fun d => d.instr.id) ++ writtenIds more := by
      rw [writtenIds, List.flatMap_cons, List.map_append]
      rfl
    rw [whole, piece.ids, List.nodup_append']
    refine ⟨?_, ih nodup.2 (Nat.le_trans low (Nat.le_add_right _ _)) later room, ?_⟩
    · rw [List.nodup_append']
      refine ⟨c.unique piece.live, by cases jump <;> simp, ?_⟩
      intro n own added
      obtain ⟨-, -, rfl⟩ := List.mem_map.mp added
      exact absurd (c.fresh piece.live _ own) (Nat.not_lt.mpr low)
    · intro n here there
      rw [List.mem_append, List.mem_map] at here
      rcases mem_writtenIds later room there with ⟨other, listed, d, live, own⟩ | ⟨above, -⟩
      · rcases here with here | ⟨-, -, rfl⟩
        · refine c.apart piece.live live ?_ here own
          rintro rfl
          exact nodup.1 listed
        · exact absurd (c.fresh live _ own) (Nat.not_lt.mpr low)
      · rcases here with here | ⟨target, jumps, rfl⟩
        · have below := c.fresh piece.live n here
          exact absurd (Nat.lt_of_lt_of_le below low) (by omega)
        · have one : 1 ≤ jump.toList.length := List.length_pos_of_mem jumps
          omega

def codeBefore (written : List Piece) (k : Nat) : Nat :=
  ((written.take k).flatMap Piece.code).length

theorem codeBefore_succ {k : Nat} {p : Piece} (here : written[k]? = some p) :
    codeBefore written (k + 1) = codeBefore written k + p.code.length := by
  rw [codeBefore, codeBefore, List.take_add_one, here, List.flatMap_append, List.length_append]
  simp

theorem codeBefore_cons_succ (p : Piece) (rest : List Piece) (k : Nat) :
    codeBefore (p :: rest) (k + 1) = p.code.length + codeBefore rest k := by
  simp [codeBefore]

theorem codeBefore_mono {k m : Nat} (le : k ≤ m) : codeBefore written k ≤ codeBefore written m := by
  obtain ⟨more, whole⟩ := List.take_prefix_take_left (l := written) le
  rw [codeBefore, codeBefore, ← whole, List.flatMap_append, List.length_append]
  omega

theorem getElem?_written {k j : Nat} {p : Piece} (here : written[k]? = some p)
    (inside : j < p.code.length) :
    (written.flatMap Piece.code)[codeBefore written k + j]? = p.code[j]? := by
  obtain ⟨bound, rfl⟩ := List.getElem?_eq_some_iff.mp here
  have whole : written = written.take k ++ written[k] :: written.drop (k + 1) := by
    rw [← List.drop_eq_getElem_cons bound, List.take_append_drop]
  have split : written.flatMap Piece.code = (written.take k).flatMap Piece.code ++
      (written[k].code ++ (written.drop (k + 1)).flatMap Piece.code) := by
    conv_lhs => rw [whole]
    rw [List.flatMap_append, List.flatMap_cons]
  rw [split, codeBefore, List.getElem?_append_right (by omega), Nat.add_sub_cancel_left,
    List.getElem?_append_left inside]

theorem exists_piece {n : Nat} (inside : n < (written.flatMap Piece.code).length) :
    ∃ k p j, written[k]? = some p ∧ j < p.code.length ∧ n = codeBefore written k + j := by
  induction written generalizing n with
  | nil => simp at inside
  | cons p rest ih =>
    by_cases here : n < p.code.length
    · exact ⟨0, p, n, rfl, here, by simp [codeBefore]⟩
    · rw [List.flatMap_cons, List.length_append] at inside
      obtain ⟨k, q, j, there, bound, same⟩ := ih (n := n - p.code.length) (by omega)
      refine ⟨k + 1, q, j, there, bound, ?_⟩
      rw [codeBefore_cons_succ]
      omega

theorem getElem?_extents (start : Nat) (written : List Piece) (k : Nat) :
    (extents start written)[k]? = written[k]?.map fun p =>
      ⟨p.block, start + codeBefore written k, start + codeBefore written k + p.code.length⟩ := by
  induction written generalizing start k with
  | nil => simp [extents]
  | cons p rest ih =>
    cases k with
    | zero => simp [extents, codeBefore]
    | succ k =>
      rw [extents, List.getElem?_cons_succ, ih, List.getElem?_cons_succ, codeBefore_cons_succ,
        Nat.add_assoc]

def extentOf (written : List Piece) (k : Nat) (p : Piece) : Extent :=
  ⟨p.block, codeBefore written k, codeBefore written k + p.code.length⟩

theorem find?_extents (nodup : (written.map Piece.block).Nodup) {k : Nat} {p : Piece}
    (here : written[k]? = some p) :
    (extents 0 written).find? (fun e => e.block == p.block) = some (extentOf written k p) := by
  have place : (extents 0 written)[k]? = some (extentOf written k p) := by
    rw [getElem?_extents, here, Option.map_some, Nat.zero_add]
    rfl
  have unique : ∀ e ∈ extents 0 written,
      (e.block == p.block) = true → e = extentOf written k p := by
    intro e listed same
    obtain ⟨m, there⟩ := List.getElem?_of_mem listed
    rw [getElem?_extents] at there
    obtain ⟨q, found, rfl⟩ := Option.map_eq_some_iff.mp there
    have blocks : (written.map Piece.block)[m]? = (written.map Piece.block)[k]? := by
      rw [List.getElem?_map, List.getElem?_map, found, here]
      simpa using same
    have bound : m < (written.map Piece.block).length := by
      rw [List.length_map]
      exact (List.getElem?_eq_some_iff.mp found).1
    have equal : m = k := (List.getElem?_inj bound nodup).mp blocks
    subst equal
    rw [found] at here
    cases here
    rw [Nat.zero_add]
    rfl
  have some_ : ((extents 0 written).find? fun e => e.block == p.block).isSome :=
    List.find?_isSome.mpr ⟨_, List.mem_of_getElem? place, by simp [extentOf]⟩
  obtain ⟨e, found⟩ := Option.isSome_iff_exists.mp some_
  have hits := List.find?_some found
  rw [found, unique e (List.mem_of_find?_eq_some found) hits]

theorem linkDraft_ok {start : BlockId → Except Error InstrId} {d : Draft} {i : Instr}
    (done : linkDraft start d = .ok i) :
    (d.link = .kept ∧ i = d.instr) ∨
      (∃ target n, d.link = .jump target ∧ start target = .ok n ∧
        i = { d.instr with operand := .target n }) ∨
      (∃ targets ns, d.link = .cases targets ∧
        List.Forall₂ (fun t n => start t = .ok n) targets ns ∧
        i = { d.instr with operand := .switch ns }) := by
  unfold linkDraft at done
  split at done
  · cases done
    exact .inl ⟨‹_›, rfl⟩
  · rename_i target linked
    cases found : start target with
    | error e =>
      rw [found] at done
      cases done
    | ok n =>
      rw [found] at done
      cases done
      exact .inr (.inl ⟨target, n, linked, found, rfl⟩)
  · rename_i targets linked
    cases found : targets.mapM start with
    | error e =>
      rw [found] at done
      cases done
    | ok ns =>
      rw [found] at done
      cases done
      exact .inr (.inr ⟨targets, ns, linked, mapM_ok_iff.mp found, rfl⟩)

theorem linkDraft_keeps {start : BlockId → Except Error InstrId} {d : Draft} {i : Instr}
    (done : linkDraft start d = .ok i) : i.id = d.instr.id ∧ i.opcode = d.instr.opcode := by
  rcases linkDraft_ok done with ⟨-, rfl⟩ | ⟨_, _, -, -, rfl⟩ | ⟨_, _, -, -, rfl⟩ <;>
    exact ⟨rfl, rfl⟩

/-- A body is what was written of a graph: each draft is linked, and regions become clauses. -/
structure Drafted (g : Graph) (written : List Piece) (last : Nat) (body : Body) : Prop where
  pieces : g.pieces g.nextInstr g.layout = .ok (written, last)
  size : body.instrs.length = (written.flatMap Piece.code).length
  instr : ∀ {n : Nat} {d : Draft}, (written.flatMap Piece.code)[n]? = some d → ∃ i offset,
    linkDraft (startId (writtenIds written) (extents 0 written)) d = .ok i ∧
      body.instrs[n]? = some { i with offset }
  clauses : body.clauses = g.regions.filterMap
    (clauseOf? (writtenIds written) (extents 0 written))
  nextId : last ≤ body.nextId

/-- Writing out takes ids for the jumps that it adds. -/
def RoomToWrite (g : Graph) : Prop := InstrId.Room g.nextInstr (g.jumpsAdded g.layout)

instance (g : Graph) : Decidable g.RoomToWrite :=
  inferInstanceAs (Decidable (InstrId.Room _ _))

structure Written (g : Graph) (written : List Piece) (last : Nat) (body : Body) : Prop
    extends Drafted g written last body where
  room : g.RoomToWrite

theorem PieceOf.filled (l : g.Laid) {next : Option BlockId} {p : Piece} {link : Link}
    {jump : Option BlockId} (piece : PieceOf g next fresh p b link jump) : 0 < p.code.length := by
  have size := congrArg List.length piece.ids
  have own : 0 < b.instrs.length := List.length_pos_of_ne_nil (l.filled piece.live)
  rw [List.length_map, List.length_append, Block.ids, List.length_map] at size
  omega

theorem toBody_eq (l : g.Laid)
    (done : g.pieces g.nextInstr g.layout = .ok (written, last)) :
    g.toBody = ((written.flatMap Piece.code).mapM
      (linkDraft (startId (writtenIds written) (extents 0 written)))).map fun instrs =>
        (({ Body.ofCode instrs (g.regions.filterMap
            (clauseOf? (writtenIds written) (extents 0 written))) with
          locals := g.locals, maxStack := g.maxStack } : Body).reserve last).placed := by
  have unpadded : ((extents 0 written).any fun e =>
      decide ((written.flatMap Piece.code).length ≤ e.start)) = false := by
    rw [List.any_eq_false]
    intro e listed
    obtain ⟨k, here⟩ := List.getElem?_of_mem listed
    rw [getElem?_extents] at here
    obtain ⟨p, place, rfl⟩ := Option.map_eq_some_iff.mp here
    obtain ⟨b, link, jump, f, piece⟩ := (pieces_at done).2 place
    have there := getElem?_written place (piece.filled l)
    have bound := (List.getElem?_eq_some_iff.mp
      (there.trans (List.getElem?_eq_getElem (piece.filled l)))).1
    simp only [Nat.zero_add, decide_eq_true_eq]
    omega
  unfold toBody
  simp only [done, bind, Except.bind, pure, Except.pure, unpadded, Bool.false_eq_true, if_false]
  rw [← writtenIds]
  cases (written.flatMap Piece.code).mapM
    (linkDraft (startId (writtenIds written) (extents 0 written))) <;> rfl

theorem toBody_drafted (l : g.Laid) {body : Body} (done : g.toBody = .ok body) :
    ∃ written last, Drafted g written last body := by
  obtain ⟨⟨written, last⟩, found, -⟩ := bind_ok_iff.mp done
  rw [toBody_eq l found] at done
  obtain ⟨instrs, linked, rfl⟩ := map_ok_iff.mp done
  refine ⟨written, last, found, ?_, ?_, rfl, Nat.le_max_right _ _⟩
  · change (place 0 instrs).length = _
    rw [length_place, (mapM_ok_iff.mp linked).length_eq]
  · intro n d drafted
    obtain ⟨i, here, made⟩ := getElem?_of_forall₂ (mapM_ok_iff.mp linked) drafted
    have placed := getElem?_place 0 instrs n
    rw [here, Option.map_some] at placed
    exact ⟨i, _, made, placed⟩

theorem toBody_ok (l : g.Laid) (room : g.RoomToWrite) {body : Body} (done : g.toBody = .ok body) :
    ∃ written last, Written g written last body := by
  obtain ⟨written, last, drafted⟩ := toBody_drafted l done
  exact ⟨written, last, drafted, room⟩

section
variable {body : Body}

theorem Drafted.blocks (w : Drafted g written last body) : written.map Piece.block = g.layout :=
  (pieces_at w.pieces).1

theorem Drafted.ids (w : Drafted g written last body) :
    body.instrs.map Instr.id = writtenIds written := by
  apply List.ext_getElem?
  intro n
  rw [List.getElem?_map, writtenIds, List.getElem?_map]
  cases drafted : (written.flatMap Piece.code)[n]? with
  | none =>
    rw [List.getElem?_eq_none_iff, ← w.size, ← List.getElem?_eq_none_iff] at drafted
    rw [drafted]
    rfl
  | some d =>
    obtain ⟨i, offset, linked, here⟩ := w.instr drafted
    rw [here, Option.map_some, Option.map_some]
    rw [← (linkDraft_keeps linked).1]

theorem Written.numbered (c : g.Consistent) (w : Written g written last body) : body.Numbered where
  nodup := by
    rw [w.ids]
    exact nodup_writtenIds c c.nodup (Nat.le_refl _) w.pieces w.room
  fresh := by
    intro i inside
    have listed : i.id ∈ writtenIds written := by
      rw [← w.ids]
      exact List.mem_map_of_mem inside
    have most := w.nextId
    have end_ := (pieces_fresh w.pieces w.room).1
    rcases mem_writtenIds w.pieces w.room listed with ⟨id, -, b, live, own⟩ | ⟨-, below⟩
    · have grows : g.nextInstr ≤ last := end_ ▸ Nat.le_add_right _ _
      exact Nat.lt_of_lt_of_le (c.fresh live _ own) (Nat.le_trans grows most)
    · exact Nat.lt_of_lt_of_le below most

end

theorem repartition_ok {g' : Graph} (done : g.repartition = .ok g') :
    ∃ body, g.toBody = .ok body ∧ body.toGraph = .ok g' := by
  obtain ⟨body, written, done⟩ := bind_ok_iff.mp done
  exact ⟨body, written, done⟩

theorem Consistent.repartition (c : g.Consistent) (room : g.RoomToWrite) {g' : Graph}
    (done : g.repartition = .ok g') : g'.Consistent := by
  obtain ⟨body, written, cut⟩ := repartition_ok done
  obtain ⟨pieces, last, w⟩ := toBody_ok c.laid room written
  exact Body.toGraph_consistent (w.numbered c) cut

end Unravel.Graph
