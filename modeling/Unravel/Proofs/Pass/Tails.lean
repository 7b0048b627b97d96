import Unravel.Proofs.Fold.Makers
import Unravel.Proofs.Inline.Calls

/-!
Prefixes of tail calls. A `tail.` prefix speaks of the call right behind it. Folding puts something
else in the place of values and of terminators only, so what a prefix speaks of stays there.
Inlining looks at calls and not at what stands in front of them. No prefix is spliced in, but one in
front of a call that is expanded then stands in front of the first instruction that is spliced in,
or in front of nothing. It speaks of a call still if that instruction is one.
-/
namespace Unravel

def Instr.TakesTail (i : Instr) : Prop :=
  i.opcode = .call ∨ i.opcode = .callvirt ∨ i.opcode = .calli

instance : DecidablePred Instr.TakesTail := fun _ => inferInstanceAs (Decidable (_ ∨ _))

/-- Right behind each tail prefix in some code stands an instruction of some kind. -/
def Tails (P : Instr → Prop) (code : List Instr) : Prop :=
  ∀ n i, code[n]? = some i → i.opcode = .tail → ∃ j ∈ code[n + 1]?, P j

variable {P Q : Instr → Prop} {i : Instr} {front rest code : List Instr}

theorem Tails.nil : Tails P [] := by
  intro n i here
  cases here

theorem tails_cons :
    Tails P (i :: rest) ↔ (i.opcode = .tail → ∃ j ∈ rest.head?, P j) ∧ Tails P rest := by
  simp only [List.head?_eq_getElem?]
  constructor
  · intro tails
    exact ⟨tails 0 i rfl, fun n => tails (n + 1)⟩
  · rintro ⟨here, later⟩ (_ | n) j found
    · cases found
      exact here
    · exact later n j found

instance decidableTails [DecidablePred P] : (code : List Instr) → Decidable (Tails P code)
  | [] => .isTrue Tails.nil
  | _ :: rest =>
    have := decidableTails rest
    decidable_of_iff _ tails_cons.symm

theorem tails_cons_of_ne (other : i.opcode ≠ .tail) : Tails P (i :: rest) ↔ Tails P rest := by
  rw [tails_cons]
  exact and_iff_right fun tail => absurd tail other

theorem tails_append (others : ∀ i ∈ front, i.opcode ≠ .tail) :
    Tails P (front ++ rest) ↔ Tails P rest := by
  induction front with
  | nil => rfl
  | cons i front ih =>
    obtain ⟨here, later⟩ := List.forall_mem_cons.mp others
    rw [List.cons_append, tails_cons_of_ne here, ih later]

theorem Tails.and (tails : Tails P code) (others : Tails Q code) :
    Tails (fun i => P i ∧ Q i) code := by
  intro n i here tail
  obtain ⟨j, next, holds⟩ := tails n i here tail
  obtain ⟨k, same, also⟩ := others n i here tail
  cases next.symm.trans same
  exact ⟨j, next, holds, also⟩

theorem Tails.mono (tails : Tails P code) (weaker : ∀ i, P i → Q i) : Tails Q code := by
  intro n i here tail
  obtain ⟨j, next, holds⟩ := tails n i here tail
  exact ⟨j, next, weaker j holds⟩

theorem Tails.setLast {last last' : Instr} (tails : Tails P (front ++ [last])) (apart : ¬ P last)
    (other : last'.opcode ≠ .tail) : Tails P (front ++ [last']) := by
  induction front with
  | nil => exact (tails_cons_of_ne other).mpr Tails.nil
  | cons i front ih =>
    obtain ⟨here, later⟩ := tails_cons.mp tails
    refine tails_cons.mpr ⟨fun tail => ?_, ih later⟩
    obtain ⟨j, next, holds⟩ := here tail
    cases front with
    | nil =>
      cases next
      exact absurd holds apart
    | cons k front => exact ⟨j, next, holds⟩

namespace Graph
variable {g g' : Graph} {id target : BlockId} {f : Block → Block}

def Tails (P : Instr → Prop) (g : Graph) : Prop :=
  ∀ id b, g.block? id = some b → Unravel.Tails P b.instrs

theorem tails_iff_slots :
    g.Tails P ↔ ∀ b, some b ∈ g.slots → Unravel.Tails P b.instrs := by
  constructor
  · intro tails b listed
    obtain ⟨id, slot⟩ := List.getElem?_of_mem listed
    exact tails id b (block?_eq_some.mpr slot)
  · exact fun tails id b live => tails b (block?_mem live)

instance [DecidablePred P] : Decidable (g.Tails P) :=
  have read : (∀ slot ∈ g.slots, ∀ b ∈ slot, Unravel.Tails P b.instrs) ↔ g.Tails P :=
    ⟨fun all => tails_iff_slots.mpr fun b listed => all (some b) listed b rfl,
      fun tails _ listed b same => tails_iff_slots.mp tails b (same ▸ listed)⟩
  decidable_of_iff _ read

namespace Tails

theorem mono (tails : g.Tails P) (weaker : ∀ i, P i → Q i) : g.Tails Q :=
  fun id b live => (tails id b live).mono weaker

theorem modify (tails : g.Tails P)
    (made : ∀ b, g.block? id = some b → Unravel.Tails P (f b).instrs) :
    (g.modify id f).Tails P := by
  intro other b live
  rw [block?_modify] at live
  split at live
  · rename_i same
    subst same
    obtain ⟨d, was, rfl⟩ := Option.map_eq_some_iff.mp live
    exact made d was
  · exact tails other b live

theorem setLast (tails : g.Tails Instr.TakesTail) {b d : Block} (live : g.block? id = some b)
    (found : g.block? id = some d) (ends : d.terminator? ≠ none) {f : Instr → Instr}
    (other : ∀ i, (f i).opcode ≠ .tail) :
    Unravel.Tails Instr.TakesTail (b.setLast f).instrs := by
  cases live.symm.trans found
  have filled : b.instrs ≠ [] := by
    rintro empty
    simp [Block.terminator?, empty] at ends
  obtain ⟨front, last, code⟩ := Block.exists_last filled
  rw [Block.setLast_instrs code]
  have terminal : last.isTerminal = true := by
    simpa [Block.terminator?, code] using ends
  have held := tails id b live
  rw [code] at held
  refine held.setLast ?_ (other last)
  rintro (op | op | op) <;>
    simp [Instr.isTerminal, Instr.flow, op, Opcode.flow, Flow.endsBlock] at terminal

theorem redirect (tails : g.Tails Instr.TakesTail) (done : g.redirect id target = .ok g') :
    g'.Tails Instr.TakesTail := by
  obtain ⟨destination, d, -, found, ends, rfl⟩ := redirect_ok done
  exact tails.modify fun b live => tails.setLast live found ends fun i => by simp [jumpInstr]

theorem dropTerminator (tails : g.Tails Instr.TakesTail) (done : g.dropTerminator id = .ok g') :
    g'.Tails Instr.TakesTail := by
  obtain ⟨d, found, -, ends, rfl⟩ := dropTerminator_ok done
  exact tails.modify fun b live => tails.setLast live found ends fun i => by simp [Instr.erase]

end Tails
end Graph

namespace Fold
variable {g : Graph} {id : BlockId} {b : Block} {pinned : List Nat} {extra : Bool} {final : State}
  {decision : Option (Option BlockId)}

theorem foldInstr_tail (n : Nat) (folded : (foldInstr final n i).opcode = .tail) :
    i.opcode = .tail := by
  rcases foldInstr_cases final n i with same | same | ⟨c, same⟩
  · rwa [same] at folded
  · rw [same] at folded
    cases folded
  · rw [same] at folded
    rcases load_opcode c with op | op | op | ⟨k, op⟩ <;> simp [op] at folded

theorem tails_foldCode (ran : simulate pinned extra b 0 b.instrs {} = (final, decision))
    (tails : Tails Instr.TakesTail b.instrs) : Tails Instr.TakesTail (foldCode final b).instrs := by
  intro n i here tail
  rw [foldCode, List.getElem?_mapIdx] at here
  obtain ⟨old, was, rfl⟩ := Option.map_eq_some_iff.mp here
  obtain ⟨call, next, calls⟩ := tails n old was (foldInstr_tail n tail)
  refine ⟨call, ?_, calls⟩
  have blind : call.opcode.makes = false := by
    rcases calls with op | op | op <;> rw [op] <;> rfl
  rw [foldCode, List.getElem?_mapIdx, next, Option.map_some, foldInstr_of_not_makes ran next blind]
  exact Option.mem_some_self call

theorem tails_foldBlock (tails : g.Tails Instr.TakesTail) (live : g.block? id = some b) :
    (foldBlock pinned extra g id b).1.Tails Instr.TakesTail := by
  rcases ran : simulate pinned extra b 0 b.instrs {} with ⟨final, decision⟩
  have folded : (g.modify id (foldCode final)).Tails Instr.TakesTail := by
    refine tails.modify fun d found => ?_
    cases live.symm.trans found
    exact tails_foldCode ran (tails id b live)
  rcases foldBlock_graph g id ran with same | ⟨target, done⟩ | ⟨-, done⟩
  · rwa [same]
  · exact folded.redirect done
  · exact folded.dropTerminator done

end Fold

namespace Inline
variable {ctx : PassContext} {g : Graph} {id : BlockId} {b : Block} {fresh : InstrId}
  {call : Instr}

def expansion? (ctx : PassContext) (i : Instr) : Option (List Instr) :=
  (callee? i).bind (splice? ctx depthLimit [])

def becomes (ctx : PassContext) (i : Instr) : Instr :=
  match expansion? ctx i with
  | none => i
  | some [] => i.erase
  | some (first :: _) => { i with opcode := first.opcode, operand := first.operand }

theorem expansion?_call (expands : expansion? ctx i = some code) : i.opcode = .call := by
  obtain ⟨token, calls, -⟩ := Option.bind_eq_some_iff.mp expands
  unfold callee? at calls
  split at calls
  · assumption
  · cases calls

theorem expansion?_fit (expands : expansion? ctx i = some code) :
    ∀ j ∈ code, ∃ accepts, isSpliceable ctx accepts j = true := by
  obtain ⟨token, -, spliced⟩ := Option.bind_eq_some_iff.mp expands
  obtain ⟨callee, loads, -, forwards⟩ := splice?_some spliced
  exact forwards.fit

theorem opcode_of_isSpliceable {accepts : Token → Bool} (fine : isSpliceable ctx accepts i = true) :
    i.opcode ≠ .tail ∧ (i.TakesTail ↔ i.opcode = .call) := by
  unfold isSpliceable at fine
  split at fine
  · cases fine
  · cases op : i.opcode <;> simp_all [Instr.TakesTail, Opcode.acts]

theorem expansion?_no_tail (expands : expansion? ctx i = some code) :
    ∀ j ∈ expand fresh i code, j.opcode ≠ .tail := by
  intro j inside
  rcases mem_expand inside with rfl | ⟨k, among, same⟩
  · simp [Instr.erase]
  · obtain ⟨accepts, fine⟩ := expansion?_fit expands k among
    rw [same]
    exact (opcode_of_isSpliceable fine).1

theorem expandAll_expansion (ctx : PassContext) (fresh : InstrId) (i : Instr) (rest : List Instr) :
    (expansion? ctx i = none ∧
        (expandAll ctx fresh (i :: rest)).1 = i :: (expandAll ctx fresh rest).1) ∨
      ∃ code next, expansion? ctx i = some code ∧
        (expandAll ctx fresh (i :: rest)).1 =
          expand fresh i code ++ (expandAll ctx next rest).1 := by
  rcases expandAll_first ctx fresh i rest with ⟨stays, same⟩ | ⟨token, code, calls, spliced, same⟩
  · exact .inl ⟨Option.bind_eq_none_iff.mpr stays, by rw [same]⟩
  · exact .inr ⟨code, _, by rw [expansion?, calls, Option.bind_some, spliced], by rw [same]⟩

theorem head?_expandAll (ctx : PassContext) (fresh : InstrId) (code : List Instr) :
    (expandAll ctx fresh code).1.head? = code.head?.map (becomes ctx) := by
  cases code with
  | nil => rfl
  | cons i rest =>
    rcases expandAll_expansion ctx fresh i rest with ⟨stays, codes⟩ | ⟨code, next, expands, codes⟩
    · simp [codes, becomes, stays]
    · cases code <;> simp [codes, becomes, expands, expand]

theorem tails_expandAll (fresh : InstrId) (code : List Instr) :
    Tails P (expandAll ctx fresh code).1 ↔ Tails (fun j => P (becomes ctx j)) code := by
  induction code generalizing fresh with
  | nil => exact iff_of_true Tails.nil Tails.nil
  | cons i rest ih =>
    rcases expandAll_expansion ctx fresh i rest with ⟨stays, codes⟩ | ⟨code, next, expands, codes⟩
    · rw [codes, tails_cons, tails_cons, ih, head?_expandAll]
      simp
    · have plain : i.opcode ≠ .tail := by simp [expansion?_call expands]
      rw [codes, tails_append (expansion?_no_tail expands), ih, tails_cons_of_ne plain]

theorem takesTail_becomes (takes : i.TakesTail) :
    (becomes ctx i).TakesTail ↔ ∀ code, expansion? ctx i = some code →
      ∃ first ∈ code.head?, first.opcode = .call := by
  unfold becomes
  cases expands : expansion? ctx i with
  | none => simp [takes]
  | some code =>
    cases code with
    | nil => simp [Instr.TakesTail, Instr.erase]
    | cons first rest =>
      obtain ⟨accepts, fine⟩ := expansion?_fit expands first List.mem_cons_self
      simpa [Instr.TakesTail] using (opcode_of_isSpliceable fine).2

theorem runAll_block? (ctx : PassContext) {ids : List BlockId} (nodup : ids.Nodup)
    (live : g.block? id = some b) : ∃ fresh, (runAll ctx ids g).graph.block? id =
      some (if id ∈ ids then expandBlock ctx fresh b else b) := by
  induction ids generalizing g b with
  | nil => exact ⟨0, live⟩
  | cons place rest ih =>
    obtain ⟨new, nodup⟩ := List.nodup_cons.mp nodup
    rw [runAll]
    cases found : g.block? place with
    | none =>
      have other : id ≠ place := by
        rintro rfl
        cases found.symm.trans live
      simpa [other] using ih nodup live
    | some d =>
      have blocks := inlineBlock_block? ctx found id
      have ran : (inlineBlock ctx g place d).result =
          .ok (!(expandAll ctx g.nextInstr d.instrs).2.2.isEmpty) := rfl
      simp only [PassRun.andThen, ran]
      by_cases same : place = id
      · subst same
        cases found.symm.trans live
        obtain ⟨later, after⟩ := ih nodup (blocks.trans (if_pos rfl))
        rw [if_neg new] at after
        exact ⟨g.nextInstr, by simpa using after⟩
      · obtain ⟨fresh, after⟩ := ih nodup ((blocks.trans (if_neg same)).trans live)
        exact ⟨fresh, by simpa [Ne.symm same] using after⟩

theorem runAll_live {ids : List BlockId} (after : (runAll ctx ids g).graph.block? id = some b) :
    ∃ d, g.block? id = some d := by
  by_contra none
  have gone : g.block? id = .none := by simpa [Option.eq_none_iff_forall_ne_some] using none
  have still : (runAll ctx ids g).graph.block? id = .none := by
    refine runAll_keeps (P := fun g => g.block? id = .none) ?_ ids gone
    intro g place d gone live
    rw [inlineBlock_block? ctx live, gone]
    split
    · rename_i same
      subst same
      cases live.symm.trans gone
    · rfl
  cases still.symm.trans after

theorem tails_runAll (nodup : g.layout.Nodup) (held : g.Tails Instr.TakesTail) :
    (runAll ctx g.layout g).graph.Tails Instr.TakesTail ↔
      ∀ id ∈ g.layout, ∀ b, g.block? id = some b →
        Tails (fun j => (becomes ctx j).TakesTail) b.instrs := by
  constructor
  · intro tails id listed b live
    obtain ⟨fresh, after⟩ := runAll_block? ctx nodup live
    rw [if_pos listed] at after
    exact (tails_expandAll fresh b.instrs).mp (tails id _ after)
  · intro each id b' after
    obtain ⟨b, live⟩ := runAll_live after
    obtain ⟨fresh, same⟩ := runAll_block? ctx nodup live
    cases after.symm.trans same
    split
    · rename_i listed
      exact (tails_expandAll fresh b.instrs).mpr (each id listed b live)
    · exact held id b live

theorem tails_inlineBlock
    (tails : g.Tails fun j => j.TakesTail ∧ expansion? ctx j = none) (live : g.block? id = some b) :
    (inlineBlock ctx g id b).graph.Tails fun j => j.TakesTail ∧ expansion? ctx j = none := by
  intro other b' after
  rw [inlineBlock_block? ctx live] at after
  split at after
  · cases after
    refine (tails_expandAll g.nextInstr b.instrs).mpr ((tails id b live).mono ?_)
    rintro j ⟨takes, stays⟩
    have same : becomes ctx j = j := by rw [becomes, stays]
    rw [same]
    exact ⟨takes, stays⟩
  · exact tails other b' after

end Inline

/-- Each tail prefix stands in front of a call after folding, if it did before. After inlining it
    does if no such call is expanded. If the layout lists no block twice, it does just where each
    such call that is expanded is replaced by code that starts with a call. -/
theorem passes_hold_tails {g : Graph} (held : g.Tails Instr.TakesTail) (round : Nat)
    (ctx : PassContext) :
    (Fold.pass.run round ctx g).graph.Tails Instr.TakesTail ∧
    ((g.Tails fun call => Inline.expansion? ctx call = none) →
      (Inline.pass.run round ctx g).graph.Tails Instr.TakesTail) ∧
    (g.layout.Nodup →
      ((Inline.pass.run round ctx g).graph.Tails Instr.TakesTail ↔
        ∀ id ∈ g.layout, ∀ b, g.block? id = some b →
          Tails (fun call => ∀ code, Inline.expansion? ctx call = some code →
            ∃ first ∈ code.head?, first.opcode = .call) b.instrs)) := by
  refine ⟨Fold.runAll_keeps Fold.tails_foldBlock g.layout held, fun stay => ?_, fun nodup => ?_⟩
  · have both : g.Tails fun call => call.TakesTail ∧ Inline.expansion? ctx call = none :=
      fun id b live => (held id b live).and (stay id b live)
    exact (Inline.runAll_keeps Inline.tails_inlineBlock g.layout both).mono fun _ => And.left
  · refine (Inline.tails_runAll nodup held).trans ?_
    refine forall₂_congr fun id listed => forall₂_congr fun b live => ?_
    constructor <;> intro tails
    · refine ((held id b live).and tails).mono ?_
      rintro call ⟨takes, still⟩
      exact (Inline.takesTail_becomes takes).mp still
    · refine ((held id b live).and tails).mono ?_
      rintro call ⟨takes, starts⟩
      exact (Inline.takesTail_becomes takes).mpr starts

def relay : Method where
  token := .methodDef 4
  returnType := "System.Int32"
  params := 2
  body := some { instrs := [⟨0, .ldarg .short, .argument 0, 0⟩, ⟨1, .ldarg .short, .argument 1, 2⟩,
    ⟨2, .call, .method Inline.adder.ref, 4⟩, ⟨3, .ret, .none, 9⟩] }

def tailSum (callee : MethodRef) : Graph where
  slots := [some ⟨0, [⟨0, .ldcI4S, .immediate (.int8 1#8), 0⟩,
    ⟨1, .ldcI4S, .immediate (.int8 4#8), 2⟩, ⟨2, .ldcI4S, .immediate (.int8 5#8), 4⟩,
    ⟨3, .binary .add, .none, 6⟩, ⟨4, .tail, .none, 7⟩, ⟨5, .call, .method callee, 9⟩,
    ⟨6, .ret, .none, 14⟩], [], none⟩]
  layout := [0]
  regions := []
  entry := 0
  nextInstr := 7
  locals := 0
  maxStack := 3

def tailContext (methods : List Method) : PassContext where
  method := {}
  methods := .ofList methods
  config := {}

/-- The tail call of the relay becomes one of the adder, or stays one of the relay where that is not
    found. -/
theorem tailSum_holds_tails :
    (tailSum relay.ref).Tails Instr.TakesTail ∧
    (Fold.pass.run 0 (tailContext [Inline.adder, relay]) (tailSum relay.ref)).graph.Tails
      Instr.TakesTail ∧
    (Inline.pass.run 0 (tailContext [Inline.adder]) (tailSum relay.ref)).graph.Tails
      Instr.TakesTail ∧
    (Inline.pass.run 0 (tailContext [Inline.adder, relay]) (tailSum relay.ref)).graph.Tails
      Instr.TakesTail ∧
    (Inline.pass.run 0 (tailContext [Inline.adder, relay]) (tailSum relay.ref)).result =
      .ok true := by
  have held : (tailSum relay.ref).Tails Instr.TakesTail := by decide
  obtain ⟨folded, -, inlined⟩ :=
    passes_hold_tails held 0 (tailContext [Inline.adder, relay])
  obtain ⟨-, stays, -⟩ := passes_hold_tails held 0 (tailContext [Inline.adder])
  refine ⟨held, folded, stays (by decide), (inlined (by decide)).mpr ?_, by decide⟩
  intro id listed b live
  obtain rfl := List.mem_singleton.mp listed
  cases live
  decide

/-- The tail call of the adder becomes its sum, with the prefix left in front of it. -/
theorem tailSum_loses_tail :
    (tailSum Inline.adder.ref).Tails Instr.TakesTail ∧
    ¬ (Inline.pass.run 0 (tailContext [Inline.adder]) (tailSum Inline.adder.ref)).graph.Tails
      Instr.TakesTail := by
  decide

end Unravel
