import Unravel.Proofs.Graph.Survival

/-!
Edits in place. Here an edit is a program that checks and writes one after the other, and an error
keeps what was written before it. These programs end as the edits do, so an edit that fails has
written nothing: all checks come first, except that a block is split before its place in the layout
is looked up. That look-up does not fail, since exactly the live blocks are laid out.
-/
namespace Unravel

abbrev InPlace := EStateM Error Graph

namespace InPlace

def require (holds : Bool) (fault : GraphFault) : InPlace Unit :=
  if holds then pure () else throw (.graph fault)

def seek (id : BlockId) (fault : GraphFault) : InPlace Block := do
  match (← get).block? id with
  | some b => return b
  | none => throw (.graph fault)

def write (id : BlockId) (f : Block → Block) : InPlace Unit := modify fun g => g.modify id f

def writeLast (id : BlockId) (f : Instr → Instr) : InPlace Unit := write id fun b => b.setLast f

def redirect (id target : BlockId) : InPlace Unit := do
  let destination ← seek target (.targetNotLive target)
  let block ← seek id (.notLive id)
  require block.terminator?.isSome (.noTerminator id)
  writeLast id fun i => { i with opcode := .br .long }
  writeLast id fun i => { i with
    operand := match destination.firstId? with
      | some first => .target first
      | none => i.operand }
  write id fun b => { b with targets := [target] }
  write id fun b => { b with fall := none }

def dropTerminator (id : BlockId) : InPlace Unit := do
  let block ← seek id (.notLive id)
  require block.fall.isSome (.noFallThrough id)
  require block.terminator?.isSome (.noTerminator id)
  writeLast id fun i => { i with opcode := .nop }
  writeLast id fun i => { i with operand := .none }
  write id fun b => { b with targets := [] }

def split (id : BlockId) (index : Nat) : InPlace BlockId := do
  let tail := (← get).slots.length
  let block ← seek id (.notLive id)
  require (0 < index && index < block.instrs.length) (.badSplit id index block.instrs.length)
  write id fun b => { b with instrs := b.instrs.take index }
  write id fun b => { b with targets := [] }
  write id fun b => { b with fall := some tail }
  modify fun g => { g with slots := g.slots ++ [some (Graph.tailOf block index tail)] }
  require ((← get).layout.contains id) (.notLaidOut id)
  modify fun g => { g with layout := Region.insertAfter id tail g.layout }
  modify fun g => { g with regions := g.regions.map fun r => r.inherit id tail }
  return tail

def empty : List BlockId → InPlace Nat
  | [] => return 0
  | id :: rest => do
    let live := (← get).contains id
    modify fun g => { g with slots := g.slots.set id none }
    let more ← empty rest
    return live.toNat + more

def noEdgeInto (removed : List BlockId) : InPlace Unit := do
  match (← get).danglingEdge? removed with
  | some (block, gone) => throw (.graph (.stillReaches block gone))
  | none => return

def remove (removed : List BlockId) : InPlace Nat := do
  require (!removed.contains (← get).entry) .entryRemoved
  noEdgeInto removed
  let count ← empty removed
  modify fun g => { g with layout := g.layout.filter fun id => !removed.contains id }
  modify fun g => { g with
    regions := (g.regions.filter fun r => r.survives removed).map fun r => r.without removed }
  modify fun g => { g with slots := g.slots.map (Option.map (Graph.pruneEdges removed)) }
  return count

def repartition : InPlace Unit := do
  let body ← ofExcept (← get).toBody
  set (← ofExcept body.toGraph)

end InPlace

def Graph.ended {α : Type} (g : Graph) : Except Error (α × Graph) → EStateM.Result Error Graph α
  | .ok (a, g') => .ok a g'
  | .error e => .error e g

theorem Graph.modify_modify (g : Graph) (id : BlockId) (f f' : Block → Block) :
    (g.modify id f).modify id f' = g.modify id (f' ∘ f) := by
  have slots : (g.slots.modify id (Option.map f)).modify id (Option.map f') =
      g.slots.modify id (Option.map (f' ∘ f)) := by
    rw [List.modify_modify_eq, Option.map_comp_map]
  simp only [Graph.modify, slots]

theorem Block.setLast_setLast (b : Block) (f f' : Instr → Instr) :
    (b.setLast f).setLast f' = b.setLast (f' ∘ f) := by
  cases last : b.instrs.getLast? with
  | none => simp [setLast, List.getLast?_eq_none_iff.mp last]
  | some i => simp [setLast, last]

namespace InPlace
variable {α β : Type} {x : InPlace α} {k : α → InPlace β} {g g' : Graph} {e : Error}

theorem bind_ok {a : α} (done : x.run g = .ok a g') : (x >>= k).run g = (k a).run g' := by
  simp only [EStateM.run, bind, EStateM.bind] at done ⊢
  rw [done]

theorem bind_error (failed : x.run g = .error e g') : (x >>= k).run g = .error e g' := by
  simp only [EStateM.run, bind, EStateM.bind] at failed ⊢
  rw [failed]

theorem get_bind (k : Graph → InPlace β) (g : Graph) : (get >>= k).run g = (k g).run g := rfl

theorem modify_bind (f : Graph → Graph) (k : Unit → InPlace β) (g : Graph) :
    ((modify f : InPlace Unit) >>= k).run g = (k ()).run (f g) := rfl

theorem write_bind (id : BlockId) (f : Block → Block) (k : Unit → InPlace β) (g : Graph) :
    (write id f >>= k).run g = (k ()).run (g.modify id f) := rfl

theorem seek_some {id : BlockId} {b : Block} (live : g.block? id = some b) (fault : GraphFault) :
    (seek id fault).run g = .ok b g := by
  rw [seek, get_bind, live]
  rfl

theorem seek_none {id : BlockId} (dead : g.block? id = none) (fault : GraphFault) :
    (seek id fault).run g = .error (.graph fault) g := by
  rw [seek, get_bind, dead]
  rfl

theorem require_true {holds : Bool} (passed : holds = true) (fault : GraphFault) :
    (require holds fault).run g = .ok () g := by
  rw [require, passed]
  rfl

theorem require_false {holds : Bool} (missed : holds = false) (fault : GraphFault) :
    (require holds fault).run g = .error (.graph fault) g := by
  rw [require, missed]
  rfl

theorem writeLast_writeLast_bind (id : BlockId) (f f' : Instr → Instr) (k : Unit → InPlace β)
    (g : Graph) : (writeLast id f >>= fun _ => writeLast id f' >>= k).run g =
      (k ()).run (g.modify id fun b => b.setLast (f' ∘ f)) := by
  simp only [writeLast, write_bind, Graph.modify_modify]
  exact congrArg (fun h => (k ()).run (g.modify id h)) (funext fun b => b.setLast_setLast f f')

theorem ofExcept_ok (a : α) (g : Graph) : (ofExcept (.ok a) : InPlace α).run g = .ok a g := rfl

theorem redirect_eq (g : Graph) (id target : BlockId) :
    (redirect id target).run g = g.ended ((g.redirect id target).map ((), ·)) := by
  unfold redirect Graph.redirect
  cases goal : g.block? target with
  | none => exact bind_error (seek_none goal _)
  | some destination =>
    rw [bind_ok (seek_some goal _), Graph.seek]
    cases live : g.block? id with
    | none => exact bind_error (seek_none live _)
    | some block =>
      rw [bind_ok (seek_some live _)]
      conv_rhs => simp only [bind, Except.bind]
      cases ends : block.terminator? with
      | none => exact bind_error (require_false rfl _)
      | some i =>
        rw [bind_ok (require_true Option.isSome_some _)]
        rw [writeLast_writeLast_bind, write_bind, Graph.modify_modify]
        exact congrArg (EStateM.Result.ok ()) (Graph.modify_modify ..)

theorem dropTerminator_eq (g : Graph) (id : BlockId) :
    (dropTerminator id).run g = g.ended ((g.dropTerminator id).map ((), ·)) := by
  unfold dropTerminator Graph.dropTerminator
  rw [Graph.seek]
  cases live : g.block? id with
  | none => exact bind_error (seek_none live _)
  | some block =>
    rw [bind_ok (seek_some live _)]
    conv_rhs => simp only [bind, Except.bind]
    cases falls : block.fall with
    | none => exact bind_error (require_false rfl _)
    | some onward =>
      rw [bind_ok (require_true Option.isSome_some _)]
      cases ends : block.terminator? with
      | none => exact bind_error (require_false rfl _)
      | some i =>
        rw [bind_ok (require_true Option.isSome_some _)]
        rw [writeLast_writeLast_bind]
        exact congrArg (EStateM.Result.ok ()) (Graph.modify_modify ..)

theorem split_eq (g : Graph) (id : BlockId) (index : Nat) :
    (split id index).run g = match g.split id index with
      | (g', .ok tail) => .ok tail g'
      | (g', .error e) => .error e g' := by
  unfold split Graph.split
  rw [get_bind]
  cases live : g.block? id with
  | none => exact bind_error (seek_none live _)
  | some block =>
    rw [bind_ok (seek_some live _)]
    dsimp only
    by_cases outside : index = 0 ∨ block.instrs.length ≤ index
    · rw [if_pos outside]
      exact bind_error (require_false (by grind) _)
    · rw [if_neg outside, bind_ok (require_true (by grind) _)]
      simp only [write_bind, modify_bind, Graph.modify_modify, get_bind]
      by_cases laid : g.layout.contains id = true
      · rw [if_pos laid]
        exact bind_ok (require_true laid _)
      · rw [if_neg laid]
        have missing : g.layout.contains id = false := by simpa using laid
        exact bind_error (require_false missing _)

theorem repartition_eq (g : Graph) :
    repartition.run g = g.ended (g.repartition.map ((), ·)) := by
  unfold repartition Graph.repartition
  rw [get_bind]
  conv_rhs => simp only [bind, Except.bind]
  cases g.toBody with
  | error e => rfl
  | ok body =>
    dsimp only
    cases cut : body.toGraph with
    | error e =>
      rw [bind_ok (ofExcept_ok body g), cut]
      rfl
    | ok g' =>
      rw [bind_ok (ofExcept_ok body g), cut]
      rfl

def countLive (slots : List (Option Block)) (removed : List BlockId) : Nat :=
  slots.zipIdx.countP fun (slot, id) => slot.isSome && removed.contains id

theorem zipIdx_set (slots : List (Option Block)) (id : BlockId) (slot : Option Block) :
    (slots.set id slot).zipIdx = slots.zipIdx.set id (slot, id) := by
  refine List.ext_getElem? fun n => ?_
  simp only [List.getElem?_zipIdx, List.getElem?_set, List.length_zipIdx]
  grind

theorem countLive_cons (slots : List (Option Block)) (id : BlockId) (rest : List BlockId) :
    countLive slots (id :: rest) =
      (slots[id]?.join.isSome).toNat + countLive (slots.set id none) rest := by
  have same : countLive (slots.set id none) rest = (slots.zipIdx.set id (none, id)).countP
      fun p => p.1.isSome && (id :: rest).contains p.2 := by
    rw [countLive, zipIdx_set]
    refine List.countP_congr fun p among => ?_
    rw [← zipIdx_set, List.mem_zipIdx_iff_getElem?] at among
    -- the emptied slot does not count, whether or not it is named
    by_cases here : p.2 = id <;> grind
  rw [same, countLive]
  by_cases inside : id < slots.length
  · rw [List.countP_set (by simpa using inside)]
    have slot : slots.zipIdx[id]? = some (slots[id], id) := by simp [inside]
    have counted : slots[id].isSome = true → 0 < slots.zipIdx.countP
        fun p => p.1.isSome && (id :: rest).contains p.2 := by
      intro live
      exact List.countP_pos_iff.mpr ⟨_, List.mem_of_getElem? slot, by simp [live]⟩
    have named : (id :: rest).contains (0 + id) = true := by simp
    simp only [List.getElem?_eq_getElem inside, Option.join_some, List.getElem_zipIdx, named,
      Option.isSome_none, Bool.false_and, Bool.and_true, Bool.false_eq_true, if_false]
    cases live : slots[id].isSome with
    | false =>
      simp only [Bool.toNat_false, Bool.false_eq_true, if_false]
      omega
    | true =>
      have positive := counted live
      simp only [Bool.toNat_true, if_true]
      omega
  · have outside : slots.length ≤ id := Nat.not_lt.mp inside
    rw [List.set_eq_of_length_le (by simpa using outside), List.getElem?_eq_none outside]
    simp

def emptied (slots : List (Option Block)) (removed : List BlockId) : List (Option Block) :=
  slots.mapIdx fun id slot => if removed.contains id then none else slot

theorem emptied_nil (slots : List (Option Block)) : emptied slots [] = slots := by
  refine List.ext_getElem? fun n => ?_
  simp [emptied, List.getElem?_mapIdx]

theorem emptied_cons (slots : List (Option Block)) (id : BlockId) (rest : List BlockId) :
    emptied slots (id :: rest) = emptied (slots.set id none) rest := by
  refine List.ext_getElem? fun n => ?_
  simp only [emptied, List.getElem?_mapIdx, List.getElem?_set]
  grind

theorem prune_emptied (slots : List (Option Block)) (removed : List BlockId) :
    (emptied slots removed).map (Option.map (Graph.pruneEdges removed)) =
      slots.mapIdx fun id slot =>
        if removed.contains id then none else slot.map (Graph.pruneEdges removed) := by
  refine List.ext_getElem? fun n => ?_
  simp only [emptied, List.getElem?_map, List.getElem?_mapIdx]
  cases slots[n]? <;> grind

theorem empty_eq (removed : List BlockId) (g : Graph) :
    (empty removed).run g =
      .ok (countLive g.slots removed) { g with slots := emptied g.slots removed } := by
  induction removed generalizing g with
  | nil =>
    have none : countLive g.slots [] = 0 := by simp [countLive]
    rw [none, emptied_nil]
    rfl
  | cons id rest ih =>
    rw [empty, get_bind, modify_bind, bind_ok (ih _), countLive_cons, emptied_cons]
    rfl

theorem remove_eq (g : Graph) (removed : List BlockId) :
    (remove removed).run g = g.ended (g.remove removed) := by
  unfold remove Graph.remove
  rw [get_bind]
  by_cases entry : removed.contains g.entry = true
  · rw [if_pos entry]
    exact bind_error (require_false (by simpa using entry) _)
  · rw [if_neg entry, bind_ok (require_true (by simpa using entry) _)]
    cases dangling : g.danglingEdge? removed with
    | some edge =>
      have failed : (noEdgeInto removed).run g =
          .error (.graph (.stillReaches edge.1 edge.2)) g := by
        rw [noEdgeInto, get_bind, dangling]
        rfl
      exact bind_error failed
    | none =>
      have passed : (noEdgeInto removed).run g = .ok () g := by
        rw [noEdgeInto, get_bind, dangling]
        rfl
      rw [bind_ok passed, bind_ok (empty_eq removed g)]
      simp only [modify_bind]
      rw [← prune_emptied]
      rfl

end InPlace

namespace Graph

inductive Call
  | redirect (id target : BlockId)
  | dropTerminator (id : BlockId)
  | split (id : BlockId) (index : Nat)
  | remove (removed : List BlockId)
  | repartition

namespace Call
variable {g : Graph} {e : Error}

def inPlace : Call → InPlace Unit
  | redirect id target => InPlace.redirect id target
  | dropTerminator id => InPlace.dropTerminator id
  | split id index => InPlace.split id index >>= fun _ => pure ()
  | remove removed => InPlace.remove removed >>= fun _ => pure ()
  | repartition => InPlace.repartition

def edit : Call → Edit
  | redirect id target => .redirect id target
  | dropTerminator id => .dropTerminator id
  | split id index => .split id index
  | remove removed => .remove removed
  | repartition => .repartition

def ends (g : Graph) : Call → Except Error Unit
  | redirect id target => (g.redirect id target).map fun _ => ()
  | dropTerminator id => (g.dropTerminator id).map fun _ => ()
  | split id index => (g.split id index).2.map fun _ => ()
  | remove removed => (g.remove removed).map fun _ => ()
  | repartition => g.repartition.map fun _ => ()

def finish (g : Graph) : Except Error Unit → EStateM.Result Error Graph Unit
  | .ok _ => .ok () g
  | .error e => .error e g

theorem finish_error {ended : Except Error Unit} {after : Graph}
    (failed : finish g ended = .error e after) : ended = .error e ∧ g = after := by
  cases ended with
  | ok done => cases failed
  | error e =>
    cases failed
    exact ⟨rfl, rfl⟩

theorem inPlace_eq (call : Call) (g : Graph) :
    call.inPlace.run g = finish (call.edit.apply g) (call.ends g) := by
  cases call with
  | redirect id target =>
    refine (InPlace.redirect_eq g id target).trans ?_
    rw [edit, Edit.apply, ends]
    cases g.redirect id target <;> rfl
  | dropTerminator id =>
    refine (InPlace.dropTerminator_eq g id).trans ?_
    rw [edit, Edit.apply, ends]
    cases g.dropTerminator id <;> rfl
  | split id index =>
    have ended := InPlace.split_eq g id index
    rw [inPlace, edit, Edit.apply, ends]
    generalize g.split id index = made at ended ⊢
    obtain ⟨g', e | tail⟩ := made
    · exact InPlace.bind_error ended
    · exact InPlace.bind_ok ended
  | remove removed =>
    have ended := InPlace.remove_eq g removed
    rw [inPlace, edit, Edit.apply, ends]
    generalize g.remove removed = made at ended ⊢
    obtain e | result := made
    · exact InPlace.bind_error ended
    · exact InPlace.bind_ok ended
  | repartition =>
    refine (InPlace.repartition_eq g).trans ?_
    rw [edit, Edit.apply, ends]
    cases g.repartition <;> rfl

theorem split_failed (l : g.Laid) {id : BlockId} {index : Nat}
    (failed : (g.split id index).2 = .error e) : (g.split id index).1 = g := by
  unfold Graph.split at failed ⊢
  cases live : g.block? id with
  | none => rfl
  | some b =>
    rw [live] at failed
    dsimp only at failed ⊢
    split
    · rfl
    · rename_i inside
      have laid : g.layout.contains id = true := by simpa using l.listed_of_live live
      rw [if_neg inside, if_pos laid] at failed
      cases failed

theorem map_eq_error {α β : Type} {f : α → β} {result : Except Error α}
    (failed : result.map f = .error e) : result = .error e := by
  cases result with
  | ok a => cases failed
  | error e =>
    cases failed
    rfl

theorem apply_of_failed (l : g.Laid) (call : Call) (failed : call.ends g = .error e) :
    call.edit.apply g = g := by
  cases call with
  | split id index => exact split_failed l (map_eq_error failed)
  | _ =>
    have failed := map_eq_error failed
    simp only [edit, Edit.apply, failed]
    rfl

end Call

/-- A call that fails leaves the graph exactly as it was, whatever was done to the graph before. -/
theorem failed_call_changes_nothing {body : Body} {g : Graph} (cut : body.toGraph = .ok g)
    (edits : List Edit) (call : Call) :
    call.inPlace.run (g.applyAll edits) =
        Call.finish (g.applyAll (edits ++ [call.edit])) (call.ends (g.applyAll edits)) ∧
      ∀ e after, call.inPlace.run (g.applyAll edits) = .error e after →
        after = g.applyAll edits := by
  have laid := (Body.toGraph_laid cut).afterAll edits
  have ended := call.inPlace_eq (g.applyAll edits)
  refine ⟨?_, fun e after ran => ?_⟩
  · rw [ended, applyAll, applyAll, List.foldl_append]
    rfl
  · obtain ⟨failed, rfl⟩ := Call.finish_error (ended.symm.trans ran)
    exact call.apply_of_failed laid failed

/-- The test is split off and erased, but the leave behind it still leads to the end. -/
theorem guardedTest_end_kept :
    ∃ g, guardedTest.toGraph = .ok g ∧
      (Call.remove [3]).inPlace.run (g.applyAll [.split 0 1, .dropTerminator 4, .removeDead]) =
        .error (.graph (.stillReaches 1 3))
          (g.applyAll [.split 0 1, .dropTerminator 4, .removeDead]) := by
  refine ⟨_, rfl, ?_⟩
  obtain ⟨ends, kept⟩ := @failed_call_changes_nothing guardedTest _ rfl
    [.split 0 1, .dropTerminator 4, .removeDead] (.remove [3])
  have ran : (Call.remove [3]).inPlace.run _ = .error (.graph (.stillReaches 1 3)) _ :=
    ends.trans rfl
  exact ran.trans (congrArg (EStateM.Result.error _) (kept _ _ ran))

def unlisted : Graph where
  slots := [some { id := 0, instrs := [⟨0, .nop, .none, 0⟩, ⟨1, .ret, .none, 0⟩] }]
  layout := []
  regions := []
  entry := 0
  nextInstr := 2
  locals := 0
  maxStack := 0

/-- There a split fails with the block already cut. -/
example : ∃ after, (InPlace.split 0 1).run unlisted = .error (.graph (.notLaidOut 0)) after ∧
    after ≠ unlisted := ⟨_, rfl, by decide⟩

end Graph
end Unravel
