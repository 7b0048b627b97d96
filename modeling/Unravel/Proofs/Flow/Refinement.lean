import Unravel.Opcode.Forms
import Unravel.Proofs.Graph.Complete

/-!
A written body walks as its graph does. Inside a graph the operands of jumps are not looked at; they
are made anew from the edges, and jumps are added where a block does not stand in front of the one
it falls to. Apart from these added jumps the body visits the same instructions in the same order,
whichever way every branch goes.
-/
namespace Unravel

def Graph.isAdded (g : Graph) (i : Instr) : Bool :=
  (match i.opcode with
    | .br _ => true
    | _ => false) && decide (g.nextInstr ≤ i.id)

namespace Graph.Written
variable {g : Graph} {id : BlockId} {b : Block} {written : List Piece} {last : Nat} {body : Body}

def Related (g : Graph) (written : List Piece) (s : BlockId × Nat) (n : Nat) : Prop :=
  ∃ b start, g.block? s.1 = some b ∧ s.2 < b.instrs.length ∧ Begins written s.1 start ∧
    n = start + s.2

theorem related_begin (c : g.Consistent) {t : BlockId} {n : Nat} (live : g.contains t = true)
    (begins : Begins written t n) : Related g written (t, 0) n := by
  obtain ⟨b, live⟩ := contains_iff.mp live
  exact ⟨b, n, live, List.length_pos_of_ne_nil (c.filled live), begins, rfl⟩

theorem mark_of_plain {i x : Instr} {offset : Nat} (same : x = { i with offset }) :
    x.mark = i.mark := by
  rw [same]
  rfl

theorem mark_of_jump {i x : Instr} (jump : i.isJump = true) (id : x.id = i.id)
    (opcode : x.opcode = i.opcode) : x.mark = i.mark := by
  have jump' : x.isJump = true := by rwa [Instr.isJump, Instr.flow, opcode]
  simp only [Instr.mark, id, opcode, jump, jump', if_true]

theorem passes_onward (w : Written g written last body) (c : g.Consistent)
    (live : g.block? id = some b) {start n : Nat} (begins : Begins written id start)
    {t : BlockId} (falls : b.fall = some t)
    (open_ : b.kind = .fallThrough ∨ b.kind = .conditional ∨ b.kind = .switch)
    {ways rest : List Way}
    (next : body.walker.next? n ways = some (start + b.instrs.length, rest)) :
    ∃ n', body.walker.Passes g.isAdded n ways n' rest ∧ Related g written (t, 0) n' := by
  have there : g.contains t = true := c.closed live t (Block.fall_mem_successors falls open_)
  rcases w.behind c begins live falls open_ with
    direct | ⟨f, m, goal, offset, added, new, target, index⟩
  · exact ⟨_, .inl next, related_begin c there direct⟩
  · refine ⟨goal, .inr ⟨_, _, next, added, ?_, ?_⟩, related_begin c there target⟩
    · simpa [Graph.isAdded] using new
    · have jump : ({ id := f, opcode := .br .long, operand := .target m, offset } : Instr).targets =
          [m] := rfl
      simp only [Body.walker, added, Option.bind_some, Body.depart?, Instr.flow, Opcode.flow,
        Body.goal?, jump, List.getElem?_cons_zero, index, Option.map_some]

theorem next?_plain {n : Nat} {x : Instr} (here : body.instrs[n]? = some x)
    (plain : x.isTerminal = false) (ways : List Way) :
    body.walker.next? n ways = some (n + 1, ways) := by
  simp only [Body.walker, here, Option.bind_some, Body.depart?]
  revert plain
  rw [Instr.isTerminal]
  cases x.flow <;> simp [Flow.endsBlock]

/-- What stands at the end of a block shows the same and leads to the same blocks. -/
def EndsAlike (g : Graph) (written : List Piece) (body : Body) (b : Block) (i : Instr) (n : Nat) :
    Prop :=
  ∃ x, body.instrs[n]? = some x ∧ x.id = i.id ∧ x.mark = i.mark ∧ ∀ ways,
    (b.depart? ways = none ∧ body.walker.next? n ways = none) ∨
    ∃ t n' rest, b.depart? ways = some (t, rest) ∧
      body.walker.Passes g.isAdded n ways n' rest ∧ Related g written (t, 0) n'

section Last
variable {start j : Nat} {i : Instr}

theorem fallThrough_endsAlike (w : Written g written last body) (c : g.Consistent)
    (complete : g.Complete) (live : g.block? id = some b) (begins : Begins written id start)
    (here : b.instrs[j]? = some i) (final : j + 1 = b.instrs.length)
    (kind : b.kind = .fallThrough) : EndsAlike g written body b i (start + j) := by
  obtain ⟨offset, found⟩ := w.last_kept begins live here final (.inl kind)
  obtain ⟨t, falls⟩ := Option.ne_none_iff_exists'.mp ((complete live).fall (.inl kind))
  have plain : i.isTerminal = false := by
    rw [kind_of_last here final] at kind
    revert kind
    rw [Instr.isTerminal]
    cases i.flow <;> simp [BlockKind.ofFlow, Flow.endsBlock]
  refine ⟨_, found, rfl, mark_of_plain rfl, fun ways => ?_⟩
  have next := next?_plain found plain ways
  rw [Nat.add_assoc, final] at next
  obtain ⟨n', passes, related⟩ := w.passes_onward c live begins falls (.inl kind) next
  exact .inr ⟨t, n', ways, by simp [Block.depart?, kind, falls], passes, related⟩

theorem jump_endsAlike (w : Written g written last body) (c : g.Consistent)
    (live : g.block? id = some b) (begins : Begins written id start)
    (here : b.instrs[j]? = some i) (final : j + 1 = b.instrs.length)
    (kind : b.kind = .branch ∨ b.kind = .leave) : EndsAlike g written body b i (start + j) := by
  have jumps : b.kind = .branch ∨ b.kind = .leave ∨ b.kind = .conditional := by
    rcases kind with kind | kind <;> simp [kind]
  obtain ⟨t, m, goal, offset, head, there, index, found⟩ :=
    w.last_jump c begins live here final jumps
  have flow : i.flow = .unconditional ∨ i.flow = .leave := by
    rw [kind_of_last here final] at kind
    revert kind
    cases i.flow <;> simp [BlockKind.ofFlow]
  have jump : i.isJump = true := by
    rw [Instr.isJump]
    rcases flow with flow | flow <;> rw [flow] <;> rfl
  refine ⟨_, found, rfl, mark_of_jump jump rfl rfl, fun ways => ?_⟩
  have target := Instr.targets_of_jump jump m offset
  have live' : g.contains t = true := by
    refine c.closed live t ?_
    rcases kind with kind | kind <;> simp [Block.successors, kind, head]
  refine .inr ⟨t, goal, ways, ?_, .inl ?_, related_begin c live' there⟩
  · rcases kind with kind | kind <;> simp [Block.depart?, kind, head]
  · have flow' : ({ i with operand := .target m, offset } : Instr).flow = i.flow := rfl
    rcases flow with flow | flow <;>
    simp [Body.walker, found, Body.depart?, flow', flow, Body.goal?, target, index]

theorem conditional_endsAlike (w : Written g written last body) (c : g.Consistent)
    (complete : g.Complete) (live : g.block? id = some b) (begins : Begins written id start)
    (here : b.instrs[j]? = some i) (final : j + 1 = b.instrs.length)
    (kind : b.kind = .conditional) : EndsAlike g written body b i (start + j) := by
  obtain ⟨t, m, goal, offset, head, there, index, found⟩ :=
    w.last_jump c begins live here final (.inr (.inr kind))
  obtain ⟨f, falls⟩ := Option.ne_none_iff_exists'.mp ((complete live).fall (.inr (.inl kind)))
  have flow : i.flow = .conditional := by
    have kind' := kind
    rw [kind_of_last here final] at kind'
    revert kind'
    cases i.flow <;> simp [BlockKind.ofFlow]
  have jump : i.isJump = true := by rw [Instr.isJump, flow]; rfl
  have flow' : ({ i with operand := .target m, offset } : Instr).flow = .conditional := flow
  have target := Instr.targets_of_jump jump m offset
  refine ⟨_, found, rfl, mark_of_jump jump rfl rfl, fun ways => ?_⟩
  cases ways with
  | nil =>
    exact .inl ⟨by simp [Block.depart?, kind], by simp [Body.walker, found, Body.depart?, flow']⟩
  | cons way rest =>
    cases way with
    | target n =>
      cases n with
      | zero =>
        have live' : g.contains t = true :=
          c.closed live t (by simp [Block.successors, kind, head])
        refine .inr ⟨t, goal, rest, by simp [Block.depart?, kind, head], .inl ?_,
          related_begin c live' there⟩
        simp [Body.walker, found, Body.depart?, flow', Body.goal?, target, index]
      | succ n =>
        exact .inl ⟨by simp [Block.depart?, kind],
          by simp [Body.walker, found, Body.depart?, flow']⟩
    | onward =>
      have next : body.walker.next? (start + j) (.onward :: rest) =
          some (start + b.instrs.length, rest) := by
        simp [Body.walker, found, Body.depart?, flow', ← final, Nat.add_assoc]
      obtain ⟨n', passes, related⟩ := w.passes_onward c live begins falls (.inr (.inl kind)) next
      exact .inr ⟨f, n', rest, by simp [Block.depart?, kind, falls], passes, related⟩

theorem switch_endsAlike (w : Written g written last body) (c : g.Consistent)
    (complete : g.Complete) (live : g.block? id = some b) (begins : Begins written id start)
    (here : b.instrs[j]? = some i) (final : j + 1 = b.instrs.length) (kind : b.kind = .switch) :
    EndsAlike g written body b i (start + j) := by
  obtain ⟨ms, offset, starts, found⟩ := w.last_switch c begins live here final kind
  obtain ⟨f, falls⟩ := Option.ne_none_iff_exists'.mp ((complete live).fall (.inr (.inr kind)))
  have flow : i.flow = .switch := by
    have kind' := kind
    rw [kind_of_last here final] at kind'
    revert kind'
    cases i.flow <;> simp [BlockKind.ofFlow]
  have jump : i.isJump = true := by rw [Instr.isJump, flow]; rfl
  have flow' : ({ i with operand := .switch ms, offset } : Instr).flow = .switch := flow
  have target : ({ i with operand := .switch ms, offset } : Instr).targets = ms := by
    have opcode : i.opcode = .switch := Opcode.eq_switch_of_flow flow
    simp [Instr.targets, opcode]
  refine ⟨_, found, rfl, mark_of_jump jump rfl rfl, fun ways => ?_⟩
  cases ways with
  | nil =>
    exact .inl ⟨by simp [Block.depart?, kind], by simp [Body.walker, found, Body.depart?, flow']⟩
  | cons way rest =>
    cases way with
    | target k =>
      by_cases inside : k < b.targets.length
      · have listed : b.targets[k]? = some b.targets[k] := List.getElem?_eq_getElem inside
        obtain ⟨m, named, goal, there, index⟩ := getElem?_of_forall₂ starts listed
        have live' : g.contains b.targets[k] = true :=
          c.closed live _ (by simp [Block.successors, kind])
        refine .inr ⟨b.targets[k], goal, rest, by simp [Block.depart?, kind, inside], .inl ?_,
          related_begin c live' there⟩
        simp [Body.walker, found, Body.depart?, flow', Body.goal?, target, named, index]
      · have outside : ms[k]? = none := by
          rw [List.getElem?_eq_none_iff, ← starts.length_eq]
          exact Nat.not_lt.mp inside
        refine .inl ⟨by simp [Block.depart?, kind, inside], ?_⟩
        simp [Body.walker, found, Body.depart?, flow', Body.goal?, target, outside]
    | onward =>
      have next : body.walker.next? (start + j) (.onward :: rest) =
          some (start + b.instrs.length, rest) := by
        simp [Body.walker, found, Body.depart?, flow', ← final, Nat.add_assoc]
      obtain ⟨n', passes, related⟩ := w.passes_onward c live begins falls (.inr (.inr kind)) next
      exact .inr ⟨f, n', rest, by simp [Block.depart?, kind, falls], passes, related⟩

theorem exit_endsAlike (w : Written g written last body) (live : g.block? id = some b)
    (begins : Begins written id start) (here : b.instrs[j]? = some i)
    (final : j + 1 = b.instrs.length) (kind : b.kind = .exit) :
    EndsAlike g written body b i (start + j) := by
  obtain ⟨offset, found⟩ := w.last_kept begins live here final (.inr kind)
  refine ⟨_, found, rfl, mark_of_plain rfl, fun ways => .inl ⟨by simp [Block.depart?, kind], ?_⟩⟩
  have flow' : ({ i with offset } : Instr).flow = i.flow := rfl
  rw [kind_of_last here final] at kind
  simp only [Body.walker, found, Option.bind_some, Body.depart?, flow']
  revert kind
  cases i.flow <;> simp [BlockKind.ofFlow]

theorem endsAlike (w : Written g written last body) (c : g.Consistent) (complete : g.Complete)
    (live : g.block? id = some b) (begins : Begins written id start)
    (here : b.instrs[j]? = some i) (final : j + 1 = b.instrs.length) :
    EndsAlike g written body b i (start + j) := by
  cases kind : b.kind with
  | fallThrough => exact w.fallThrough_endsAlike c complete live begins here final kind
  | branch => exact w.jump_endsAlike c live begins here final (.inl kind)
  | leave => exact w.jump_endsAlike c live begins here final (.inr kind)
  | conditional => exact w.conditional_endsAlike c complete live begins here final kind
  | switch => exact w.switch_endsAlike c complete live begins here final kind
  | exit => exact w.exit_endsAlike live begins here final kind

end Last

theorem follows (w : Written g written last body) (c : g.Consistent) (complete : g.Complete) :
    g.walker.Follows body.walker g.isAdded (Related g written) := by
  rintro ⟨id, j⟩ n ⟨b, start, live, inside, begins, rfl⟩
  obtain ⟨i, here⟩ : ∃ i, b.instrs[j]? = some i := ⟨_, List.getElem?_eq_getElem inside⟩
  have shows : g.walker.instr? (id, j) = some i := by
    simp only [walker, live, Option.bind_some, here]
  have loud : ∀ {x : Instr}, x.id = i.id → g.isAdded x = false := by
    intro x same
    have old := c.fresh live i.id (List.mem_map_of_mem (List.mem_of_getElem? here))
    simp only [isAdded, same, Bool.and_eq_false_iff, decide_eq_false_iff_not]
    exact .inr (Nat.not_le.mpr old)
  rcases Nat.lt_or_eq_of_le (Nat.succ_le_of_lt inside) with early | final
  · obtain ⟨offset, found⟩ := w.instr_early begins live here early
    refine ⟨i, _, shows, found, loud rfl, mark_of_plain rfl, ?_⟩
    intro ways
    have plain : i.isTerminal = false := by
      cases ends : i.isTerminal with
      | false => rfl
      | true =>
        have := c.last_of_terminal live here ends
        omega
    refine .inr
      ⟨(id, j + 1), start + (j + 1), ways, ?_, .inl ?_, b, start, live, early, begins, rfl⟩
    · simp only [walker, live, Option.bind_some]
      rw [if_pos early]
    · rw [← Nat.add_assoc]
      exact next?_plain found plain ways
  · obtain ⟨x, found, same, marks, goes⟩ := w.endsAlike c complete live begins here final
    refine ⟨i, x, shows, found, loud same, marks, ?_⟩
    intro ways
    have leaves : g.walker.next? (id, j) ways =
        (b.depart? ways).map fun out => ((out.1, 0), out.2) := by
      simp only [walker, live, Option.bind_some]
      rw [if_neg (by omega)]
    rw [leaves]
    rcases goes ways with ⟨stops, halts⟩ | ⟨t, n', rest, departs, passes, related⟩
    · exact .inl ⟨by rw [stops]; rfl, halts⟩
    · exact .inr ⟨(t, 0), n', rest, by rw [departs]; rfl, passes, related⟩

end Graph.Written

namespace Graph

/-- Whatever was done to a graph that was cut from closed code, it can be written, and if the id
    counter does not overflow the written body walks as the graph does, the added jumps left out. -/
theorem written_body_walks_alike {body : Body} {g : Graph} (numbered : body.Numbered)
    (closed : body.Closed) (cut : body.toGraph = .ok g) {edits : List Edit}
    (allowed : AllowedAll g edits) (fits : FitsAll g edits)
    (room : (g.applyAll edits).RoomToWrite) :
    ∃ written, (g.applyAll edits).toBody = .ok written ∧
      ∀ (ways : List Way) (seen : List (InstrId × Opcode × Option Operand)),
        (∃ n, seen <+: ((g.applyAll edits).walker.walk n ((g.applyAll edits).entry, 0) ways).map
          Instr.mark) ↔
        ∃ n, seen <+: Walker.shown (g.applyAll edits).isAdded (written.walker.walk n 0 ways) := by
  have c := Body.toGraph_consistent numbered cut
  have edited := c.applyAll allowed fits
  have complete := (Body.toGraph_complete closed cut).applyAll c allowed fits
  obtain ⟨written, done⟩ := toBody_of_complete edited complete
  obtain ⟨pieces, last, w⟩ := toBody_ok edited.laid room done
  obtain ⟨rest, layout⟩ := List.head?_eq_some_iff.mp edited.entryFirst
  have live := (edited.listed _).mp (layout ▸ List.mem_cons_self)
  have first := Written.related_begin edited live (begins_entry (w.blocks.trans layout))
  exact ⟨written, done, Walker.alike (w.follows edited complete) first⟩

/-- A test that is jumped to over the code it may lead to. Merged with what jumps to it, it no
    longer stands in front of the block it falls to. -/
def crossedTest : Body where
  instrs := [⟨0, .nop, .none, 0⟩, ⟨1, .br .long, .target 4, 1⟩, ⟨2, .nop, .none, 6⟩,
    ⟨3, .ret, .none, 7⟩, ⟨4, .ldcI4S, .immediate (.int8 0#8), 8⟩,
    ⟨5, .branch .isTrue .long, .target 2, 10⟩, ⟨6, .ret, .none, 15⟩]
  nextId := 7

theorem crossedTest_walks_alike :
    ∃ g, crossedTest.toGraph = .ok g ∧ crossedTest.Numbered ∧ crossedTest.Closed ∧
      AllowedAll g [.merge] ∧ FitsAll g [.merge] ∧ (g.applyAll [.merge]).RoomToWrite ∧
      ∃ written, (g.applyAll [.merge]).toBody = .ok written ∧
        ∀ (ways : List Way) (seen : List (InstrId × Opcode × Option Operand)),
          (∃ n, seen <+: ((g.applyAll [.merge]).walker.walk n ((g.applyAll [.merge]).entry, 0)
            ways).map Instr.mark) ↔
          ∃ n, seen <+:
            Walker.shown (g.applyAll [.merge]).isAdded (written.walker.walk n 0 ways) := by
  have numbered : crossedTest.Numbered := ⟨by decide, by decide⟩
  have closed : crossedTest.Closed := by
    refine ⟨?_, ?_, ?_⟩ <;> simp [crossedTest, Instr.flow, Opcode.flow, Flow.fallsThrough]
  have allowed : ∀ g, AllowedAll g [.merge] := fun g => ⟨trivial, trivial⟩
  refine ⟨_, rfl, numbered, closed, allowed _, by decide, by decide +kernel, ?_⟩
  exact written_body_walks_alike numbered closed rfl (allowed _) (by decide) (by decide +kernel)

end Graph
end Unravel
