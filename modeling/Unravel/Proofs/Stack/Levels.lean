import Unravel.Proofs.Inline.Calls

namespace Unravel
variable {returns : Bool} {d e : Nat} {i : Instr} {code : List Instr}

/-- The depth of the stack after an instruction, if it can run at the depth before it. -/
def Instr.level? (returns : Bool) (d : Nat) (i : Instr) : Option Nat := do
  let effect ← i.stackEffect? returns
  if d < effect.pops then none else some (d - effect.pops + effect.pushes)

def levelAfter? (returns : Bool) : Nat → List Instr → Option Nat
  | d, [] => some d
  | d, i :: rest => (i.level? returns d).bind fun d => levelAfter? returns d rest

def Block.exitLevel? (returns : Bool) (d : Nat) (b : Block) : Option Nat :=
  (levelAfter? returns d b.instrs).map fun e => if b.kind = .leave then 0 else e

theorem BlockKind.ofFlow_leave {flow : Flow} : BlockKind.ofFlow flow = .leave ↔ flow = .leave := by
  cases flow <;> simp [BlockKind.ofFlow]

theorem Instr.level?_eq_some : i.level? returns d = some e ↔
    ∃ effect, i.stackEffect? returns = some effect ∧ effect.pops ≤ d ∧
      e = d - effect.pops + effect.pushes := by
  unfold Instr.level?
  cases i.stackEffect? returns with
  | none => simp
  | some effect =>
    by_cases short : d < effect.pops
    · simp [short]
    · simp [short, Nat.not_lt.mp short, eq_comm]

theorem levelAfter?_append (d : Nat) (front rest : List Instr) :
    levelAfter? returns d (front ++ rest) =
      (levelAfter? returns d front).bind fun d => levelAfter? returns d rest := by
  induction front generalizing d with
  | nil => rfl
  | cons i front ih => simp only [List.cons_append, levelAfter?, Option.bind_assoc, ih]

theorem levelAfter?_singleton (d : Nat) (i : Instr) :
    levelAfter? returns d [i] = i.level? returns d := by
  rw [levelAfter?]
  cases i.level? returns d <;> rfl

theorem levelAfter?_above (known : levelAfter? returns d code = some e) (below : Nat) :
    levelAfter? returns (d + below) code = some (e + below) := by
  induction code generalizing d with
  | nil =>
    cases known
    rfl
  | cons i rest ih =>
    obtain ⟨next, here, later⟩ := Option.bind_eq_some_iff.mp known
    obtain ⟨effect, found, enough, rfl⟩ := Instr.level?_eq_some.mp here
    have here' : i.level? returns (d + below) = some (d - effect.pops + effect.pushes + below) :=
      Instr.level?_eq_some.mpr ⟨effect, found, by omega, by omega⟩
    rw [levelAfter?, here', Option.bind_some]
    exact ih later

theorem levelAfter?_plain (plain : ∀ i ∈ code, i.isTerminal = false) (d : Nat) :
    levelAfter? returns d code = Inline.depthAfter? d code := by
  induction code generalizing d with
  | nil => rfl
  | cons i rest ih =>
    rw [List.forall_mem_cons] at plain
    rw [levelAfter?, Inline.depthAfter?, Instr.level?, Fold.stackEffect?_eq plain.1 returns false]
    cases i.stackEffect? false with
    | none => rfl
    | some effect =>
      simp only [Option.bind_eq_bind, Option.bind_some]
      split
      · rfl
      · exact ih plain.2 _

namespace Inline
variable {ctx : PassContext}

theorem Forwards.level {ref : MethodRef} {callee : Method} {loads spliced : List Instr}
    (forwards : Forwards ctx callee loads spliced) (calls : i.opcode = .call)
    (names : i.operand = .method ref) (fits : ref.Fits callee) (here : i.level? returns d = some e)
    (fresh : InstrId) : levelAfter? returns d (expand fresh i spliced) = some e := by
  obtain ⟨effect, found, enough, rfl⟩ := Instr.level?_eq_some.mp here
  rw [stackEffect?_call calls names fits] at found
  cases found
  have alone : levelAfter? returns callee.arity (expand fresh i spliced) =
      some callee.returnsValue.toNat := by
    rw [levelAfter?_plain (expand_plain forwards.plain), depthAfter?_expand, forwards.depth]
  have above := levelAfter?_above alone (d - callee.arity)
  dsimp only at enough ⊢
  rwa [Nat.add_sub_of_le enough, Nat.add_comm] at above

theorem levelAfter?_expandAll {instrs : List Instr} (agrees : ctx.methods.Agrees instrs)
    (fresh : InstrId) (known : levelAfter? returns d instrs = some e) :
    levelAfter? returns d (expandAll ctx fresh instrs).1 = some e := by
  induction instrs generalizing fresh d with
  | nil => exact known
  | cons i rest ih =>
    have later : ctx.methods.Agrees rest := fun j inside => agrees j (List.mem_cons_of_mem i inside)
    obtain ⟨next, here, known⟩ := Option.bind_eq_some_iff.mp known
    rcases expandAll_cases ctx fresh i rest with
      stays | ⟨ref, callee, loads, spliced, new, calls, names, resolved, forwards, codes⟩
    · rw [stays, levelAfter?, here, Option.bind_some]
      exact ih later fresh known
    · have fits := agrees i List.mem_cons_self ref callee calls names resolved
      rw [codes, levelAfter?_append, forwards.level calls names fits here, Option.bind_some]
      exact ih later new known

end Inline

def Run.result? {O H X α : Type} : Run O H X α → Option α
  | .goes a => some a
  | _ => none

namespace Fold
variable {b : Block}

theorem call_level (returns : Bool) (i : Instr) (m : Machine Unit Unit) :
    ((unknownValues returns).call returns i m).result?.map (·.stack.length) =
      i.level? returns m.stack.length := by
  unfold Interp.call Instr.level?
  cases known : i.stackEffect? returns with
  | none => simp [unknownValues, known, Run.result?]
  | some effect =>
    by_cases short : m.stack.length < effect.pops
    · simp [short, Run.result?]
    · simp [short, unknownValues, known, Run.result?, Nat.add_comm]

theorem compute_level (returns : Bool) (i : Instr) (m : Machine Unit Unit) :
    ((unknownValues returns).compute returns i m).result?.map (·.stack.length) =
      i.level? returns m.stack.length := by
  have called := call_level returns i m
  obtain ⟨stack, frame⟩ := m
  cases op : i.opcode with
  | nop =>
    simp [Interp.compute, op, Run.result?, Instr.level?, Instr.stackEffect?, Opcode.fixedStack]
  | pop | dup =>
    cases stack with
    | nil => simpa only [Interp.compute, op] using called
    | cons v stack =>
      simp [Interp.compute, op, Run.result?, Instr.level?, Instr.stackEffect?, Opcode.fixedStack]
  | unary f =>
    cases stack with
    | nil => simpa only [Interp.compute, op] using called
    | cons v stack =>
      cases v with
      | other o => simpa only [Interp.compute, op] using called
      | int c =>
        simp [Interp.compute, op, Run.result?, Instr.level?, Instr.stackEffect?, Opcode.fixedStack]
  | binary f =>
    rcases stack with _ | ⟨y | o, _ | ⟨x | o, stack⟩⟩
    case cons.int.cons.int =>
      cases result : Integer.binary? f x y with
      | none => simpa only [Interp.compute, op, result] using called
      | some c =>
        simp [Interp.compute, op, result, Run.result?, Instr.level?, Instr.stackEffect?,
          Opcode.fixedStack]
    all_goals simpa only [Interp.compute, op] using called
  | _ => simpa only [Interp.compute, op] using called

theorem step_level (returns : Bool) (i : Instr) (m : Machine Unit Unit) :
    ((unknownValues returns).step returns i m).result?.map (·.stack.length) =
      i.level? returns m.stack.length := by
  cases value : i.constant? with
  | some c =>
    have pushes : i.stackEffect? returns = some ⟨0, 1⟩ := by
      cases op : i.opcode <;> simp_all [Instr.constant?, Instr.stackEffect?, Opcode.fixedStack]
    simp [Interp.step_constant value, Run.result?, Instr.level?, pushes]
  | none =>
    cases load : i.loadedLocal? with
    | some n =>
      have pushes : i.stackEffect? returns = some ⟨0, 1⟩ := by
        cases op : i.opcode <;> simp_all [Instr.loadedLocal?, Instr.stackEffect?, Opcode.fixedStack]
      simp [Interp.step_loaded value load, Run.result?, Instr.level?, pushes]
    | none =>
      cases store : i.storedLocal? with
      | some n =>
        have pops : i.stackEffect? returns = some ⟨1, 0⟩ := by
          cases op : i.opcode <;>
            simp_all [Instr.storedLocal?, Instr.stackEffect?, Opcode.fixedStack]
        obtain ⟨stack, frame⟩ := m
        cases stack <;> simp [Interp.step, value, load, store, Run.result?, Instr.level?, pops]
      | none =>
        rw [Interp.step_computed value load store]
        exact compute_level returns i m

theorem choose_level (returns : Bool) (b : Block) (i : Instr) (m : Machine Unit Unit) :
    ((unknownValues returns).choose b i m).result?.map (·.1.stack.length) =
      if m.stack.length < i.opcode.fixedStack.pops then none
      else some (m.stack.length - i.opcode.fixedStack.pops) := by
  obtain ⟨way, chosen⟩ : ∃ way, (Interp.integerWay? b i
      (m.stack.take i.opcode.fixedStack.pops)).or ((unknownValues returns).way i
      (m.stack.take i.opcode.fixedStack.pops) m.frame) = some way := by
    cases Interp.integerWay? b i (m.stack.take i.opcode.fixedStack.pops) <;> exact ⟨_, rfl⟩
  simp only [Interp.choose, chosen]
  split
  · rfl
  · simp [Run.result?]

theorem terminate_level (returns : Bool) (b : Block) (i : Instr) (m : Machine Unit Unit) :
    ((unknownValues returns).terminate returns b i m).result?.map (·.1.stack.length) =
      (i.level? returns m.stack.length).map fun e => if i.flow = .leave then 0 else e := by
  have chosen := choose_level returns b i m
  have called := call_level returns i m
  cases op : i.opcode with
  | br form | leave form =>
    simp [Interp.terminate, op, Run.result?, Instr.level?, Instr.stackEffect?, Opcode.fixedStack,
      Instr.flow, Opcode.flow]
  | branch condition form | switch =>
    have level : i.level? returns m.stack.length =
        if m.stack.length < i.opcode.fixedStack.pops then none
        else some (m.stack.length - i.opcode.fixedStack.pops) := by
      simp [Instr.level?, Instr.stackEffect?, op, Opcode.fixedStack]
    rw [level, ← chosen]
    simp [Interp.terminate, op, Instr.flow, Opcode.flow, Function.comp_def]
  | _ =>
    rw [← called]
    simp only [Interp.terminate, op, Instr.flow, Opcode.flow]
    cases (unknownValues returns).call returns i m <;> simp [Run.bind, Run.result?]

theorem runCode_level (returns : Bool) (straight : ∀ i ∈ code.dropLast, i.isTerminal = false)
    (b : Block) (m : Machine Unit Unit) :
    ((unknownValues returns).runCode returns b code m).result?.map (·.1.stack.length) =
      (levelAfter? returns m.stack.length code).map fun e =>
        if code.getLast?.map Instr.flow = some .leave then 0 else e := by
  induction code generalizing m with
  | nil => rfl
  | cons i rest ih =>
    cases rest with
    | nil =>
      rw [levelAfter?_singleton]
      cases ends : i.isTerminal with
      | true => simp [Interp.runCode, ends, terminate_level]
      | false =>
        have stays : i.flow ≠ .leave := by
          intro leaves
          rw [Instr.isTerminal, leaves] at ends
          cases ends
        rw [Fold.runCode_cons (.inr ends), ← step_level]
        cases (unknownValues returns).step returns i m <;>
          simp [Run.bind, Run.result?, Interp.runCode, stays]
    | cons j rest =>
      have plain : i.isTerminal = false := straight i (by simp)
      have later : ∀ k ∈ (j :: rest).dropLast, k.isTerminal = false :=
        fun k inside => straight k (by simp [inside])
      rw [Fold.runCode_cons (.inr plain), levelAfter?, ← step_level, List.getLast?_cons_cons]
      cases (unknownValues returns).step returns i m with
      | goes m' => exact ih later m'
      | raised | undefined | underflow => rfl

theorem runBlock_level (returns : Bool) (straight : b.Straight) (filled : b.instrs ≠ [])
    (m : Machine Unit Unit) :
    ((unknownValues returns).runBlock returns b m).result?.map (·.1.stack.length) =
      b.exitLevel? returns m.stack.length := by
  obtain ⟨front, last, text⟩ := Block.exists_last filled
  have leaves : (b.instrs.getLast?.map Instr.flow = some .leave) ↔ b.kind = .leave := by
    rw [Block.kind_eq text, text, List.getLast?_concat, Option.map_some, Option.some.injEq,
      BlockKind.ofFlow_leave]
  rw [Interp.runBlock, runCode_level returns straight b m, Block.exitLevel?]
  simp only [leaves]

theorem exitLevel?_of_refines {b' : Block} (straight : b.Straight) (filled : b.instrs ≠ [])
    (straight' : b'.Straight) (filled' : b'.instrs ≠ [])
    (refines : (unknownValues returns).Refines returns b b')
    (level : b.exitLevel? returns d = some e) : b'.exitLevel? returns d = some e := by
  let frame : Frame Unit Unit := ⟨fun _ => .other (), fun _ => .other (), ()⟩
  let unknown : Machine Unit Unit := ⟨List.replicate d (.other ()), frame⟩
  have depth : unknown.stack.length = d := List.length_replicate
  have before := runBlock_level returns straight filled unknown
  have after := runBlock_level returns straight' filled' unknown
  rw [depth] at before after
  have enough : (unknownValues returns).runBlock returns b unknown ≠ .underflow := by
    intro short
    rw [short, level] at before
    cases before
  rw [← after, refines unknown enough, before, level]

end Fold
end Unravel
