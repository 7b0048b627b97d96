import Unravel.Proofs.Execution
import Unravel.Proofs.Fold.Block
import Unravel.Proofs.Pass.Inlining

/-!
Code that leaves the frame alone. Under an interpretation that gives each method a frame of its
own, code without access to variables does the same in every frame and above any other stack, as
long as its depth stays known: it sees the values that it was given and the heap, and nothing
below or beside them.
-/
namespace Unravel
variable {O H X : Type}

/-- What an instruction makes of the values it takes and of the heap. -/
inductive Answer (O H X : Type) where
  | yields (values : List (Value O)) (heap : H)
  | raises (exception : X) (heap : H)

def Frame.setHeap (f : Frame O H) (heap : H) : Frame O H := { f with heap }

@[simp] theorem Frame.heap_setHeap (f : Frame O H) (heap : H) : (f.setHeap heap).heap = heap := rfl

@[simp] theorem Frame.setHeap_setHeap (f : Frame O H) (a b : H) :
    (f.setHeap a).setHeap b = f.setHeap b := rfl

def Answer.inside (frame : Frame O H) : Answer O H X → Effect O H X
  | .yields values heap => .yields values (frame.setHeap heap)
  | .raises x heap => .raises x (frame.setHeap heap)

/-- The instruction may read, write or expose a variable or the arguments as a whole. A load whose
    operand names no variable does not. -/
def Instr.usesFrame (i : Instr) : Bool :=
  match i.opcode with
  | .ldarg _ | .ldarga _ | .starg _ | .stloc _ | .ldloca _ | .jmp | .plain .arglist => true
  | .ldloc _ => i.loadedLocal?.isSome
  | _ => false

/-- The body of a method is some code without branches and handlers, and a return. -/
def Method.Runs (callee : Method) (code : List Instr) : Prop :=
  (∀ i ∈ code, i.isTerminal = false) ∧
    ∃ body last, callee.readable? = some body ∧ body.clauses = [] ∧
      body.instrs = code ++ [last] ∧ last.opcode = .ret

/-- What a run hands over at a return, which takes the whole stack: it must hold no more and no less
    than the method returns. -/
def Run.returned? (count : Nat) : Run O H X (Machine O H) → Option (Answer O H X)
  | .goes m => if m.stack.length = count then some (.yields m.stack m.frame.heap) else none
  | .raised x frame => some (.raises x frame.heap)
  | .undefined | .underflow => none

namespace Interp

/-- Run code that goes straight on. Whether its method returns a value makes no difference. -/
def runPlain (interp : Interp O H X) : List Instr → Machine O H → Run O H X (Machine O H)
  | [], m => .goes m
  | i :: rest, m => (interp.step false i m).bind (interp.runPlain rest)

/-- Run the code of a method in a frame of its own. Its arguments are the values taken, of which
    the last one was on top; other variables are `blank`. -/
def invoke (interp : Interp O H X) (blank : Nat → Value O) (callee : Method) (code : List Instr)
    (taken : List (Value O)) (heap : H) : Option (Answer O H X) :=
  (interp.runPlain code ⟨[], blank, fun n => taken.reverse.getD n (blank n), heap⟩).returned?
    callee.returnsValue.toNat

/-- Instructions that do not use the frame are partial functions of the values they take and the
    heap, and push as many values as the instruction set says. A load pushes its argument. A call
    of a method without branches runs the method. -/
structure Modular (interp : Interp O H X) (methods : Resolver) (blank : Nat → Value O)
    (meaning : Opcode → Operand → List (Value O) → H → Option (Answer O H X)) : Prop where
  apart : ∀ {i : Instr}, i.usesFrame = false → ∀ taken frame,
    interp.effect i taken frame =
      (meaning i.opcode i.operand taken frame.heap).map (Answer.inside frame)
  arity : ∀ {i : Instr} {taken heap pushed after effect},
    meaning i.opcode i.operand taken heap = some (.yields pushed after) →
    i.stackEffect? false = some effect → pushed.length = effect.pushes
  argument : ∀ {i : Instr} {n : Nat}, i.loadedArgument? = some n → ∀ frame,
    interp.effect i [] frame = some (.yields [frame.args n] frame)
  call : ∀ {ref : MethodRef} {callee : Method} {code : List Instr},
    methods.resolve? ref.token = some callee → ref.Fits callee → callee.Runs code →
    ∀ taken heap, taken.length = callee.arity →
    meaning .call (.method ref) taken heap = interp.invoke blank callee code taken heap

end Interp

def Run.moved (below : List (Value O)) (frame : Frame O H) :
    Run O H X (Machine O H) → Run O H X (Machine O H)
  | .goes m => .goes ⟨m.stack ++ below, frame.setHeap m.frame.heap⟩
  | .raised x f => .raised x (frame.setHeap f.heap)
  | .undefined => .undefined
  | .underflow => .underflow

/-- The run has not run out of stack, and if it goes on there are some number of values. -/
inductive Run.Leaves (depth : Nat) : Run O H X (Machine O H) → Prop where
  | goes {m : Machine O H} (left : m.stack.length = depth) : Leaves depth (.goes m)
  | raised (x : X) (frame : Frame O H) : Leaves depth (.raised x frame)
  | undefined : Leaves depth .undefined

/-- On a stack of one depth what runs leaves another depth. It neither sees nor changes what lies
    below that stack, or what variables there are. -/
def Apart (run : Machine O H → Run O H X (Machine O H)) (before after : Nat) : Prop :=
  ∀ m, m.stack.length = before → (run m).Leaves after ∧
    ∀ below frame, run ⟨m.stack ++ below, frame.setHeap m.frame.heap⟩ = (run m).moved below frame

theorem Apart.bind {f g : Machine O H → Run O H X (Machine O H)} {a b c : Nat}
    (first : Apart f a b) (second : Apart g b c) : Apart (fun m => (f m).bind g) a c := by
  intro m depth
  obtain ⟨leaves, same⟩ := first m depth
  simp only [same]
  generalize f m = ran at leaves
  cases leaves with
  | goes left => exact second _ left
  | raised x frame => exact ⟨.raised x frame, fun _ _ => rfl⟩
  | undefined => exact ⟨.undefined, fun _ _ => rfl⟩

namespace Interp
variable {interp : Interp O H X} {methods : Resolver} {blank : Nat → Value O}
  {meaning : Opcode → Operand → List (Value O) → H → Option (Answer O H X)} {i : Instr}

theorem step_returns (plain : i.isTerminal = false) (returns : Bool) (m : Machine O H) :
    interp.step returns i m = interp.step false i m := by
  have effect := Fold.stackEffect?_eq plain returns false
  simp only [step, compute, call, effect]

theorem runPlain_append (front rest : List Instr) (m : Machine O H) :
    interp.runPlain (front ++ rest) m = (interp.runPlain front m).bind (interp.runPlain rest) := by
  induction front generalizing m with
  | nil => rfl
  | cons i front ih =>
    simp only [List.cons_append, runPlain]
    cases interp.step false i m with
    | goes m => exact ih m
    | raised | undefined | underflow => rfl

theorem runCode_append {b : Block} {returns : Bool} {front : List Instr}
    (plain : ∀ i ∈ front, i.isTerminal = false) (rest : List Instr) (m : Machine O H) :
    interp.runCode returns b (front ++ rest) m =
      (interp.runPlain front m).bind (interp.runCode returns b rest) := by
  induction front generalizing m with
  | nil => rfl
  | cons i front ih =>
    have here := plain i List.mem_cons_self
    rw [List.cons_append, Fold.runCode_cons (.inr here), step_returns here, runPlain]
    cases interp.step false i m with
    | goes m => exact ih (fun j inside => plain j (List.mem_cons_of_mem i inside)) m
    | raised | undefined | underflow => rfl

theorem call_apart (modular : interp.Modular methods blank meaning) (stays : i.usesFrame = false)
    {effect : StackEffect} (known : i.stackEffect? false = some effect) {depth : Nat}
    (enough : effect.pops ≤ depth) :
    Apart (interp.call false i) depth (depth - effect.pops + effect.pushes) := by
  rintro m rfl
  have take : ∀ below, (m.stack ++ below).take effect.pops = m.stack.take effect.pops :=
    fun below => List.take_append_of_le_length enough
  have drop : ∀ below, (m.stack ++ below).drop effect.pops = m.stack.drop effect.pops ++ below :=
    fun below => List.drop_append_of_le_length enough
  have long : ∀ below : List (Value O), ¬ (m.stack ++ below).length < effect.pops := by
    intro below
    rw [List.length_append]
    omega
  simp only [call, known, Option.map_some, Option.getD_some, Nat.not_lt.mpr enough, if_false,
    long, take, drop, modular.apart stays, Frame.heap_setHeap]
  cases means : meaning i.opcode i.operand (m.stack.take effect.pops) m.frame.heap with
  | none => exact ⟨.undefined, fun _ _ => rfl⟩
  | some outcome =>
    cases outcome with
    | raises x heap => exact ⟨.raised x _, fun _ _ => rfl⟩
    | yields pushed heap =>
      refine ⟨.goes ?_, ?_⟩
      · rw [List.length_append, List.length_drop, modular.arity means known, Nat.add_comm]
      · intro below frame
        simp [Answer.inside, Run.moved]

theorem compute_apart (modular : interp.Modular methods blank meaning)
    (stays : i.usesFrame = false) {effect : StackEffect}
    (known : i.stackEffect? false = some effect) {depth : Nat} (enough : effect.pops ≤ depth) :
    Apart (interp.compute false i) depth (depth - effect.pops + effect.pushes) := by
  rintro ⟨stack, frame⟩ rfl
  have called := call_apart modular stays known enough ⟨stack, frame⟩ rfl
  -- Integers, copies and drops are computed here; all else is left to the interpretation.
  cases op : i.opcode with
  | nop =>
    simp only [Instr.stackEffect?, op, Opcode.fixedStack, Option.some.injEq] at known
    subst known
    simp only [compute, op]
    exact ⟨.goes rfl, fun _ _ => rfl⟩
  | pop =>
    simp only [Instr.stackEffect?, op, Opcode.fixedStack, Option.some.injEq] at known
    subst known
    obtain ⟨v, stack, rfl⟩ := List.exists_cons_of_length_pos enough
    simp only [compute, op, List.cons_append]
    exact ⟨.goes rfl, fun _ _ => rfl⟩
  | dup =>
    simp only [Instr.stackEffect?, op, Opcode.fixedStack, Option.some.injEq] at known
    subst known
    obtain ⟨v, stack, rfl⟩ := List.exists_cons_of_length_pos enough
    simp only [compute, op, List.cons_append]
    exact ⟨.goes rfl, fun _ _ => rfl⟩
  | unary f =>
    simp only [Instr.stackEffect?, op, Opcode.fixedStack, Option.some.injEq] at known
    subst known
    obtain ⟨v, stack, rfl⟩ := List.exists_cons_of_length_pos enough
    cases v with
    | int c =>
      simp only [compute, op, List.cons_append]
      exact ⟨.goes rfl, fun _ _ => rfl⟩
    | other o => simpa only [compute, op, List.cons_append] using called
  | binary f =>
    simp only [Instr.stackEffect?, op, Opcode.fixedStack, Option.some.injEq] at known
    subst known
    obtain ⟨y, stack, rfl⟩ := List.exists_cons_of_length_pos (Nat.lt_of_succ_lt enough)
    obtain ⟨x, stack, rfl⟩ := List.exists_cons_of_length_pos (Nat.lt_of_succ_lt_succ enough)
    cases y with
    | other o => simpa only [compute, op, List.cons_append] using called
    | int y =>
      cases x with
      | other o => simpa only [compute, op, List.cons_append] using called
      | int x =>
        cases result : Integer.binary? f x y with
        | none => simpa only [compute, op, List.cons_append, result] using called
        | some c =>
          simp only [compute, op, List.cons_append, result]
          exact ⟨.goes rfl, fun _ _ => rfl⟩
  | _ => simpa only [compute, op] using called

theorem step_apart (modular : interp.Modular methods blank meaning) (stays : i.usesFrame = false)
    {effect : StackEffect} (known : i.stackEffect? false = some effect) {depth : Nat}
    (enough : effect.pops ≤ depth) :
    Apart (interp.step false i) depth (depth - effect.pops + effect.pushes) := by
  have load : i.loadedLocal? = none := by
    cases op : i.opcode <;> simp_all [Instr.usesFrame, Instr.loadedLocal?]
  have store : i.storedLocal? = none := by
    cases op : i.opcode <;> simp_all [Instr.usesFrame, Instr.storedLocal?]
  cases value : i.constant? with
  | none =>
    intro m long
    simp only [step_computed value load store]
    exact compute_apart modular stays known enough m long
  | some c =>
    have pushes : effect = ⟨0, 1⟩ := by
      cases op : i.opcode <;>
        simp_all [Instr.constant?, Instr.stackEffect?, Opcode.fixedStack]
    subst pushes
    rintro m rfl
    simp only [step_constant value]
    exact ⟨.goes rfl, fun _ _ => rfl⟩

theorem runPlain_apart (modular : interp.Modular methods blank meaning) {code : List Instr}
    (stay : ∀ i ∈ code, i.usesFrame = false) {depth left : Nat}
    (known : Inline.depthAfter? depth code = some left) :
    Apart (interp.runPlain code) depth left := by
  induction code generalizing depth with
  | nil =>
    cases known
    exact fun m long => ⟨.goes long, fun _ _ => rfl⟩
  | cons i rest ih =>
    obtain ⟨effect, here, known⟩ := Option.bind_eq_some_iff.mp known
    split at known
    · cases known
    · rename_i enough
      have first := step_apart modular (stay i List.mem_cons_self) here (Nat.not_lt.mp enough)
      exact first.bind (ih (fun j inside => stay j (List.mem_cons_of_mem i inside)) known)

theorem step_spelled (modular : interp.Modular methods blank meaning) (stays : i.usesFrame = false)
    (id : InstrId) (offset : Nat) (m : Machine O H) :
    interp.step false { i with id, offset } m = interp.step false i m := by
  have same : ∀ taken frame, interp.effect { i with id, offset } taken frame =
      interp.effect i taken frame := by
    intro taken frame
    rw [modular.apart stays, modular.apart (by exact stays)]
  simp only [step, compute, call, same]
  rfl

end Interp
end Unravel
