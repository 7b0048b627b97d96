import Unravel.Constant
import Unravel.Graph.Edit
import Unravel.Pass.Basic

/-! Constant folding. Each block is simulated from an unknown stack and unknown variables. An
   operator on constants becomes a load of its result, and a branch on constants becomes a jump or
   goes; the instructions that only made the consumed values go as well. A `dup` goes with the
   first of its two copies that is consumed, what it copied goes with the second. -/
namespace Unravel.Fold

/-- Where a known value came from: one instruction, or a copy made by a `dup` of a value with
   sources of its own. -/
inductive Source
  | site (index : Nat)
  | copy (index : Nat) (sources : List Source)
deriving Inhabited, Repr

mutual

/-- Drop what made a consumed value. `erased` lists the instructions that go. -/
def Source.drop : Source → List Nat → List Nat
  | .site index, erased => index :: erased
  | .copy index sources, erased =>
    if erased.contains index then dropSources sources erased else index :: erased

def dropSources : List Source → List Nat → List Nat
  | [], erased => erased
  | s :: rest, erased => dropSources rest (s.drop erased)

end

structure Known where
  value : Constant
  sources : List Source
deriving Inhabited, Repr

/-- The state of a simulation: the stack with its top first, the known variables, the instructions
   to erase and those to replace by a load. -/
structure State where
  stack : List (Option Known) := []
  locals : List (Nat × Constant) := []
  erased : List Nat := []
  loads : List (Nat × Constant) := []
deriving Inhabited, Repr

namespace State

def push (s : State) (slot : Option Known) : State := { s with stack := slot :: s.stack }

/-- The top of the stack and the rest; below the start of the block nothing is known. -/
def pop (s : State) : Option Known × State := (s.stack.headD none, { s with stack := s.stack.tail })

def setLocal (s : State) (n : Nat) (value : Constant) : State :=
  { s with locals := (n, value) :: s.locals.filter fun l => l.1 != n }

def forgetLocal (s : State) (n : Nat) : State :=
  { s with locals := s.locals.filter fun l => l.1 != n }

/-- Push the result of a folded operator. With `extra` the operator becomes a load at once. -/
def fold (extra : Bool) (index : Nat) (s : State) (value : Constant) (sources : List Source) :
    State :=
  if extra then
    { s with erased := dropSources sources s.erased, loads := s.loads ++ [(index, value)] }.push
      (some ⟨value, [.site index]⟩)
  else s.push (some ⟨value, .site index :: sources⟩)

def foldUnary (extra : Bool) (index : Nat) (op : UnaryOp) (s : State) : State :=
  match s.pop with
  | (some a, s) => s.fold extra index (a.value.unary op) a.sources
  | (none, s) => s.push none

def foldBinary (extra : Bool) (index : Nat) (op : BinaryOp) (s : State) : State :=
  let (b, s) := s.pop
  let (a, s) := s.pop
  match a, b with
  | some a, some b =>
    match a.value.binary? op b.value with
    | some value => s.fold extra index value (a.sources ++ b.sources)
    | none => s.push none
  | _, _ => s.push none

def duplicate (index : Nat) (s : State) : State :=
  match s.pop with
  | (some top, s) =>
    let shared : Known := ⟨top.value, [.copy index top.sources]⟩
    (s.push (some shared)).push (some shared)
  | (none, s) => (s.push none).push none

def loadLocal (extra : Bool) (index n : Nat) (s : State) : State :=
  match s.locals.lookup n with
  | none => s.push none
  | some value =>
    let s := if extra then { s with loads := s.loads ++ [(index, value)] } else s
    s.push (some ⟨value, [.site index]⟩)

def storeLocal (pinned : List Nat) (n : Nat) (s : State) : State :=
  match s.pop with
  | (some known, s) =>
    if pinned.contains n then s.forgetLocal n else s.setLocal n known.value
  | (none, s) => s.forgetLocal n

def skip (effect : StackEffect) (s : State) : State :=
  { s with stack := List.replicate effect.pushes none ++ s.stack.drop effect.pops }

end State

/-- Simulate one instruction; none if its effect on the stack is unknown. `pinned` lists variables
   that may change behind the back of the code. -/
def step (pinned : List Nat) (extra : Bool) (index : Nat) (i : Instr) (s : State) : Option State :=
  match i.literal?, i.loadedLocal?, i.storedLocal? with
  | some n, _, _ => some (s.push (some ⟨.ofLoad i.opcode n, [.site index]⟩))
  | none, some n, _ => some (s.loadLocal extra index n)
  | none, none, some n => some (s.storeLocal pinned n)
  | none, none, none =>
    match i.opcode with
    | .nop => some s
    | .pop => some s.pop.2
    | .dup => some (s.duplicate index)
    | .unary op => some (s.foldUnary extra index op)
    | .binary op => some (s.foldBinary extra index op)
    | _ => (i.stackEffect? true).map fun effect => s.skip effect

/-- What is decided for a terminator, and the sources of the values that it took. -/
structure Decision where
  target : Option BlockId
  sources : List Source
deriving Inhabited, Repr

/-- Decide a terminator on known values: the block to jump to, or none to fall through. -/
def decide? (b : Block) (i : Instr) (s : State) : Option Decision :=
  match i.opcode with
  | .branch condition _ => do
    let target ← b.targets.head?
    let (top, s) := s.pop
    let top ← top
    match condition with
    | .isTrue => return ⟨if top.value.isZero then none else some target, top.sources⟩
    | .isFalse => return ⟨if top.value.isZero then some target else none, top.sources⟩
    | _ =>
      let below ← s.pop.1
      let taken ← Constant.branch? condition below.value top.value
      return ⟨if taken then some target else none, below.sources ++ top.sources⟩
  | .switch => do
    let index ← s.pop.1
    let _ ← b.fall
    return ⟨b.targets[index.value.caseIndex]?, index.sources⟩
  | _ => none

/-- Simulate the instructions of a block from an index on. The last one may be decided. -/
def simulate (pinned : List Nat) (extra : Bool) (b : Block) :
    Nat → List Instr → State → State × Option (Option BlockId)
  | _, [], s => (s, none)
  | index, i :: rest, s =>
    if rest.isEmpty && i.isTerminal then
      match decide? b i s with
      | some d => ({ s with erased := dropSources d.sources s.erased }, some d.target)
      | none => (s, none)
    else
      match step pinned extra index i s with
      | some s => simulate pinned extra b (index + 1) rest s
      | none => (s, none)

def foldInstr (s : State) (index : Nat) (i : Instr) : Instr :=
  if s.erased.contains index then i.erase
  else
    match s.loads.lookup index with
    | some value => { i with opcode := value.load.1, operand := value.load.2 }
    | none => i

def pinnedLocals (g : Graph) : List Nat :=
  (g.blocks.flatMap Block.instrs).filterMap Instr.addressedLocal?

/-- Fold one block: the code first, then the terminator. The result counts the loads that were
   put in and tells whether the terminator was decided. -/
def foldBlock (pinned : List Nat) (extra : Bool) (g : Graph) (id : BlockId) (b : Block) :
    Graph × Except Error (Nat × Bool) :=
  let (s, decision) := simulate pinned extra b 0 b.instrs {}
  let folded := (s.loads.filter fun l => !s.erased.contains l.1).length
  let edited := g.modify id fun b => { b with instrs := b.instrs.mapIdx (foldInstr s) }
  let ended : Except Error Graph := match decision with
    | none => .ok edited
    | some (some target) => edited.redirect id target
    | some none => edited.dropTerminator id
  match ended with
  | .ok g => (g, .ok (folded, decision.isSome))
  | .error e => (edited, .error e)

def name : String := "constant-folder"

/-- One event for each load that was put in, then one for the terminator. -/
def events (ctx : PassContext) (block : BlockId) (folded : Nat) (decided : Bool) : Journal :=
  let event (kind : EventKind) : Event :=
    { kind, method := some ctx.method.token, location := some block, pass := some name }
  List.replicate folded (event .constantFolded) ++
    if decided then [event .branchSimplified] else []

def runOn (ctx : PassContext) (pinned : List Nat) (g : Graph) (id : BlockId) : PassRun :=
  match g.block? id with
  | none => ⟨g, [], .ok false⟩
  | some b =>
    match foldBlock pinned ctx.config.foldExtra g id b with
    | (g, .ok (folded, decided)) =>
      ⟨g, events ctx id folded decided, .ok (folded != 0 || decided)⟩
    | (g, .error e) => ⟨g, [], .error e⟩

def runAll (ctx : PassContext) (pinned : List Nat) : List BlockId → Graph → PassRun
  | [], g => ⟨g, [], .ok false⟩
  | id :: rest, g => (runOn ctx pinned g id).andThen (runAll ctx pinned rest)

def pass : Pass where
  name := name
  description := "Fold literal computations and decide branches on literals"
  run _ ctx g := runAll ctx (pinnedLocals g) g.layout g

end Unravel.Fold
