import Unravel.Graph.Partition

/-! The body of a graph. Blocks are written in layout order; branch operands are made anew from the
   edges, a jump is added where a block does not fall into the next one, and every region becomes
   a clause around the blocks that are left of it. -/
namespace Unravel.Graph

/-- Where the operand of a written instruction comes from. -/
inductive Link
  | kept
  | jump (target : BlockId)
  | cases (targets : List BlockId)
deriving DecidableEq, Inhabited, Repr

/-- An instruction whose operand is still to be linked. -/
structure Draft where
  instr : Instr
  link : Link
deriving DecidableEq, Inhabited, Repr

structure Piece where
  block : BlockId
  code : List Draft
deriving DecidableEq, Inhabited, Repr

def lastLink (b : Block) : Except Error Link :=
  match b.kind with
  | .branch | .leave | .conditional =>
    match b.targets.head? with
    | some t => .ok (.jump t)
    | none => .error (.graph (.noTarget b.id))
  | .switch => .ok (.cases b.targets)
  | .fallThrough | .exit => .ok .kept

/-- The block that a jump behind a block must go to, given the block written next. -/
def jumpBehind (b : Block) (next : Option BlockId) : Except Error (Option BlockId) :=
  match b.kind, b.fall with
  | .fallThrough, some fall | .conditional, some fall | .switch, some fall =>
    .ok (if some fall = next then none else some fall)
  | .conditional, none | .switch, none => .error (.graph (.openConditional b.id))
  | .fallThrough, none => if next.isSome then .error (.graph (.fallsNowhere b.id)) else .ok none
  | _, _ => .ok none

def draftCode (link : Link) (instrs : List Instr) : List Draft :=
  (instrs.dropLast.map fun i => ⟨i, .kept⟩) ++ instrs.getLast?.toList.map fun i => ⟨i, link⟩

/-- All blocks written one after another; added jumps take ids from `fresh` on. -/
def pieces (g : Graph) : InstrId → List BlockId → Except Error (List Piece × InstrId)
  | fresh, [] => .ok ([], fresh)
  | fresh, id :: rest => do
    let some b := g.block? id | throw (.graph (.deadInLayout id))
    let link ← lastLink b
    let code := draftCode link b.instrs
    match ← jumpBehind b rest.head? with
    | none =>
      let (more, last) ← g.pieces fresh rest
      return (⟨id, code⟩ :: more, last)
    | some target =>
      let added : Draft := ⟨{ id := fresh, opcode := .br .long }, .jump target⟩
      let (more, last) ← g.pieces fresh.next rest
      return (⟨id, code ++ [added]⟩ :: more, last)

structure Extent where
  block : BlockId
  start : Nat
  stop : Nat
deriving DecidableEq, Inhabited, Repr

def extents : Nat → List Piece → List Extent
  | _, [] => []
  | start, p :: rest =>
    ⟨p.block, start, start + p.code.length⟩ :: extents (start + p.code.length) rest

/-- The id of the first instruction at or behind the start of a block. -/
def startId (ids : List InstrId) (extents : List Extent) (block : BlockId) :
    Except Error InstrId :=
  match (extents.find? fun e => e.block == block).bind fun e => ids[e.start]? with
  | some id => .ok id
  | none => .error (.graph (.outsideLayout block))

def linkDraft (start : BlockId → Except Error InstrId) (d : Draft) : Except Error Instr :=
  match d.link with
  | .kept => .ok d.instr
  | .jump target => (start target).map fun id => { d.instr with operand := .target id }
  | .cases targets => (targets.mapM start).map fun ids => { d.instr with operand := .switch ids }

/-- The indices from the first to the last of some blocks, unless there is no code between. -/
def span? (extents : List Extent) (blocks : List BlockId) : Option (Nat × Nat) := do
  let hits := extents.filter fun e => blocks.contains e.block
  let first ← hits.head?
  let last ← hits.getLast?
  if first.start < last.stop then some (first.start, last.stop) else none

/-- The clause of a region, unless one of its ranges holds no code. -/
def clauseOf? (ids : List InstrId) (extents : List Extent) (r : Region) : Option Clause := do
  let (tryStart, tryStop) ← span? extents r.tryBlocks
  let (handlerStart, handlerStop) ← span? extents r.handlerBlocks
  let filterStart ←
    if r.flags.isFilter then do
      let (start, _) ← span? extents r.filterBlocks
      some (some (← ids[start]?))
    else some none
  return {
    flags := r.flags
    tryStart := ← ids[tryStart]?
    tryEnd := ids[tryStop]?
    handlerStart := ← ids[handlerStart]?
    handlerEnd := ids[handlerStop]?
    filterStart
    catchType := r.catchType }

/-- A body that starts with the code of the entry. An empty last block gets an instruction, so
   that every block starts at one. -/
def toBody (g : Graph) : Except Error Body := do
  let (written, fresh) ← g.pieces g.nextInstr g.layout
  let extents := extents 0 written
  let code := written.flatMap Piece.code
  let padded := extents.any fun e => code.length ≤ e.start
  let drafts := if padded then code ++ [⟨{ id := fresh, opcode := .nop }, .kept⟩] else code
  let fresh := if padded then fresh.next else fresh
  let ids := drafts.map fun d => d.instr.id
  let instrs ← drafts.mapM (linkDraft (startId ids extents))
  let clauses := g.regions.filterMap (clauseOf? ids extents)
  let body := { Body.ofCode instrs clauses with locals := g.locals, maxStack := g.maxStack }
  return (body.reserve fresh).placed

/-- The graph cut anew along its written code; block ids change. -/
def repartition (g : Graph) : Except Error Graph := do
  let body ← g.toBody
  body.toGraph

end Unravel.Graph
