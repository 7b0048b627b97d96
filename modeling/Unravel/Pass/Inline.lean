import Unravel.Pass.Basic

/-! Inlining of forwarders. A forwarder loads its arguments in order and then only computes on the
   stack, so the code behind those loads can stand in place of a call. -/
namespace Unravel.Inline

/-- Forwarders may call forwarders, this many deep. -/
def depthLimit : Nat := 8

/-- An instruction may stand in spliced code. `accepts` tells which callees are forwarders. -/
def isSpliceable (ctx : PassContext) (accepts : Token → Bool) (i : Instr) : Bool :=
  if i.isTerminal || i.opcode.takesArgument || i.loadedArgument?.isSome ||
      i.loadedLocal?.isSome then false
  else
    match i.opcode, i.operand with
    | .call, .method m => accepts m.token
    | .ldsfld, .field f => f.owner == ctx.method.owner
    | .callvirt, _ | .calli, _ | .newobj, _ | .ldfld, _ | .ldsfld, _ => false
    | op, _ => !op.acts

/-- The instructions load the arguments from `n` on, one after another. -/
def loadsInOrder : Nat → List Instr → Bool
  | _, [] => true
  | n, i :: rest => i.loadedArgument? == some n && loadsInOrder (n + 1) rest

/-- The stack depth after some instructions, if it is known and never falls below zero. -/
def depthAfter? : Nat → List Instr → Option Nat
  | depth, [] => some depth
  | depth, i :: rest => do
    let effect ← i.stackEffect? false
    if depth < effect.pops then none
    else depthAfter? (depth - effect.pops + effect.pushes) rest

def straightCode? (ctx : PassContext) (callee : Method) : Option (List Instr) := do
  let body ← callee.readable?
  let last ← body.instrs.getLast?
  if (callee.hasThis && !ctx.config.inlineInstance) || !body.clauses.isEmpty ||
      ctx.config.inlineMax < body.instrs.length || body.instrs.any Instr.isJump ||
      last.opcode != .ret then none
  else some body.instrs.dropLast

/-- The code to splice in for a call, if the callee is a forwarder. `chain` lists the callees that
   are being looked into; neither they nor the method itself may be called again. -/
def splice? (ctx : PassContext) : Nat → List Token → Token → Option (List Instr)
  | 0, _, _ => none
  | fuel + 1, chain, token =>
    if token = ctx.method.token || chain.contains token then none
    else do
      let callee ← ctx.methods.resolve? token
      let code ← straightCode? ctx callee
      let loads := code.take callee.arity
      let rest := code.drop callee.arity
      let accepts (t : Token) : Bool := (splice? ctx fuel (token :: chain) t).isSome
      if code.length < callee.arity || !loadsInOrder 0 loads ||
          !rest.all (isSpliceable ctx accepts) then none
      else
        let depth ← depthAfter? callee.arity rest
        if depth = callee.returnsValue.toNat then some rest else none

def callee? (i : Instr) : Option Token :=
  match i.opcode, i.operand with
  | .call, .method m => some m.token
  | _, _ => none

def renumber : InstrId → List Instr → List Instr
  | _, [] => []
  | id, i :: rest => { i with id, offset := 0 } :: renumber id.next rest

/-- The call becomes the first spliced instruction, or nothing; the others get new ids. -/
def expand (fresh : InstrId) (call : Instr) : List Instr → List Instr
  | [] => [call.erase]
  | first :: rest =>
    { call with opcode := first.opcode, operand := first.operand } :: renumber fresh rest

def name : String := "call-inliner"

def event (ctx : PassContext) (block : BlockId) (callee : Token) : Event where
  kind := .methodInlined
  method := some ctx.method.token
  location := some block
  pass := some name
  message := "inlined " ++ ((ctx.methods.resolve? callee).map Method.fullName).getD callee.render

/-- Code with its calls to forwarders expanded, the next new id, and the callees expanded. -/
def expandAll (ctx : PassContext) :
    InstrId → List Instr → List Instr × InstrId × List Token
  | fresh, [] => ([], fresh, [])
  | fresh, i :: rest =>
    match (callee? i).bind fun t => (splice? ctx depthLimit [] t).map fun code => (t, code) with
    | none =>
      let (code, last, callees) := expandAll ctx fresh rest
      (i :: code, last, callees)
    | some (token, spliced) =>
      let (code, last, callees) := expandAll ctx (fresh.after (spliced.length - 1)) rest
      (expand fresh i spliced ++ code, last, token :: callees)

def inlineBlock (ctx : PassContext) (g : Graph) (id : BlockId) (b : Block) : PassRun :=
  let (code, fresh, callees) := expandAll ctx g.nextInstr b.instrs
  let edited := g.modify id fun b => { b with instrs := code }
  ⟨{ edited with nextInstr := fresh }, callees.map (event ctx id), .ok (!callees.isEmpty)⟩

def runAll (ctx : PassContext) : List BlockId → Graph → PassRun
  | [], g => ⟨g, [], .ok false⟩
  | id :: rest, g =>
    match g.block? id with
    | none => runAll ctx rest g
    | some b => (inlineBlock ctx g id b).andThen (runAll ctx rest)

def pass : Pass where
  name := name
  description := "Inline calls to trivial static forwarding helpers"
  run _ ctx g := runAll ctx g.layout g

end Unravel.Inline
