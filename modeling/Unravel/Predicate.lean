import Unravel.Event.Basic
import Unravel.Method

/-! Opaque predicates. Where a call is followed by a test of its result and a `pop`, and the callee
   is known to return always the same, the call goes and the test becomes a jump or goes too. -/
namespace Unravel

/-- What is known of a callee; `unknown` is one that returns no truth value. -/
inductive Verdict
  | alwaysFalse | alwaysTrue | unknown
deriving DecidableEq, Inhabited, Repr

def Verdict.text : Verdict → String
  | alwaysFalse => "AlwaysFalse"
  | alwaysTrue => "AlwaysTrue"
  | unknown => "Unknown"

inductive TestFate
  | gone | jump
deriving DecidableEq, Inhabited, Repr

def TestFate.text : TestFate → String
  | gone => "Nop"
  | jump => "Br"

namespace Predicate

/-- A callee that returns no truth value counts as one that returns false. -/
def fateOf (ifTrue : Bool) : Verdict → TestFate
  | .alwaysTrue => if ifTrue then .jump else .gone
  | .alwaysFalse | .unknown => if ifTrue then .gone else .jump

/-- The verdict on a readable method: the literal in front of its last instruction. -/
def verdict? (callee : Method) (body : Body) : Option Verdict :=
  if !callee.returnsBoolean then some .unknown
  else if body.instrs.length < 2 then none
  else do
    let before ← body.instrs[body.instrs.length - 2]?
    let n ← before.literal?
    return if n = 0 then .alwaysFalse else .alwaysTrue

/-- The verdict on the callee of a call without arguments that returns a value. -/
def classify? (methods : Resolver) (call : Instr) : Option Verdict := do
  if call.opcode != .call then none
  else
    let m ← call.method?
    if m.params != 0 || m.hasThis || !m.returns then none
    else
      let callee ← methods.resolve? m.token
      let body ← callee.readable?
      verdict? callee body

/-- The test of a call's result in front of a `pop`, with the verdict on the callee. -/
def site? (methods : Resolver) (call test next : Instr) :
    Option (Form × TestFate × Verdict) :=
  match test.opcode, next.opcode with
  | .branch .isTrue form, .pop =>
    (classify? methods call).map fun v => (form, fateOf true v, v)
  | .branch .isFalse form, .pop =>
    (classify? methods call).map fun v => (form, fateOf false v, v)
  | _, _ => none

def settleTest (form : Form) (test : Instr) : TestFate → Instr
  | .gone => test.erase
  | .jump => { test with opcode := .br form }

def event (method : Token) (index : Nat) (fate : TestFate) (v : Verdict) : Event where
  kind := .equationSimplified
  method := some method
  location := some index
  message := v.text ++ " predicate, branch becomes " ++ fate.text

/-- Settle the sites behind an instruction, front to back, and count them. `index` is the place of
    the instruction after `previous`. -/
def scan (methods : Resolver) (method : Token) (index : Nat) (previous : Instr) :
    List Instr → List Instr × Journal × Nat
  | test :: next :: rest =>
    match site? methods previous test next with
    | some (form, fate, v) =>
      let test := settleTest form test fate
      let (code, events, count) := scan methods method (index + 1) test (next :: rest)
      (previous.erase :: code, event method index fate v :: events, count + 1)
    | none =>
      let (code, events, count) := scan methods method (index + 1) test (next :: rest)
      (previous :: code, events, count)
  | rest => (previous :: rest, [], 0)

/-- The body with all sites settled, an event for each, and their number. -/
def settle (methods : Resolver) (method : Token) (b : Body) : Body × Journal × Nat :=
  match b.instrs with
  | [] => (b, [], 0)
  | first :: rest =>
    let (code, events, count) := scan methods method 1 first rest
    ({ b with instrs := code }, events, count)

/-- What goes on from a body with its sites settled; nobody asks how many there were. -/
def simplify (methods : Resolver) (method : Token) (b : Body) : Body × Journal :=
  let (b, events, _) := settle methods method b
  (b, events)

end Predicate
end Unravel
