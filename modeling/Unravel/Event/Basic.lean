import Unravel.Token

/-! Events: what was done to a method, and notes about it. A journal lists events in the order in
   which they were recorded. -/
namespace Unravel

inductive EventKind
  | equationSimplified | branchSimplified | constantFolded | methodInlined | blockRemoved
  | blocksMerged | handlerRemoved | codeRegenerated | info | warning | error
deriving DecidableEq, Inhabited, Repr

namespace EventKind

def all : List EventKind :=
  [equationSimplified, branchSimplified, constantFolded, methodInlined, blockRemoved,
   blocksMerged, handlerRemoved, codeRegenerated, info, warning, error]

def description : EventKind → String
  | equationSimplified => "equation simplified"
  | branchSimplified => "branch simplified"
  | constantFolded => "constant folded"
  | methodInlined => "method inlined"
  | blockRemoved => "block removed"
  | blocksMerged => "blocks merged"
  | handlerRemoved => "handler removed"
  | codeRegenerated => "code regenerated"
  | info => "info"
  | warning => "warning"
  | error => "error"

def isNote : EventKind → Bool
  | info | warning | error => true
  | _ => false

def isChange (k : EventKind) : Bool := !k.isNote

end EventKind

/-- `location` is a block or an instruction of the method; `pass` is who did it. -/
structure Event where
  kind : EventKind
  method : Option Token := none
  location : Option Nat := none
  message : String := kind.description
  pass : Option String := none
deriving DecidableEq, Inhabited, Repr

def Event.render (e : Event) : String :=
  match e.method with
  | some method => "[" ++ e.kind.description ++ "] " ++ method.render ++ ": " ++ e.message
  | none => "[" ++ e.kind.description ++ "] " ++ e.message

abbrev Journal := List Event

namespace Journal

def has (j : Journal) (kind : EventKind) : Bool := j.any fun e => e.kind == kind

def ofKind (j : Journal) (kind : EventKind) : Journal := j.filter fun e => e.kind == kind

def ofMethod (j : Journal) (method : Token) : Journal := j.filter fun e => e.method == some method

def count (j : Journal) (kind : EventKind) : Nat := j.countP fun e => e.kind == kind

def counts (j : Journal) : List (EventKind × Nat) :=
  (EventKind.all.map fun kind => (kind, count j kind)).filter fun (_, n) => n != 0

def changedMethods (j : Journal) : Nat :=
  ((j.filter fun e => e.kind.isChange).filterMap Event.method).eraseDups.length

def summary (j : Journal) : String :=
  if j.isEmpty then "no events"
  else
    let changes := (counts j).filter fun (kind, _) => kind.isChange
    let parts := changes.map fun (kind, n) => toString n ++ " " ++ kind.description
    if parts.isEmpty then toString j.length ++ " events"
    else ", ".intercalate (parts.mergeSort fun a b => decide (a ≤ b))

end Journal
end Unravel
