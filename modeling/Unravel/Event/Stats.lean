import Unravel.Event.Basic

namespace Unravel

structure Duration where
  nanos : Nat := 0
deriving DecidableEq, Inhabited, Repr

namespace Duration

/-- A decimal fraction of so many places, without trailing zeros; empty if it is zero. -/
def fractionText (places n : Nat) : String :=
  let digits := Nat.toDigits 10 n
  let padded := List.replicate (places - digits.length) '0' ++ digits
  match (padded.reverse.dropWhile (· == '0')).reverse with
  | [] => ""
  | kept => "." ++ String.ofList kept

def inUnit (unit places : Nat) (name : String) (d : Duration) : String :=
  toString (d.nanos / unit) ++ fractionText places (d.nanos % unit) ++ name

/-- Whole milliseconds or more show in milliseconds, whole seconds or more in seconds; a shorter
   time does not show. -/
def render? (d : Duration) : Option String :=
  if 1000000000 ≤ d.nanos then some (d.inUnit 1000000000 9 "s")
  else if 1000000 ≤ d.nanos then some (d.inUnit 1000000 6 "ms")
  else none

end Duration

structure Stats where
  methodsChanged : Nat := 0
  equationsSimplified : Nat := 0
  branchesSimplified : Nat := 0
  constantsFolded : Nat := 0
  methodsInlined : Nat := 0
  blocksRemoved : Nat := 0
  blocksMerged : Nat := 0
  handlersRemoved : Nat := 0
  methodsRegenerated : Nat := 0
  warnings : Nat := 0
  errors : Nat := 0
  time : Duration := {}
deriving DecidableEq, Inhabited, Repr

namespace Stats

def ofJournal (j : Journal) : Stats where
  methodsChanged := j.changedMethods
  equationsSimplified := j.count .equationSimplified
  branchesSimplified := j.count .branchSimplified
  constantsFolded := j.count .constantFolded
  methodsInlined := j.count .methodInlined
  blocksRemoved := j.count .blockRemoved
  blocksMerged := j.count .blocksMerged
  handlersRemoved := j.count .handlerRemoved
  methodsRegenerated := j.count .codeRegenerated
  warnings := j.count .warning
  errors := j.count .error

def parts (s : Stats) : List String :=
  let named : List (Nat × String) :=
    [(s.methodsChanged, "methods"), (s.equationsSimplified, "equations"),
     (s.branchesSimplified, "branches simplified"), (s.constantsFolded, "constants folded"),
     (s.methodsInlined, "inlined"), (s.blocksRemoved, "blocks removed"),
     (s.blocksMerged, "blocks merged"), (s.handlersRemoved, "handlers removed"),
     (s.methodsRegenerated, "regenerated"), (s.errors, "errors"), (s.warnings, "warnings")]
  (named.filter fun (n, _) => n != 0).map fun (n, name) => toString n ++ " " ++ name

def summary (s : Stats) : String :=
  let counts := if s.parts.isEmpty then "no transformations" else ", ".intercalate s.parts
  match s.time.render? with
  | some time => counts ++ " in " ++ time
  | none => counts

end Stats
end Unravel
