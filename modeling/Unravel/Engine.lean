import Unravel.Body.Branches
import Unravel.Event.Stats
import Unravel.Graph.Flatten
import Unravel.Pass.Schedule
import Unravel.Predicate
import Unravel.Registry

/-! The cleaning engine. It cleans each method at most once, replaces a body only as a whole, and
   keeps a journal of what it did. -/
namespace Unravel

structure Engine where
  config : Config := {}
  registry : Registry := {}
  journal : Journal := []
deriving DecidableEq, Inhabited, Repr

inductive Outcome
  | skipped | transformed | aborted
deriving DecidableEq, Inhabited, Repr

structure Batch where
  processed : Nat
  skipped : Nat
  failed : Nat
  stats : Stats
deriving DecidableEq, Inhabited, Repr

def Batch.summary (b : Batch) : String :=
  toString b.processed ++ " processed, " ++ toString b.skipped ++ " skipped, " ++
    toString b.failed ++ " failed (" ++ b.stats.summary ++ ")"

namespace Engine

def taken : UInt32 := 1

/-- Write a graph out as a checked body with the shortest branches. -/
def finish (m : Method) (g : Graph) : Except Error Body := do
  let body ← g.toBody
  body.widen.narrow.measured m.returnsValue

/-- Opaque predicates are looked for only in bodies with a switch. -/
def simplified (c : Config) (methods : Resolver) (m : Method) (b : Body) : Body × Journal :=
  if c.equations && b.hasSwitch then Predicate.simplify methods m.token b else (b, [])

def transform (c : Config) (methods : Resolver) (m : Method) (b : Body) :
    Except Error (Body × Journal) := do
  let (body, early) := simplified c methods m b
  let graph ← body.toGraph
  let run := (Schedule.ofConfig c).run ⟨m, methods, c⟩ graph
  let _ ← run.result
  let (_, live) ← run.graph.removeDead
  let body ← finish m live
  return (body, early ++ run.events)

def record (e : Engine) (events : Journal) : Engine := { e with journal := e.journal ++ events }

/-- The body to work on, if the method has code and is taken up now for the first time. -/
def gate? (e : Engine) (m : Method) : Option (Body × Engine) :=
  match m.code?, e.registry.take m.token taken with
  | some body, (true, registry) => some (body, { e with registry })
  | _, _ => none

/-- What becomes of a method after an attempt to transform it, and what is recorded of that. -/
def settle (m : Method) : Except Error (Body × Journal) → Outcome × Method × Journal
  | .ok (body, events) =>
    (.transformed, { m with body := some body },
      events ++ [{ kind := .codeRegenerated, method := some m.token }])
  | .error cause =>
    (.aborted, m, [{ kind := .warning, method := some m.token
                     message := m.fullName ++ ": " ++ cause.message }])

def cleaned (e : Engine) (methods : Resolver) (m : Method) :
    Except Error (Outcome × Engine × Method) :=
  if m.broken then .error .locked
  else
    match e.gate? m with
    | none => .ok (.skipped, e, m)
    | some (body, e) =>
      let (outcome, m, events) := settle m (transform e.config methods m body)
      .ok (outcome, e.record events, m)

def pruned (e : Engine) (m : Method) : Except Error (Engine × Method) :=
  if m.broken then .error .locked
  else
    match m.code? with
    | none => .ok (e, m)
    | some body => do
      let graph ← body.toGraph
      let (removed, live) ← graph.removeDead
      let again ← live.repartition
      let body ← finish m again
      let event : Event := { kind := .blockRemoved, method := some m.token }
      return (e.record (List.replicate removed event), { m with body := some body })

def cleanMethod (e : Engine) (methods : MethodTable) (m : Method) :
    Except Error (Outcome × Engine × MethodTable) := do
  let (outcome, e, m) ← e.cleaned methods m
  return (outcome, e, if outcome = .transformed then methods.adopt m else methods)

def pruneMethod (e : Engine) (methods : MethodTable) (m : Method) :
    Except Error (Engine × MethodTable) := do
  let (e, m') ← e.pruned m
  return (e, if m.code?.isSome then methods.adopt m' else methods)

/-- Clean the methods behind some others one after another; each sees what became of those before.
    A method that cannot be read counts as aborted. -/
def cleanEach (e : Engine) (front : List Method) :
    List Method → List Outcome × Engine × List Method
  | [] => ([], e, front)
  | m :: rest =>
    match e.cleaned (MethodTable.mk (front ++ m :: rest)) m with
    | .error _ =>
      let (outcomes, last) := cleanEach e (front ++ [m]) rest
      (.aborted :: outcomes, last)
    | .ok (outcome, e, m) =>
      let (outcomes, last) := cleanEach e (front ++ [m]) rest
      (outcome :: outcomes, last)

/-- The counts of the outcomes of a run, and the statistics of the whole journal behind it. -/
def batch (outcomes : List Outcome) (e : Engine) : Batch where
  processed := outcomes.count .transformed
  skipped := outcomes.count .skipped
  failed := outcomes.count .aborted
  stats := .ofJournal e.journal

/-- Clean all methods of a table in ascending order of their tokens. -/
def cleanAll (e : Engine) (methods : MethodTable) : Batch × Engine × MethodTable :=
  let (outcomes, e, methods) := e.cleanEach [] methods.methods
  (batch outcomes e, e, ⟨methods⟩)

end Engine
end Unravel
