import Mathlib.Logic.Relation
import Unravel.Engine

/-!
What an engine is asked to do, and what can come of it. A batch is cleaned by a crew, one worker for
each method. The workers share the registry, the methods and the journal, and take their steps in
any order; only the steps are indivisible. Which threads run the workers, how long that takes, and
that a callee may be replaced between two look-ups of one run are left out.
-/
namespace Unravel

/-- An engine and the methods in use, each known by its place. -/
structure World where
  engine : Engine
  methods : List Method

inductive Phase
  | waiting
  | running (body : Body)
  | recording (outcome : Outcome) (left : Journal)

structure Worker where
  place : Nat
  phase : Phase

structure Crew extends World where
  workers : List Worker

namespace Crew

def phased (c : Crew) (front : List Worker) (place : Nat) (phase : Phase) (back : List Worker) :
    Crew :=
  { c with workers := front ++ ⟨place, phase⟩ :: back }

/-- One worker takes a step. A method that cannot be read counts as aborted. What the calls of a
    body stand for when it is transformed is left open, since the others may have come to their
    ends with the callees or not. -/
inductive Step (c : Crew) : Crew → Prop where
  | refuse {front back : List Worker} {n : Nat} {m : Method}
      (at_ : c.workers = front ++ ⟨n, .waiting⟩ :: back) (object : c.methods[n]? = some m)
      (broken : m.broken = true) : Step c (c.phased front n (.recording .aborted []) back)
  | skip {front back : List Worker} {n : Nat} {m : Method}
      (at_ : c.workers = front ++ ⟨n, .waiting⟩ :: back) (object : c.methods[n]? = some m)
      (readable : m.broken = false) (idle : c.engine.gate? m = none) :
      Step c (c.phased front n (.recording .skipped []) back)
  | start {front back : List Worker} {n : Nat} {m : Method} {body : Body} {marked : Engine}
      (at_ : c.workers = front ++ ⟨n, .waiting⟩ :: back) (object : c.methods[n]? = some m)
      (readable : m.broken = false) (passes : c.engine.gate? m = some (body, marked)) :
      Step c { c.phased front n (.running body) back with engine := marked }
  | settle {front back : List Worker} {n : Nat} {m m' : Method} {body : Body} {outcome : Outcome}
      {events : Journal} (at_ : c.workers = front ++ ⟨n, .running body⟩ :: back)
      (object : c.methods[n]? = some m) (seen : Resolver)
      (settled : Engine.settle m (Engine.transform c.engine.config seen m body) =
        (outcome, m', events)) :
      Step c { c.phased front n (.recording outcome events) back with
        methods := c.methods.set n m' }
  | record {front back : List Worker} {n : Nat} {outcome : Outcome} {event : Event}
      {left : Journal}
      (at_ : c.workers = front ++ ⟨n, .recording outcome (event :: left)⟩ :: back) :
      Step c { c.phased front n (.recording outcome left) back with
        engine := c.engine.record [event] }

def Runs : Crew → Crew → Prop := Relation.ReflTransGen Step

/-- Every worker has come to an end, with these outcomes. -/
def Through (c : Crew) (outcomes : List Outcome) : Prop :=
  c.workers.map Worker.phase = outcomes.map fun outcome => .recording outcome []

end Crew

def World.crew (w : World) (places : List Nat) : Crew :=
  { w with workers := places.map fun n => ⟨n, .waiting⟩ }

/-- Something an engine is asked to do to the methods at some places. -/
inductive Call
  | clean (place : Nat) (seen : Resolver)
  | prune (place : Nat)
  | cleanAll (places : List Nat)

inductive Reply
  | cleaned (outcome : Outcome)
  | pruned
  | cleanedAll (batch : Batch)
  | failed (cause : Error)

/-- What can come of a call. One that fails leaves all as it was. -/
inductive World.Serves (w : World) : Call → Reply → World → Prop where
  | cleaned {n : Nat} {seen : Resolver} {m m' : Method} {outcome : Outcome} {e : Engine}
      (object : w.methods[n]? = some m) (done : w.engine.cleaned seen m = .ok (outcome, e, m')) :
      Serves w (.clean n seen) (.cleaned outcome) ⟨e, w.methods.set n m'⟩
  | uncleaned {n : Nat} {seen : Resolver} {m : Method} {cause : Error}
      (object : w.methods[n]? = some m) (failed : w.engine.cleaned seen m = .error cause) :
      Serves w (.clean n seen) (.failed cause) w
  | pruned {n : Nat} {m m' : Method} {e : Engine} (object : w.methods[n]? = some m)
      (done : w.engine.pruned m = .ok (e, m')) :
      Serves w (.prune n) .pruned ⟨e, w.methods.set n m'⟩
  | unpruned {n : Nat} {m : Method} {cause : Error} (object : w.methods[n]? = some m)
      (failed : w.engine.pruned m = .error cause) : Serves w (.prune n) (.failed cause) w
  | cleanedAll {places : List Nat} {c : Crew} {outcomes : List Outcome}
      (ran : (w.crew places).Runs c) (through : c.Through outcomes) :
      Serves w (.cleanAll places) (.cleanedAll (Engine.batch outcomes c.engine)) c.toWorld

/-- What can come of calls one after another. -/
inductive World.ServesAll : World → List Call → List Reply → World → Prop where
  | done {w : World} : ServesAll w [] [] w
  | next {w w' w'' : World} {call : Call} {calls : List Call} {reply : Reply}
      {replies : List Reply} (now : w.Serves call reply w')
      (rest : ServesAll w' calls replies w'') :
      ServesAll w (call :: calls) (reply :: replies) w''

end Unravel
