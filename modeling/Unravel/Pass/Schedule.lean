import Unravel.Graph.Merge
import Unravel.Graph.Reach
import Unravel.Pass.Fold
import Unravel.Pass.Inline

/-! Schedules: passes in order, then removal of dead blocks and merging of chains, again and again
   until a round changes nothing or the limit is reached. -/
namespace Unravel

structure Schedule where
  limit : Nat
  passes : List Pass := []

/-- What a schedule leaves behind; the result counts its rounds. -/
structure ScheduleRun where
  graph : Graph
  events : Journal
  result : Except Error Nat

namespace Schedule

def ofConfig (c : Config) : Schedule where
  limit := c.maxIterations
  passes := (if c.inlining then [Inline.pass] else []) ++ if c.folding then [Fold.pass] else []

def runPasses (round : Nat) (ctx : PassContext) : List Pass → Graph → PassRun
  | [], g => ⟨g, [], .ok false⟩
  | p :: rest, g => (p.run round ctx g).andThen (runPasses round ctx rest)

def normalize (ctx : PassContext) (g : Graph) : PassRun :=
  match g.removeDead with
  | .error e => ⟨g, [], .error e⟩
  | .ok (removed, live) =>
    let (merged, final) := live.merge
    let event (kind : EventKind) : Event := { kind, method := some ctx.method.token }
    ⟨final,
     List.replicate removed (event .blockRemoved) ++
      List.replicate (g.regions.length - live.regions.length) (event .handlerRemoved) ++
      List.replicate merged (event .blocksMerged),
     .ok (removed != 0 || merged != 0)⟩

def runRound (passes : List Pass) (round : Nat) (ctx : PassContext) (g : Graph) : PassRun :=
  (runPasses round ctx passes g).andThen (normalize ctx)

def runRounds (passes : List Pass) (ctx : PassContext) : Nat → Nat → Graph → ScheduleRun
  | 0, round, g => ⟨g, [], .ok round⟩
  | n + 1, round, g =>
    let once := runRound passes round ctx g
    match once.result with
    | .error e => ⟨once.graph, once.events, .error e⟩
    | .ok false => ⟨once.graph, once.events, .ok (round + 1)⟩
    | .ok true =>
      let more := runRounds passes ctx n (round + 1) once.graph
      ⟨more.graph, once.events ++ more.events, more.result⟩

def run (s : Schedule) (ctx : PassContext) (g : Graph) : ScheduleRun :=
  runRounds s.passes ctx s.limit 0 g

end Schedule
end Unravel
