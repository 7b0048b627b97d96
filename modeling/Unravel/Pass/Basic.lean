import Unravel.Config
import Unravel.Error
import Unravel.Event.Basic
import Unravel.Graph.Basic
import Unravel.Method

namespace Unravel

structure PassContext where
  method : Method
  methods : Resolver
  config : Config
deriving Inhabited

/-- What a pass leaves behind. After an error the graph and the events are as far as the pass came;
   otherwise the result says whether the pass changed anything. -/
structure PassRun where
  graph : Graph
  events : Journal
  result : Except Error Bool

/-- A pass is told which round of its schedule runs it, from 0 on. -/
structure Pass where
  name : String
  description : String := "No description available"
  run : Nat → PassContext → Graph → PassRun

def PassRun.andThen (first : PassRun) (next : Graph → PassRun) : PassRun :=
  match first.result with
  | .error _ => first
  | .ok changed =>
    let second := next first.graph
    ⟨second.graph, first.events ++ second.events, second.result.map (changed || ·)⟩

theorem PassRun.andThen_ok {first : PassRun} {next : Graph → PassRun} {changed : Bool}
    (ran : (first.andThen next).result = .ok changed) :
    (∃ c, first.result = .ok c) ∧ (∃ c, (next first.graph).result = .ok c) ∧
      (first.andThen next).graph = (next first.graph).graph := by
  cases began : first.result with
  | error e =>
    simp only [PassRun.andThen, began] at ran
    cases ran
  | ok c =>
    simp only [PassRun.andThen, began] at ran ⊢
    refine ⟨⟨c, rfl⟩, ?_, trivial⟩
    cases after : (next first.graph).result with
    | ok c => exact ⟨c, rfl⟩
    | error e =>
      rw [after] at ran
      cases ran

theorem PassRun.andThen_keeps {P : Graph → Prop} {first : PassRun} {next : Graph → PassRun}
    (begins : P first.graph) (goes : P first.graph → P (next first.graph).graph) :
    P (first.andThen next).graph := by
  unfold PassRun.andThen
  split
  · exact begins
  · exact goes begins

def PassRun.Fine (P : Graph → Prop) (run : PassRun) : Prop :=
  (∃ changed, run.result = .ok changed) ∧ P run.graph

theorem PassRun.Fine.andThen {P Q : Graph → Prop} {first : PassRun} {next : Graph → PassRun}
    (begins : first.Fine P) (goes : P first.graph → (next first.graph).Fine Q) :
    (first.andThen next).Fine Q := by
  obtain ⟨⟨changed, went⟩, holds⟩ := begins
  obtain ⟨⟨more, after⟩, left⟩ := goes holds
  simp only [PassRun.andThen, went, PassRun.Fine, after]
  exact ⟨⟨changed || more, rfl⟩, left⟩

/-- A pass that leaves the graph alone and gives the answers of a script, one in each round. -/
def Pass.scripted (script : List (Except String Bool)) : Pass where
  name := "scripted"
  run round _ g :=
    ⟨g, [], ((script[round]?).getD (.ok false)).mapError fun reason => .graph (.refused reason)⟩

end Unravel
