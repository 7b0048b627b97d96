import Unravel.Graph.Edit

/-! Reachability. Besides its successors, a protected block leads to the handler and the filter of
   every region that protects it, since the runtime may go there from anywhere inside. -/
namespace Unravel

/-- All that can be reached from `work` by `next` within `live`, added to `seen`. -/
def gather (next : Nat → List Nat) (live : Nat → Bool) : Nat → List Nat → List Nat → List Nat
  | fuel + 1, x :: work, seen =>
    if !live x || seen.contains x then gather next live fuel work seen
    else gather next live fuel (next x ++ work) (x :: seen)
  | _, _, seen => seen

namespace Graph

def leadsTo (g : Graph) (id : BlockId) : List BlockId :=
  g.successors id ++ (g.regions.filter fun r => r.tryBlocks.contains id).flatMap Region.entries

def reachBudget (g : Graph) : Nat := 1 + (g.layout.flatMap g.leadsTo).length

/-- Live blocks that control can reach from the entry, in layout order. -/
def reachable (g : Graph) : List BlockId :=
  let seen := gather g.leadsTo g.contains g.reachBudget [g.entry] []
  g.layout.filter seen.contains

def unreachable (g : Graph) : List BlockId :=
  let reached := g.reachable
  g.layout.filter fun id => !reached.contains id

def removeDead (g : Graph) : Except Error (Nat × Graph) :=
  if g.unreachable.isEmpty then .ok (0, g) else g.remove g.unreachable

end Graph
end Unravel
