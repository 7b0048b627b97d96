import Unravel.Proofs.Flow.Walk
import Unravel.Proofs.Graph.Regions

/-!
Paths of control. Inside a block control goes to the next instruction, at its end along an edge, and
from anywhere in a protected block, unconditional jumps apart, to a handler or filter. What shows of
a path are the instructions that it visits and the kinds of the edges that it takes, without
unconditional jumps and edges. Two kinds of code have the same paths if each follows the other.
-/
namespace Unravel

/-- What shows of a path. -/
inductive Sign where
  | visit (mark : InstrId × Opcode × Option Operand)
  | choice (kind : EdgeKind)
deriving DecidableEq

def Instr.isBr (i : Instr) : Bool :=
  match i.opcode with
  | .br _ => true
  | _ => false

theorem Instr.isBr_iff {i : Instr} : i.isBr = true ↔ i.flow = .unconditional := by
  obtain ⟨id, opcode, operand, offset⟩ := i
  cases opcode <;> simp [Instr.isBr, Instr.flow, Opcode.flow]

def Instr.signs (i : Instr) : List Sign := if i.isBr then [] else [.visit i.mark]

def EdgeKind.signs : EdgeKind → List Sign
  | .always => []
  | kind => [.choice kind]

/-- The instruction at a place, and the places that control may go to from there. -/
structure Control (S : Type) where
  instr? : S → Option Instr
  Moves : S → EdgeKind → S → Prop

namespace Control
variable {S T : Type} {a : Control S} {b : Control T}

/-- What shows of the paths from a place. A path may be cut anywhere, before or after an
    instruction. -/
inductive Trail (c : Control S) : S → List Sign → Prop where
  | stop (s : S) : Trail c s []
  | visit {s : S} {i : Instr} (here : c.instr? s = some i) : Trail c s i.signs
  | step {s s' : S} {i : Instr} {kind : EdgeKind} {rest : List Sign} (here : c.instr? s = some i)
      (moves : c.Moves s kind s') (more : Trail c s' rest) :
      Trail c s (i.signs ++ kind.signs ++ rest)

def Leads (c : Control S) (s : S) (shown : List Sign) (s' : S) : Prop :=
  ∀ rest, c.Trail s' rest → c.Trail s (shown ++ rest)

theorem Leads.refl (c : Control S) (s : S) : c.Leads s [] s := fun _ trail => trail

theorem Leads.trans {c : Control S} {s s' s'' : S} {shown more : List Sign}
    (first : c.Leads s shown s') (second : c.Leads s' more s'') :
    c.Leads s (shown ++ more) s'' := by
  intro rest trail
  rw [List.append_assoc]
  exact first _ (second rest trail)

theorem Leads.onto {c : Control S} {s s' s'' : S} {shown : List Sign} (first : c.Leads s shown s')
    (second : c.Leads s' [] s'') : c.Leads s shown s'' := by
  have both := first.trans second
  rwa [List.append_nil] at both

theorem Leads.step {c : Control S} {s s' : S} {i : Instr} {kind : EdgeKind}
    (here : c.instr? s = some i) (moves : c.Moves s kind s') :
    c.Leads s (i.signs ++ kind.signs) s' :=
  fun _ trail => .step here moves trail

theorem Leads.silent {c : Control S} {s s' : S} {i : Instr} (here : c.instr? s = some i)
    (jumps : i.isBr = true) (moves : c.Moves s .always s') : c.Leads s [] s' := by
  have step := Leads.step here moves
  rwa [Instr.signs, if_pos jumps] at step

/-- Whatever one code does at a place, the other does as well, and comes to a related place. -/
def Matches (a : Control S) (b : Control T) (related : S → T → Prop) (s : S) (t : T) : Prop :=
  ∀ i, a.instr? s = some i → b.Trail t i.signs ∧ ∀ kind s', a.Moves s kind s' →
    ∃ t', related s' t' ∧ b.Leads t (i.signs ++ kind.signs) t'

def Follows (a : Control S) (b : Control T) (related : S → T → Prop) : Prop :=
  ∀ s t, related s t → a.Matches b related s t

theorem Follows.trail {related : S → T → Prop} (follows : Follows a b related) {s : S} {t : T}
    (here : related s t) {shown : List Sign} (trail : a.Trail s shown) : b.Trail t shown := by
  induction trail generalizing t with
  | stop => exact .stop t
  | visit found => exact (follows _ t here _ found).1
  | step found moves _ ih =>
    obtain ⟨t', there, leads⟩ := (follows _ t here _ found).2 _ _ moves
    exact leads _ (ih there)

end Control

def Graph.Catches (g : Graph) (id entry : BlockId) : Prop :=
  ∃ r ∈ g.regions, id ∈ r.tryBlocks ∧ entry ∈ r.entries

inductive Graph.Moves (g : Graph) : BlockId × Nat → EdgeKind → BlockId × Nat → Prop where
  | next {id : BlockId} {j : Nat} {b : Block} (live : g.block? id = some b)
      (more : j + 1 < b.instrs.length) : Moves g (id, j) .always (id, j + 1)
  | leaves {id : BlockId} {j : Nat} {b : Block} {e : Edge} (live : g.block? id = some b)
      (final : j + 1 = b.instrs.length) (edge : e ∈ b.edges) : Moves g (id, j) e.kind (e.target, 0)
  | caught {id t : BlockId} {j : Nat} {b : Block} {i : Instr} (live : g.block? id = some b)
      (here : b.instrs[j]? = some i) (loud : i.isBr = false) (catches : g.Catches id t) :
      Moves g (id, j) .always (t, 0)

def Graph.control (g : Graph) : Control (BlockId × Nat) where
  instr? s := (g.block? s.1).bind fun b => b.instrs[s.2]?
  Moves := g.Moves

def Block.exits (b : Block) : List (EdgeKind × BlockId) := b.edges.map fun e => (e.kind, e.target)

namespace Graph
variable {g : Graph} {id : BlockId} {b : Block} {j : Nat}

theorem instr?_control (live : g.block? id = some b) : g.control.instr? (id, j) = b.instrs[j]? := by
  simp only [control, live, Option.bind_some]

theorem Moves.exit {kind : EdgeKind} {t : BlockId} (live : g.block? id = some b)
    (final : j + 1 = b.instrs.length) (exits : (kind, t) ∈ b.exits) :
    g.control.Moves (id, j) kind (t, 0) := by
  obtain ⟨e, edge, same⟩ := List.mem_map.mp exits
  cases same
  exact .leaves live final edge

theorem moves_cases {kind : EdgeKind} {s : BlockId × Nat} (live : g.block? id = some b)
    (moves : g.control.Moves (id, j) kind s) :
    (kind = .always ∧ s = (id, j + 1) ∧ j + 1 < b.instrs.length) ∨
      (∃ t, s = (t, 0) ∧ j + 1 = b.instrs.length ∧ (kind, t) ∈ b.exits) ∨
      ∃ t i, kind = .always ∧ s = (t, 0) ∧ b.instrs[j]? = some i ∧ i.isBr = false ∧
        g.Catches id t := by
  cases moves with
  | next found more =>
    cases live.symm.trans found
    exact .inl ⟨rfl, rfl, more⟩
  | leaves found final edge =>
    cases live.symm.trans found
    exact .inr (.inl ⟨_, rfl, final, List.mem_map_of_mem (f := fun e => (e.kind, e.target)) edge⟩)
  | caught found here loud catches =>
    cases live.symm.trans found
    exact .inr (.inr ⟨_, _, rfl, rfl, here, loud, catches⟩)

end Graph
end Unravel
