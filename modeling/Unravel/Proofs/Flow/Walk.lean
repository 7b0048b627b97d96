import Unravel.Body.Basic
import Unravel.Proofs.Execution

/-!
Walks through code. A walk visits one instruction after another and is told at every two-way branch
and every switch which way to go. Code in blocks is walked along the stored edges, flat code by
index, with targets found by instruction id. Two kinds of code walk alike if all that one visits,
silent instructions left out, is what the other visits.
-/
namespace Unravel

/-- What a walk needs to know: the instruction at a place, and the place behind it with the ways
    that are left to take. -/
structure Walker (S : Type) where
  instr? : S → Option Instr
  next? : S → List Way → Option (S × List Way)

def Walker.walk {S : Type} (w : Walker S) : Nat → S → List Way → List Instr
  | 0, _, _ => []
  | n + 1, s, ways =>
    match w.instr? s with
    | none => []
    | some i =>
      i :: match w.next? s ways with
        | none => []
        | some (s', rest) => w.walk n s' rest

/-- Where a block leads. The edges of a two-way branch and of a switch take up one way. -/
def Block.depart? (b : Block) (ways : List Way) : Option (BlockId × List Way) :=
  match b.kind, ways with
  | .fallThrough, _ => b.fall.map fun t => (t, ways)
  | .branch, _ | .leave, _ => b.targets.head?.map fun t => (t, ways)
  | .conditional, .target 0 :: rest => b.targets.head?.map fun t => (t, rest)
  | .switch, .target n :: rest => b.targets[n]?.map fun t => (t, rest)
  | .conditional, .onward :: rest | .switch, .onward :: rest => b.fall.map fun t => (t, rest)
  | _, _ => none

def Graph.walker (g : Graph) : Walker (BlockId × Nat) where
  instr? s := (g.block? s.1).bind fun b => b.instrs[s.2]?
  next? s ways := (g.block? s.1).bind fun b =>
    if s.2 + 1 < b.instrs.length then some ((s.1, s.2 + 1), ways)
    else (b.depart? ways).map fun out => ((out.1, 0), out.2)

def Body.goal? (body : Body) (i : Instr) (n : Nat) : Option Nat :=
  i.targets[n]?.bind body.index?

def Body.depart? (body : Body) (n : Nat) (i : Instr) (ways : List Way) : Option (Nat × List Way) :=
  match i.flow, ways with
  | .sequential, _ | .call, _ => some (n + 1, ways)
  | .unconditional, _ | .leave, _ => (body.goal? i 0).map fun t => (t, ways)
  | .conditional, .target 0 :: rest => (body.goal? i 0).map fun t => (t, rest)
  | .switch, .target k :: rest => (body.goal? i k).map fun t => (t, rest)
  | .conditional, .onward :: rest | .switch, .onward :: rest => some (n + 1, rest)
  | _, _ => none

def Body.walker (body : Body) : Walker Nat where
  instr? n := body.instrs[n]?
  next? n ways := body.instrs[n]?.bind fun i => body.depart? n i ways

/-- What shows of a visited instruction. The operand of a jump only says where it goes. -/
def Instr.mark (i : Instr) : InstrId × Opcode × Option Operand :=
  (i.id, i.opcode, if i.isJump then none else some i.operand)

namespace Walker
variable {S T : Type} {a : Walker S} {b : Walker T} {silent : Instr → Bool}

theorem walk_grows (w : Walker S) (n : Nat) (s : S) (ways : List Way) :
    w.walk n s ways <+: w.walk (n + 1) s ways := by
  induction n generalizing s ways with
  | zero => exact List.nil_prefix
  | succ n ih =>
    rw [walk, walk]
    cases w.instr? s with
    | none => exact List.nil_prefix
    | some i =>
      refine (List.prefix_cons_inj i).mpr ?_
      cases w.next? s ways with
      | none => exact List.nil_prefix
      | some next => exact ih next.1 next.2

def Passes (b : Walker T) (silent : Instr → Bool) (t : T) (ways : List Way) (t' : T)
    (rest : List Way) : Prop :=
  b.next? t ways = some (t', rest) ∨
    ∃ u k, b.next? t ways = some (u, rest) ∧ b.instr? u = some k ∧ silent k = true ∧
      b.next? u rest = some (t', rest)

/-- Related places show the same instruction and go on to related places, or both stop. -/
def Follows (a : Walker S) (b : Walker T) (silent : Instr → Bool) (related : S → T → Prop) :
    Prop :=
  ∀ s t, related s t → ∃ i j, a.instr? s = some i ∧ b.instr? t = some j ∧ silent j = false ∧
    j.mark = i.mark ∧ ∀ ways,
      (a.next? s ways = none ∧ b.next? t ways = none) ∨
      ∃ s' t' rest, a.next? s ways = some (s', rest) ∧ b.Passes silent t ways t' rest ∧
        related s' t'

def shown (silent : Instr → Bool) (trail : List Instr) : List (InstrId × Opcode × Option Operand) :=
  (trail.filter fun i => !silent i).map Instr.mark

@[simp] theorem shown_silent {i : Instr} (quiet : silent i = true) (trail : List Instr) :
    shown silent (i :: trail) = shown silent trail := by
  simp [shown, quiet]

@[simp] theorem shown_loud {i : Instr} (loud : silent i = false) (trail : List Instr) :
    shown silent (i :: trail) = i.mark :: shown silent trail := by
  simp [shown, loud]

theorem shown_isPrefix {xs ys : List Instr} (before : xs <+: ys) :
    shown silent xs <+: shown silent ys :=
  (before.filter _).map _

theorem walk_shown {related : S → T → Prop} (follows : Follows a b silent related) (n : Nat)
    {s : S} {t : T} (here : related s t) (ways : List Way) :
    (a.walk n s ways).map Instr.mark <+: shown silent (b.walk (2 * n) t ways) := by
  induction n generalizing s t ways with
  | zero => exact List.nil_prefix
  | succ n ih =>
    obtain ⟨i, j, first, second, loud, same, goes⟩ := follows s t here
    rw [show 2 * (n + 1) = 2 * n + 1 + 1 from by omega, walk, walk]
    simp only [first, second, List.map_cons, shown_loud loud, same]
    refine (List.prefix_cons_inj _).mpr ?_
    rcases goes ways with ⟨stop, -⟩ | ⟨s', t', rest, next, passes, there⟩
    · simp only [stop]
      exact List.nil_prefix
    · simp only [next]
      rcases passes with direct | ⟨u, k, onto, silentInstr, quiet, through⟩
      · simp only [direct]
        exact (ih there rest).trans (shown_isPrefix (b.walk_grows _ _ _))
      · simp only [onto]
        rw [walk]
        simp only [silentInstr, through, shown_silent quiet]
        exact ih there rest

theorem shown_walk {related : S → T → Prop} (follows : Follows a b silent related) (n : Nat)
    {s : S} {t : T} (here : related s t) (ways : List Way) :
    shown silent (b.walk n t ways) <+: (a.walk n s ways).map Instr.mark := by
  induction n using Nat.strongRecOn generalizing s t ways with
  | ind n ih =>
    cases n with
    | zero => exact List.nil_prefix
    | succ n =>
      obtain ⟨i, j, first, second, loud, same, goes⟩ := follows s t here
      rw [walk, walk]
      simp only [first, second, List.map_cons, shown_loud loud, same]
      refine (List.prefix_cons_inj _).mpr ?_
      rcases goes ways with ⟨-, stop⟩ | ⟨s', t', rest, next, passes, there⟩
      · simp only [stop]
        exact List.nil_prefix
      · simp only [next]
        rcases passes with direct | ⟨u, k, onto, silentInstr, quiet, through⟩
        · simp only [direct]
          exact ih n (Nat.lt_succ_self n) there rest
        · simp only [onto]
          cases n with
          | zero => exact List.nil_prefix
          | succ n =>
            rw [walk]
            simp only [silentInstr, through, shown_silent quiet]
            exact (ih n (by omega) there rest).trans ((a.walk_grows _ _ _).map _)

/-- All that one code visits, the other visits too. A walk may go on forever; it is known by the
    finite parts that it starts with. -/
theorem alike {related : S → T → Prop} (follows : Follows a b silent related) {s : S} {t : T}
    (here : related s t) (ways : List Way) (seen : List (InstrId × Opcode × Option Operand)) :
    (∃ n, seen <+: (a.walk n s ways).map Instr.mark) ↔
      ∃ n, seen <+: shown silent (b.walk n t ways) := by
  constructor
  · rintro ⟨n, before⟩
    exact ⟨2 * n, before.trans (walk_shown follows n here ways)⟩
  · rintro ⟨n, before⟩
    exact ⟨n, before.trans (shown_walk follows n here ways)⟩

end Walker
end Unravel
