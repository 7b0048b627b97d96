import Unravel.Instr
import Unravel.Clause

/-! Method bodies: a flat list of instructions with exception clauses. Ids name instructions; where
   an id repeats, `lastIndex?` and all jumps mean the last instruction that has it. -/
namespace Unravel

structure Body where
  instrs : List Instr
  clauses : List Clause := []
  maxStack : Nat := 8
  locals : Nat := 0
  nextId : InstrId := 0
deriving DecidableEq, Inhabited, Repr

def freshId (instrs : List Instr) : InstrId :=
  instrs.foldl (fun n i => max n (InstrId.succ i.id)) 0

def lastIndex? (id : InstrId) : List Instr → Option Nat
  | [] => none
  | i :: rest =>
    match lastIndex? id rest with
    | some n => some (n + 1)
    | none => if i.id = id then some 0 else none

theorem lastIndex?_eq_none_iff (id : InstrId) (instrs : List Instr) :
    lastIndex? id instrs = none ↔ id ∉ instrs.map Instr.id := by
  induction instrs with
  | nil => simp [lastIndex?]
  | cons i rest ih =>
    rw [lastIndex?]
    split
    · rename_i n found
      have present : id ∈ rest.map Instr.id := by
        apply Decidable.byContradiction
        intro absent
        simp [ih.mpr absent] at found
      simp [present]
    · rename_i found
      have absent := ih.mp found
      by_cases same : i.id = id
      · simp [same]
      · simp only [same, if_false, List.map_cons, List.mem_cons, absent, or_false, true_iff]
        exact fun equal => same equal.symm

theorem id_of_lastIndex? {id : InstrId} {instrs : List Instr} {n : Nat}
    (found : lastIndex? id instrs = some n) : (instrs[n]?).map Instr.id = some id := by
  induction instrs generalizing n with
  | nil => simp [lastIndex?] at found
  | cons i rest ih =>
    rw [lastIndex?] at found
    split at found
    · rename_i m later
      cases found
      simpa using ih later
    · split at found
      · rename_i same
        cases found
        simp [same]
      · cases found

/-- The instructions with offsets that count their sizes from a start. -/
def place (start : Nat) : List Instr → List Instr
  | [] => []
  | i :: rest => { i with offset := start } :: place (start + i.size) rest

theorem length_place (start : Nat) (instrs : List Instr) :
    (place start instrs).length = instrs.length := by
  induction instrs generalizing start with
  | nil => rfl
  | cons i rest ih => simp [place, ih]

theorem map_id_place (start : Nat) (instrs : List Instr) :
    (place start instrs).map Instr.id = instrs.map Instr.id := by
  induction instrs generalizing start with
  | nil => rfl
  | cons i rest ih => simp [place, ih]

namespace Body

def ofCode (instrs : List Instr) (clauses : List Clause) : Body :=
  { instrs, clauses, nextId := freshId instrs }

def hasSwitch (b : Body) : Bool := b.instrs.any fun i => i.opcode == .switch

def firstIndex? (b : Body) (id : InstrId) : Option Nat :=
  b.instrs.findIdx? fun i => i.id == id

def index? (b : Body) (id : InstrId) : Option Nat := lastIndex? id b.instrs

def codeSize (b : Body) : Nat := b.instrs.foldr (fun i n => i.size + n) 0

def placed (b : Body) : Body := { b with instrs := place 0 b.instrs }

def reserve (b : Body) (n : InstrId) : Body := { b with nextId := max b.nextId n }

def alloc (b : Body) : InstrId × Body := (b.nextId, { b with nextId := b.nextId.next })

end Body
end Unravel
