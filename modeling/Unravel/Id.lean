/-!
Names of instructions and blocks. Both are plain numbers that stay with what they name while code
moves.
-/
namespace Unravel

abbrev InstrId := Nat

abbrev BlockId := Nat

namespace InstrId

/-- Ids are words of 32 bits. -/
def largest : Nat := 0xFFFFFFFF

/-- The first id above one in use; the largest has none. -/
def succ (id : InstrId) : InstrId := min (id + 1) largest

/-- The counter after it has given an id away. Behind the largest it starts again. -/
def next (id : InstrId) : InstrId := (id + 1) % 4294967296

def after (id : InstrId) : Nat → InstrId
  | 0 => id
  | n + 1 => after id.next n

/-- The counter can give so many ids away without an overflow. Where it cannot, arithmetic that is
    checked ends the program, and arithmetic that is not hands out ids again that are in use. -/
def Room (id n : Nat) : Prop := n ≠ 0 → id + n ≤ largest

instance (id n : Nat) : Decidable (Room id n) :=
  inferInstanceAs (Decidable (n ≠ 0 → id + n ≤ largest))

theorem Room.split {id m n : Nat} (room : Room id (m + n)) : Room id m ∧ Room (id + m) n := by
  constructor
  · intro some_
    have bound := room (by omega)
    omega
  · intro some_
    have bound := room (by omega)
    omega

theorem next_of_room {id : Nat} (room : Room id 1) : next id = (id + 1 : Nat) := by
  have bound : id + 1 ≤ 0xFFFFFFFF := room Nat.one_ne_zero
  change (id + 1) % 4294967296 = id + 1
  omega

theorem after_of_room {id n : Nat} (room : Room id n) : after id n = (id + n : Nat) := by
  induction n generalizing id with
  | zero => rfl
  | succ n ih =>
    obtain ⟨one, rest⟩ := Room.split (Nat.add_comm n 1 ▸ room)
    rw [after, next_of_room one, ih rest]
    change id + 1 + n = id + (n + 1)
    omega

end InstrId

def InstrId.render (id : InstrId) : String := "#" ++ toString id

def BlockId.render (id : BlockId) : String := "B" ++ toString id

end Unravel
