import Unravel.Text.Mark
import Unravel.Text.Unassigned

/-! Characters that do not show by themselves: controls, blanks other than the space, fillers,
   format marks, private characters, marks that attach to the character before them, and code
   points that no character has been assigned to. -/
namespace Unravel.Text

/-- First and last of each run of controls, blanks, format marks and private characters. -/
def blankRanges : List (Nat × Nat) :=
  [(0x0, 0x1F), (0x7F, 0xA0), (0xAD, 0xAD), (0x600, 0x605), (0x61C, 0x61C), (0x6DD, 0x6DD),
   (0x70F, 0x70F), (0x890, 0x891), (0x8E2, 0x8E2), (0x1680, 0x1680), (0x180E, 0x180E),
   (0x2000, 0x200F), (0x2028, 0x202F), (0x205F, 0x2064), (0x2066, 0x206F), (0x3000, 0x3000),
   (0xE000, 0xF8FF), (0xFEFF, 0xFEFF), (0xFFF9, 0xFFFB), (0x110BD, 0x110BD), (0x110CD, 0x110CD),
   (0x13430, 0x1343F), (0x1BCA0, 0x1BCA3), (0x1D173, 0x1D17A), (0xE0001, 0xE0001),
   (0xE0020, 0xE007F), (0xF0000, 0xFFFFD), (0x100000, 0x10FFFD)]

/-- First and last of each run of fillers: letters that hold an empty place in a syllable and that
    a display may leave out. -/
def fillerRanges : List (Nat × Nat) :=
  [(0x115F, 0x1160), (0x3164, 0x3164), (0xFFA0, 0xFFA0)]

def within (ranges : List (Nat × Nat)) (c : Char) : Bool :=
  ranges.any fun (first, last) => first ≤ c.toNat && c.toNat ≤ last

def isUnseen (c : Char) : Bool :=
  if ' ' ≤ c && c ≤ '~' then false
  else within blankRanges c || within fillerRanges c || within markRanges c ||
    within unassignedRanges c

end Unravel.Text
