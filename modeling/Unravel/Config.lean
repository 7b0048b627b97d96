namespace Unravel

/-- `inlineMax` is the greatest length of a body that is inlined. Unknown flags are kept. -/
structure Config where
  maxIterations : Nat := 20
  inlining : Bool := true
  folding : Bool := true
  equations : Bool := true
  inlineMax : Nat := 16
  inlineInstance : Bool := false
  flags : UInt32 := 0
deriving DecidableEq, Inhabited, Repr

/-- Folding also replaces computations that decide no branch, unless a flag forbids it. -/
def Config.foldExtra (c : Config) : Bool := c.flags &&& 2 == 0

end Unravel
