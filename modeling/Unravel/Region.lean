import Unravel.Clause

namespace Unravel

structure Region where
  flags : ClauseFlags
  catchType : Option Token
  tryBlocks : List BlockId
  handlerBlocks : List BlockId
  filterBlocks : List BlockId
deriving DecidableEq, Inhabited, Repr

namespace Region

def handlerEntry? (r : Region) : Option BlockId := r.handlerBlocks.head?

def filterEntry? (r : Region) : Option BlockId := r.filterBlocks.head?

/-- Blocks that the runtime enters: the handler, then the filter. -/
def entries (r : Region) : List BlockId := r.handlerEntry?.toList ++ r.filterEntry?.toList

def contains (r : Region) (b : BlockId) : Bool :=
  r.tryBlocks.contains b || r.handlerBlocks.contains b || r.filterBlocks.contains b

def isEntry (r : Region) (b : BlockId) : Bool :=
  r.handlerEntry? == some b || r.filterEntry? == some b

/-- Whether the try, the handler and the filter range hold a block. -/
def membership (r : Region) (b : BlockId) : Bool × Bool × Bool :=
  (r.tryBlocks.contains b, r.handlerBlocks.contains b, r.filterBlocks.contains b)

def mapLists (f : List BlockId → List BlockId) (r : Region) : Region :=
  { r with
    tryBlocks := f r.tryBlocks
    handlerBlocks := f r.handlerBlocks
    filterBlocks := f r.filterBlocks }

/-- A list with an element added right after the first copy of another. -/
def insertAfter (head added : BlockId) : List BlockId → List BlockId
  | [] => []
  | b :: rest => if b = head then b :: added :: rest else b :: insertAfter head added rest

/-- The region after a block was split off another and placed behind it. -/
def inherit (r : Region) (head added : BlockId) : Region :=
  r.mapLists (insertAfter head added)

def without (r : Region) (removed : List BlockId) : Region :=
  r.mapLists fun blocks => blocks.filter fun b => !removed.contains b

/-- The region still protects something after a removal and keeps its entries. -/
def survives (r : Region) (removed : List BlockId) : Bool :=
  let entryLost :=
    match r.handlerEntry? with
    | none => true
    | some b => removed.contains b || r.filterEntry?.any removed.contains
  !entryLost && !(r.without removed).tryBlocks.isEmpty &&
    !(r.without removed).handlerBlocks.isEmpty

end Region
end Unravel
