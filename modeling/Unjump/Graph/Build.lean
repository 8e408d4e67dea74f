import Unjump.Graph.Reach
import Unjump.Run

/-!
The raw graph of a method: a block for every run, and an entry for every protected range.

The protected ranges are the rows of the exception table, grouped by what they protect.
-/

namespace Unjump

/-- How a method is turned into a graph. -/
structure BuildOptions where
  /-- Whether a range that only extends a `finally` to a catch body is dropped. -/
  foldFinally : Bool := true
  /-- Whether rows with one handler and one range make a single catch of several classes. -/
  mergeCatches : Bool := true
deriving DecidableEq, Inhabited, Repr

/-- A handler of a protected range. -/
structure Guard where
  handler : Offset
  /-- The caught classes, none for a handler that catches everything. -/
  classes : List PoolIndex
deriving DecidableEq, Inhabited, Repr

/-- Whether a handler catches everything. -/
def Guard.isFinally (guard : Guard) : Bool := guard.classes.isEmpty

/-- A range of code with all handlers that guard it, in the order of the table. -/
structure ProtectedRange where
  start : Offset
  finish : Offset
  guards : List Guard
deriving DecidableEq, Inhabited, Repr

/-- Appends a row to the handlers of a range, as a further class of one that it can share. -/
def addGuard (merge : Bool) (handler : Offset) (caught : Option PoolIndex) : List Guard → List Guard
  | [] => [⟨handler, caught.toList⟩]
  | guard :: rest =>
    if merge && caught.isSome && guard.handler == handler && !guard.isFinally then
      { guard with classes := guard.classes ++ caught.toList } :: rest
    else guard :: addGuard merge handler caught rest

/-- Appends a row to the range that it protects, which is new if no earlier row protects it. -/
def addRow (merge : Bool) (row : ExceptionRow) : List ProtectedRange → List ProtectedRange
  | [] => [⟨row.start, row.finish, addGuard merge row.handler row.catchType []⟩]
  | range :: rest =>
    if range.start = row.start ∧ range.finish = row.finish then
      { range with guards := addGuard merge row.handler row.catchType range.guards } :: rest
    else range :: addRow merge row rest

namespace ProtectedRange

/-- The handler that catches everything and the handlers that do not, of a range with both. -/
def finallyAndCatches? (range : ProtectedRange) : Option (Offset × List Offset) :=
  let catches := (range.guards.filter (!·.isFinally)).map (·.handler)
  match range.guards.find? (·.isFinally) with
  | some last => if catches.isEmpty then none else some (last.handler, catches)
  | none => none

/-- Whether a range only extends the `finally` of another one to one of its catch bodies. -/
def extendsFinally (ranges : List ProtectedRange) (range : ProtectedRange) : Bool :=
  match range.guards with
  | [guard] =>
    guard.isFinally && (ranges.filterMap finallyAndCatches?).any fun (last, catches) =>
      last == guard.handler && catches.contains range.start
  | _ => false

/-- Whether one range comes before another: by its start, and the longer first. -/
def before (a b : ProtectedRange) : Bool :=
  a.start < b.start || (a.start == b.start && b.finish ≤ a.finish)

/-- Of two ranges one comes before the other. -/
theorem before_total (a b : ProtectedRange) : (before a b || before b a) = true := by
  -- Offsets are compared as numbers.
  simp only [before, Bool.or_eq_true, Bool.and_eq_true, beq_iff_eq, decide_eq_true_eq,
    UInt32.lt_iff_toNat_lt, UInt32.le_iff_toNat_le, ← UInt32.toNat_inj]
  omega

/-- What comes before a range comes before all that come after it. -/
theorem before_trans (a b c : ProtectedRange) (first : before a b = true)
    (second : before b c = true) : before a c = true := by
  simp only [before, Bool.or_eq_true, Bool.and_eq_true, beq_iff_eq, decide_eq_true_eq,
    UInt32.lt_iff_toNat_lt, UInt32.le_iff_toNat_le, ← UInt32.toNat_inj] at first second ⊢
  omega

/-- Whether a block is code inside the range. -/
def holds (range : ProtectedRange) (b : Block) : Bool :=
  match b.type with
  | .raw .tryBlock => false
  | .raw _ => range.start ≤ b.start && b.start < range.finish
  | _ => false

/-- The protected ranges of an exception table, outer ones first. -/
def ofTable (table : List ExceptionRow) (options : BuildOptions) : List ProtectedRange :=
  -- A row that protects its own handler is an artefact of compilers and protects nothing
  -- of the program.
  let ranges :=
    (table.filter (!·.coversHandler)).foldl
      (fun ranges row => addRow options.mergeCatches row ranges) []
  let kept := if options.foldFinally then ranges.filter (!extendsFinally ranges ·) else ranges
  kept.mergeSort before

end ProtectedRange

/-- The name of a caught class, its index where the pool does not name it. -/
def catchName (pool : Option Pool) (index : PoolIndex) : String :=
  (pool.bind (·.className? index)).getD s!"#{index.toNat}"

/-- The handlers of a range in the graph. -/
def ProtectedRange.handlers (range : ProtectedRange) (pool : Option Pool)
    (blockAt : Offset → Option BlockId) : Except Malformed (List Handler) :=
  range.guards.mapM fun guard =>
    match blockAt guard.handler with
    | none => .error (.danglingHandler guard.handler)
    | some id =>
      let names := guard.classes.map (catchName pool)
      .ok { throwable := names.head?, others := names.tail, target := .block id }

namespace Graph

/-- Puts the entry of a protected range before its first block, for all edges
from outside the range. -/
def protect (g : Graph) (pool : Option Pool) (blockAt : Offset → Option BlockId)
    (range : ProtectedRange) : Except Malformed Graph := do
  let some first := blockAt range.start | throw (.invalidExceptionRange range.start range.finish)
  let handlers ← range.handlers pool blockAt
  let (entry, g) := g.addBlock (.raw .tryBlock) range.start range.start
  let g := g.redirectFrom first (.block entry) fun pred => !range.holds (g.block pred)
  return g.update entry fun b => { b with next := some (.block first), handlers }

/-- The graph whose entry leads to the first of the given blocks. -/
def ofBlocks (blocks : List Block) : Graph :=
  let entry := { blankBlock with next := if blocks.isEmpty then none else some (.block 1) }
  relink ⟨(entry :: blocks).toArray⟩

/-- Removes the edges of blocks that cannot be reached, so that they are nobody's predecessors. -/
def prune (g : Graph) : Graph :=
  let reached := g.reachable
  (g.ids.filter (· ∉ reached)).foldl detach g

/-- The raw graph of a method. -/
def build (m : Method) (pool : Option Pool) (options : BuildOptions) : Except Malformed Graph := do
  if let some fault := m.fault? then throw fault
  let runs := m.runs
  let blockAt := blockAt? runs
  let g := ofBlocks (← Run.toBlocks m pool blockAt runs 1 0)
  let g ← (ProtectedRange.ofTable m.exceptions options).foldlM (·.protect pool blockAt ·) g
  return g.prune

end Graph

end Unjump
