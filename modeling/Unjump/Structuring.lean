import Unjump.Graph.Build
import Unjump.Graph.Verify
import Unjump.Rule

/-!
Structuring: rules are applied to a graph, one at a time, until every reachable block
is a construct in one nest.

Each step has to bring the graph closer to that goal.
-/

namespace Unjump

/-- The settings of a run. -/
structure Options where
  /-- How many steps a graph may take for each of its blocks. -/
  roundFactor : Nat := 8
  /-- Whether the graph is checked after every step. -/
  verifyEachStep : Bool := false
  /-- Whether jumps to a shared return become returns. -/
  shareReturns : Bool := false
  build : BuildOptions := {}
deriving DecidableEq, Inhabited, Repr

/-- How far a graph is from its goal. -/
structure Distance where
  /-- Reachable blocks that still have to be structured. -/
  pending : Nat
  backEdges : Nat
  /-- Reachable blocks that are entered from several places, or that close a cycle of entries. -/
  sharedEntries : Nat
deriving DecidableEq, Inhabited, Repr

namespace Distance

/-- The distance of a graph with the given flow. -/
def ofGraph (g : Graph) (flow : Flow) : Distance :=
  let ids := flow.reachable.toList
  let entries := (Array.range g.size).map fun id => (g.enteringPreds id).toList
  let isShared := fun id =>
    (entries.getD id []).length > 1 || (Graph.cycleFrom (entries.getD · []) id g.size id).isSome
  { pending := ids.countP fun id => (g.block id).isPending
    backEdges := flow.backEdges.length
    sharedEntries := ids.countP isShared }

/-- Whether the goal is reached. -/
def isZero (d : Distance) : Bool := d.pending == 0 && d.backEdges == 0 && d.sharedEntries == 0

/-- Whether one distance is smaller than another, compared part by part. -/
def lt (a b : Distance) : Bool :=
  a.pending < b.pending || (a.pending == b.pending &&
    (a.backEdges < b.backEdges ||
      (a.backEdges == b.backEdges && a.sharedEntries < b.sharedEntries)))

/-- The written form of a distance. -/
def text (d : Distance) : String := s!"({d.pending}, {d.backEdges}, {d.sharedEntries})"

end Distance

/-- Why a method or a graph could not be structured. -/
inductive StructuringError where
  | malformed (fault : Malformed)
  | invariant (violation : Violation)
  /-- No rule applies. -/
  | stuck (distance : Distance)
  /-- A rule did not bring the graph closer to its goal. -/
  | noProgress (rule : Rule) (before after : Distance)
  | roundLimit (limit : Nat)
deriving DecidableEq, Inhabited, Repr

/-- The complaint about a failed run. -/
def StructuringError.message : StructuringError → String
  | .malformed fault => "malformed input: " ++ fault.message
  | .invariant violation => "internal error: " ++ violation.message
  | .stuck distance => complaint "escape" distance distance
  | .noProgress rule before after => complaint rule.name before after
  | .roundLimit limit => s!"structuring did not finish within {limit} rounds"
where
  complaint (rule : String) (before after : Distance) : String :=
    s!"rule `{rule}` made no progress (pending, back edges, shared entries) " ++ before.text ++
      " -> " ++ after.text

/-- What a run did. -/
structure Report where
  /-- The applied rules, in order. -/
  applied : List Rule
deriving DecidableEq, Inhabited, Repr

namespace Report

/-- The number of steps. -/
def steps (report : Report) : Nat := report.applied.length

/-- The number of steps that kept a jump. -/
def escapes (report : Report) : Nat := report.applied.countP (·.isEscape)

end Report

/-- The graph that a run leaves behind, and how the run ended. -/
structure Outcome where
  graph : Graph
  result : Except StructuringError Report
deriving Inhabited

namespace Graph

/-- Moves the statements before a test into a block of their own. -/
def splitTest (g : Graph) (id : BlockId) : Graph :=
  let b := g.block id
  match b.type, b.code.reverse with
  | .raw .conditional, test :: last :: before =>
    let head := (last :: before).reverse
    let (statements, g) := g.addBlock (.raw .statements) b.start test.origin.offset
    let g := g.redirect id (.block statements)
    let g := g.update statements fun s =>
      { s with
        firstLine := b.firstLine
        lastLine := (last :: before).findSome? (·.origin.line)
        code := head
        next := some (.block id) }
    g.update id fun b =>
      { b with
        start := test.origin.offset
        firstLine := test.origin.line.or b.lastLine
        code := [test] }
  | _, _ => g

/-- Whether an expression only returns. -/
def isReturnVoid : Expr → Bool
  | .leaf _ .returnVoid => true
  | _ => false

/-- Turns the jumps to a return that several blocks share into returns of their own. -/
def shareReturn (g : Graph) (id : BlockId) : Graph :=
  let b := g.block id
  if b.type = .raw .returnVoid ∧ b.code.all isReturnVoid ∧ (g.flowPreds id).size ≥ 2 then
    (g.redirect id (.exit .methodReturn)).detach id
  else g

/-- The graph as the rules expect it. -/
def prepare (g : Graph) (options : Options) : Graph :=
  let g := g.reachable.toList.foldl splitTest g
  if options.shareReturns then g.reachable.toList.foldl shareReturn g else g

/-- The violation that a check after a step finds, if steps are checked. -/
def stepViolation? (g : Graph) (options : Options) : Option Violation :=
  if options.verifyEachStep then g.violation? else none

/-- Applies rules to a graph for a number of rounds. -/
def structureFor (options : Options) (limit : Nat) :
    (rounds : Nat) → (g : Graph) → (flow : Flow) → (before : Distance) →
      (applied : List Rule) → Outcome
  | rounds, g, flow, before, applied =>
    if before.isZero then
      match g.nestingViolation? with
      | some violation => ⟨g, .error (.invariant violation)⟩
      | none => ⟨g, .ok ⟨applied⟩⟩
    else match rounds with
      | 0 => ⟨g, .error (.roundLimit limit)⟩
      | rounds + 1 => match g.step? flow with
        | none => ⟨g, .error (.stuck before)⟩
        | some (rule, g) => match g.stepViolation? options with
          | some violation => ⟨g, .error (.invariant violation)⟩
          | none =>
            let flow := Flow.ofGraph g
            let after := Distance.ofGraph g flow
            if after.lt before then structureFor options limit rounds g flow after
              (applied ++ [rule])
            else ⟨g, .error (.noProgress rule before after)⟩

/-- Applies rules to a graph until every reachable block is structured. -/
def structured (g : Graph) (options : Options) : Outcome :=
  let g := g.prepare options
  match g.stepViolation? options with
  | some violation => ⟨g, .error (.invariant violation)⟩
  | none =>
    let limit := options.roundFactor * g.size + 16
    let flow := Flow.ofGraph g
    structureFor options limit limit g flow (Distance.ofGraph g flow) []

end Graph

/-- The structured graph of a method, and what was done to it. -/
def Method.structured (m : Method) (pool : Option Pool) (options : Options) :
    Except StructuringError (Graph × Report) :=
  match Graph.build m pool options.build with
  | .error fault => .error (.malformed fault)
  | .ok g =>
    let outcome := g.structured options
    outcome.result.map (outcome.graph, ·)

/-- Structures each of several named methods on its own. -/
def structureAll (methods : List (String × Method)) (pool : Option Pool) (options : Options) :
    List (String × Except StructuringError (Graph × Report)) :=
  methods.map fun (name, m) => (name, m.structured pool options)

end Unjump
