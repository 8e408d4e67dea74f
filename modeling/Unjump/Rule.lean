import Unjump.Construct.Jump
import Unjump.Construct.Loop
import Unjump.Construct.Plain
import Unjump.Construct.Switch
import Unjump.Construct.Test

/-! The rules that turn raw blocks into constructs, and the order in which they are tried. -/

namespace Unjump

/-- The rules, in the order in which they are tried. -/
inductive Rule where
  | dropGoto | settlePlain | selectTest | mergeTests | wrapLoop | nestIf | nestSwitch | nestTry
    | settleCall
  /-- The last resorts, which keep literal jumps. -/
  | jumpTest | jumpSwitch | jumpTry | forceCall | unshareEntry
deriving DecidableEq, Inhabited, Repr

namespace Rule

/-- All rules, in the order in which they are tried. -/
def all : List Rule :=
  [.dropGoto, .settlePlain, .selectTest, .mergeTests, .wrapLoop, .nestIf, .nestSwitch, .nestTry,
    .settleCall, .jumpTest, .jumpSwitch, .jumpTry, .forceCall, .unshareEntry]

/-- The name of a rule in reports. -/
def name : Rule → String
  | .dropGoto => "goto"
  | .settlePlain => "leaf"
  | .selectTest => "condition-ternary"
  | .mergeTests => "and-or"
  | .wrapLoop => "loop"
  | .nestIf => "if"
  | .nestSwitch => "switch"
  | .nestTry => "try"
  | .settleCall => "jsr"
  | .jumpTest => "escape-condition"
  | .jumpSwitch => "escape-switch"
  | .jumpTry => "escape-try"
  | .forceCall => "escape-jsr"
  | .unshareEntry => "escape-shared-entry"

/-- Whether a rule is a last resort. -/
def isEscape : Rule → Bool
  | .jumpTest | .jumpSwitch | .jumpTry | .forceCall | .unshareEntry => true
  | _ => false

/-- The graph that a rule makes around one block, if it applies there. -/
def apply : Rule → Graph → Flow → BlockId → Option Graph
  | .dropGoto => Graph.dropGoto
  | .settlePlain => Graph.settlePlain
  | .selectTest => Graph.selectTest
  | .mergeTests => Graph.mergeTests
  | .wrapLoop => Graph.wrapLoop
  | .nestIf => Graph.nestIf
  | .nestSwitch => Graph.nestSwitch
  | .nestTry => Graph.nestTry
  | .settleCall => Graph.settleCall
  | .jumpTest => Graph.jumpTest
  | .jumpSwitch => Graph.jumpSwitch
  | .jumpTry => Graph.jumpTry
  | .forceCall => Graph.forceCall
  | .unshareEntry => Graph.unshareEntry

/-- The blocks on which a rule is tried, in order. -/
def sites (rule : Rule) (g : Graph) (flow : Flow) : List BlockId :=
  match rule with
  | .wrapLoop => flow.ripeHeaders g
  -- Tests jump from the last block backwards, so that inner jumps become literal
  -- before those around them.
  | .jumpTest => flow.reachable.toList.reverse
  | _ => flow.reachable.toList

end Rule

/-- The first rule that applies, and the graph that it makes. -/
def Graph.step? (g : Graph) (flow : Flow) : Option (Rule × Graph) :=
  Rule.all.findSome? fun rule => (rule.sites g flow).findSome? fun id =>
    (rule.apply g flow id).map (rule, ·)

end Unjump
