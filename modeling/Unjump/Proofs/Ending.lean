import Unjump.Proofs.Build
import Unjump.Proofs.Prepare
import Unjump.Proofs.Progress

/-!
How structuring ends.

The graph stays sound from the first step to the last, so no check fails and no run is stuck. A run
from the graph of a method reaches its goal, runs out of rounds, or makes no progress, and the last
only by turning an entry into a jump or by making a loop with a bypass.
-/

namespace Unjump.Graph

variable {g h : Graph} {rule : Rule} {options : Options} {outcome : Outcome}

/-- Any number of steps of structuring. -/
def Steps (g h : Graph) : Prop := Relation.ReflTransGen (fun g h => ∃ rule, g.Next rule h) g h

/-- Steps keep a graph sound. -/
theorem Steps.sound (steps : g.Steps h) (sound : g.Sound) : h.Sound := by
  -- By induction on the steps.
  induction steps with
  | refl => exact sound
  | tail _ next before =>
    obtain ⟨rule, next⟩ := next
    exact next.sound before

/-- Whether a step makes a loop with a bypass. -/
def Bypasses (g h : Graph) : Prop :=
  ∃ header, g.wrapLoop (Flow.ofGraph g) header = some h ∧ g.HasBypass header

/-- The outcomes of a run from a graph. -/
inductive Ends (g : Graph) : Outcome → Prop
  | done {h report} (steps : g.Steps h)
      (goal : (Distance.ofGraph h (Flow.ofGraph h)).isZero = true) : Ends g ⟨h, .ok report⟩
  | unfinished {h limit} (steps : g.Steps h) : Ends g ⟨h, .error (.roundLimit limit)⟩
  | shared {mid h before after} (steps : g.Steps mid) (next : mid.Next .unshareEntry h) :
    Ends g ⟨h, .error (.noProgress .unshareEntry before after)⟩
  | bypassed {mid h before after} (steps : g.Steps mid) (next : mid.Next .wrapLoop h)
      (bypasses : mid.Bypasses h) : Ends g ⟨h, .error (.noProgress .wrapLoop before after)⟩

/-- A run leaves a graph behind to which its steps lead. -/
theorem Ends.steps (ends : g.Ends outcome) : g.Steps outcome.graph := by
  -- The last step of a run without progress is a step as well.
  cases ends with
  | done steps goal => exact steps
  | unfinished steps => exact steps
  | shared steps next => exact steps.tail ⟨_, next⟩
  | bypassed steps next bypasses => exact steps.tail ⟨_, next⟩

/-- What a run does after its first step, it does. -/
theorem Ends.head (ends : h.Ends outcome) (next : g.Next rule h) : g.Ends outcome := by
  -- The first step is put in front of the others, whatever the end is.
  have first : g.Steps h := .single ⟨rule, next⟩
  cases ends with
  | done steps goal => exact .done (first.trans steps) goal
  | unfinished steps => exact .unfinished (first.trans steps)
  | shared steps next => exact .shared (first.trans steps) next
  | bypassed steps next bypasses => exact .bypassed (first.trans steps) next bypasses

/-- No check after a step fails on a sound graph. -/
theorem Sound.stepViolation?_eq_none (sound : g.Sound) (options : Options) :
    g.stepViolation? options = none := by
  -- Whether or not the check is made, it finds nothing.
  rw [stepViolation?, sound.violation?_eq_none, ite_self]

/-- A step either goes on or ends the run without progress. -/
theorem Next.ends_of_not_lt (next : g.Next rule h) (sound : g.Sound)
    (notCloser :
      ¬(Distance.ofGraph h (Flow.ofGraph h)).lt (Distance.ofGraph g (Flow.ofGraph g)) = true)
    (before after : Distance) : g.Ends ⟨h, .error (.noProgress rule before after)⟩ := by
  -- All steps come closer but for those that turn an entry into a jump, and loops with a bypass.
  by_cases isEntry : rule = .unshareEntry
  · subst isEntry
    exact .shared .refl next
  · obtain closer | ⟨rfl, bypasses⟩ := next.lt_or_bypass sound isEntry
    · exact absurd closer notCloser
    · exact .bypassed .refl next bypasses

/-- How the rounds of a run end. -/
theorem ends_structureFor (options : Options) (limit rounds : Nat) (sound : g.Sound)
    (applied : List Rule) :
    g.Ends (structureFor options limit rounds g (Flow.ofGraph g)
      (Distance.ofGraph g (Flow.ofGraph g)) applied) := by
  -- By induction on the rounds that are left: each step keeps the graph sound.
  induction rounds generalizing g applied with
  | zero =>
    rw [structureFor]
    split
    · -- The goal is reached, and what is left to check holds of a sound graph.
      rename_i goal
      rw [sound.nestingViolation?_eq_none goal]
      exact .done .refl goal
    · exact .unfinished .refl
  | succ rounds ih =>
    rw [structureFor]
    split
    · rename_i goal
      rw [sound.nestingViolation?_eq_none goal]
      exact .done .refl goal
    · rename_i short
      -- As long as the goal is not reached, some rule applies.
      obtain ⟨⟨rule, h⟩, next⟩ :=
        Option.isSome_iff_exists.mp (isSome_step?_of_distance sound (Bool.not_eq_true _ ▸ short))
      have soundAfter : h.Sound := Next.sound next sound
      simp only [next, soundAfter.stepViolation?_eq_none]
      split
      · exact (ih soundAfter _).head next
      · rename_i notCloser
        exact Next.ends_of_not_lt next sound notCloser _ _

/-- How structuring a sound graph ends. -/
theorem ends_structured (sound : g.Sound) (options : Options) :
    (g.prepare options).Ends (g.structured options) := by
  -- The check of the prepared graph finds nothing, so that the rounds begin.
  rw [structured, (sound.prepare options).stepViolation?_eq_none]
  exact ends_structureFor _ _ _ (sound.prepare options) _

/-- Checking a sound graph after each step does not change what a run does. -/
theorem structureFor_verifyEachStep (options : Options) (flag : Bool) (limit rounds : Nat)
    (sound : g.Sound) (applied : List Rule) :
    structureFor { options with verifyEachStep := flag } limit rounds g (Flow.ofGraph g)
        (Distance.ofGraph g (Flow.ofGraph g)) applied =
      structureFor options limit rounds g (Flow.ofGraph g) (Distance.ofGraph g (Flow.ofGraph g))
        applied := by
  -- By induction on the rounds that are left: in a sound graph the check finds nothing
  -- after a step.
  induction rounds generalizing g applied with
  | zero => rw [structureFor, structureFor]
  | succ rounds ih =>
    rw [structureFor, structureFor]
    split
    · rfl
    · cases next : g.step? (Flow.ofGraph g) with
      | none => rfl
      | some step =>
        obtain ⟨rule, h⟩ := step
        have soundAfter : h.Sound := Next.sound next sound
        simp only [soundAfter.stepViolation?_eq_none]
        split
        · exact ih soundAfter _
        · rfl

/-- Checking the graph after each step does not change how structuring it ends. -/
theorem structured_verifyEachStep (sound : g.Sound) (options : Options) (flag : Bool) :
    g.structured { options with verifyEachStep := flag } = g.structured options := by
  -- Preparing the graph does not look at that option.
  have prepared := sound.prepare options
  have same : g.prepare { options with verifyEachStep := flag } = g.prepare options := rfl
  rw [structured, structured, same, prepared.stepViolation?_eq_none,
    prepared.stepViolation?_eq_none]
  exact structureFor_verifyEachStep options flag _ _ prepared []

/--
Structuring the graph of a method succeeds or runs out of rounds, and otherwise stops
at a step without progress.

Such a step turns an entry into a jump, or makes a loop around code behind its own exits that leads
to its header. Checking the graph after each step changes nothing.
-/
theorem structured_result_of_build {m : Method} {pool : Option Pool} {build : BuildOptions}
    (made : Graph.build m pool build = .ok g) (options : Options) :
    (match (g.structured options).result with
      | .ok _ | .error (.roundLimit _) | .error (.noProgress .unshareEntry _ _) => True
      | .error (.noProgress .wrapLoop _ _) =>
        ∃ before, (g.prepare options).Steps before ∧ before.Bypasses (g.structured options).graph
      | .error _ => False) ∧
      ∀ flag, g.structured { options with verifyEachStep := flag } = g.structured options := by
  -- The outcomes are those of a run from a sound graph.
  have sound := sound_of_build made
  refine ⟨?_, structured_verifyEachStep sound options⟩
  have ends := ends_structured sound options
  generalize g.structured options = outcome at ends
  cases ends with
  | done steps goal => trivial
  | unfinished steps => trivial
  | shared steps next => trivial
  | bypassed steps next bypasses => exact ⟨_, steps, bypasses⟩

/-- A method with a loop that is left to a call of the subroutine it starts. -/
def selfCalling : Method where
  code := [⟨0, ⟨167⟩, .branch 3, none⟩, ⟨1, ⟨168⟩, .branch 6, none⟩, ⟨2, ⟨177⟩, .absent, none⟩,
    ⟨3, ⟨168⟩, .branch 1, none⟩, ⟨4, ⟨168⟩, .branch 9, none⟩, ⟨5, ⟨132⟩, .increment 0 1, none⟩,
    ⟨6, ⟨132⟩, .increment 1 1, none⟩, ⟨7, ⟨27⟩, .absent, none⟩, ⟨8, ⟨154⟩, .branch 10, none⟩,
    ⟨9, ⟨132⟩, .increment 2 1, none⟩, ⟨10, ⟨27⟩, .absent, none⟩, ⟨11, ⟨154⟩, .branch 15, none⟩,
    ⟨12, ⟨27⟩, .absent, none⟩, ⟨13, ⟨154⟩, .branch 6, none⟩, ⟨14, ⟨167⟩, .branch 1, none⟩,
    ⟨15, ⟨27⟩, .absent, none⟩, ⟨16, ⟨171⟩, .switch 17 [(0, 5), (1, 5), (2, 5)], none⟩,
    ⟨17, ⟨177⟩, .absent, none⟩]
  codeLength := 18

/-- What becomes of the method with the subroutine, by running the program. -/
private theorem result_selfCalling : ∃ g, Graph.build selfCalling none {} = .ok g ∧
    (g.structured {}).result = .error (.noProgress .wrapLoop ⟨3, 1, 1⟩ ⟨3, 3, 1⟩) := by
  -- The method is built and structured once, and the fault is read off the result.
  have evaluated : (Graph.build selfCalling none {}).map (fun g => (g.structured {}).result) =
      .ok (.error (.noProgress .wrapLoop ⟨3, 1, 1⟩ ⟨3, 3, 1⟩)) := by
    decide +kernel
  cases made : Graph.build selfCalling none {} with
  | error fault => simp [made, Except.map] at evaluated
  | ok g =>
    rw [made, Except.map, Except.ok.injEq] at evaluated
    exact ⟨g, rfl, evaluated⟩

/-- The loop of the self-calling method has a bypass. -/
theorem selfCalling_bypasses : ∃ g before, Graph.build selfCalling none {} = .ok g ∧
    (g.prepare {}).Steps before ∧ before.Bypasses (g.structured {}).graph := by
  obtain ⟨g, made, result⟩ := result_selfCalling
  -- The fault is one that only a loop with a bypass explains.
  have allowed := (structured_result_of_build made {}).1
  rw [result] at allowed
  obtain ⟨before, steps, bypasses⟩ := allowed
  exact ⟨g, before, made, steps, bypasses⟩

/-- Making a loop need not bring the graph of a method closer to its goal. -/
theorem exists_loop_without_progress : ∃ m g before after, Graph.build m none {} = .ok g ∧
    (g.structured {}).result = .error (.noProgress .wrapLoop before after) := by
  -- The self-calling method is such a method.
  obtain ⟨g, made, result⟩ := result_selfCalling
  exact ⟨selfCalling, g, _, _, made, result⟩

end Unjump.Graph
