import Mathlib.Data.List.GetD
import Unjump.Proofs.Occurrence

/-!
Stack shuffles move values as the machine does.

The machine gives each shuffle one form or several, by the widths of the values that it finds. The
simulation picks the same form. It stores what it duplicates, unless that is free to evaluate twice,
and reads it back in both places.
-/

namespace Unjump

/-! ### Shuffles of the machine -/

/-- An instruction that only rearranges the stack. -/
inductive Shuffle where
  | dup | dupX1 | dupX2 | dup2 | dup2X1 | dup2X2 | swap
deriving DecidableEq

namespace Shuffle

/-- All shuffles. -/
def all : List Shuffle := [.dup, .dupX1, .dupX2, .dup2, .dup2X1, .dup2X2, .swap]

/-- How a shuffle is spelled. -/
def mnemonic : Shuffle → String
  | .dup => "dup"
  | .dupX1 => "dup_x1"
  | .dupX2 => "dup_x2"
  | .dup2 => "dup2"
  | .dup2X1 => "dup2_x1"
  | .dup2X2 => "dup2_x2"
  | .swap => "swap"

/-- One form of a shuffle, with positions counted from the top of the stack. -/
structure Form where
  /-- Which of the values that it takes are wide. -/
  widths : List Bool
  /-- Which of the values that it takes it puts back where. -/
  result : List Nat
deriving DecidableEq, Inhabited

/-- The forms that the machine gives to a shuffle. -/
def forms : Shuffle → List Form
  | .dup => [⟨[false], [0, 0]⟩]
  | .dupX1 => [⟨[false, false], [0, 1, 0]⟩]
  | .dupX2 => [⟨[false, false, false], [0, 1, 2, 0]⟩, ⟨[false, true], [0, 1, 0]⟩]
  | .dup2 => [⟨[false, false], [0, 1, 0, 1]⟩, ⟨[true], [0, 0]⟩]
  | .dup2X1 => [⟨[false, false, false], [0, 1, 2, 0, 1]⟩, ⟨[true, false], [0, 1, 0]⟩]
  | .dup2X2 =>
    [⟨[false, false, false, false], [0, 1, 2, 3, 0, 1]⟩, ⟨[true, false, false], [0, 1, 2, 0]⟩,
      ⟨[false, false, true], [0, 1, 2, 0, 1]⟩, ⟨[true, true], [0, 1, 0]⟩]
  | .swap => [⟨[false, false], [1, 0]⟩]

/-- Which of its forms a shuffle takes, by the widths of the values on the stack. -/
def choice (wide : Nat → Bool) : Shuffle → Nat
  | .dup | .dupX1 | .swap => 0
  | .dupX2 => if wide 1 then 1 else 0
  | .dup2 | .dup2X1 => if wide 0 then 1 else 0
  | .dup2X2 => if wide 0 then (if wide 1 then 3 else 1) else if wide 2 then 2 else 0

/-- The form that the widths of the values on the stack select. -/
def form (wide : Nat → Bool) (shuffle : Shuffle) : Form :=
  shuffle.forms.getD (shuffle.choice wide) default

namespace Form

/-- Whether the values on the stack have the widths that a form asks for. -/
def Fits (form : Form) (wide : Nat → Bool) : Prop :=
  ∀ depth width, form.widths[depth]? = some width → wide depth = width

/-- The position that a value had before. -/
def source (form : Form) (depth : Nat) : Nat :=
  form.result.getD depth (depth - form.result.length + form.widths.length)

/-- The positions of the values that are put back more than once, the lowest first. -/
def duplicated (form : Form) : List Nat :=
  (List.range form.widths.length).reverse.filter fun depth => 1 < form.result.count depth

end Form

/-- The selected form is the one that fits, if any does. -/
theorem form_of_fits (shuffle : Shuffle) (wide : Nat → Bool) :
    shuffle.form wide ∈ shuffle.forms ∧
      ∀ form ∈ shuffle.forms, form.Fits wide → form = shuffle.form wide := by
  constructor
  · -- Whatever the widths are, the choice is within the list.
    cases shuffle with
    | dup | dupX1 | swap => exact List.mem_singleton_self _
    | dupX2 | dup2 | dup2X1 =>
      simp only [form, choice]
      split <;> decide
    | dup2X2 =>
      simp only [form, choice]
      split <;> split <;> decide
  · intro form listed fits
    -- The widths that tell the forms of a shuffle apart are those that the choice looks at.
    cases shuffle with
    | dup | dupX1 | swap => exact List.mem_singleton.mp listed
    | dupX2 =>
      rcases List.mem_pair.mp listed with rfl | rfl
      · simp [Shuffle.form, choice, forms, fits 1 false rfl]
      · simp [Shuffle.form, choice, forms, fits 1 true rfl]
    | dup2 | dup2X1 =>
      rcases List.mem_pair.mp listed with rfl | rfl
      · simp [Shuffle.form, choice, forms, fits 0 false rfl]
      · simp [Shuffle.form, choice, forms, fits 0 true rfl]
    | dup2X2 =>
      simp only [forms, List.mem_cons, List.not_mem_nil, or_false] at listed
      rcases listed with rfl | rfl | rfl | rfl
      · simp [Shuffle.form, choice, forms, fits 0 false rfl, fits 2 false rfl]
      · simp [Shuffle.form, choice, forms, fits 0 true rfl, fits 1 false rfl]
      · simp [Shuffle.form, choice, forms, fits 0 false rfl, fits 2 true rfl]
      · simp [Shuffle.form, choice, forms, fits 0 true rfl, fits 1 true rfl]

end Shuffle

/-! ### Valued stacks -/

/-- The value that a statement stores under a number. -/
def Expr.stored? (id : Nat) : Expr → Option Expr
  | .unary _ (.dupStore other) e => if other = id then some e else none
  | _ => none

/-- A valuation that reads duplicated values back from the statements that store them. -/
def readBack {V : Type*} (value : Expr → V) (statements : List Expr) : Expr → V
  | .unary origin (.dupLoad id) e =>
    ((statements.findSome? (·.stored? id)).map value).getD (value (.unary origin (.dupLoad id) e))
  | e => value e

namespace Frame

/-- The value at a depth of the stack, which lies below the block's own if there
are not enough of these. -/
def peek (frame : Frame) (origin : Origin) (depth : Nat) : Expr :=
  frame.stack.getD depth
    (.leaf origin (.stackEntry (frame.inherited + (depth - frame.stack.length))))

/-- The frame without a number of values from the top of the stack. -/
def below (origin : Origin) (frame : Frame) : Nat → Frame
  | 0 => frame
  | count + 1 => ((frame.below origin count).pop origin).2

variable {frame rest : Frame} {origin : Origin} {pool : Option Pool}

/-- What is popped is the value on top. -/
theorem fst_pop (frame : Frame) (origin : Origin) : (frame.pop origin).1 = frame.peek origin 0 := by
  rw [pop, peek]
  cases frame.stack <;> rfl

/-- Once a value is popped, the others are one closer to the top. -/
theorem peek_pop (frame : Frame) (origin : Origin) (depth : Nat) :
    (frame.pop origin).2.peek origin depth = frame.peek origin (depth + 1) := by
  rw [pop, peek, peek]
  cases frame.stack with
  | nil =>
    -- What lies below is counted on from what was taken from there.
    simp [Nat.add_assoc, Nat.add_comm 1]
  | cons value rest => simp

/-- Once some values are taken, the others are as many closer to the top. -/
theorem peek_below (frame : Frame) (origin : Origin) (count depth : Nat) :
    (frame.below origin count).peek origin depth = frame.peek origin (depth + count) := by
  -- By induction on the number of values.
  induction count generalizing depth with
  | zero => rfl
  | succ count ih => rw [below, peek_pop, ih, Nat.add_assoc, Nat.add_comm 1]

/-- Popping goes down the stack value by value. -/
theorem pop_below (frame : Frame) (origin : Origin) (count : Nat) :
    (frame.below origin count).pop origin =
      (frame.peek origin count, frame.below origin (count + 1)) := by
  -- What is left is the next frame by definition.
  refine Prod.ext ?_ rfl
  rw [fst_pop, peek_below, Nat.zero_add]

/-- The first pop takes the value on top. -/
theorem pop_eq (frame : Frame) (origin : Origin) :
    frame.pop origin = (frame.peek origin 0, frame.below origin 1) :=
  pop_below frame origin 0

/-- A pair is one wide value, or two values whose upper one is not wide. -/
theorem popPair_below (frame : Frame) (pool : Option Pool) (origin : Origin) (count : Nat) :
    (frame.below origin count).popPair pool origin =
      if (frame.peek origin count).isWide pool
        then ([frame.peek origin count], frame.below origin (count + 1))
      else ([frame.peek origin (count + 1), frame.peek origin count],
        frame.below origin (count + 2)) := by
  simp only [popPair, pop_below]

/-- The same at the top of the stack. -/
theorem popPair_eq (frame : Frame) (pool : Option Pool) (origin : Origin) :
    frame.popPair pool origin =
      if (frame.peek origin 0).isWide pool then ([frame.peek origin 0], frame.below origin 1)
      else ([frame.peek origin 1, frame.peek origin 0], frame.below origin 2) :=
  popPair_below frame pool origin 0

/-- Taking values one by one gives those at the depths from the top on. -/
theorem takes_below (frame : Frame) (origin : Origin) (count : Nat) :
    frame.Takes origin ((List.range count).map (frame.peek origin)) (frame.below origin count) := by
  -- By induction on the number of values.
  induction count with
  | zero => exact .done
  | succ count ih =>
    -- The next value taken is the one at the depth of those taken so far.
    have longer := ih.append_pop
    rw [pop_below] at longer
    simpa [List.range_succ] using longer

/-- Pushed values lie above the others. -/
theorem peek_pushed (values : List Expr) (depth : Nat) :
    (frame.pushed values).peek origin depth =
      values.getD depth (frame.peek origin (depth - values.length)) := by
  -- A depth within the pushed values is one of these, and any other one is counted from below them.
  simp only [peek, pushed, List.getD_eq_getElem?_getD, List.getElem?_append]
  split
  · next inside => simp [inside]
  · next outside =>
    rw [List.getElem?_eq_none (Nat.not_lt.mp outside), List.length_append, Nat.sub_sub]
    rfl

/-- What is taken from a stack and what is left on it have the same to evaluate as the stack. -/
theorem Takes.filter_isTrivial {values : List Expr} (takes : frame.Takes origin values rest) :
    (values ++ rest.stack).filter (!·.isTrivial) = frame.stack.filter (!·.isTrivial) := by
  -- The frame's own values are taken in their order.
  obtain ⟨own, deeper, rfl, stack, isDeeper⟩ := takes.exists_own
  -- Values of earlier blocks are free to evaluate.
  have free : deeper.filter (!·.isTrivial) = [] := by
    refine List.filter_eq_nil_iff.mpr fun e listed => ?_
    obtain ⟨depth, rfl⟩ := isDeeper e listed
    exact Bool.false_ne_true
  rw [stack, List.filter_append, List.filter_append, List.filter_append, free, List.append_nil]

end Frame

/-! ### Duplicated values -/

/-- Statements that store values under consecutive numbers. -/
def dupStores (origin : Origin) (number : Nat) (values : List Expr) : List Expr :=
  (values.zipIdx number).map fun numbered => .unary origin (.dupStore numbered.2) numbered.1

/-- Whether an expression is not the reading of a duplicated value with a number from a limit on. -/
def Expr.LoadsBelow (limit : Nat) (e : Expr) : Prop :=
  ∀ origin id value, e = .unary origin (.dupLoad id) value → id < limit

section Reading

variable {V : Type*} {value : Expr → V} {origin : Origin} {number id : Nat} {values : List Expr}
    {e : Expr}

/-- No values need no statements. -/
@[simp] theorem dupStores_nil : dupStores origin number [] = [] := rfl

/-- The first value is stored under the first number. -/
@[simp] theorem dupStores_cons : dupStores origin number (e :: values) =
    .unary origin (.dupStore number) e :: dupStores origin (number + 1) values := rfl

/-- Numbers are given on from the first one. -/
theorem number_le_of_mem_dupStores
    (listed : .unary origin (.dupStore id) e ∈ dupStores origin number values) : number ≤ id := by
  -- A number is the first one and the position of the value.
  obtain ⟨⟨stored, numbered⟩, isNumbered, same⟩ := List.mem_map.mp listed
  cases same
  exact (List.mem_zipIdx isNumbered).1

/-- What is stored under a number is found under it. -/
theorem findSome?_dupStores
    (listed : .unary origin (.dupStore id) e ∈ dupStores origin number values) :
    (dupStores origin number values).findSome? (·.stored? id) = some e := by
  -- By induction on the values, the numbers of which count up from the first.
  induction values generalizing number with
  | nil => cases listed
  | cons first values ih =>
    rw [dupStores_cons] at listed ⊢
    rcases List.mem_cons.mp listed with same | later
    · cases same
      simp [Expr.stored?]
    · -- The later numbers are larger.
      have larger := number_le_of_mem_dupStores later
      rw [List.findSome?_cons_of_isNone, ih later]
      simp only [Expr.stored?]
      rw [if_neg (by omega)]
      rfl

/-- Nothing is found under a smaller number. -/
theorem findSome?_dupStores_of_lt (smaller : id < number) :
    (dupStores origin number values).findSome? (·.stored? id) = none := by
  -- All numbers are larger.
  refine List.findSome?_eq_none_iff.mpr fun statement listed => ?_
  obtain ⟨⟨stored, numbered⟩, isNumbered, rfl⟩ := List.mem_map.mp listed
  have larger := (List.mem_zipIdx isNumbered).1
  exact if_neg (by simp only; omega)

/-- A stored value is read back. -/
theorem readBack_load (listed : .unary origin (.dupStore id) e ∈ dupStores origin number values) :
    readBack value (dupStores origin number values) (.unary origin (.dupLoad id) e) = value e := by
  -- The first statement that stores under the number is the one.
  rw [readBack, findSome?_dupStores listed]
  rfl

/-- Statements that store new values leave the others alone. -/
theorem readBack_of_loadsBelow (older : e.LoadsBelow number) :
    readBack value (dupStores origin number values) e = value e := by
  -- Only readings of duplicated values are looked up.
  unfold readBack
  split
  · -- A reading of an older number finds nothing among the new stores.
    rw [findSome?_dupStores_of_lt (older _ _ _ rfl)]
    rfl
  · rfl

/-- Only trivial values are read back. -/
theorem readBack_of_nontrivial {statements : List Expr} (nontrivial : e.isTrivial = false) :
    readBack value statements e = value e := by
  -- A reading is trivial.
  unfold readBack
  split
  · cases nontrivial
  · rfl

end Reading

namespace Frame

variable {frame : Frame} {origin : Origin} {values : List Expr}

/-- Duplicating values stores those that are not trivial. -/
theorem duplicateAll_eq (origin : Origin) (values : List Expr) (frame : Frame) :
    (duplicateAll origin values frame).2 =
      { frame with
        statements :=
          frame.statements ++ dupStores origin frame.nextDup (values.filter (!·.isTrivial))
        nextDup := frame.nextDup + (values.filter (!·.isTrivial)).length } := by
  -- By induction on the values, the first of which is stored first.
  induction values generalizing frame with
  | nil => simp [duplicateAll]
  | cons first values ih =>
    simp only [duplicateAll, ih, duplicate]
    -- The first value takes a number only if it is stored, and the others go on from there.
    cases isTrivial : first.isTrivial with
    | true => simp [isTrivial]
    | false => simp [isTrivial, emit, Nat.add_comm 1, Nat.add_assoc]

/-- Copies are free to evaluate. -/
theorem isTrivial_of_mem_duplicateAll {copy : Expr}
    (listed : copy ∈ (duplicateAll origin values frame).1) : copy.isTrivial = true := by
  -- By induction on the values.
  induction values generalizing frame with
  | nil => cases listed
  | cons first values ih =>
    simp only [duplicateAll] at listed
    rcases List.mem_cons.mp listed with rfl | later
    · rw [duplicate]
      -- A value that is trivial is its own copy, and any other one is loaded back.
      split
      · assumption
      · rfl
    · exact ih later

/-- Copies have the values of what they copy, if every stored value is read back. -/
theorem map_duplicateAll {V : Type*} {value : Expr → V} {statements : List Expr}
    (saved : ∀ id e, .unary origin (.dupStore id) e ∈ dupStores origin frame.nextDup
      (values.filter (!·.isTrivial)) →
      readBack value statements (.unary origin (.dupLoad id) e) = value e) :
    (duplicateAll origin values frame).1.map (readBack value statements) =
      values.map (readBack value statements) := by
  -- By induction on the values.
  induction values generalizing frame with
  | nil => rfl
  | cons first values ih =>
    simp only [duplicateAll, List.map_cons]
    cases isTrivial : first.isTrivial with
    | true =>
      -- A trivial value is its own copy.
      have same : frame.duplicate origin first = (first, frame) := by simp [duplicate, isTrivial]
      rw [same, ih fun id e listed => saved id e (by simpa [isTrivial] using listed)]
    | false =>
      -- Another value is read back, under the number that it was stored with.
      simp only [List.filter_cons, isTrivial, Bool.not_false, if_true, dupStores_cons] at saved
      have isCopy : frame.duplicate origin first = (.unary origin (.dupLoad frame.nextDup) first,
          { frame.emit (.unary origin (.dupStore frame.nextDup) first) with
            nextDup := frame.nextDup + 1 }) := by
        simp [duplicate, isTrivial]
      rw [isCopy, saved _ _ List.mem_cons_self, readBack_of_nontrivial isTrivial,
        ih fun id e listed => saved id e (List.mem_cons_of_mem _ listed)]

end Frame

/-! ### Simulated shuffles -/

namespace Shuffle.Form

/-- The statements that a form needs: each duplicated value is stored, unless it is free
to evaluate twice. -/
def stores (form : Form) (origin : Origin) (frame : Frame) : List Expr :=
  dupStores origin frame.nextDup ((form.duplicated.map (frame.peek origin)).filter (!·.isTrivial))

/-- A form that copies some values from the top of the stack below others duplicates the former. -/
theorem duplicated_eq {form : Form} {count under : Nat}
    (widths : form.widths.length = count + under)
    (result : form.result = List.range (count + under) ++ List.range count) :
    form.duplicated = (List.range count).reverse := by
  -- Every position below a bound is counted once.
  have single : ∀ bound depth,
      (List.range bound).count depth = if depth < bound then 1 else 0 := by
    intro bound depth
    rw [List.nodup_range.count]
    simp
  rw [duplicated, widths, result, List.filter_reverse, List.reverse_inj]
  simp only [List.count_append, single]
  -- The values on top are put back twice, those under them once.
  rw [List.range_add, List.filter_append, List.filter_eq_self.mpr, List.filter_eq_nil_iff.mpr,
    List.append_nil]
  · -- A value under the copied ones is not put back twice.
    intro depth listed
    obtain ⟨offset, -, rfl⟩ := List.mem_map.mp listed
    rw [decide_eq_true_eq, if_neg (by omega : ¬ count + offset < count)]
    split <;> decide
  · -- A copied value is.
    intro depth listed
    have inside := List.mem_range.mp listed
    rw [decide_eq_true_eq, if_pos inside, if_pos (by omega)]
    decide

end Shuffle.Form

/-- What a shuffle does to a frame in one of its forms. -/
structure Frame.Shuffled {V : Type*} (value : Expr → V) (origin : Origin) (form : Shuffle.Form)
    (frame after : Frame) : Prop where
  /-- Every value is what the machine puts there, where new readings
  of duplicated values give what is stored. -/
  moved : ∀ depth, readBack value (form.stores origin frame) (after.peek origin depth) =
    readBack value (form.stores origin frame) (frame.peek origin (form.source depth))
  /-- Only new readings are changed by that. -/
  older : ∀ e : Expr, e.LoadsBelow frame.nextDup →
    readBack value (form.stores origin frame) e = value e
  statements_eq : after.statements = frame.statements ++ form.stores origin frame
  /-- What is stored and what is left on the stack to evaluate is what there was to evaluate. -/
  once :
    (((form.stores origin frame).flatMap Expr.operands ++ after.stack).filter
      (!·.isTrivial)).Perm (frame.stack.filter (!·.isTrivial))
  terminator_eq : after.terminator = frame.terminator
  nextDup_eq : after.nextDup = frame.nextDup + (form.stores origin frame).length

/-- What some statements store is their operands. -/
theorem flatMap_operands_dupStores (origin : Origin) (number : Nat) (values : List Expr) :
    (dupStores origin number values).flatMap Expr.operands = values := by
  -- By induction on the values.
  induction values generalizing number with
  | nil => rfl
  | cons first values ih =>
    rw [dupStores_cons, List.flatMap_cons, ih]
    rfl

namespace Frame

variable {V : Type*} {frame rest : Frame} {origin : Origin} {form : Shuffle.Form}
    {values buried : List Expr}

/-- Values that are pushed where others were taken lie where a form puts them, if they
are read as what it takes. -/
theorem peek_source {reading : Expr → V} {count : Nat} {pushed : List Expr}
    (widths : form.widths.length = count)
    (left : ∀ depth, rest.peek origin depth = frame.peek origin (depth + count))
    (same : pushed.map reading = (form.result.map (frame.peek origin)).map reading) (depth : Nat) :
    reading ((rest.pushed pushed).peek origin depth) =
      reading (frame.peek origin (form.source depth)) := by
  -- As many values are pushed as the form puts back.
  have length : pushed.length = form.result.length := by simpa using congrArg List.length same
  -- Within the pushed values the form says where to look, and below them both stacks go on alike.
  calc reading ((rest.pushed pushed).peek origin depth)
      = (pushed.map reading).getD depth (reading (rest.peek origin (depth - pushed.length))) := by
        rw [peek_pushed, List.getD_map]
    _ = ((form.result.map (frame.peek origin)).map reading).getD depth
          (reading (frame.peek origin (depth - form.result.length + form.widths.length))) := by
        rw [same, left, length, widths]
    _ = reading (frame.peek origin (form.source depth)) := by
        rw [List.getD_map, List.getD_map, Shuffle.Form.source]

/-- Pushing values around others leaves a frame with the copies of the values
and what stores them. -/
theorem pushAround_eq (frame : Frame) (origin : Origin) (values buried : List Expr) :
    frame.pushAround origin values buried =
      Frame.pushed { frame with
        statements :=
          frame.statements ++ dupStores origin frame.nextDup (values.filter (!·.isTrivial))
        nextDup := frame.nextDup + (values.filter (!·.isTrivial)).length }
      ((duplicateAll origin values frame).1.reverse ++
        (buried.reverse ++ (duplicateAll origin values frame).1.reverse)) := by
  -- The copies come first, then the buried values, then the copies again.
  simp only [pushAround, pushAll_eq, duplicateAll_eq, List.reverse_append]

/-- What is duplicated is evaluated once, by what stores it. -/
theorem pushAround_once (takes : frame.Takes origin (values.reverse ++ buried.reverse) rest) :
    ((values.filter (!·.isTrivial) ++ (rest.pushAround origin values buried).stack).filter
      (!·.isTrivial)).Perm (frame.stack.filter (!·.isTrivial)) := by
  -- The copies do not count, and the buried values are what they were.
  have free : (duplicateAll origin values rest).1.reverse.filter (!·.isTrivial) = [] :=
    List.filter_eq_nil_iff.mpr fun copy listed => by
      simp [isTrivial_of_mem_duplicateAll (List.mem_reverse.mp listed)]
  rw [← takes.filter_isTrivial, pushAround_eq]
  simp only [pushed, List.filter_append, List.filter_filter, Bool.and_self, free, List.nil_append,
    List.append_assoc]
  exact ((List.reverse_perm values).symm.filter _).append_right _

/-- Pushing the top values twice around the next ones is the form that copies them below these. -/
theorem shuffled_pushAround (value : Expr → V) (values buried : List Expr)
    (taken : values.reverse ++ buried.reverse =
      (List.range (values.length + buried.length)).map (frame.peek origin))
    (widths : form.widths.length = values.length + buried.length)
    (result : form.result = List.range (values.length + buried.length) ++
      List.range values.length) :
    frame.Shuffled value origin form
      ((frame.below origin (values.length + buried.length)).pushAround origin values buried) := by
  -- What is left after taking the values is known by its depths only.
  have takes := takes_below frame origin (values.length + buried.length)
  have left := peek_below frame origin (values.length + buried.length)
  have isTop : values.reverse = (List.range values.length).map (frame.peek origin) := by
    rw [List.range_add, List.map_append] at taken
    exact (List.append_inj taken (by simp)).1
  have isStores : form.stores origin frame =
      dupStores origin frame.nextDup (values.filter (!·.isTrivial)) := by
    rw [Shuffle.Form.stores, Shuffle.Form.duplicated_eq widths result, List.map_reverse, ← isTop,
      List.reverse_reverse]
  generalize frame.below origin (values.length + buried.length) = rest at takes left ⊢
  rw [← taken] at takes
  obtain ⟨statements, terminator⟩ := takes.kept
  have numbers := takes.nextDup_eq
  rw [← numbers] at isStores
  constructor
  · -- The copies are read as what they copy, so that the values lie where the form puts them.
    rw [pushAround_eq]
    refine peek_source widths left ?_
    have read : (duplicateAll origin values rest).1.map
      (readBack value (form.stores origin frame)) =
        values.map (readBack value (form.stores origin frame)) :=
      map_duplicateAll fun id e listed => isStores ▸ readBack_load listed
    have order : form.result.map (frame.peek origin) = values.reverse ++ buried.reverse ++
        values.reverse := by
      rw [result, List.map_append, ← taken, ← isTop]
    rw [order]
    simp [read]
  · -- Older readings do not see the new stores.
    exact fun e older => readBack_of_loadsBelow older
  · -- The stores are the only new statements.
    rw [pushAround_eq, isStores, ← statements]
    rfl
  · -- Each store evaluates the value that it stores.
    rw [isStores, flatMap_operands_dupStores]
    exact pushAround_once takes
  · rw [pushAround_eq]
    exact terminator
  · rw [pushAround_eq, isStores, ← numbers]
    simp [pushed, dupStores]

/-- Pushing the top two values back the other way round is the form of a swap. -/
theorem shuffled_swap (value : Expr → V) (frame : Frame) (origin : Origin) :
    frame.Shuffled value origin ⟨[false, false], [1, 0]⟩ (frame.swap origin) := by
  -- The two values are taken and pushed back.
  have takes := takes_below frame origin 2
  obtain ⟨statements, terminator⟩ := takes.kept
  have isSwap : frame.swap origin =
      (frame.below origin 2).pushed [frame.peek origin 1, frame.peek origin 0] := by
    simp only [swap, pop_eq frame, pop_below, pushAll_eq]
    rfl
  -- No value is put back twice, so none is stored.
  have none : Shuffle.Form.stores ⟨[false, false], [1, 0]⟩ origin frame = [] := rfl
  rw [isSwap]
  constructor
  · -- The values lie where the form puts them.
    exact peek_source rfl (peek_below frame origin 2) rfl
  · exact fun e older => readBack_of_loadsBelow older
  · rw [none, List.append_nil]
    exact statements
  · -- The two values are evaluated as before, in the other order.
    rw [← takes.filter_isTrivial, none]
    exact (List.Perm.swap _ _ _).filter _
  · exact terminator
  · exact takes.nextDup_eq

end Frame

namespace Shuffle

/-- What a shuffle does in the simulation. -/
def apply (pool : Option Pool) (origin : Origin) (frame : Frame) : Shuffle → Frame
  | .dup => frame.dup origin
  | .dupX1 => frame.dupX1 origin
  | .dupX2 => frame.dupX2 pool origin
  | .dup2 => frame.dup2 pool origin
  | .dup2X1 => frame.dup2X1 pool origin
  | .dup2X2 => frame.dup2X2 pool origin
  | .swap => frame.swap origin

/-- A shuffle moves values in the form that their widths select. -/
theorem shuffled_apply {V : Type*} (value : Expr → V) (pool : Option Pool) (origin : Origin)
    (frame : Frame) (shuffle : Shuffle) :
    frame.Shuffled value origin
      (shuffle.form fun depth => (frame.peek origin depth).isWide pool)
      (shuffle.apply pool origin frame) := by
  -- The splits below are on the widths that the choice of a form looks at, in the same order.
  cases shuffle with
  | dup =>
    simp only [apply, Frame.dup, Frame.pop_eq frame]
    exact Frame.shuffled_pushAround value [_] [] rfl rfl rfl
  | dupX1 =>
    simp only [apply, Frame.dupX1, Frame.pop_eq frame, Frame.pop_below]
    exact Frame.shuffled_pushAround value [_] [_] rfl rfl rfl
  | dupX2 =>
    simp only [apply, Frame.dupX2, Frame.pop_eq frame, Frame.popPair_below, form, choice]
    split
    · exact Frame.shuffled_pushAround value [_] [_] rfl rfl rfl
    · exact Frame.shuffled_pushAround value [_] [_, _] rfl rfl rfl
  | dup2 =>
    simp only [apply, Frame.dup2, Frame.popPair_eq frame, form, choice]
    split
    · exact Frame.shuffled_pushAround value [_] [] rfl rfl rfl
    · exact Frame.shuffled_pushAround value [_, _] [] rfl rfl rfl
  | dup2X1 =>
    simp only [apply, Frame.dup2X1, Frame.popPair_eq frame, form, choice]
    split
    · simp only [Frame.pop_below]
      exact Frame.shuffled_pushAround value [_] [_] rfl rfl rfl
    · simp only [Frame.pop_below]
      exact Frame.shuffled_pushAround value [_, _] [_] rfl rfl rfl
  | dup2X2 =>
    simp only [apply, Frame.dup2X2, Frame.popPair_eq frame, form, choice]
    split
    · simp only [Frame.popPair_below]
      split
      · exact Frame.shuffled_pushAround value [_] [_] rfl rfl rfl
      · exact Frame.shuffled_pushAround value [_] [_, _] rfl rfl rfl
    · simp only [Frame.popPair_below]
      split
      · exact Frame.shuffled_pushAround value [_, _] [_] rfl rfl rfl
      · exact Frame.shuffled_pushAround value [_, _] [_, _] rfl rfl rfl
  | swap => exact Frame.shuffled_swap value frame origin

/-- The instruction that a shuffle is. -/
def operation : Shuffle → Operation
  | .dup => .dup
  | .dupX1 => .dupX1
  | .dupX2 => .dupX2
  | .dup2 => .dup2
  | .dup2X1 => .dup2X1
  | .dup2X2 => .dup2X2
  | .swap => .swap

/-- The instruction with the name of a shuffle does what the shuffle does. -/
theorem effect_eq {shuffle : Shuffle} {i : Instruction} (pool : Option Pool)
    (isShuffle : i.opcode.mnemonic? = some shuffle.mnemonic) :
    i.effect pool = .ok fun frame => shuffle.apply pool i.origin frame := by
  -- The table has each of these spellings for one operation.
  have spelled : ∀ entry ∈ Opcode.table, ∀ shuffle ∈ all, entry.1 = shuffle.mnemonic →
      entry.2 = shuffle.operation := by
    decide +kernel
  have listed : shuffle ∈ all := by cases shuffle <;> decide
  obtain ⟨entry, found, name⟩ := Option.map_eq_some_iff.mp isShuffle
  have isOperation : i.opcode.operation? = some shuffle.operation := by
    rw [Opcode.operation?, found, ← spelled entry (List.mem_of_getElem? found) shuffle listed name]
    rfl
  rw [Instruction.effect, isOperation]
  cases shuffle <;> rfl

end Shuffle

/-- Every shuffle moves the values of a simulated stack as the machine does, in the form that their
widths select, and stores what it duplicates. -/
theorem shuffled_of_mnemonic {V : Type*} (value : Expr → V) (pool : Option Pool) (frame : Frame)
    (shuffle : Shuffle) (i : Instruction) (isShuffle : i.opcode.mnemonic? = some shuffle.mnemonic) :
    ∃ form ∈ shuffle.forms, form =
      (shuffle.form fun depth => (frame.peek i.origin depth).isWide pool) ∧
      (∀ other ∈ shuffle.forms, other.Fits (fun depth => (frame.peek i.origin depth).isWide pool) →
        other = form) ∧
      ∃ after, frame.run pool [i] = .ok after ∧ frame.Shuffled value i.origin form after := by
  -- The form is the one that the widths select, whether or not another one would fit.
  obtain ⟨listed, unique⟩ :=
    shuffle.form_of_fits fun depth => (frame.peek i.origin depth).isWide pool
  refine ⟨_, listed, rfl, unique, shuffle.apply pool i.origin frame, ?_,
    shuffle.shuffled_apply value pool i.origin frame⟩
  rw [Frame.run, Shuffle.effect_eq pool isShuffle]
  rfl

/-- The sum of two longs. -/
def longSum : Expr :=
  .binary ⟨⟨97⟩, 2, none⟩ (.arith .add .long) (.leaf ⟨⟨30⟩, 0, none⟩ (.load .long 0))
    (.leaf ⟨⟨32⟩, 1, none⟩ (.load .long 2))

/-- The sum is copied below two values that an earlier block has left. -/
theorem longSum_shuffled :
    ∃ after, Frame.run { stack := [longSum] } none [⟨3, ⟨94⟩, .absent, none⟩] = .ok after ∧
    Frame.Shuffled id ⟨⟨94⟩, 3, none⟩ ⟨[true, false, false], [0, 1, 2, 0]⟩
      { stack := [longSum] } after := by
  obtain ⟨form, -, rfl, -, after, ran, shuffled⟩ :=
    shuffled_of_mnemonic id none { stack := [longSum] } .dup2X2
      ⟨3, ⟨94⟩, .absent, none⟩ rfl
  exact ⟨after, ran, shuffled⟩

end Unjump
