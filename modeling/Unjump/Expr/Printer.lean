import Unjump.Expr.Basic
import Unjump.Floating.Printer

/-! Expressions as text, with parentheses where an operand binds looser
than the expression around it. -/

namespace Unjump

/-- The precedence level of an expression, where lower levels bind tighter. -/
def Expr.priority : Expr → Nat
  | .leaf _ head => match head with
    | .increment _ _ => 14
    | _ => 0
  | .unary _ head value => match head with
    | .convert _ | .checkCast _ | .negate _ => 2
    | .instanceOf _ => 6
    | .ifZero comparison | .ifNull comparison => comparison.priority
    | .store _ _ | .putStatic _ | .dupStore _ => 14
    | .leave => value.priority
    | _ => 0
  | .binary _ head _ _ => match head with
    | .arith op _ => op.priority
    | .compare => 6
    | .ifCompare comparison => comparison.priority
    | .putField _ => 14
    | .arrayLoad _ => 0
  | .arrayStore _ _ _ _ _ => 14
  | .variadic _ _ _ | .callOn _ _ _ _ _ => 0

/-- The text of an expression without operands. -/
def Leaf.text : Leaf → String
  | .int value => toString value.toInt
  | .long value => toString value.toInt ++ "L"
  | .float value => value.text ++ "F"
  | .double value => value.text ++ "D"
  | .null => "null"
  | .constant index => s!"ldc #{index.toNat}"
  | .load _ slot => s!"local{slot.toNat}"
  | .increment slot delta => s!"local{slot.toNat} += {delta.toInt}"
  | .getStatic index => s!"#{index.toNat}"
  | .new type => s!"new #{type.toNat}"
  | .returnVoid => "return"
  | .jsr target => s!"jsr {target.toNat}"
  | .ret slot => s!"ret local{slot.toNat}"
  | .stackEntry depth => s!"stack{depth}"
  | .caught _ => "exception"

/-- The text of an expression over one operand, given bare and with the parentheses it may need. -/
def Unary.text (bare wrapped : String) : Unary → String
  | .store _ slot => s!"local{slot.toNat} = {bare}"
  | .convert target => s!"({target.text}) {wrapped}"
  | .negate _ => s!"-{wrapped}"
  | .arrayLength => s!"{wrapped}.length"
  | .newArray code => s!"newarray {code.toNat}[{bare}]"
  | .newObjectArray type => s!"new #{type.toNat}[{bare}]"
  | .getField index => s!"{wrapped}.#{index.toNat}"
  | .putStatic index => s!"#{index.toNat} = {bare}"
  | .checkCast type => s!"(#{type.toNat}) {wrapped}"
  | .instanceOf type => s!"{wrapped} instanceof #{type.toNat}"
  | .ifZero comparison => s!"{wrapped} {comparison.symbol} 0"
  | .ifNull comparison => s!"{wrapped} {comparison.symbol} null"
  | .switch => s!"switch ({bare})"
  | .returnValue => s!"return {bare}"
  | .throw => s!"throw {bare}"
  | .pop => bare
  | .monitor .enter => s!"monitorenter({bare})"
  | .monitor .exit => s!"monitorexit({bare})"
  | .dupStore id => s!"dup{id} = {bare}"
  | .dupLoad id => s!"dup{id}"
  | .leave => s!"push {bare}"

/-- The text of an expression over two operands, given bare
and with the parentheses they may need. -/
def Binary.text (left right wrappedLeft wrappedRight : String) : Binary → String
  | .arith op _ => s!"{wrappedLeft} {op.symbol} {wrappedRight}"
  | .compare => s!"cmp({left}, {right})"
  | .arrayLoad _ => s!"{wrappedLeft}[{right}]"
  | .putField index => s!"{wrappedLeft}.#{index.toNat} = {right}"
  | .ifCompare comparison => s!"{wrappedLeft} {comparison.symbol} {wrappedRight}"

/-- The text of an expression over any number of operands. -/
def Variadic.text (arguments : List String) : Variadic → String
  | .newMultiArray type =>
    arguments.foldl (fun text length => text ++ "[" ++ length ++ "]") s!"new #{type.toNat}"
  | .call _ index => s!"#{index.toNat}(" ++ String.intercalate ", " arguments ++ ")"
  | .create type _ => s!"new #{type.toNat}(" ++ String.intercalate ", " arguments ++ ")"

/-- Puts parentheses around the text of an operand that binds looser than the given level. -/
def wrap (level : Nat) (operand : Expr) (text : String) : String :=
  if level < operand.priority then "(" ++ text ++ ")" else text

/-- The text of an expression of a level over one operand with a given text. -/
def Unary.render (head : Unary) (level : Nat) (value : Expr) (text : String) : String :=
  head.text text (wrap level value text)

/-- The text of an expression of a level over two operands with given texts. -/
def Binary.render (head : Binary) (level : Nat) (left right : Expr) (leftText rightText : String) :
    String :=
  head.text leftText rightText (wrap level left leftText) (wrap level right rightText)

mutual

/-- The text of an expression. -/
def Expr.text : Expr → String
  | .leaf _ head => head.text
  | e@(.unary _ head value) => head.render e.priority value value.text
  | e@(.binary _ head left right) => head.render e.priority left right left.text right.text
  | e@(.arrayStore _ _ array index value) =>
    wrap e.priority array array.text ++ "[" ++ index.text ++ "] = " ++ value.text
  | .variadic _ head arguments => head.text (Expr.texts arguments)
  | e@(.callOn _ _ index object arguments) =>
    wrap e.priority object object.text ++ s!".#{index.toNat}(" ++
      String.intercalate ", " (Expr.texts arguments) ++ ")"

/-- The texts of a list of expressions. -/
def Expr.texts : List Expr → List String
  | [] => []
  | e :: rest => e.text :: Expr.texts rest

end

end Unjump
