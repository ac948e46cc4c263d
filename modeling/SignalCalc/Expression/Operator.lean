import SignalCalc.Elementary

/-!
# Binary operators

The operators that may stand between two operands, how tightly they bind, and what they compute on
numbers.
-/

namespace SignalCalc

/-- The remainder that takes the sign of the divisor. -/
def flooredModulo {α : Type} [Sub α] [Mul α] [Div α] [Elementary α] (value divisor : α) : α :=
  value - divisor * Elementary.floor (value / divisor)

/-- The binary operators of expressions. -/
inductive Operator where
  | add
  | subtract
  | multiply
  | divide
  | modulo
  | power
deriving DecidableEq, Repr

namespace Operator

def symbol : Operator → Char
  | add => '+'
  | subtract => '-'
  | multiply => '*'
  | divide => '/'
  | modulo => '%'
  | power => '^'

/-- The operator that a character stands for. -/
def ofSymbol? : Char → Option Operator
  | '+' => some add
  | '-' => some subtract
  | '*' => some multiply
  | '/' => some divide
  | '%' => some modulo
  | '^' => some power
  | _ => none

/-- How tightly an operator binds. -/
def precedence : Operator → Nat
  | add | subtract => 1
  | multiply | divide | modulo => 2
  | power => 3

/-- Whether a chain of the operator groups from the right. -/
def isRightAssociative : Operator → Bool
  | power => true
  | _ => false

/-- Whether an operator that waits for its right operand takes it when another one follows, and does
not leave it to that one. -/
def yieldsTo (waiting next : Operator) : Bool :=
  next.precedence < waiting.precedence
    || (waiting.precedence == next.precedence && !next.isRightAssociative)

/-- The value of an operator on numbers. -/
def apply {α : Type} [Add α] [Sub α] [Mul α] [Div α] [Elementary α] : Operator → α → α → α
  | add, a, b => a + b
  | subtract, a, b => a - b
  | multiply, a, b => a * b
  | divide, a, b => a / b
  | modulo, a, b => flooredModulo a b
  | power, a, b => Elementary.pow a b

/-- What an operator does to the samples of two series, none if series have no operator of their own
for it. -/
def onSamples? {α : Type} [Add α] [Sub α] [Mul α] [Div α] [Elementary α] :
    Operator → Option (α → α → α)
  | add => some fun a b => a + b
  | subtract => some fun a b => a - b
  | multiply => some fun a b => a * b
  | divide => some fun a b => a / b
  | modulo => some flooredModulo
  | power => none

/-- The operators of series compute on samples what they compute on numbers. -/
@[simp] theorem onSamples?_getD {α : Type} [Add α] [Sub α] [Mul α] [Div α] [Elementary α]
    (o : Operator) : (o.onSamples?.getD o.apply : α → α → α) = o.apply := by
  cases o <;> rfl

end Operator

end SignalCalc
