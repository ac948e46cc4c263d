import SignalCalc.Expression.Builtin
import SignalCalc.Expression.Operator

/-!
# Tokens

A token is a piece of an expression with what it stands for. Operands are numbers, datasets, the
variable and closed groups; an operand may not follow another one.
-/

namespace SignalCalc

/-- What a token stands for. -/
inductive TokenKind (α : Type) where
  | number (value : α)
  /-- A dataset by its index. -/
  | dataset (index : Nat)
  /-- The variable `s` of polynomials. -/
  | laplace
  | operator (operator : Operator)
  /-- The minus sign before an operand. -/
  | negate
  | builtin (function : Builtin)
  | openParen
  | closeParen
deriving DecidableEq, Repr

/-- A token with its text and the count of bytes before it. -/
structure Token (α : Type) where
  kind : TokenKind α
  text : String
  position : Nat

namespace TokenKind

variable {α : Type}

/-- Whether an operand ends with the token. -/
def endsOperand : TokenKind α → Bool
  | number _ | dataset _ | laplace | closeParen => true
  | operator _ | negate | builtin _ | openParen => false

/-- Whether an operand starts with the token. A minus sign is not counted: before an operand it is
read as one in any case. -/
def startsOperand : TokenKind α → Bool
  | number _ | dataset _ | laplace | builtin _ | openParen => true
  | operator _ | negate | closeParen => false

end TokenKind

end SignalCalc
