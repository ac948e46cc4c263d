import SignalCalc.Error
import SignalCalc.Expression.Token

/-!
# Postfix order

`toPostfix` puts the tokens of an expression into the order in which a stack machine runs them. A
minus sign waits without letting anything go first, so that it binds to the operand after it; a
function waits for the group that is its argument.

Main definitions: `toPostfix` and its loop `postfixFrom`, whose first argument is the stack of the
tokens that wait.
-/

namespace SignalCalc

variable {α : Type} [Zero α] [BEq α]

/-- Whether a waiting token goes before the given operator. -/
def Token.yieldsTo (next : Operator) (t : Token α) : Bool :=
  match t.kind with
  | .operator o => o.yieldsTo next
  | .negate => true
  | _ => false

/-- The waiting tokens of the innermost open group, and what waits outside it. -/
def popGroup : List (Token α) → Option (List (Token α) × List (Token α))
  | [] => none
  | t :: stack =>
    match t.kind with
    | .openParen => some ([], stack)
    | _ => (popGroup stack).map fun (inner, outer) => (t :: inner, outer)

/-- The function at the top of the stack, and the stack below it. -/
def popFunction : List (Token α) → List (Token α) × List (Token α)
  | [] => ([], [])
  | t :: stack =>
    match t.kind with
    | .builtin _ => ([t], stack)
    | _ => ([], t :: stack)

/-- Whether a group starts at the head of the tokens. -/
def startsGroup : List (Token α) → Bool
  | t :: _ =>
    match t.kind with
    | .openParen => true
    | _ => false
  | [] => false

/-- The tokens in postfix order, given those that wait for an operand. -/
def postfixFrom (stack : List (Token α)) : List (Token α) → Except (Error α) (List (Token α))
  | [] =>
    match popGroup stack with
    | some _ => .error .unbalancedParentheses
    | none => .ok stack
  | t :: rest =>
    match t.kind with
    | .number _ | .dataset _ | .laplace => do return t :: (← postfixFrom stack rest)
    | .builtin _ =>
      if startsGroup rest then postfixFrom (t :: stack) rest
      else .error (.missingArgument t.text)
    | .openParen | .negate => postfixFrom (t :: stack) rest
    | .closeParen =>
      match popGroup stack with
      | none => .error .unbalancedParentheses
      | some (inner, outer) => do
        let (function, outer) := popFunction outer
        return inner ++ function ++ (← postfixFrom outer rest)
    | .operator o => do
      let ready := stack.takeWhile (Token.yieldsTo o)
      return ready ++ (← postfixFrom (t :: stack.dropWhile (Token.yieldsTo o)) rest)

/-- The tokens of an expression in postfix order. -/
def toPostfix (tokens : List (Token α)) : Except (Error α) (List (Token α)) := postfixFrom [] tokens

end SignalCalc
