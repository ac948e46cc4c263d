import SignalCalc.Expression.Postfix

/-!
# Running postfix code

An `Interpretation` says what tokens mean in a type of values: numbers, series, polynomials. The
stack machine is the same for all of them; `run` stops at the first error.
-/

namespace SignalCalc

/-- The meaning of tokens in a type of values. The texts of tokens are there for errors. -/
structure Interpretation (α : Type) [Zero α] [BEq α] (V : Type) where
  number : α → V
  dataset (index : Nat) (text : String) : Except (Error α) V
  laplace (text : String) : Except (Error α) V
  negate : V → Except (Error α) V
  binary : Operator → V → V → Except (Error α) V
  builtin (function : Builtin) (text : String) : V → Except (Error α) V

namespace Interpretation

variable {α V : Type} [Zero α] [BEq α]

/-- What one token does to the stack of values. -/
def step (m : Interpretation α V) (stack : List V) (t : Token α) : Except (Error α) (List V) :=
  match t.kind, stack with
  | .number c, stack => .ok (m.number c :: stack)
  | .dataset i, stack => do return (← m.dataset i t.text) :: stack
  | .laplace, stack => do return (← m.laplace t.text) :: stack
  | .negate, v :: stack => do return (← m.negate v) :: stack
  | .operator o, right :: left :: stack => do return (← m.binary o left right) :: stack
  | .builtin f, v :: stack => do return (← m.builtin f t.text v) :: stack
  | .negate, [] | .operator _, [] | .operator _, [_] => .error (.missingOperand t.text)
  | .builtin _, [] => .error (.missingArgument t.text)
  | .openParen, _ | .closeParen, _ => .error .unbalancedParentheses

/-- The value of postfix code: what is left on the stack, if it is one value. -/
def run (m : Interpretation α V) (code : List (Token α)) : Except (Error α) V := do
  match ← code.foldlM m.step [] with
  | [v] => return v
  | [] => throw .emptyExpression
  | _ =>
    match code.getLast? with
    | some t => throw (.missingOperator t.text t.position)
    | none => throw (.missingOperator "" 0)

/-- The value of the tokens of an expression. -/
def evaluate (m : Interpretation α V) (tokens : List (Token α)) : Except (Error α) V := do
  m.run (← toPostfix tokens)

end Interpretation

end SignalCalc
