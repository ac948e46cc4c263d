import SignalCalc.Expression.Interpretation

/-!
# Syntax trees

A `Tree` is the structure of an expression. Every node keeps the text and the position of its token,
so the tokens can be listed again and errors can name them.

Main definitions:

* `Tree.postorder`: the tokens of a tree, operands before what acts on them;
* `Tree.evaluate`: the value of a tree, its operands from left to right. It is what running the
  listed tokens on a stack amounts to.
-/

namespace SignalCalc

/-- The structure of an expression. -/
inductive Tree (α : Type) where
  | number (value : α) (text : String) (position : Nat)
  | dataset (index : Nat) (text : String) (position : Nat)
  | laplace (text : String) (position : Nat)
  | negate (text : String) (position : Nat) (operand : Tree α)
  | binary (operator : Operator) (text : String) (position : Nat) (left right : Tree α)
  | call (function : Builtin) (text : String) (position : Nat) (argument : Tree α)
deriving DecidableEq, Repr

namespace Tree

variable {α : Type}

/-- The tokens of a tree, operands before what acts on them. Parentheses leave no token. -/
def postorder : Tree α → List (Token α)
  | number value text position => [⟨.number value, text, position⟩]
  | dataset index text position => [⟨.dataset index, text, position⟩]
  | laplace text position => [⟨.laplace, text, position⟩]
  | negate text position operand => operand.postorder ++ [⟨.negate, text, position⟩]
  | binary o text position left right =>
    left.postorder ++ right.postorder ++ [⟨.operator o, text, position⟩]
  | call f text position argument => argument.postorder ++ [⟨.builtin f, text, position⟩]

/-- Whether the tree has a dataset in it. -/
def hasDataset : Tree α → Bool
  | number _ _ _ | laplace _ _ => false
  | dataset _ _ _ => true
  | negate _ _ operand => operand.hasDataset
  | binary _ _ _ left right => left.hasDataset || right.hasDataset
  | call _ _ _ argument => argument.hasDataset

/-- The value of a tree. The left operand of an operator comes first, so its error goes before that
of the right one. -/
def evaluate {V : Type} [Zero α] [BEq α] (m : Interpretation α V) :
    Tree α → Except (Error α) V
  | number value _ _ => .ok (m.number value)
  | dataset index text _ => m.dataset index text
  | laplace text _ => m.laplace text
  | negate _ _ operand => do m.negate (← operand.evaluate m)
  | binary o _ _ left right => do
    let a ← left.evaluate m
    let b ← right.evaluate m
    m.binary o a b
  | call f text _ argument => do m.builtin f text (← argument.evaluate m)

end Tree

end SignalCalc
