import SignalCalc.Expression.Tree

/-!
# The grammar of expressions

`Derives level tokens tree` says that the tokens are an expression of a level and that the tree is
its structure. There are five levels, from the loosest to the tightest:

* sums, a chain of `+` and `-` that groups from the left;
* products, a chain of `*`, `/` and `%` that groups from the left;
* powers, a chain of `^` that groups from the right;
* operands with any number of minus signs before them;
* numbers, datasets, the variable, groups in parentheses, and functions before a group.

So a minus sign binds more tightly than a power: `-2^2` is the square of `-2`.
-/

namespace SignalCalc

/-- How tightly the parts of an expression are bound, from the loosest to the tightest. -/
inductive Level where
  | sum
  | product
  | power
  | signed
  | primary
deriving DecidableEq, Repr

/-- The level of the expressions that an operator makes. -/
def Operator.level : Operator → Level
  | add | subtract => .sum
  | multiply | divide | modulo => .product
  | power => .power

/-- The tokens are an expression of a level, with the tree as its structure. -/
inductive Derives {α : Type} : Level → List (Token α) → Tree α → Prop where
  | number (value : α) (text : String) (position : Nat) :
      Derives .primary [⟨.number value, text, position⟩] (.number value text position)
  | dataset (index : Nat) (text : String) (position : Nat) :
      Derives .primary [⟨.dataset index, text, position⟩] (.dataset index text position)
  | laplace (text : String) (position : Nat) :
      Derives .primary [⟨.laplace, text, position⟩] (.laplace text position)
  | group {tokens : List (Token α)} {tree : Tree α} {opening closing : Token α} :
      opening.kind = .openParen → closing.kind = .closeParen →
      Derives .sum tokens tree →
      Derives .primary (opening :: tokens ++ [closing]) tree
  | call (f : Builtin) (text : String) (position : Nat) {tokens : List (Token α)}
      {tree : Tree α} {opening closing : Token α} :
      opening.kind = .openParen → closing.kind = .closeParen →
      Derives .sum tokens tree →
      Derives .primary (⟨.builtin f, text, position⟩ :: opening :: tokens ++ [closing])
        (.call f text position tree)
  | ofPrimary {tokens : List (Token α)} {tree : Tree α} :
      Derives .primary tokens tree → Derives .signed tokens tree
  | negate (text : String) (position : Nat) {tokens : List (Token α)} {tree : Tree α} :
      Derives .signed tokens tree →
      Derives .signed (⟨.negate, text, position⟩ :: tokens) (.negate text position tree)
  | ofSigned {tokens : List (Token α)} {tree : Tree α} :
      Derives .signed tokens tree → Derives .power tokens tree
  | power {o : Operator} (text : String) (position : Nat) {left right : List (Token α)}
      {l r : Tree α} :
      o.level = .power → Derives .signed left l → Derives .power right r →
      Derives .power (left ++ ⟨.operator o, text, position⟩ :: right)
        (.binary o text position l r)
  | ofPower {tokens : List (Token α)} {tree : Tree α} :
      Derives .power tokens tree → Derives .product tokens tree
  | product {o : Operator} (text : String) (position : Nat) {left right : List (Token α)}
      {l r : Tree α} :
      o.level = .product → Derives .product left l → Derives .power right r →
      Derives .product (left ++ ⟨.operator o, text, position⟩ :: right)
        (.binary o text position l r)
  | ofProduct {tokens : List (Token α)} {tree : Tree α} :
      Derives .product tokens tree → Derives .sum tokens tree
  | sum {o : Operator} (text : String) (position : Nat) {left right : List (Token α)}
      {l r : Tree α} :
      o.level = .sum → Derives .sum left l → Derives .product right r →
      Derives .sum (left ++ ⟨.operator o, text, position⟩ :: right)
        (.binary o text position l r)

end SignalCalc
