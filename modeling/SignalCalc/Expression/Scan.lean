import SignalCalc.Error
import SignalCalc.Decimal.Literal
import SignalCalc.Expression.Token
import SignalCalc.Text.Blank
import SignalCalc.Text.Lowercase

/-!
# Reading tokens

`scan` splits an expression into tokens and resolves the references to datasets. Between tokens it
drops blanks, and a plus sign where an operand is due. It refuses an operand that follows another
one, an operator without a left operand, and parentheses that do not balance.
-/

namespace SignalCalc

/-- Whether `s` is the variable of polynomials or a name like any other. -/
inductive Mode where
  | numeric
  | symbolic
deriving DecidableEq, Repr

/-! ## References -/

/-- The index of the dataset with a name, or else of the first whose name differs only by case. -/
def findDataset (names : List String) (name : String) : Option Nat :=
  (names.findIdx? (· == name)).or
    (let lower := Text.lowercase name
     names.findIdx? (Text.lowercase · == lower))

/-- The number that a text denotes: digits, a plus sign before them allowed, below `2 ^ 64`. -/
def referenceNumber? (s : String) : Option Nat :=
  let digits := match s.toList with
    | '+' :: ds => ds
    | ds => ds
  if !digits.isEmpty && digits.all isDigit && digitsValue digits < wordBound then
    some (digitsValue digits)
  else none

variable {α : Type} [Zero α] [BEq α]

/-- The dataset that a bracketed text refers to, by number from one or by name. -/
def resolveBracketed (names : List String) (inner : String) : Except (Error α) Nat :=
  let inner := Text.trim inner
  match referenceNumber? inner with
  | some n =>
    if n = 0 ∨ names.length < n then .error (.unknownDataset ("[" ++ inner ++ "]"))
    else .ok (n - 1)
  | none =>
    match findDataset names inner with
    | some i => .ok i
    | none => .error (.unknownDataset inner)

/-! ## One step -/

/-- Letters, digits and underscores of ASCII. -/
def isWordChar (c : Char) : Bool := c.isAlphanum || c == '_'

/-- What stands at the head of a text: a character to drop, or a token with the count of its
characters beyond the first. -/
inductive Lexeme (α : Type) where
  | dropped
  | token (kind : TokenKind α) (more : Nat)

/-- The token of a word. Function names are known in any case of letters and go before datasets. -/
def wordLexeme (names : List String) (mode : Mode) (word rest : List Char) :
    Except (Error α) (TokenKind α) :=
  let text := String.ofList word
  let lower := String.ofList (word.map Char.toLower)
  match Builtin.ofName? lower with
  | some f => .ok (.builtin f)
  | none =>
    if mode = .symbolic ∧ lower = "s" then .ok .laplace
    else match findDataset names text with
      | some i => .ok (.dataset i)
      | none =>
        if (rest.dropWhile Text.isBlank).head? = some '(' then .error (.unknownFunction text)
        else .error (.unknownDataset text)

/-- The token of an operator sign: before an operand a minus sign negates, a plus sign is dropped,
and any other operator has no left operand. -/
def operatorLexeme (expectsOperand : Bool) (o : Operator) : Except (Error α) (Lexeme α) :=
  if !expectsOperand then .ok (.token (.operator o) 0)
  else match o with
    | .subtract => .ok (.token .negate 0)
    | .add => .ok .dropped
    | _ => .error (.missingOperand (String.singleton o.symbol))

/-- What stands at the head of the text `c :: cs`, which starts at a position. -/
def lexeme [OfScientific α] (names : List String) (mode : Mode) (position : Nat)
    (expectsOperand : Bool) (c : Char) (cs : List Char) : Except (Error α) (Lexeme α) :=
  if Text.isBlank c then .ok .dropped
  else if isDigit c || (c == '.' && cs.head?.any isDigit) then
    let literal := Literal.read (c :: cs)
    if literal.isComplete then .ok (.token (.number literal.value) (literal.chars.length - 1))
    else .error (.unknownToken (String.ofList literal.chars) position)
  else if c.isAlpha || c == '_' then do
    let more := cs.takeWhile isWordChar
    let kind ← wordLexeme names mode (c :: more) (cs.drop more.length)
    return .token kind more.length
  else if c = '[' then
    let inner := cs.takeWhile (· != ']')
    if inner.length = cs.length then
      .error (.unknownToken (String.ofList (c :: cs)) position)
    else do
      let i ← resolveBracketed names (String.ofList inner)
      return .token (.dataset i) (inner.length + 1)
  else if c = '(' then .ok (.token .openParen 0)
  else if c = ')' then .ok (.token .closeParen 0)
  else match Operator.ofSymbol? c with
    | some o => operatorLexeme expectsOperand o
    | none => .error (.unknownToken (String.singleton c) position)

/-! ## The whole text -/

/-- The count of open groups after a token. -/
def depthAfter (kind : TokenKind α) (depth : Nat) : Except (Error α) Nat :=
  match kind, depth with
  | .openParen, depth => .ok (depth + 1)
  | .closeParen, 0 => .error .unbalancedParentheses
  | .closeParen, depth + 1 => .ok depth
  | _, depth => .ok depth

/-- The tokens of the rest of a text, given its position, the count of open groups and whether an
operand is due. -/
def scanFrom [OfScientific α] (names : List String) (mode : Mode) (position depth : Nat)
    (expectsOperand : Bool) : List Char → Except (Error α) (List (Token α))
  | [] => if depth = 0 then .ok [] else .error .unbalancedParentheses
  | c :: cs => do
    match ← lexeme names mode position expectsOperand c cs with
    | .dropped => scanFrom names mode (position + c.utf8Size) depth expectsOperand cs
    | .token kind more =>
      let text := String.ofList (c :: cs.take more)
      let depth ← depthAfter kind depth
      if kind.startsOperand && !expectsOperand then
        throw (.missingOperator text position)
      let tokens ← scanFrom names mode (position + text.utf8ByteSize) depth (!kind.endsOperand)
        (cs.drop more)
      return ⟨kind, text, position⟩ :: tokens
termination_by cs => cs.length
decreasing_by all_goals simp; try omega

/-- The tokens of an expression over datasets with the given names. -/
def scan [OfScientific α] (names : List String) (mode : Mode) (expression : String) :
    Except (Error α) (List (Token α)) := do
  let tokens ← scanFrom names mode 0 0 true expression.toList
  if tokens.isEmpty then throw .emptyExpression
  return tokens

end SignalCalc
