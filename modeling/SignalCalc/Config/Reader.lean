import SignalCalc.Config.Json
import SignalCalc.Decimal.Literal
import SignalCalc.Elementary

/-!
# Reading JSON text

`Json.parse?` reads a text that holds one value and nothing else but blanks around its parts. The
steps take the rest of the text to the rest after what they have read.
-/

namespace SignalCalc.Json

/-- The blanks between the parts of a JSON text. -/
def isBlank (c : Char) : Bool := c == ' ' || c == '\t' || c == '\n' || c == '\r'

/-- A text without the blanks at its head. -/
def skipBlanks (cs : List Char) : List Char := cs.dropWhile isBlank

/-! ## Strings -/

/-- The value of a hexadecimal digit. -/
def hexDigit? (c : Char) : Option Nat :=
  if '0' ≤ c ∧ c ≤ '9' then some (c.toNat - '0'.toNat)
  else if 'a' ≤ c ∧ c ≤ 'f' then some (c.toNat - 'a'.toNat + 10)
  else if 'A' ≤ c ∧ c ≤ 'F' then some (c.toNat - 'A'.toNat + 10)
  else none

/-- What a string is made of: characters, and units of sixteen bits given by their number. -/
inductive StringPart where
  | char (c : Char)
  | unit (code : Nat)

/-- The character after a backslash that stands for another one. -/
def escaped? : Char → Option Char
  | '"' => some '"'
  | '\\' => some '\\'
  | '/' => some '/'
  | 'b' => some '\x08'
  | 'f' => some '\x0c'
  | 'n' => some '\n'
  | 'r' => some '\r'
  | 't' => some '\t'
  | _ => none

/-- The parts of a string up to its closing quote. No control character may stand in it. -/
def stringParts? : List Char → Option (List StringPart × List Char)
  | '"' :: rest => some ([], rest)
  | '\\' :: 'u' :: a :: b :: c :: d :: rest => do
    let code := (((← hexDigit? a) * 16 + (← hexDigit? b)) * 16 + (← hexDigit? c)) * 16
      + (← hexDigit? d)
    let (parts, rest) ← stringParts? rest
    return (.unit code :: parts, rest)
  | '\\' :: c :: rest => do
    let c ← escaped? c
    let (parts, rest) ← stringParts? rest
    return (.char c :: parts, rest)
  | c :: rest => do
    if c.toNat < 32 then none
    let (parts, rest) ← stringParts? rest
    return (.char c :: parts, rest)
  | [] => none

/-- The text of a string, none if a surrogate has no partner. -/
def textOfParts? : List StringPart → Option (List Char)
  | [] => some []
  | .char c :: parts => do return c :: (← textOfParts? parts)
  | .unit code :: parts =>
    if code < 0xD800 ∨ 0xDFFF < code then do return Char.ofNat code :: (← textOfParts? parts)
    else match parts with
      | .unit low :: parts =>
        if code < 0xDC00 ∧ 0xDC00 ≤ low ∧ low ≤ 0xDFFF then do
          let c := Char.ofNat (0x10000 + (code - 0xD800) * 0x400 + (low - 0xDC00))
          return c :: (← textOfParts? parts)
        else none
      | _ => none

/-- A string after its opening quote. Its text is none if it is broken. -/
def stringAt? (cs : List Char) : Option (Option String × List Char) := do
  let (parts, rest) ← stringParts? cs
  return ((textOfParts? parts).map String.ofList, rest)

/-! ## Numbers -/

/-- Whether a literal is a JSON number: digits before the point and without a needless zero, after
the point if there is one, and in the exponent if there is one. -/
def isNumber (l : Literal) : Bool :=
  !l.whole.isEmpty && (l.whole.head? != some '0' || l.whole.length == 1)
    && l.fraction.all (!·.isEmpty) && l.isComplete

variable {α : Type} [Neg α] [OfScientific α]

/-- The value of a literal with its sign. -/
def ofLiteral (negative : Bool) (l : Literal) : Json α :=
  if negative then .real (-l.value)
  else if l.fraction.isNone && l.exponent.isNone && digitsValue l.whole < wordBound then
    .natural (digitsValue l.whole)
  else .real l.value

/-- The number at the head of a text. -/
def numberAt? (cs : List Char) : Option (Json α × List Char) :=
  let negative := cs.head? == some '-'
  let digits := if negative then cs.drop 1 else cs
  let l := Literal.read digits
  if isNumber l then some (ofLiteral negative l, digits.drop l.chars.length) else none

/-! ## Values -/

/-- The text after a word. -/
def afterWord? (word : String) (cs : List Char) : Option (List Char) :=
  if word.toList.isPrefixOf cs then some (cs.drop word.toList.length) else none

mutual

/-- The value at the head of a text. Every step takes one unit of fuel. -/
def valueAt? : Nat → List Char → Option (Json α × List Char)
  | 0, _ => none
  | fuel + 1, cs =>
    match skipBlanks cs with
    | '{' :: rest =>
      match skipBlanks rest with
      | '}' :: rest => some (.object [], rest)
      | rest => do
        let (members, rest) ← membersAt? fuel rest
        return (.object members, rest)
    | '[' :: rest =>
      match skipBlanks rest with
      | ']' :: rest => some (.array [], rest)
      | rest => do
        let (items, rest) ← itemsAt? fuel rest
        return (.array items, rest)
    | '"' :: rest => do
      let (text, rest) ← stringAt? rest
      return (text.elim .brokenString .string, rest)
    | 't' :: rest => do return (.bool true, ← afterWord? "rue" rest)
    | 'f' :: rest => do return (.bool false, ← afterWord? "alse" rest)
    | 'n' :: rest => do return (.null, ← afterWord? "ull" rest)
    | cs => numberAt? cs

/-- The items of an array up to its closing bracket. -/
def itemsAt? : Nat → List Char → Option (List (Json α) × List Char)
  | 0, _ => none
  | fuel + 1, cs => do
    let (item, rest) ← valueAt? fuel cs
    match skipBlanks rest with
    | ']' :: rest => return ([item], rest)
    | ',' :: rest =>
      let (items, rest) ← itemsAt? fuel rest
      return (item :: items, rest)
    | _ => none

/-- The members of an object up to its closing brace. -/
def membersAt? : Nat → List Char → Option (List (Option String × Json α) × List Char)
  | 0, _ => none
  | fuel + 1, cs =>
    match skipBlanks cs with
    | '"' :: rest => do
      let (key, rest) ← stringAt? rest
      match skipBlanks rest with
      | ':' :: rest =>
        let (value, rest) ← valueAt? fuel rest
        match skipBlanks rest with
        | '}' :: rest => return ([(key, value)], rest)
        | ',' :: rest =>
          let (members, rest) ← membersAt? fuel rest
          return ((key, value) :: members, rest)
        | _ => none
      | _ => none
    | _ => none

end

/-- The value of a whole text. No character takes more than two steps. -/
def parse? (text : String) : Option (Json α) := do
  let cs := text.toList
  let (value, rest) ← valueAt? (2 * cs.length + 2) cs
  if (skipBlanks rest).isEmpty then return value else none

end SignalCalc.Json
