/-!
# Number literals

A number is written with digits, a point and an exponent, the last two optional: `2`, `2.`, `.5`,
`1.5e-3`. `Literal.read` splits the longest literal off a text; only its exponent can be incomplete.
-/

namespace SignalCalc

/-- The digits of ASCII. -/
def isDigit (c : Char) : Bool := '0' ≤ c && c ≤ '9'

/-- The number that a list of digits stands for. -/
def digitsValue (ds : List Char) : Nat := ds.foldl (fun n d => 10 * n + (d.toNat - '0'.toNat)) 0

/-- The exponent of a literal as it is written. -/
structure Exponent where
  mark : Char
  sign : Option Char
  digits : List Char

/-- A number as it is written. -/
structure Literal where
  whole : List Char
  /-- The digits after the point, if there is a point. -/
  fraction : Option (List Char)
  exponent : Option Exponent

namespace Exponent

/-- The characters of the exponent. -/
def chars (e : Exponent) : List Char := e.mark :: (e.sign.toList ++ e.digits)

/-- The power of ten. -/
def value (e : Exponent) : Int :=
  if e.sign = some '-' then -(digitsValue e.digits : Int) else digitsValue e.digits

/-- The exponent at the head of a text. -/
def read? : List Char → Option Exponent
  | mark :: cs =>
    if mark = 'e' ∨ mark = 'E' then
      match cs with
      | [] => some ⟨mark, none, []⟩
      | c :: rest =>
        if c = '+' ∨ c = '-' then some ⟨mark, some c, rest.takeWhile isDigit⟩
        else some ⟨mark, none, (c :: rest).takeWhile isDigit⟩
    else none
  | [] => none

end Exponent

namespace Literal

/-- The characters of the literal. -/
def chars (l : Literal) : List Char :=
  l.whole ++ (l.fraction.elim [] ('.' :: ·)) ++ (l.exponent.elim [] Exponent.chars)

/-- Whether an exponent that is marked has digits. -/
def isComplete (l : Literal) : Bool := l.exponent.all (!·.digits.isEmpty)

/-- The literal at the head of a text. -/
def read (cs : List Char) : Literal :=
  let whole := cs.takeWhile isDigit
  match cs.dropWhile isDigit with
  | '.' :: rest => ⟨whole, some (rest.takeWhile isDigit), Exponent.read? (rest.dropWhile isDigit)⟩
  | rest => ⟨whole, none, Exponent.read? rest⟩

/-- The number that the literal stands for. -/
def value {α : Type} [OfScientific α] (l : Literal) : α :=
  let fraction := l.fraction.getD []
  let exponent := l.exponent.elim 0 Exponent.value - fraction.length
  OfScientific.ofScientific (digitsValue (l.whole ++ fraction)) (exponent < 0) exponent.natAbs

end Literal

end SignalCalc
