import SignalCalc.Text.LetterCase

/-!
# Lowercase text

Names are compared without regard to case by their lowercase forms. Every character is mapped on its
own, with two exceptions: the dotted capital `İ` becomes two characters, and a capital sigma at the
end of a word becomes the final sigma.
-/

namespace SignalCalc.Text

/-- Whether a character is passed over when the surroundings of a sigma are looked at. -/
def isIgnorable (c : Char) : Bool := inRanges ignorableRanges c.toNat

/-- Whether a character is a letter with case. -/
def isCased (c : Char) : Bool := inRanges casedRanges c.toNat

/-- Whether the first character that is not passed over is a letter with case. -/
def meetsCased (cs : List Char) : Bool :=
  match cs.dropWhile isIgnorable with
  | c :: _ => isCased c
  | [] => false

/-- The lowercase form of one character, out of context. -/
def lowerChar (c : Char) : Char :=
  if c.toNat < 128 then c.toLower
  else
    match lowerRanges.findSome? (·.lower? c.toNat) with
    | some code => Char.ofNat code
    | none => c

/-- The lowercase form of a text whose reversed beginning has been read. A sigma is final if a letter
comes before it and none after it. -/
def lowerAfter (before : List Char) : List Char → List Char
  | [] => []
  | c :: cs =>
    let lower :=
      if c = 'Σ' then [if meetsCased before && !meetsCased cs then 'ς' else 'σ']
      else if c = 'İ' then ['i', '\u0307']
      else [lowerChar c]
    lower ++ lowerAfter (c :: before) cs

/-- The lowercase form of a text. -/
def lowercase (s : String) : String := String.ofList (lowerAfter [] s.toList)

end SignalCalc.Text
