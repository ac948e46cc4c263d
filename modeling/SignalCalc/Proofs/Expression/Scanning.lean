import Mathlib.Data.List.Basic
import Mathlib.Tactic.NthRewrite
import Mathlib.Tactic.Tauto
import SignalCalc.Proofs.Decimal.Literal
import SignalCalc.Proofs.Expression.Arrangement
import SignalCalc.Proofs.Expression.Postfix

/-!
# Scanning as cutting a text into pieces

The scanner cuts a text into pieces: tokens, and characters that it drops. `Lexes` says which pieces
it cuts off before which rests, without positions and counts of characters, and `Scans` chains them
along what the scanner keeps between two pieces. A piece is never empty, and the pieces in a row are
the text again.

Main statements: `lexes_of_lexeme` and `Lexes.lexeme_eq` for one piece, `Scans.scanFrom_eq` and
`scanFrom_outcome` for pieces in a row, `scan_eq_ok_iff` and `failsAt_of_scan` for whole texts.
-/

namespace SignalCalc

variable {α : Type}

/-! ## Pieces -/

/-- A part of a text: a token of a kind, or something to drop. -/
structure Piece (α : Type) where
  chars : List Char
  kind? : Option (TokenKind α)

namespace Piece

def text (p : Piece α) : String := String.ofList p.chars

/-- The token that a piece at a position is, if it is one. -/
def tokenAt (p : Piece α) (position : Nat) : List (Token α) :=
  p.kind?.toList.map fun kind => ⟨kind, p.text, position⟩

/-- The characters of pieces in a row. -/
def allChars (pieces : List (Piece α)) : List Char := pieces.flatMap chars

/-- The count of bytes of pieces in a row. -/
def byteSize (pieces : List (Piece α)) : Nat := (String.ofList (allChars pieces)).utf8ByteSize

/-- The tokens among pieces in a row that start at a position. -/
def tokensAt (position : Nat) : List (Piece α) → List (Token α)
  | [] => []
  | p :: ps => p.tokenAt position ++ tokensAt (position + p.text.utf8ByteSize) ps

/-- What the scanner finds where a piece stands. -/
def lexeme (p : Piece α) : Lexeme α :=
  match p.kind? with
  | none => .dropped
  | some kind => .token kind (p.chars.length - 1)

@[simp] theorem allChars_nil : allChars (α := α) [] = [] := rfl

@[simp] theorem allChars_cons (p : Piece α) (ps : List (Piece α)) :
    allChars (p :: ps) = p.chars ++ allChars ps :=
  rfl

@[simp] theorem allChars_append (ps qs : List (Piece α)) :
    allChars (ps ++ qs) = allChars ps ++ allChars qs :=
  List.flatMap_append

@[simp] theorem byteSize_nil : byteSize (α := α) [] = 0 := rfl

@[simp] theorem byteSize_cons (p : Piece α) (ps : List (Piece α)) :
    byteSize (p :: ps) = p.text.utf8ByteSize + byteSize ps := by
  rw [byteSize, allChars_cons, String.ofList_append, String.utf8ByteSize_append]
  rfl

@[simp] theorem byteSize_append (ps qs : List (Piece α)) :
    byteSize (ps ++ qs) = byteSize ps + byteSize qs := by
  rw [byteSize, allChars_append, String.ofList_append, String.utf8ByteSize_append]
  rfl

/-- The tokens of further pieces stand behind the characters of the earlier ones. -/
theorem tokensAt_append (position : Nat) (ps qs : List (Piece α)) :
    tokensAt position (ps ++ qs) =
      tokensAt position ps ++ tokensAt (position + byteSize ps) qs := by
  induction ps generalizing position with
  | nil => simp [tokensAt]
  | cons p ps ih => simp [tokensAt, ih, Nat.add_assoc]

/-- A token is a piece, at the count of bytes of the pieces before it. -/
theorem exists_of_mem_tokensAt {position : Nat} {ps : List (Piece α)} {t : Token α}
    (h : t ∈ tokensAt position ps) :
    ∃ qs p rs, ps = qs ++ p :: rs ∧ p.kind? = some t.kind ∧ p.text = t.text ∧
      t.position = position + byteSize qs := by
  induction ps generalizing position with
  | nil => cases h
  | cons p ps ih =>
    rcases List.mem_append.1 h with h | h
    · obtain ⟨kind, hk, rfl⟩ := List.mem_map.1 h
      exact ⟨[], p, ps, rfl, by simpa using hk, rfl, rfl⟩
    · obtain ⟨qs, q, rs, rfl, hk, ht, hp⟩ := ih h
      exact ⟨p :: qs, q, rs, rfl, hk, ht, by rw [hp, byteSize_cons, Nat.add_assoc]⟩

end Piece

/-! ## Characters -/

/-- Whether a word starts with a character. -/
def startsWord (c : Char) : Bool := c.isAlpha || c == '_'

/-- The five blanks. -/
theorem isBlank_iff {c : Char} :
    Text.isBlank c = true ↔ c = ' ' ∨ c = '\t' ∨ c = '\n' ∨ c = '\x0c' ∨ c = '\r' := by
  simp [Text.isBlank, or_assoc]

/-- The digits by their codes. -/
theorem isDigit_iff {c : Char} : isDigit c = true ↔ 48 ≤ c.toNat ∧ c.toNat ≤ 57 := by
  simp [isDigit, Char.le_def, UInt32.le_iff_toNat_le]

/-- A word starts with a letter without accents or an underscore. -/
theorem startsWord_iff {c : Char} :
    startsWord c = true ↔
      65 ≤ c.toNat ∧ c.toNat ≤ 90 ∨ 97 ≤ c.toNat ∧ c.toNat ≤ 122 ∨ c.toNat = 95 := by
  have h : c = '_' ↔ c.toNat = 95 := ⟨by rintro rfl; rfl, fun h => Char.toNat_inj.1 h⟩
  unfold startsWord Char.isAlpha Char.isUpper Char.isLower
  simp [h, UInt32.le_iff_toNat_le, or_assoc]

/-- A word goes on with what it may start with, and with digits. -/
theorem isWordChar_iff {c : Char} :
    isWordChar c = true ↔ startsWord c = true ∨ isDigit c = true := by
  simp [isWordChar, startsWord, Char.isAlphanum, isDigit, Char.isDigit, Char.le_def]
  tauto

/-- Letters and underscores are neither blanks nor the beginning of a number. -/
theorem not_startsNumber_of_startsWord {c : Char} (h : startsWord c = true) :
    Text.isBlank c = false ∧ ∀ cs, startsNumber c cs = false := by
  have hb : Text.isBlank c = false := by
    refine Bool.eq_false_iff.2 fun hb => ?_
    rcases isBlank_iff.1 hb with rfl | rfl | rfl | rfl | rfl <;> exact absurd h (by decide)
  have hd : isDigit c = false := by
    refine Bool.eq_false_iff.2 fun hd => ?_
    rw [isDigit_iff] at hd
    rw [startsWord_iff] at h
    omega
  have hp : c ≠ '.' := by rintro rfl; exact absurd h (by decide)
  exact ⟨hb, fun cs => by simp [startsNumber, hd, hp]⟩

/-- A number does not start with a blank. -/
theorem isBlank_of_startsNumber {c : Char} {cs : List Char} (h : startsNumber c cs = true) :
    Text.isBlank c = false := by
  refine Bool.eq_false_iff.2 fun hb => ?_
  rcases isBlank_iff.1 hb with rfl | rfl | rfl | rfl | rfl <;>
    exact absurd h (by simp [startsNumber, isDigit])

/-- A literal with digits starts as a number does, whatever follows it. -/
theorem Literal.exists_startsNumber {l : Literal} (h : l.IsWellFormed) (hd : l.HasDigits) :
    ∃ c cs, l.chars = c :: cs ∧ ∀ rest, startsNumber c (cs ++ rest) = true := by
  obtain ⟨whole, fraction, exponent⟩ := l
  cases whole with
  | cons d ds =>
    have hdigit : isDigit d = true := h.whole d List.mem_cons_self
    exact ⟨d, _, rfl, fun _ => by simp [startsNumber, hdigit]⟩
  | nil =>
    obtain ⟨fs, rfl, hne⟩ : ∃ fs, fraction = some fs ∧ fs ≠ [] := by simpa [HasDigits] using hd
    obtain ⟨f, fs, rfl⟩ := List.exists_cons_of_ne_nil hne
    have hdigit : isDigit f = true := h.fraction _ rfl f List.mem_cons_self
    exact ⟨'.', _, rfl, fun _ => by simp [startsNumber, hdigit]⟩

/-- Only the symbol of an operator stands for it. -/
theorem Operator.eq_symbol {c : Char} {o : Operator} (h : ofSymbol? c = some o) : c = o.symbol := by
  unfold ofSymbol? at h
  split at h <;> cases h <;> rfl

/-! ## References -/

/-- A name that is found is that of a dataset. -/
theorem findDataset_lt {names : List String} {name : String} {i : Nat}
    (h : findDataset names name = some i) : i < names.length := by
  rcases Option.or_eq_some_iff.1 h with h | ⟨-, h⟩ <;>
    exact (List.findIdx?_eq_some_iff_getElem.1 h).1

section References

variable [Zero α] [BEq α] {names : List String} {mode : Mode}

/-- A bracketed text refers to a dataset that there is, by its number or by its name. -/
theorem resolveBracketed_lt {inner : String} {i : Nat}
    (h : resolveBracketed (α := α) names inner = .ok i) : i < names.length := by
  unfold resolveBracketed at h
  dsimp only at h
  split at h
  · split at h <;> cases h
    next hn => omega
  · split at h <;> cases h
    next hf => exact findDataset_lt hf

/-- A word is a function, or the variable where there is one, or the name of a dataset, in this
order. What follows it matters to errors only. -/
theorem wordLexeme_eq_ok_iff {word rest : List Char} {kind : TokenKind α} :
    wordLexeme names mode word rest = .ok kind ↔
      let lower := String.ofList (word.map Char.toLower)
      (∃ f, Builtin.ofName? lower = some f ∧ kind = .builtin f) ∨
        Builtin.ofName? lower = none ∧
          ((mode = .symbolic ∧ lower = "s") ∧ kind = .laplace ∨
            ¬(mode = .symbolic ∧ lower = "s") ∧
              ∃ i, findDataset names (String.ofList word) = some i ∧ kind = .dataset i) := by
  unfold wordLexeme
  dsimp only
  cases hf : Builtin.ofName? (String.ofList (word.map Char.toLower)) with
  | some f => simp [eq_comm]
  | none =>
    by_cases hs : mode = .symbolic ∧ String.ofList (word.map Char.toLower) = "s"
    · simp [hs, eq_comm]
    · simp only [hs, if_false, false_and, false_or, not_false_eq_true, true_and, reduceCtorEq,
        exists_false]
      cases hi : findDataset names (String.ofList word) with
      | some i => simp [eq_comm]
      | none =>
        dsimp only
        split <;> simp

end References

/-! ## One piece -/

section Lexes

variable [Zero α] [BEq α]

/-- The scanner cuts off a piece before a rest, where an operand is due or not. -/
inductive Lexes [OfScientific α] (names : List String) (mode : Mode) :
    Bool → Piece α → List Char → Prop where
  | blank {due : Bool} {c : Char} {rest : List Char} :
      Text.isBlank c = true → Lexes names mode due ⟨[c], none⟩ rest
  | plus {rest : List Char} : Lexes names mode true ⟨['+'], none⟩ rest
  | number {due : Bool} {l : Literal} {rest : List Char} :
      l.IsWellFormed → l.HasDigits → l.isComplete = true → Literal.read (l.chars ++ rest) = l →
      Lexes names mode due ⟨l.chars, some (.number l.value)⟩ rest
  | word {due : Bool} {c : Char} {cs rest : List Char} {kind : TokenKind α} :
      startsWord c = true → (∀ d ∈ cs, isWordChar d = true) →
      (∀ d, rest.head? = some d → isWordChar d = false) →
      wordLexeme names mode (c :: cs) rest = .ok kind →
      Lexes names mode due ⟨c :: cs, some kind⟩ rest
  | bracket {due : Bool} {inner rest : List Char} {i : Nat} :
      (∀ d ∈ inner, d ≠ ']') →
      resolveBracketed (α := α) names (String.ofList inner) = .ok i →
      Lexes names mode due ⟨'[' :: (inner ++ [']']), some (.dataset i)⟩ rest
  | openParen {due : Bool} {rest : List Char} :
      Lexes names mode due ⟨['('], some .openParen⟩ rest
  | closeParen {due : Bool} {rest : List Char} :
      Lexes names mode due ⟨[')'], some .closeParen⟩ rest
  | operator {rest : List Char} (o : Operator) :
      Lexes names mode false ⟨[o.symbol], some (.operator o)⟩ rest
  | negate {rest : List Char} : Lexes names mode true ⟨['-'], some .negate⟩ rest

variable [OfScientific α] {names : List String} {mode : Mode} {position : Nat} {due : Bool}
  {c : Char} {cs rest : List Char} {p : Piece α}

/-- A piece that is cut off is not empty, so the scanner gets on. -/
theorem Lexes.chars_ne_nil (h : Lexes names mode due p rest) : p.chars ≠ [] := by
  cases h with
  | number hwf hd =>
    obtain ⟨c, cs, hc, -⟩ := Literal.exists_startsNumber hwf hd
    simp [hc]
  | blank | plus | word | bracket | openParen | closeParen | operator | negate => simp

/-- A dropped character is a blank, or a plus sign where an operand is due. -/
theorem Lexes.dropped (h : Lexes names mode due p rest) (hk : p.kind? = none) :
    ∃ c, p.chars = [c] ∧ (Text.isBlank c = true ∨ c = '+' ∧ due = true) := by
  cases h with
  | blank hb => exact ⟨_, rfl, .inl hb⟩
  | plus => exact ⟨_, rfl, .inr ⟨rfl, rfl⟩⟩
  | number | word | bracket | openParen | closeParen | operator | negate => cases hk

/-- A word goes as far as its characters do. -/
theorem Lexes.word_takeWhile {kind : TokenKind α} (hw : startsWord c = true)
    (hk : wordLexeme names mode (c :: cs.takeWhile isWordChar)
      (cs.drop (cs.takeWhile isWordChar).length) = .ok kind) :
    ∃ rest, cs = cs.takeWhile isWordChar ++ rest ∧
      Lexes names mode due ⟨c :: cs.takeWhile isWordChar, some kind⟩ rest := by
  obtain ⟨hsplit, hmem, hhead⟩ := takeWhile_dropWhile_spec isWordChar cs
  have hdrop : cs.drop (cs.takeWhile isWordChar).length = cs.dropWhile isWordChar := by
    nth_rewrite 2 [hsplit]
    rw [List.drop_left]
  rw [hdrop] at hk
  exact ⟨_, hsplit, .word hw hmem hhead hk⟩

/-- A reference goes as far as the first bracket that closes, if there is one. -/
theorem Lexes.bracket_takeWhile {i : Nat} (hlen : (cs.takeWhile (· != ']')).length ≠ cs.length)
    (hi : resolveBracketed (α := α) names (String.ofList (cs.takeWhile (· != ']'))) = .ok i) :
    ∃ rest, cs = cs.takeWhile (· != ']') ++ [']'] ++ rest ∧
      Lexes names mode due
        (⟨'[' :: (cs.takeWhile (· != ']') ++ [']']), some (.dataset i)⟩ : Piece α) rest := by
  obtain ⟨hsplit, hmem, hhead⟩ := takeWhile_dropWhile_spec (· != ']') cs
  obtain ⟨d, rest, hd⟩ : ∃ d rest, cs.dropWhile (· != ']') = d :: rest := by
    refine List.exists_cons_of_ne_nil fun hnil => hlen ?_
    rw [hnil, List.append_nil] at hsplit
    rw [← hsplit]
  obtain rfl : d = ']' := by simpa using hhead d (by rw [hd]; rfl)
  refine ⟨rest, ?_, .bracket (fun d h => by simpa using hmem d h) hi⟩
  rw [List.append_assoc, List.singleton_append, ← hd, ← hsplit]

/-- What the scanner finds at the head of a text is a piece that it cuts off. -/
theorem lexes_of_lexeme {l : Lexeme α} (h : lexeme names mode position due c cs = .ok l) :
    ∃ p rest, c :: cs = p.chars ++ rest ∧ Lexes names mode due p rest ∧ p.lexeme = l := by
  -- One goal for each test of the scanner, in its order; the last ones are single characters.
  unfold lexeme at h
  split at h
  · next hb =>
    cases h
    exact ⟨⟨[c], none⟩, cs, rfl, .blank hb, rfl⟩
  split at h
  · next hn =>
    dsimp only at h
    split at h <;> cases h
    next hc =>
      obtain ⟨rest, hr⟩ := Literal.isPrefix_read (c :: cs)
      refine ⟨⟨_, some _⟩, rest, hr.symm, .number (Literal.isWellFormed_read _)
        (Literal.hasDigits_read hn) hc (by rw [hr]), rfl⟩
  split at h
  · next hw =>
    obtain ⟨kind, hk, hr⟩ := bind_eq_ok_iff.1 h
    cases hr
    obtain ⟨rest, hcs, hl⟩ := Lexes.word_takeWhile hw hk
    exact ⟨⟨c :: cs.takeWhile isWordChar, some kind⟩, rest, congrArg (c :: ·) hcs, hl, rfl⟩
  split at h
  · next hc =>
    subst hc
    dsimp only at h
    split at h
    · cases h
    · next hlen =>
      obtain ⟨i, hi, hr⟩ := bind_eq_ok_iff.1 h
      cases hr
      obtain ⟨rest, hcs, hl⟩ := Lexes.bracket_takeWhile hlen hi
      exact ⟨⟨'[' :: (cs.takeWhile (· != ']') ++ [']']), some (.dataset i)⟩, rest,
        congrArg ('[' :: ·) hcs, hl, by simp [Piece.lexeme]⟩
  split at h
  · next hc =>
    subst hc
    cases h
    exact ⟨⟨['('], some .openParen⟩, cs, rfl, .openParen, rfl⟩
  split at h
  · next hc =>
    subst hc
    cases h
    exact ⟨⟨[')'], some .closeParen⟩, cs, rfl, .closeParen, rfl⟩
  split at h
  · next o ho =>
    obtain rfl := Operator.eq_symbol ho
    cases due with
    | false =>
      cases h
      exact ⟨⟨[o.symbol], some (.operator o)⟩, cs, rfl, .operator o, rfl⟩
    | true =>
      cases o <;> cases h
      · exact ⟨⟨['+'], none⟩, cs, rfl, .plus, rfl⟩
      · exact ⟨⟨['-'], some .negate⟩, cs, rfl, .negate, rfl⟩
  · cases h

/-- Where a number starts, its literal is cut off, and refused if it is not complete. -/
theorem lexeme_number (h : startsNumber c cs = true) :
    (lexeme names mode position due c cs : Except (Error α) (Lexeme α)) =
      let literal := Literal.read (c :: cs)
      if literal.isComplete then .ok (.token (.number literal.value) (literal.chars.length - 1))
      else .error (.unknownToken (String.ofList literal.chars) position) := by
  rw [lexeme, isBlank_of_startsNumber h]
  exact if_pos h

/-- Where a word starts, all of its characters are cut off. -/
theorem lexeme_word (h : startsWord c = true) :
    (lexeme names mode position due c cs : Except (Error α) (Lexeme α)) =
      let more := cs.takeWhile isWordChar
      wordLexeme names mode (c :: more) (cs.drop more.length) >>= fun kind =>
        .ok (.token kind more.length) := by
  obtain ⟨hb, hn⟩ := not_startsNumber_of_startsWord h
  rw [lexeme, hb]
  exact (if_neg (Bool.eq_false_iff.1 (hn cs))).trans (if_pos h)

/-- A bracket is cut off with all that comes up to the one that closes it. -/
theorem lexeme_bracket :
    (lexeme names mode position due '[' cs : Except (Error α) (Lexeme α)) =
      let inner := cs.takeWhile (· != ']')
      if inner.length = cs.length then .error (.unknownToken (String.ofList ('[' :: cs)) position)
      else do
        let i ← resolveBracketed names (String.ofList inner)
        return .token (.dataset i) (inner.length + 1) :=
  rfl

/-- A piece that the scanner cuts off is what it finds at the head of the text. -/
theorem Lexes.lexeme_eq (h : Lexes names mode due p rest) (position : Nat)
    (hc : c :: cs = p.chars ++ rest) : lexeme names mode position due c cs = .ok p.lexeme := by
  cases h with
  | blank hb =>
    cases hc
    simp [lexeme, hb, Piece.lexeme]
  | plus | negate | openParen | closeParen =>
    cases hc
    rfl
  | operator o =>
    cases hc
    cases o <;> rfl
  | @number _ l _ hwf hd hcomplete hread =>
    obtain ⟨c', cs', hl, hs⟩ := Literal.exists_startsNumber hwf hd
    have hs := hs rest
    have hcs : c :: cs = c' :: (cs' ++ rest) := hc.trans (by simp [hl])
    obtain ⟨rfl, rfl⟩ := List.cons.inj hcs
    rw [← hc] at hread
    rw [lexeme_number hs, hread]
    exact if_pos hcomplete
  | @word _ c' cs' _ kind hw hws hr hk =>
    simp only [List.cons_append, List.cons.injEq] at hc
    obtain ⟨rfl, rfl⟩ := hc
    have ht := (takeWhile_append_of_head hws hr).1
    rw [lexeme_word hw, ht]
    simp only [List.drop_left, hk]
    rfl
  | @bracket _ inner _ i hi hk =>
    simp only [List.cons_append, List.append_assoc, List.nil_append, List.cons.injEq] at hc
    obtain ⟨rfl, rfl⟩ := hc
    have ht : (inner ++ ']' :: rest).takeWhile (· != ']') = inner :=
      (takeWhile_append_of_head (p := (· != ']')) (fun d hd => by simpa using hi d hd)
        (by rintro _ ⟨⟩; rfl)).1
    have hlen : inner.length ≠ (inner ++ ']' :: rest).length := by simp
    rw [lexeme_bracket, ht, if_neg hlen, hk]
    simp [Piece.lexeme]

end Lexes

/-! ## Pieces in a row -/

/-- What the scanner keeps between two pieces: the count of open groups, and whether an operand is
due. -/
structure ScanState where
  depth : Nat
  due : Bool

/-- What the scanner keeps at the beginning of a text. -/
def ScanState.start : ScanState := ⟨0, true⟩

section Scans

variable [Zero α] [BEq α]

/-- What the scanner keeps after a piece that it accepts. -/
inductive ScanState.Accepts : ScanState → Option (TokenKind α) → ScanState → Prop where
  | dropped {s : ScanState} : s.Accepts none s
  | token {s : ScanState} {kind : TokenKind α} {depth : Nat} :
      depthAfter kind s.depth = .ok depth → (kind.startsOperand = true → s.due = true) →
      s.Accepts (some kind) ⟨depth, !kind.endsOperand⟩

variable [OfScientific α]

/-- The scanner cuts off pieces in a row before a rest, and keeps the last state. -/
inductive Scans (names : List String) (mode : Mode) :
    ScanState → List (Piece α) → List Char → ScanState → Prop where
  | nil {s : ScanState} {rest : List Char} : Scans names mode s [] rest s
  | cons {s s' s'' : ScanState} {p : Piece α} {ps : List (Piece α)} {rest : List Char} :
      Lexes names mode s.due p (Piece.allChars ps ++ rest) → s.Accepts p.kind? s' →
      Scans names mode s' ps rest s'' → Scans names mode s (p :: ps) rest s''

/-- The scanner stops with an error in front of a text: at its end, in the piece at its head, or
because the state does not accept this piece. -/
inductive FailsAt (names : List String) (mode : Mode) (position : Nat) (s : ScanState) :
    List Char → Error α → Prop where
  | unclosed : s.depth ≠ 0 → FailsAt names mode position s [] .unbalancedParentheses
  | piece {c : Char} {cs : List Char} {e : Error α} :
      lexeme names mode position s.due c cs = .error e → FailsAt names mode position s (c :: cs) e
  | unopened {p : Piece α} {rest : List Char} :
      Lexes names mode s.due p rest → p.kind? = some .closeParen → s.depth = 0 →
      FailsAt names mode position s (p.chars ++ rest) .unbalancedParentheses
  | unjoined {p : Piece α} {rest : List Char} {kind : TokenKind α} :
      Lexes names mode s.due p rest → p.kind? = some kind → kind.startsOperand = true →
      s.due = false →
      FailsAt names mode position s (p.chars ++ rest) (.missingOperator p.text position)

variable {names : List String} {mode : Mode} {position : Nat} {s s' s'' : ScanState}
  {cs rest : List Char} {p : Piece α} {ps qs : List (Piece α)} {e : Error α}

/-- Scans are put together where one starts in the state in which the other ends. -/
theorem Scans.append (h : Scans names mode s ps (Piece.allChars qs ++ rest) s')
    (h' : Scans names mode s' qs rest s'') : Scans names mode s (ps ++ qs) rest s'' := by
  generalize hr : Piece.allChars qs ++ rest = rest' at h
  induction h with
  | nil => exact h'
  | cons hl ha _ ih =>
    subst hr
    exact .cons (by simpa using hl) ha (ih h' rfl)

/-- A row of pieces is cut off in two parts wherever it is divided. -/
theorem Scans.of_append (h : Scans names mode s (ps ++ qs) rest s'') :
    ∃ s', Scans names mode s ps (Piece.allChars qs ++ rest) s' ∧
      Scans names mode s' qs rest s'' := by
  induction ps generalizing s with
  | nil => exact ⟨s, .nil, h⟩
  | cons p ps ih =>
    cases h with
    | cons hl ha h =>
      obtain ⟨s', h₁, h₂⟩ := ih h
      exact ⟨s', .cons (by simpa using hl) ha h₁, h₂⟩

/-- The scanner goes on behind a piece that it cuts off and accepts. -/
theorem Lexes.scanFrom_eq (h : Lexes names mode s.due p rest) (ha : s.Accepts p.kind? s') :
    scanFrom names mode position s.depth s.due (p.chars ++ rest) =
      (scanFrom names mode (position + p.text.utf8ByteSize) s'.depth s'.due rest).map
        (p.tokenAt position ++ ·) := by
  obtain ⟨c, cs, hc⟩ := List.exists_cons_of_ne_nil h.chars_ne_nil
  have hl : lexeme names mode position s.due c (cs ++ rest) = .ok p.lexeme :=
    h.lexeme_eq position (congrArg (· ++ rest) hc).symm
  have hdropped := h.dropped
  clear h
  obtain ⟨chars, kind?⟩ := p
  dsimp only at hc hdropped ha
  subst hc
  rw [List.cons_append, scanFrom, hl, ok_bind]
  cases ha with
  | dropped =>
    obtain ⟨c', hc', -⟩ := hdropped rfl
    cases hc'
    have hsize : (Piece.text (⟨[c], none⟩ : Piece α)).utf8ByteSize = c.utf8Size := by
      simp [Piece.text]
    rw [hsize]
    exact (map_nil_append _).symm
  | @token kind depth hd hs =>
    have hb : (kind.startsOperand && !s.due) = false := by
      cases hk : kind.startsOperand with
      | false => rfl
      | true => rw [hs hk]; rfl
    simp only [Piece.lexeme, List.length_cons, Nat.add_sub_cancel, List.take_left, List.drop_left,
      hd, hb, ok_bind]
    cases scanFrom names mode (position + (String.ofList (c :: cs)).utf8ByteSize) depth
      (!kind.endsOperand) rest <;> rfl

/-- The scanner goes on behind a row of pieces, with their tokens before those of the rest. -/
theorem Scans.scanFrom_eq (h : Scans names mode s ps rest s') (position : Nat) :
    scanFrom names mode position s.depth s.due (Piece.allChars ps ++ rest) =
      (scanFrom names mode (position + Piece.byteSize ps) s'.depth s'.due rest).map
        (Piece.tokensAt position ps ++ ·) := by
  induction h generalizing position with
  | nil => exact (map_nil_append _).symm
  | cons hl ha _ ih =>
    rw [Piece.allChars_cons, List.append_assoc, hl.scanFrom_eq ha, ih, map_append_append,
      Piece.byteSize_cons, Nat.add_assoc]
    rfl

/-- The scanner ends with the error for which it stops. -/
theorem FailsAt.scanFrom_eq (h : FailsAt names mode position s cs e) :
    scanFrom names mode position s.depth s.due cs = .error e := by
  cases h with
  | unclosed hd => rw [scanFrom, if_neg hd]
  | piece he => rw [scanFrom, he, error_bind]
  | @unopened p rest hl hk hd =>
    obtain ⟨c, cs, hc⟩ := List.exists_cons_of_ne_nil hl.chars_ne_nil
    have hlex : lexeme names mode position s.due c (cs ++ rest) = .ok p.lexeme :=
      hl.lexeme_eq position (congrArg (· ++ rest) hc).symm
    rw [hc, List.cons_append, scanFrom, hlex, ok_bind, Piece.lexeme, hk, hd]
    rfl
  | @unjoined p rest kind hl hk hs hdue =>
    obtain ⟨c, cs, hc⟩ := List.exists_cons_of_ne_nil hl.chars_ne_nil
    have hlex : lexeme names mode position s.due c (cs ++ rest) = .ok p.lexeme :=
      hl.lexeme_eq position (congrArg (· ++ rest) hc).symm
    obtain ⟨depth, hd⟩ : ∃ depth, depthAfter kind s.depth = (.ok depth : Except (Error α) Nat) := by
      cases kind <;> first | exact ⟨_, rfl⟩ | cases hs
    rw [hc, List.cons_append, scanFrom, hlex, ok_bind, Piece.lexeme, hk]
    simp only [hd, ok_bind, hs, hdue, hc, Piece.text, List.length_cons, Nat.add_sub_cancel,
      List.take_left]
    rfl

/-- In front of a text that does not end the scanner cuts off a piece and accepts it, or stops. -/
theorem lexes_or_failsAt (names : List String) (mode : Mode) (position : Nat) (s : ScanState)
    (c : Char) (cs : List Char) :
    (∃ (p : Piece α) (rest : List Char) (s' : ScanState), c :: cs = p.chars ++ rest ∧
        Lexes names mode s.due p rest ∧ s.Accepts p.kind? s') ∨
      ∃ e : Error α, FailsAt names mode position s (c :: cs) e := by
  cases hl : (lexeme names mode position s.due c cs : Except (Error α) (Lexeme α)) with
  | error e => exact .inr ⟨e, .piece hl⟩
  | ok l =>
    obtain ⟨p, rest, hc, hp, -⟩ := lexes_of_lexeme hl
    rw [hc]
    cases hk : p.kind? with
    | none => exact .inl ⟨p, rest, s, rfl, hp, hk ▸ .dropped⟩
    | some kind =>
      cases hd : (depthAfter kind s.depth : Except (Error α) Nat) with
      | error e =>
        -- Only a closing parenthesis changes the count of open groups for the worse.
        refine .inr ⟨_, .unopened hp ?_ ?_⟩
        · cases kind <;> first | exact hk | cases hd
        · cases kind <;> first | cases hd | skip
          cases hz : s.depth with
          | zero => rfl
          | succ depth => rw [hz] at hd; cases hd
      | ok depth =>
        by_cases hs : kind.startsOperand = true → s.due = true
        · exact .inl ⟨p, rest, ⟨depth, !kind.endsOperand⟩, rfl, hp, hk ▸ .token hd hs⟩
        · rw [Classical.not_imp, Bool.not_eq_true] at hs
          exact .inr ⟨_, .unjoined hp hk hs.1 hs.2⟩

/-- The scanner cuts off pieces until the text ends with no group open, or until it stops: by
induction on the text that is left. -/
theorem scanFrom_outcome (names : List String) (mode : Mode) (position : Nat) (s : ScanState)
    (cs : List Char) :
    ∃ (ps : List (Piece α)) (rest : List Char) (s' : ScanState),
      cs = Piece.allChars ps ++ rest ∧ Scans names mode s ps rest s' ∧
      (rest = [] ∧ s'.depth = 0 ∧
          scanFrom names mode position s.depth s.due cs = .ok (Piece.tokensAt position ps) ∨
        ∃ e : Error α, FailsAt names mode (position + Piece.byteSize ps) s' rest e ∧
          scanFrom names mode position s.depth s.due cs = .error e) := by
  induction hn : cs.length using Nat.strongRecOn generalizing cs position s with
  | ind n ih =>
    subst hn
    cases cs with
    | nil =>
      refine ⟨[], [], s, rfl, .nil, ?_⟩
      by_cases hd : s.depth = 0
      · exact .inl ⟨rfl, hd, by rw [scanFrom, if_pos hd]; rfl⟩
      · exact .inr ⟨_, .unclosed hd, (FailsAt.unclosed hd).scanFrom_eq⟩
    | cons c cs =>
      rcases lexes_or_failsAt (α := α) names mode position s c cs with
        ⟨p, rest, s', hc, hl, ha⟩ | ⟨e, he⟩
      · have hlt : rest.length < (c :: cs).length := by
          have := List.length_pos_of_ne_nil hl.chars_ne_nil
          rw [hc, List.length_append]
          omega
        obtain ⟨ps, rest', s'', hrest, hs, ho⟩ :=
          ih _ hlt (position + p.text.utf8ByteSize) s' rest rfl
        refine ⟨p :: ps, rest', s'', by simp [hc, hrest], .cons (hrest ▸ hl) ha hs, ?_⟩
        rw [hc, hl.scanFrom_eq ha]
        rcases ho with ⟨hr, hd, ho⟩ | ⟨e, he, ho⟩
        · exact .inl ⟨hr, hd, by rw [ho]; rfl⟩
        · refine .inr ⟨e, ?_, by rw [ho]; rfl⟩
          rwa [Piece.byteSize_cons, ← Nat.add_assoc]
      · exact ⟨[], c :: cs, s, rfl, .nil, .inr ⟨e, he, he.scanFrom_eq⟩⟩

/-- Every piece of a row has been cut off somewhere. -/
theorem Scans.exists_lexes (h : Scans names mode s ps rest s') (hp : p ∈ ps) :
    ∃ due rest', Lexes names mode due p rest' := by
  induction h with
  | nil => cases hp
  | cons hl _ _ ih =>
    rcases List.mem_cons.1 hp with rfl | hp
    · exact ⟨_, _, hl⟩
    · exact ih hp

/-- The tokens of a text are those among the pieces into which the scanner cuts all of it. -/
theorem scan_eq_ok_iff {expression : String} {tokens : List (Token α)} :
    scan names mode expression = .ok tokens ↔
      ∃ ps s', expression.toList = Piece.allChars ps ∧ Scans names mode .start ps [] s' ∧
        s'.depth = 0 ∧ tokens = Piece.tokensAt 0 ps ∧ tokens ≠ [] := by
  constructor
  · intro h
    obtain ⟨ts, hts, h⟩ := bind_eq_ok_iff.1 h
    split at h <;> cases h
    next hne =>
    obtain ⟨ps, rest, s', hc, hs, ⟨rfl, hd, ho⟩ | ⟨e, -, ho⟩⟩ :=
      scanFrom_outcome (α := α) names mode 0 .start expression.toList
    · cases hts.symm.trans ho
      exact ⟨ps, s', by simpa using hc, hs, hd, rfl, by simpa using hne⟩
    · cases hts.symm.trans ho
  · rintro ⟨ps, s', hc, hs, hd, rfl, hne⟩
    have ho := hs.scanFrom_eq 0
    rw [scanFrom, if_pos hd, map_ok, List.append_nil, List.append_nil, ← hc] at ho
    rw [scan]
    refine bind_eq_ok_iff.2 ⟨_, ho, ?_⟩
    rw [if_neg (by simpa using hne)]
    rfl

/-- A text that is not scanned has no token at all, or the scanner stops in front of a rest. -/
theorem failsAt_of_scan {expression : String} (h : scan names mode expression = .error e) :
    e = .emptyExpression ∨ ∃ (ps : List (Piece α)) (rest : List Char) (s' : ScanState),
      expression.toList = Piece.allChars ps ++ rest ∧ Scans names mode .start ps rest s' ∧
        FailsAt names mode (Piece.byteSize ps) s' rest e := by
  rcases bind_eq_error_iff.1 h with h | ⟨tokens, -, h⟩
  · right
    obtain ⟨ps, rest, s', hc, hs, ⟨rfl, -, ho⟩ | ⟨e', he, ho⟩⟩ :=
      scanFrom_outcome (α := α) names mode 0 .start expression.toList
    · cases h.symm.trans ho
    · cases h.symm.trans ho
      exact ⟨ps, rest, s', hc, hs, by simpa using he⟩
  · left
    split at h <;> cases h
    rfl

end Scans

end SignalCalc
