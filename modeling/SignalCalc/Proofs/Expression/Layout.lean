import SignalCalc.Proofs.Expression.Scanning

/-!
# Where tokens stand

The tokens of a text are slices of it, in order and apart from each other, and between them stand
blanks and plus signs that were dropped where an operand was due. The text is counted in bytes, and
all that the scanner cuts out of it, for tokens and for errors, begins and ends between characters.

All of it follows from the cut of the text into pieces. A token is a piece at the count of bytes of
the pieces before it (`Piece.tokensAt_eq_append`), and what the scanner keeps is determined by the
tokens so far (`Scans.due_eq`, `Scans.depth_eq`).

Main statement: `scanning_is_lossless`.
-/

namespace SignalCalc

/-! ## Slices -/

/-- A text is the slice of an expression at a count of bytes. Both ends of the slice lie inside the
expression and between characters. -/
structure StandsAt (expression : String) (position : Nat) (text : String) : Prop where
  start : String.Pos.Raw.IsValid expression ⟨position⟩
  stop : String.Pos.Raw.IsValid expression ⟨position + text.utf8ByteSize⟩
  bytes : expression.toByteArray.extract position (position + text.utf8ByteSize) = text.toByteArray

/-- A text stands behind what is before it. -/
theorem standsAt_append (before text after : String) :
    StandsAt (before ++ text ++ after) before.utf8ByteSize text := by
  refine ⟨?_, ?_, ?_⟩
  · exact String.Pos.Raw.isValid_iff_exists_append.2
      ⟨before, text ++ after, String.append_assoc, rfl⟩
  · refine String.Pos.Raw.isValid_iff_exists_append.2 ⟨before ++ text, after, rfl, ?_⟩
    rw [String.rawEndPos, String.utf8ByteSize_append]
  · have h := ByteArray.extract_append_size_add (a := before.toByteArray)
      (b := text.toByteArray ++ after.toByteArray) (i := 0) (j := text.toByteArray.size)
    rw [Nat.add_zero] at h
    rw [String.append_assoc, String.toByteArray_append, String.toByteArray_append,
      ← String.size_toByteArray, ← String.size_toByteArray, h, ByteArray.extract_append_eq_left rfl]

/-- The characters in the middle of a text stand where those before them end. -/
theorem standsAt_of_toList {expression : String} {before text after : List Char}
    (h : expression.toList = before ++ text ++ after) :
    StandsAt expression (String.ofList before).utf8ByteSize (String.ofList text) := by
  have hs := standsAt_append (String.ofList before) (String.ofList text) (String.ofList after)
  rwa [← String.ofList_append, ← String.ofList_append, ← h, String.ofList_toList] at hs

/-- The text without white space at its ends is a part of it. -/
theorem Text.trim_isInfix (s : String) : (trim s).toList <:+: s.toList := by
  have h : ((s.toList.dropWhile isSpace).reverse.dropWhile isSpace).reverse <+:
      s.toList.dropWhile isSpace := by
    rw [← List.reverse_suffix, List.reverse_reverse]
    exact List.dropWhile_suffix _
  rw [trim, String.toList_ofList]
  exact h.isInfix.trans (List.dropWhile_suffix _).isInfix

/-! ## The order of tokens -/

section Order

variable {α : Type}

/-- The count of bytes up to the end of a token. -/
def Token.stop (t : Token α) : Nat := t.position + t.text.utf8ByteSize

/-- Whether an operand is due after tokens, given whether it was due before them. -/
def dueAfter (due : Bool) (tokens : List (Token α)) : Bool :=
  tokens.getLast?.elim due (!·.kind.endsOperand)

/-- The count of parentheses that open a group. -/
def openings (tokens : List (Token α)) : Nat :=
  tokens.countP fun t => match t.kind with
    | .openParen => true
    | _ => false

/-- The count of parentheses that close a group. -/
def closings (tokens : List (Token α)) : Nat :=
  tokens.countP fun t => match t.kind with
    | .closeParen => true
    | _ => false

/-- Tokens are slices of an expression, in order and apart from each other. Every byte outside them
is a blank, or a plus sign where an operand is due after the tokens before it. -/
structure IsLayout (expression : String) (tokens : List (Token α)) : Prop where
  stands : ∀ t ∈ tokens, t.text ≠ "" ∧ StandsAt expression t.position t.text
  apart : tokens.Pairwise fun t u => t.position < u.position ∧ t.stop ≤ u.position
  gaps : ∀ b < expression.utf8ByteSize, (∃ t ∈ tokens, t.position ≤ b ∧ b < t.stop) ∨
    ∃ before after c, tokens = before ++ after ∧ (∀ t ∈ before, t.stop ≤ b) ∧
      (∀ t ∈ after, b < t.position) ∧ c.utf8Size = 1 ∧ StandsAt expression b (String.singleton c) ∧
      (Text.isBlank c = true ∨ c = '+' ∧ dueAfter true before = true)

/-- Parentheses are closed after they have been opened, and in the end all of them are. -/
structure IsBalanced (tokens : List (Token α)) : Prop where
  before : ∀ before after, tokens = before ++ after → closings before ≤ openings before
  total : closings tokens = openings tokens

/-- Operands and operators alternate: what starts an operand stands where one is due, an operator
where none is, and a minus sign that is no operator where one is. -/
def Alternates (tokens : List (Token α)) : Prop :=
  ∀ before t after, tokens = before ++ t :: after →
    (t.kind.startsOperand = true → dueAfter true before = true) ∧
    (∀ o, t.kind = .operator o → dueAfter true before = false) ∧
    (t.kind = .negate → dueAfter true before = true)

/-- Whether an operand is due is decided by the later tokens if there are any. -/
theorem dueAfter_append (due : Bool) (ts us : List (Token α)) :
    dueAfter due (ts ++ us) = dueAfter (dueAfter due ts) us := by
  cases hu : us.getLast? with
  | none =>
    rw [List.getLast?_eq_none_iff] at hu
    simp [hu, dueAfter]
  | some u => simp [dueAfter, List.getLast?_append, hu]

/-- The parentheses that open groups are counted part by part. -/
theorem openings_append (ts us : List (Token α)) :
    openings (ts ++ us) = openings ts + openings us :=
  List.countP_append

/-- The parentheses that close groups are counted part by part. -/
theorem closings_append (ts us : List (Token α)) :
    closings (ts ++ us) = closings ts + closings us :=
  List.countP_append

end Order

/-! ## Tokens among pieces -/

namespace Piece

variable {α : Type} {position : Nat} {ps : List (Piece α)} {t : Token α}

/-- Where tokens among pieces are divided, the pieces can be divided. -/
theorem tokensAt_eq_append {before after : List (Token α)}
    (h : tokensAt position ps = before ++ after) :
    ∃ qs rs, ps = qs ++ rs ∧ tokensAt position qs = before ∧
      tokensAt (position + byteSize qs) rs = after := by
  induction ps generalizing position before with
  | nil =>
    obtain ⟨rfl, rfl⟩ := List.append_eq_nil_iff.1 h.symm
    exact ⟨[], [], rfl, rfl, rfl⟩
  | cons p ps ih =>
    cases before with
    | nil => exact ⟨[], p :: ps, rfl, rfl, by simpa using h⟩
    | cons t before =>
      cases hk : p.kind? with
      | none =>
        simp only [tokensAt, tokenAt, hk, Option.toList_none, List.map_nil, List.nil_append] at h
        obtain ⟨qs, rs, rfl, hq, hr⟩ := ih h
        refine ⟨p :: qs, rs, rfl, ?_, by rwa [byteSize_cons, ← Nat.add_assoc]⟩
        simpa [tokensAt, tokenAt, hk] using hq
      | some kind =>
        simp only [tokensAt, tokenAt, hk, Option.toList_some, List.map_cons, List.map_nil,
          List.cons_append, List.nil_append, List.cons.injEq] at h
        obtain ⟨rfl, h⟩ := h
        obtain ⟨qs, rs, rfl, hq, hr⟩ := ih h
        refine ⟨p :: qs, rs, rfl, ?_, by rwa [byteSize_cons, ← Nat.add_assoc]⟩
        simpa [tokensAt, tokenAt, hk] using hq

/-- A token divides the pieces, too: into those before it, its own, and those after it. -/
theorem tokensAt_eq_append_cons {before after : List (Token α)}
    (h : tokensAt position ps = before ++ t :: after) :
    ∃ qs p rs, ps = qs ++ p :: rs ∧ tokensAt position qs = before ∧ p.kind? = some t.kind ∧
      p.text = t.text ∧ t.position = position + byteSize qs := by
  obtain ⟨qs, rs, rfl, rfl, hrs⟩ := tokensAt_eq_append h
  -- Dropped characters may stand between the tokens before this one and its piece.
  obtain ⟨us, vs, rfl, hus, -⟩ := tokensAt_eq_append (hrs.trans List.singleton_append.symm)
  obtain ⟨as, p, bs, rfl, hk, ht, hp⟩ := exists_of_mem_tokensAt (t := t) (by rw [hus]; simp)
  have has : tokensAt (position + byteSize qs) as = [] := by
    rw [tokensAt_append, tokensAt, tokenAt, hk] at hus
    have := congrArg List.length hus
    simp only [Option.toList_some, List.map_cons, List.map_nil, List.length_append,
      List.length_cons, List.length_nil] at this
    exact List.eq_nil_of_length_eq_zero (by omega)
  refine ⟨qs ++ as, p, bs ++ vs, by simp, ?_, hk, ht, ?_⟩
  · rw [tokensAt_append, has, List.append_nil]
  · rw [hp, byteSize_append, Nat.add_assoc]

/-- The tokens among pieces stand inside them. -/
theorem bounds_of_mem_tokensAt (h : t ∈ tokensAt position ps) :
    position ≤ t.position ∧ t.stop ≤ position + byteSize ps := by
  obtain ⟨qs, p, rs, rfl, -, ht, hp⟩ := exists_of_mem_tokensAt h
  rw [Token.stop, hp, ← ht, byteSize_append, byteSize_cons]
  omega

/-- Tokens among pieces are in order, and none begins before the one before it ends. -/
theorem pairwise_tokensAt (position : Nat) (ps : List (Piece α)) :
    (tokensAt position ps).Pairwise fun t u => t.stop ≤ u.position := by
  induction ps generalizing position with
  | nil => exact .nil
  | cons p ps ih =>
    refine List.pairwise_append.2 ⟨?_, ih _, fun t ht u hu => ?_⟩
    · cases hk : p.kind? <;> simp [tokenAt, hk]
    · obtain ⟨kind, -, rfl⟩ := List.mem_map.1 ht
      exact (bounds_of_mem_tokensAt hu).1

/-- Every byte of pieces in a row is in one of them. -/
theorem exists_of_lt_byteSize {b : Nat} (h : b < byteSize ps) :
    ∃ qs p rs, ps = qs ++ p :: rs ∧ byteSize qs ≤ b ∧ b < byteSize qs + p.text.utf8ByteSize := by
  induction ps generalizing b with
  | nil => exact absurd h (Nat.not_lt_zero b)
  | cons p ps ih =>
    rw [byteSize_cons] at h
    rcases Nat.lt_or_ge b p.text.utf8ByteSize with hb | hb
    · exact ⟨[], p, ps, rfl, Nat.zero_le b, by simpa using hb⟩
    · obtain ⟨qs, q, rs, rfl, h₁, h₂⟩ := ih (b := b - p.text.utf8ByteSize) (by omega)
      refine ⟨p :: qs, q, rs, rfl, ?_, ?_⟩ <;> rw [byteSize_cons] <;> omega

/-- A piece in a row that is a text stands at the count of bytes of the pieces before it. -/
theorem standsAt {expression : String} {qs rs : List (Piece α)} {p : Piece α} {rest : List Char}
    (h : expression.toList = allChars (qs ++ p :: rs) ++ rest) :
    StandsAt expression (byteSize qs) p.text := by
  have he : expression.toList = allChars qs ++ p.chars ++ (allChars rs ++ rest) := by simpa using h
  exact standsAt_of_toList he

end Piece

/-! ## Scanned tokens -/

section Scans

variable {α : Type} [Zero α] [BEq α] [OfScientific α] {names : List String} {mode : Mode}
  {expression : String} {s s' : ScanState} {ps : List (Piece α)} {rest : List Char}

/-- Whether an operand is due can be told from the tokens so far. -/
theorem Scans.due_eq (h : Scans names mode s ps rest s') (position : Nat) :
    s'.due = dueAfter s.due (Piece.tokensAt position ps) := by
  induction h generalizing position with
  | nil => rfl
  | @cons s _ _ p _ _ _ ha _ ih =>
    rw [ih (position + p.text.utf8ByteSize), Piece.tokensAt, dueAfter_append]
    congr 1
    generalize hk : p.kind? = kind? at ha
    cases ha <;> simp [Piece.tokenAt, hk, dueAfter]

/-- The count of open groups is what has been opened and not been closed. -/
theorem Scans.depth_eq (h : Scans names mode s ps rest s') (position : Nat) :
    s'.depth + closings (Piece.tokensAt position ps) =
      s.depth + openings (Piece.tokensAt position ps) := by
  induction h generalizing position with
  | nil => rfl
  | @cons s s' _ p _ _ _ ha _ ih =>
    have ih := ih (position + p.text.utf8ByteSize)
    have hstep : s'.depth + closings (p.tokenAt position) =
        s.depth + openings (p.tokenAt position) := by
      generalize hk : p.kind? = kind? at ha
      cases ha with
      | dropped => simp [Piece.tokenAt, hk, closings, openings]
      | @token kind depth hd hs =>
        rw [Piece.tokenAt, hk]
        cases kind with
        | openParen => cases hd; rfl
        | closeParen => cases hz : s.depth <;> rw [hz] at hd <;> cases hd; rfl
        | number | dataset | laplace | operator | negate | builtin => cases hd; rfl
    rw [Piece.tokensAt, closings_append, openings_append]
    omega

omit [OfScientific α] in
/-- An operand starts where one is due. -/
theorem ScanState.Accepts.due_of_startsOperand {kind : TokenKind α} (h : s.Accepts (some kind) s')
    (hk : kind.startsOperand = true) : s.due = true := by
  cases h with
  | token _ hs => exact hs hk

/-- An operator is cut off where an operand has ended, and a minus sign where one is due. -/
theorem Lexes.due_of_sign {due : Bool} {p : Piece α} (h : Lexes names mode due p rest) :
    (∀ o, p.kind? = some (.operator o) → due = false) ∧
      (p.kind? = some .negate → due = true) := by
  cases h with
  | operator o => exact ⟨fun _ _ => rfl, nofun⟩
  | negate => exact ⟨nofun, fun _ => rfl⟩
  | word _ _ _ hw =>
    rcases wordLexeme_eq_ok_iff.1 hw with ⟨f, -, rfl⟩ | ⟨-, ⟨-, rfl⟩ | ⟨-, i, -, rfl⟩⟩ <;>
      exact ⟨nofun, nofun⟩
  | blank | plus | number | bracket | openParen | closeParen => exact ⟨nofun, nofun⟩

/-- A dropped character is one byte. -/
theorem Lexes.utf8ByteSize_dropped {due : Bool} {p : Piece α} (h : Lexes names mode due p rest)
    (hk : p.kind? = none) : p.text.utf8ByteSize = 1 := by
  obtain ⟨c, hc, hdrop⟩ := h.dropped hk
  rw [Piece.text, hc, ← String.singleton_eq_ofList, String.utf8ByteSize_singleton]
  rcases hdrop with hb | ⟨rfl, -⟩
  · rcases isBlank_iff.1 hb with rfl | rfl | rfl | rfl | rfl <;> rfl
  · rfl

/-- Every token of a scan is a slice of the expression, and not an empty one. -/
theorem Scans.stands (h : Scans names mode .start ps [] s')
    (he : expression.toList = Piece.allChars ps) :
    ∀ t ∈ Piece.tokensAt 0 ps, t.text ≠ "" ∧ StandsAt expression t.position t.text := by
  intro t ht
  obtain ⟨qs, p, rs, rfl, -, htext, hp⟩ := Piece.exists_of_mem_tokensAt ht
  obtain ⟨due, rest, hl⟩ := h.exists_lexes (List.mem_append_right qs List.mem_cons_self)
  rw [hp, Nat.zero_add, ← htext]
  refine ⟨fun hn => hl.chars_ne_nil ?_, Piece.standsAt (he.trans (List.append_nil _).symm)⟩
  simpa [Piece.text] using hn

/-- A dropped piece is a character of one byte, a blank or a plus sign where an operand is due after
the tokens before it. -/
theorem Scans.dropped {qs rs : List (Piece α)} {p : Piece α}
    (h : Scans names mode .start (qs ++ p :: rs) [] s') (hk : p.kind? = none) :
    ∃ c, p.text = String.singleton c ∧ c.utf8Size = 1 ∧
      (Text.isBlank c = true ∨ c = '+' ∧ dueAfter true (Piece.tokensAt 0 qs) = true) := by
  obtain ⟨s₁, hq, hr⟩ := h.of_append
  cases hr with
  | cons hl _ _ =>
    obtain ⟨c, hc, hdrop⟩ := hl.dropped hk
    have htext : p.text = String.singleton c := by
      rw [Piece.text, hc, String.singleton_eq_ofList]
    have hsize := hl.utf8ByteSize_dropped hk
    rw [htext, String.utf8ByteSize_singleton] at hsize
    exact ⟨c, htext, hsize, hdrop.imp_right fun hd => ⟨hd.1, (hq.due_eq 0).symm.trans hd.2⟩⟩

/-- The tokens of a scan are laid out in the expression, with droppable characters between them. -/
theorem Scans.isLayout (h : Scans names mode .start ps [] s')
    (he : expression.toList = Piece.allChars ps) : IsLayout expression (Piece.tokensAt 0 ps) where
  stands := h.stands he
  apart := by
    refine (Piece.pairwise_tokensAt 0 ps).imp_of_mem fun {t u} ht _ htu => ⟨?_, htu⟩
    have : 0 < t.text.utf8ByteSize :=
      Nat.pos_of_ne_zero fun hz => (h.stands he t ht).1 (String.utf8ByteSize_eq_zero_iff.1 hz)
    rw [Token.stop] at htu
    omega
  gaps b hb := by
    rw [← String.ofList_toList (s := expression), he] at hb
    obtain ⟨qs, p, rs, rfl, h₁, h₂⟩ := Piece.exists_of_lt_byteSize hb
    have hsplit : Piece.tokensAt 0 (qs ++ p :: rs) = Piece.tokensAt 0 qs ++
        (p.tokenAt (Piece.byteSize qs) ++
          Piece.tokensAt (Piece.byteSize qs + p.text.utf8ByteSize) rs) := by
      rw [Piece.tokensAt_append, Nat.zero_add, Piece.tokensAt]
    rw [hsplit]
    -- A byte lies in a token, or the piece around it is dropped and has this byte only.
    cases hk : p.kind? with
    | some kind =>
      left
      refine ⟨⟨kind, p.text, Piece.byteSize qs⟩, ?_, h₁, h₂⟩
      simp [Piece.tokenAt, hk]
    | none =>
      right
      obtain ⟨c, htext, hsize, hc⟩ := h.dropped hk
      have hstand : StandsAt expression (Piece.byteSize qs) p.text :=
        Piece.standsAt (he.trans (List.append_nil _).symm)
      have hbytes : p.text.utf8ByteSize = 1 := by
        rw [htext, String.utf8ByteSize_singleton, hsize]
      rw [hbytes] at h₂ ⊢
      obtain rfl : b = Piece.byteSize qs := by omega
      refine ⟨_, _, c, rfl, fun t ht => ?_, fun t ht => ?_, hsize, htext ▸ hstand, hc⟩
      · have := (Piece.bounds_of_mem_tokensAt ht).2
        omega
      · rw [Piece.tokenAt, hk] at ht
        have := (Piece.bounds_of_mem_tokensAt ht).1
        omega

/-- A scan that ends outside every group has balanced parentheses. -/
theorem Scans.isBalanced (h : Scans names mode .start ps [] s') (hd : s'.depth = 0) :
    IsBalanced (Piece.tokensAt 0 ps) := by
  refine ⟨fun before after hsplit => ?_, ?_⟩
  · obtain ⟨qs, rs, rfl, rfl, -⟩ := Piece.tokensAt_eq_append hsplit
    obtain ⟨s₁, hq, -⟩ := h.of_append
    have := hq.depth_eq 0
    simp only [ScanState.start] at this
    omega
  · have := h.depth_eq 0
    simp only [ScanState.start] at this
    omega

/-- In a scan operands and operators stand where they are due. -/
theorem Scans.alternates (h : Scans names mode .start ps [] s') :
    Alternates (Piece.tokensAt 0 ps) := by
  intro before t after hsplit
  obtain ⟨qs, p, rs, rfl, rfl, hk, -⟩ := Piece.tokensAt_eq_append_cons hsplit
  obtain ⟨s₁, hq, hr⟩ := h.of_append
  have hdue : s₁.due = dueAfter true (Piece.tokensAt 0 qs) := hq.due_eq 0
  rw [← hdue]
  cases hr with
  | cons hl ha _ =>
    obtain ⟨ho, hn⟩ := hl.due_of_sign
    rw [hk] at ha
    exact ⟨ha.due_of_startsOperand, fun o ht => ho o (hk.trans (congrArg some ht)),
      fun ht => hn (hk.trans (congrArg some ht))⟩

/-! ## Every text -/

/-- A number that the scanner cuts off is a decimal. -/
theorem Lexes.isDecimal {due : Bool} {p : Piece α} {value : α} (h : Lexes names mode due p rest)
    (hk : p.kind? = some (.number value)) : IsDecimal p.chars := by
  cases h with
  | number hwf hd hc => exact Literal.isDecimal_chars hwf hd hc
  | blank | plus | bracket | openParen | closeParen | operator | negate => cases hk
  | word _ _ _ hw =>
    cases hk
    rcases wordLexeme_eq_ok_iff.1 hw with ⟨f, -, hf⟩ | ⟨-, ⟨-, hf⟩ | ⟨-, i, -, hf⟩⟩ <;> cases hf

/-- An error of the scanner names slices of the expression, in brackets if it is the number of
a dataset. -/
def Error.Cites (expression : String) : Error α → Prop
  | .emptyExpression | .unbalancedParentheses => True
  | .unknownToken text position | .missingOperator text position =>
    StandsAt expression position text
  | .unknownFunction text | .missingOperand text => ∃ position, StandsAt expression position text
  | .unknownDataset text => ∃ position slice, StandsAt expression position slice ∧
      (text = slice ∨ text = "[" ++ slice ++ "]")
  | _ => False

/-- What the scanner takes out of an expression once it has cut off some pieces and stands before
a rest: how far it has come, the tokens, and the literal, the word and the reference at the head of
the rest, whether or not they are accepted. -/
structure StaysWithin (names : List String) (mode : Mode) (expression : String)
    (ps : List (Piece α)) (rest : List Char) (s : ScanState) : Prop where
  goesOn : scanFrom names mode 0 0 true expression.toList =
    (scanFrom names mode (Piece.byteSize ps) s.depth s.due rest).map (Piece.tokensAt 0 ps ++ ·)
  advances : ∀ p ∈ ps, 1 ≤ p.text.utf8ByteSize
  tokens : ∀ t ∈ Piece.tokensAt 0 ps, StandsAt expression t.position t.text
  numbers : ∀ p ∈ ps, ∀ value, p.kind? = some (.number value) → IsDecimal p.chars
  remaining : StandsAt expression (Piece.byteSize ps) (String.ofList rest)
  literal : ∀ c cs, rest = c :: cs → startsNumber c cs = true →
    let l := Literal.read rest
    StandsAt expression (Piece.byteSize ps) (String.ofList l.chars) ∧
      (l.isComplete = true → IsDecimal l.chars ∧
        lexeme (α := α) names mode (Piece.byteSize ps) s.due c cs =
          .ok (.token (.number l.value) (l.chars.length - 1)))
  word : ∀ c cs, rest = c :: cs → startsWord c = true →
    StandsAt expression (Piece.byteSize ps) (String.ofList (c :: cs.takeWhile isWordChar))
  reference : ∀ cs, rest = '[' :: cs →
    StandsAt expression (Piece.byteSize ps + 1) (String.ofList (cs.takeWhile (· != ']')))

/-- What begins the rest stands where the scanner does. -/
theorem standsAt_of_isPrefix {expression : String} {before text rest : List Char}
    (he : expression.toList = before ++ rest) (h : text <+: rest) :
    StandsAt expression (String.ofList before).utf8ByteSize (String.ofList text) := by
  obtain ⟨after, rfl⟩ := h
  exact standsAt_of_toList (by rw [he, List.append_assoc])

/-- Every part of an expression stands somewhere in it. -/
theorem exists_standsAt_of_isInfix {expression : String} {text : List Char}
    (h : text <:+: expression.toList) :
    ∃ position, StandsAt expression position (String.ofList text) := by
  obtain ⟨before, after, h⟩ := h
  exact ⟨_, standsAt_of_toList h.symm⟩

/-- A scanner that has come this far takes slices of the expression only. -/
theorem Scans.staysWithin (h : Scans names mode .start ps rest s)
    (he : expression.toList = Piece.allChars ps ++ rest) :
    StaysWithin names mode expression ps rest s := by
  refine ⟨?_, fun p hp => ?_, fun t ht => ?_, fun p hp value hk => ?_, ?_, ?_, ?_, ?_⟩
  · rw [he]
    simpa [ScanState.start] using h.scanFrom_eq 0
  · obtain ⟨due, rest', hl⟩ := h.exists_lexes hp
    refine Nat.pos_of_ne_zero fun hz => hl.chars_ne_nil ?_
    simpa [Piece.text] using String.utf8ByteSize_eq_zero_iff.1 hz
  · obtain ⟨qs, p, rs, rfl, -, htext, hp⟩ := Piece.exists_of_mem_tokensAt ht
    rw [hp, Nat.zero_add, ← htext]
    exact Piece.standsAt he
  · obtain ⟨due, rest', hl⟩ := h.exists_lexes hp
    exact hl.isDecimal hk
  · exact standsAt_of_isPrefix he List.prefix_rfl
  · rintro c cs rfl hn
    refine ⟨standsAt_of_isPrefix he (Literal.isPrefix_read _), fun hc => ⟨?_, ?_⟩⟩
    · exact Literal.isDecimal_chars (Literal.isWellFormed_read _) (Literal.hasDigits_read hn) hc
    · rw [lexeme_number hn]
      exact if_pos hc
  · rintro c cs rfl -
    exact standsAt_of_isPrefix he (List.prefix_cons_inj c |>.2 (List.takeWhile_prefix _))
  · rintro cs rfl
    have hb : (String.ofList (Piece.allChars ps ++ ['['])).utf8ByteSize =
        Piece.byteSize ps + 1 := by
      rw [String.ofList_append, String.utf8ByteSize_append]
      rfl
    rw [← hb]
    exact standsAt_of_isPrefix (he.trans (List.append_cons _ _ _)) (List.takeWhile_prefix _)

omit [OfScientific α] in
/-- A word that is not known is reported as it stands. -/
theorem cites_of_wordLexeme {word rest : List Char} {e : Error α}
    (h : wordLexeme names mode word rest = .error e) (hw : word <:+: expression.toList) :
    e.Cites expression := by
  obtain ⟨position, hs⟩ := exists_standsAt_of_isInfix hw
  unfold wordLexeme at h
  dsimp only at h
  split at h
  · cases h
  · split at h
    · cases h
    · split at h
      · cases h
      · split at h <;> cases h
        · exact ⟨position, hs⟩
        · exact ⟨position, _, hs, .inl rfl⟩

omit [OfScientific α] in
/-- A bracketed name that is refused is cited with or without its brackets. -/
theorem cites_of_resolveBracketed {inner : List Char} {e : Error α}
    (h : resolveBracketed names (String.ofList inner) = .error e)
    (hi : inner <:+: expression.toList) : e.Cites expression := by
  have ht := Text.trim_isInfix (String.ofList inner)
  rw [String.toList_ofList] at ht
  obtain ⟨position, hs⟩ := exists_standsAt_of_isInfix (ht.trans hi)
  rw [String.ofList_toList] at hs
  unfold resolveBracketed at h
  dsimp only at h
  split at h
  · split at h <;> cases h
    exact ⟨position, _, hs, .inr rfl⟩
  · split at h <;> cases h
    exact ⟨position, _, hs, .inl rfl⟩

/-- A lexeme that is refused is cited where it stands. -/
theorem cites_of_lexeme {position : Nat} {due : Bool} {before cs : List Char} {c : Char}
    {e : Error α} (h : lexeme names mode position due c cs = .error e)
    (he : expression.toList = before ++ c :: cs)
    (hp : position = (String.ofList before).utf8ByteSize) : e.Cites expression := by
  have hpart (text : List Char) (ht : text <:+: c :: cs) : text <:+: expression.toList :=
    he ▸ ht.trans (List.suffix_append before _).isInfix
  -- The tests of the scanner in its order. Blanks and parentheses are never refused.
  unfold lexeme at h
  split at h
  · cases h
  split at h
  · dsimp only at h
    split at h <;> cases h
    subst hp
    exact standsAt_of_isPrefix he (Literal.isPrefix_read _)
  split at h
  · rcases bind_eq_error_iff.1 h with h | ⟨kind, -, ⟨⟩⟩
    refine cites_of_wordLexeme h (hpart _ ?_)
    exact (List.prefix_cons_inj c |>.2 (List.takeWhile_prefix _)).isInfix
  split at h
  · dsimp only at h
    split at h
    · cases h
      subst hp
      exact standsAt_of_isPrefix he List.prefix_rfl
    · rcases bind_eq_error_iff.1 h with h | ⟨i, -, ⟨⟩⟩
      refine cites_of_resolveBracketed h (hpart _ ?_)
      exact (List.takeWhile_prefix _).isInfix.trans (List.suffix_cons c cs).isInfix
  split at h
  · cases h
  split at h
  · cases h
  have hone : StandsAt expression (String.ofList before).utf8ByteSize (String.singleton c) := by
    rw [String.singleton_eq_ofList]
    exact standsAt_of_isPrefix he (by simp)
  split at h
  · next o ho =>
    obtain rfl := Operator.eq_symbol ho
    cases due with
    | false => cases h
    | true =>
      cases o <;> cases h
      all_goals exact ⟨_, hone⟩
  · cases h
    subst hp
    exact hone

/-- Whatever scanning fails for, the error cites the expression. -/
theorem FailsAt.cites {e : Error α} (h : FailsAt names mode (Piece.byteSize ps) s rest e)
    (he : expression.toList = Piece.allChars ps ++ rest) : e.Cites expression := by
  cases h with
  | unclosed | unopened => trivial
  | piece hl => exact cites_of_lexeme hl he rfl
  | unjoined => exact standsAt_of_isPrefix he (List.prefix_append _ _)

/-- **Scanning loses nothing.** If the scanner accepts a text, the tokens are slices of it, in order
and apart from each other, and every byte outside them is a blank, or a plus sign where an operand
is due. Parentheses balance, and none is closed before it has been opened. No operand starts where
another one has just ended, operators stand just there, and minus signs that negate do not. Whatever
the text, everywhere the scanner gets in it every piece so far has taken at least one byte, all that
is cut out begins and ends between characters, and a literal whose exponent has been checked is
a decimal and is taken; and an error names slices of the text. -/
theorem scanning_is_lossless (names : List String) (mode : Mode) (expression : String) :
    (∀ tokens : List (Token α), scan names mode expression = .ok tokens →
      IsLayout expression tokens ∧ IsBalanced tokens ∧ Alternates tokens) ∧
    (∀ (ps : List (Piece α)) (rest : List Char) (s : ScanState),
      expression.toList = Piece.allChars ps ++ rest → Scans names mode .start ps rest s →
      StaysWithin names mode expression ps rest s) ∧
    ∀ e : Error α, scan names mode expression = .error e → e.Cites expression := by
  refine ⟨fun tokens h => ?_, fun ps rest s he h => h.staysWithin he, fun e h => ?_⟩
  · obtain ⟨ps, s', he, hs, hd, rfl, -⟩ := scan_eq_ok_iff.1 h
    exact ⟨hs.isLayout he, hs.isBalanced hd, hs.alternates⟩
  · rcases failsAt_of_scan h with rfl | ⟨ps, rest, s', he, -, hf⟩
    · trivial
    · exact hf.cites he

end Scans

/-- Offsets count the two bytes of `é`. In `[é b]*+ (-2.5e-1)` a plus sign and a blank are outside
the tokens. In `2*[é` the reference has no end, and all that is left of the text is reported. -/
theorem scanning_is_lossless_two_bytes :
    let tokens : List (Token Float) :=
      [⟨.dataset 0, "[é b]", 0⟩, ⟨.operator .multiply, "*", 6⟩, ⟨.openParen, "(", 9⟩,
        ⟨.negate, "-", 10⟩, ⟨.number 2.5e-1, "2.5e-1", 11⟩, ⟨.closeParen, ")", 17⟩]
    let pieces : List (Piece Float) :=
      [⟨['2'], some (.number 2)⟩, ⟨['*'], some (.operator .multiply)⟩]
    (scan ["é b"] .numeric "[é b]*+ (-2.5e-1)" = .ok tokens ∧
      IsLayout "[é b]*+ (-2.5e-1)" tokens ∧ IsBalanced tokens ∧ Alternates tokens) ∧
    (Scans [] .numeric .start pieces ['[', 'é'] ⟨0, true⟩ ∧
      StaysWithin [] .numeric "2*[é" pieces ['[', 'é'] ⟨0, true⟩) ∧
    scan [] .numeric "2*[é" = .error (.unknownToken "[é" 2 : Error Float) ∧
      StandsAt "2*[é" 2 "[é" := by
  intro tokens pieces
  have hs : scan ["é b"] .numeric "[é b]*+ (-2.5e-1)" = .ok tokens := by with_unfolding_all rfl
  have he : scan [] .numeric "2*[é" = .error (.unknownToken "[é" 2 : Error Float) := by
    with_unfolding_all rfl
  let two : Literal := ⟨['2'], none, none⟩
  have hwf : two.IsWellFormed := by constructor <;> simp [IsDigits, two, isDigit]
  have h₂ : Lexes [] .numeric true (⟨['2'], some (.number 2)⟩ : Piece Float) ['*', '[', 'é'] :=
    .number (l := two) hwf (.inl (by simp [two])) rfl rfl
  have htimes : Scans [] .numeric ⟨0, false⟩
      [(⟨['*'], some (.operator .multiply)⟩ : Piece Float)] ['[', 'é'] ⟨0, true⟩ :=
    .cons (.operator .multiply) (.token rfl fun h => by cases h) .nil
  have hp : Scans [] .numeric .start pieces ['[', 'é'] ⟨0, true⟩ :=
    .cons h₂ (.token rfl fun _ => rfl) htimes
  obtain ⟨hok, -, -⟩ := scanning_is_lossless (α := Float) ["é b"] .numeric "[é b]*+ (-2.5e-1)"
  obtain ⟨-, hstate, herror⟩ := scanning_is_lossless (α := Float) [] .numeric "2*[é"
  exact ⟨⟨hs, hok tokens hs⟩, ⟨hp, hstate pieces _ _ rfl hp⟩, he, herror _ he⟩

end SignalCalc
