import SignalCalc.Proofs.Decimal.Text
import SignalCalc.Proofs.Expression.Acceptance
import SignalCalc.Proofs.Expression.Layout
import SignalCalc.Proofs.Expression.Typing

/-!
# Other spellings of an expression

`Respells` edits a text at one place: it puts a blank at the border of a token, puts a plus sign
before a token where an operand is due, changes the case of letters in a name of a function or in
the variable, or writes a reference to a dataset as its number. The tokens of the edited text are of
the same kinds, and a value does not depend on the texts of tokens and on where they stand.

An edit changes one piece of the text, or adds one. The pieces before it are cut off as before,
because what may follow an operand has not changed for them (`Scans.congr_rest`), and so are those
after it, because the scanner keeps the same state.

Main statement: `value_ignores_spelling`.
-/

namespace SignalCalc

/-! ## Tokens of the same kinds -/

section Kinds

variable {α : Type}

/-- The kinds of tokens. -/
def kinds (tokens : List (Token α)) : List (TokenKind α) := tokens.map (·.kind)

@[simp] theorem kinds_nil : kinds (α := α) [] = [] := rfl

@[simp] theorem kinds_cons (t : Token α) (ts : List (Token α)) :
    kinds (t :: ts) = t.kind :: kinds ts :=
  rfl

@[simp] theorem kinds_append (ts us : List (Token α)) : kinds (ts ++ us) = kinds ts ++ kinds us :=
  List.map_append

@[simp] theorem kinds_eq_nil_iff {ts : List (Token α)} : kinds ts = [] ↔ ts = [] :=
  List.map_eq_nil_iff

/-- Tokens of the kinds of others split where these do, after their first one. -/
theorem exists_of_kinds_eq_cons {tokens ts : List (Token α)} {t : Token α}
    (h : kinds tokens = kinds (t :: ts)) :
    ∃ t' ts', tokens = t' :: ts' ∧ t'.kind = t.kind ∧ kinds ts' = kinds ts :=
  List.map_eq_cons_iff.1 h

/-- Tokens of the kinds of others split where these do, into two parts. -/
theorem exists_of_kinds_eq_append {tokens left right : List (Token α)}
    (h : kinds tokens = kinds (left ++ right)) :
    ∃ left' right', tokens = left' ++ right' ∧ kinds left' = kinds left ∧
      kinds right' = kinds right :=
  List.map_eq_append_iff.1 (h.trans (kinds_append left right))

/-- Tokens of the same kinds as those on both sides of an operator, and as the operator. -/
theorem exists_of_kinds_eq_binary {tokens left right : List (Token α)} {sign : Token α}
    (h : kinds tokens = kinds (left ++ sign :: right)) :
    ∃ left' sign' right', tokens = left' ++ sign' :: right' ∧ kinds left' = kinds left ∧
      sign'.kind = sign.kind ∧ kinds right' = kinds right := by
  obtain ⟨left', rest, rfl, hl, hr⟩ := exists_of_kinds_eq_append h
  obtain ⟨sign', right', rfl, hs, hr⟩ := exists_of_kinds_eq_cons hr
  exact ⟨left', sign', right', rfl, hl, hs, hr⟩

/-- Tokens of the same kinds as a group. -/
theorem exists_of_kinds_eq_group {tokens inner : List (Token α)} {opening closing : Token α}
    (h : kinds tokens = kinds (opening :: inner ++ [closing])) :
    ∃ opening' inner' closing', tokens = opening' :: inner' ++ [closing'] ∧
      opening'.kind = opening.kind ∧ kinds inner' = kinds inner ∧
      closing'.kind = closing.kind := by
  obtain ⟨opening', rest, rfl, ho, hr⟩ := exists_of_kinds_eq_cons h
  obtain ⟨inner', closing', rest, rfl, hi, hc, hr⟩ := exists_of_kinds_eq_binary hr
  rw [kinds_nil, kinds_eq_nil_iff] at hr
  subst hr
  exact ⟨opening', inner', closing', rfl, ho, hi, hc⟩

/-- Tokens of the same kinds as a draft are a draft, with code of the same kinds. -/
theorem Drafts.of_kinds_eq {level : Level} {tokens code : List (Token α)} {holes : Nat}
    (h : Drafts level tokens code holes) {tokens' : List (Token α)}
    (hk : kinds tokens' = kinds tokens) :
    ∃ code', Drafts level tokens' code' holes ∧ kinds code' = kinds code := by
  induction h generalizing tokens' with
  | hole =>
    rw [kinds_nil, kinds_eq_nil_iff] at hk
    subst hk
    exact ⟨[], .hole, rfl⟩
  | operand ht =>
    obtain ⟨t', rest, rfl, ht', hr⟩ := exists_of_kinds_eq_cons hk
    rw [kinds_nil, kinds_eq_nil_iff] at hr
    subst hr
    exact ⟨[t'], .operand (ht' ▸ ht), hk⟩
  | group ho hc _ ih =>
    obtain ⟨opening', inner', closing', rfl, ho', hi, hc'⟩ := exists_of_kinds_eq_group hk
    obtain ⟨code', hd, hcode⟩ := ih hi
    exact ⟨code', .group (ho'.trans ho) (hc'.trans hc) hd, hcode⟩
  | call hf ho hc _ ih =>
    obtain ⟨function', rest, rfl, hf', hr⟩ := exists_of_kinds_eq_cons hk
    obtain ⟨opening', inner', closing', rfl, ho', hi, hc'⟩ := exists_of_kinds_eq_group hr
    obtain ⟨code', hd, hcode⟩ := ih hi
    exact ⟨_, .call (hf'.trans hf) (ho'.trans ho) (hc'.trans hc) hd, by simp [hcode, hf']⟩
  | negate hm _ ih =>
    obtain ⟨minus', rest, rfl, hm', hr⟩ := exists_of_kinds_eq_cons hk
    obtain ⟨code', hd, hcode⟩ := ih hr
    exact ⟨_, .negate (hm'.trans hm) hd, by simp [hcode, hm']⟩
  | ofPrimary _ ih =>
    obtain ⟨code', hd, hcode⟩ := ih hk
    exact ⟨code', .ofPrimary hd, hcode⟩
  | ofSigned _ ih =>
    obtain ⟨code', hd, hcode⟩ := ih hk
    exact ⟨code', .ofSigned hd, hcode⟩
  | ofPower _ ih =>
    obtain ⟨code', hd, hcode⟩ := ih hk
    exact ⟨code', .ofPower hd, hcode⟩
  | ofProduct _ ih =>
    obtain ⟨code', hd, hcode⟩ := ih hk
    exact ⟨code', .ofProduct hd, hcode⟩
  -- An operator splits the tokens where it splits those of the draft.
  | power hs ho _ _ ihl ihr =>
    obtain ⟨left', sign', right', rfl, hl, hs', hr⟩ := exists_of_kinds_eq_binary hk
    obtain ⟨c', hdl, hc⟩ := ihl hl
    obtain ⟨d', hdr, hd⟩ := ihr hr
    exact ⟨_, .power (hs'.trans hs) ho hdl hdr, by simp [hc, hd, hs']⟩
  | product hs ho _ _ ihl ihr =>
    obtain ⟨left', sign', right', rfl, hl, hs', hr⟩ := exists_of_kinds_eq_binary hk
    obtain ⟨c', hdl, hc⟩ := ihl hl
    obtain ⟨d', hdr, hd⟩ := ihr hr
    exact ⟨_, .product (hs'.trans hs) ho hdl hdr, by simp [hc, hd, hs']⟩
  | sum hs ho _ _ ihl ihr =>
    obtain ⟨left', sign', right', rfl, hl, hs', hr⟩ := exists_of_kinds_eq_binary hk
    obtain ⟨c', hdl, hc⟩ := ihl hl
    obtain ⟨d', hdr, hd⟩ := ihr hr
    exact ⟨_, .sum (hs'.trans hs) ho hdl hdr, by simp [hc, hd, hs']⟩

end Kinds

/-! ## Texts in evaluation -/

section Texts

variable {α V : Type} [Zero α] [BEq α]

/-- The text of a token changes no value, it can only be part of an error. -/
structure Interpretation.IgnoresTexts (m : Interpretation α V) : Prop where
  dataset {i : Nat} {text : String} {v : V} (text' : String) :
    m.dataset i text = .ok v → m.dataset i text' = .ok v
  laplace {text : String} {v : V} (text' : String) :
    m.laplace text = .ok v → m.laplace text' = .ok v
  builtin {f : Builtin} {text : String} {v w : V} (text' : String) :
    m.builtin f text v = .ok w → m.builtin f text' v = .ok w

variable {m : Interpretation α V}

/-- A step that succeeds does the same with any token of the kind. -/
theorem Interpretation.IgnoresTexts.step_eq (hm : m.IgnoresTexts) {t t' : Token α}
    {stack stack' : List V} (hk : t'.kind = t.kind) (h : m.step stack t = .ok stack') :
    m.step stack t' = .ok stack' := by
  obtain ⟨kind, text, position⟩ := t
  obtain ⟨kind', text', position'⟩ := t'
  obtain rfl : kind' = kind := hk
  cases kind' with
  | number v => exact h
  | dataset i =>
    obtain ⟨v, hv, hr⟩ := bind_eq_ok_iff.1 h
    exact bind_eq_ok_iff.2 ⟨v, hm.dataset text' hv, hr⟩
  | laplace =>
    obtain ⟨v, hv, hr⟩ := bind_eq_ok_iff.1 h
    exact bind_eq_ok_iff.2 ⟨v, hm.laplace text' hv, hr⟩
  | negate => cases stack <;> first | exact h | cases h
  | operator o => rcases stack with - | ⟨b, - | ⟨a, stack⟩⟩ <;> first | exact h | cases h
  | builtin f =>
    cases stack with
    | nil => cases h
    | cons v stack =>
      obtain ⟨w, hw, hr⟩ := bind_eq_ok_iff.1 h
      exact bind_eq_ok_iff.2 ⟨w, hm.builtin text' hw, hr⟩
  | openParen | closeParen => cases stack <;> cases h

/-- Steps that succeed do the same with any tokens of the kinds. -/
theorem Interpretation.IgnoresTexts.foldlM_eq (hm : m.IgnoresTexts) {code code' : List (Token α)}
    {stack stack' : List V} (hk : kinds code' = kinds code)
    (h : code.foldlM m.step stack = .ok stack') : code'.foldlM m.step stack = .ok stack' := by
  induction code generalizing code' stack with
  | nil =>
    rw [kinds_nil, kinds_eq_nil_iff] at hk
    subst hk
    exact h
  | cons t code ih =>
    obtain ⟨t', code', rfl, ht, hk⟩ := exists_of_kinds_eq_cons hk
    rw [List.foldlM_cons] at h ⊢
    obtain ⟨s, hs, h⟩ := bind_eq_ok_iff.1 h
    exact bind_eq_ok_iff.2 ⟨s, hm.step_eq ht hs, ih hk h⟩

/-- Code that has a value has the same with any tokens of the kinds. -/
theorem Interpretation.IgnoresTexts.run_eq (hm : m.IgnoresTexts) {code code' : List (Token α)}
    {v : V} (hk : kinds code' = kinds code) (h : m.run code = .ok v) : m.run code' = .ok v := by
  obtain ⟨stack, hs, h⟩ := bind_eq_ok_iff.1 h
  refine bind_eq_ok_iff.2 ⟨stack, hm.foldlM_eq hk hs, ?_⟩
  rcases stack with - | ⟨w, - | ⟨w', stack⟩⟩
  · cases h
  · exact h
  · dsimp only at h
    split at h <;> cases h

/-- Tokens of the same kinds have the same value. -/
theorem Interpretation.IgnoresTexts.evaluate_eq (hm : m.IgnoresTexts)
    {tokens tokens' : List (Token α)} {v : V} (ha : Arranged 0 true tokens)
    (hk : kinds tokens' = kinds tokens) (h : m.evaluate tokens = .ok v) :
    m.evaluate tokens' = .ok v := by
  obtain ⟨tree, ht⟩ := ha.derives_of_evaluate h
  obtain ⟨code', hd, hc⟩ := (Drafts.of_derives ht).of_kinds_eq hk
  rw [evaluate, ht.toPostfix, ok_bind] at h
  rw [evaluate, hd.toPostfix, ok_bind]
  exact hm.run_eq hc h

end Texts

/-! ## What may follow a piece -/

/-- A rest ends or goes on with a blank, the end of a group or an operator. -/
def FollowsOperand (rest : List Char) : Prop :=
  ∀ c, rest.head? = some c → Text.isBlank c = true ∨ c = ')' ∨ ∃ o : Operator, c = o.symbol

/-- A rest goes on with a character of words. -/
def GoesOnWord (rest : List Char) : Prop := ∃ c, rest.head? = some c ∧ isWordChar c = true

/-- What may follow an operand does not go on a number. -/
theorem FollowsOperand.endsNumber {rest : List Char} (h : FollowsOperand rest) :
    EndsNumber rest := by
  intro c hc
  rcases h c hc with hb | rfl | ⟨o, rfl⟩
  · rcases isBlank_iff.1 hb with rfl | rfl | rfl | rfl | rfl <;> decide
  · decide
  · cases o <;> decide

/-- What may follow an operand does not go on a word. -/
theorem FollowsOperand.not_goesOnWord {rest : List Char} (h : FollowsOperand rest) :
    ¬GoesOnWord rest := by
  rintro ⟨c, hc, hw⟩
  rcases h c hc with hb | rfl | ⟨o, rfl⟩
  · rcases isBlank_iff.1 hb with rfl | rfl | rfl | rfl | rfl <;> exact absurd hw (by decide)
  · exact absurd hw (by decide)
  · cases o <;> exact absurd hw (by decide)

section Pieces

variable {α : Type} [Zero α] [BEq α] [OfScientific α] {names : List String} {mode : Mode}
  {s s' s'' : ScanState} {p : Piece α} {ps ps' qs rs : List (Piece α)} {rest rest' : List Char}

/-- Where no operand is due, the scanner accepts only what may follow one. -/
theorem Lexes.followsOperand (h : Lexes names mode s.due p rest) (ha : s.Accepts p.kind? s')
    (hd : s.due = false) (rest' : List Char) : FollowsOperand (p.chars ++ rest') := by
  have hstarts {kind : TokenKind α} (hk : p.kind? = some kind) : kind.startsOperand = false := by
    rw [hk] at ha
    cases hs : kind.startsOperand with
    | false => rfl
    | true => exact absurd (ha.due_of_startsOperand hs) (by simp [hd])
  generalize hdue : s.due = due at h
  cases h with
  | blank hb =>
    rintro _ ⟨⟩
    exact .inl hb
  | closeParen =>
    rintro _ ⟨⟩
    exact .inr (.inl rfl)
  | operator o =>
    rintro _ ⟨⟩
    exact .inr (.inr ⟨o, rfl⟩)
  | plus | negate => cases hdue.symm.trans hd
  | number | bracket | openParen => cases hstarts rfl
  | word _ _ _ hw =>
    rcases wordLexeme_eq_ok_iff.1 hw with ⟨f, -, rfl⟩ | ⟨-, ⟨-, rfl⟩ | ⟨-, i, -, rfl⟩⟩ <;>
      cases hstarts rfl

/-- Pieces that are scanned where no operand is due may follow one. -/
theorem Scans.followsOperand (h : Scans names mode s ps rest s') (hd : s.due = false)
    (hne : ps ≠ []) (rest' : List Char) : FollowsOperand (Piece.allChars ps ++ rest') := by
  cases h with
  | nil => exact absurd rfl hne
  | cons hl ha _ =>
    rw [Piece.allChars_cons, List.append_assoc]
    exact hl.followsOperand ha hd _

/-- A piece is cut off before another rest, too, if the rest may follow it. -/
theorem Lexes.congr_rest {due : Bool} (h : Lexes names mode due p rest)
    (hf : ∀ kind, p.kind? = some kind → kind.endsOperand = true → FollowsOperand rest')
    (hw : GoesOnWord rest' → GoesOnWord rest) : Lexes names mode due p rest' := by
  cases h with
  | blank hb => exact .blank hb
  | plus => exact .plus
  | number hwf hd hc _ =>
    exact .number hwf hd hc (Literal.read_chars_append hwf hc (hf _ rfl rfl).endsNumber)
  | word hstart hcs hrest hk =>
    refine .word hstart hcs (fun d hd => Bool.eq_false_iff.2 fun hword => ?_)
      (wordLexeme_eq_ok_iff.2 (wordLexeme_eq_ok_iff.1 hk))
    obtain ⟨c, hc, hword⟩ := hw ⟨d, hd, hword⟩
    rw [hrest c hc] at hword
    cases hword
  | bracket hi hk => exact .bracket hi hk
  | openParen => exact .openParen
  | closeParen => exact .closeParen
  | operator o => exact .operator o
  | negate => exact .negate

/-- Pieces are cut off before another rest, too: only the last of them stands next to it. -/
theorem Scans.congr_rest (h : Scans names mode s ps rest s')
    (hf : s'.due = false → FollowsOperand rest') (hw : GoesOnWord rest' → GoesOnWord rest) :
    Scans names mode s ps rest' s' := by
  induction h with
  | nil => exact .nil
  | @cons s s₁ s' p ps rest hl ha htail ih =>
    refine .cons (hl.congr_rest (fun kind hk he => ?_) ?_) ha (ih hf hw)
    · have hd : s₁.due = false := by
        rw [hk] at ha
        cases ha
        simp [he]
      cases htail with
      | nil => exact hf hd
      | cons hl' ha' htail' => exact (Scans.cons hl' ha' htail').followsOperand hd (by simp) _
    · cases htail with
      | nil => exact hw
      | cons hl' _ _ =>
        obtain ⟨c, cs, hc⟩ := List.exists_cons_of_ne_nil hl'.chars_ne_nil
        simp [GoesOnWord, hc]

/-- Some pieces of a row can be exchanged for others that leave the scanner in the same state, if
these may stand where they do. -/
theorem Scans.replace (ps ps' : List (Piece α))
    (h : Scans names mode s (qs ++ (ps ++ rs)) rest s')
    (hp : ∀ s₁ s₂, Scans names mode s qs (Piece.allChars (ps ++ rs) ++ rest) s₁ →
      Scans names mode s₁ ps (Piece.allChars rs ++ rest) s₂ →
      Scans names mode s₁ ps' (Piece.allChars rs ++ rest) s₂ ∧
        (s₁.due = false → FollowsOperand (Piece.allChars (ps' ++ rs) ++ rest)) ∧
        (GoesOnWord (Piece.allChars (ps' ++ rs) ++ rest) →
          GoesOnWord (Piece.allChars (ps ++ rs) ++ rest))) :
    Scans names mode s (qs ++ (ps' ++ rs)) rest s' := by
  obtain ⟨s₁, hq, h⟩ := h.of_append
  obtain ⟨s₂, hps, hrs⟩ := h.of_append
  obtain ⟨hps', hf, hw⟩ := hp s₁ s₂ hq hps
  exact (hq.congr_rest hf hw).append (hps'.append hrs)

end Pieces

/-! ## Letter case -/

/-- The small letters are 32 codes behind the capital ones, and nothing else is changed. -/
theorem toNat_toLower (c : Char) :
    c.toLower.toNat = if 65 ≤ c.toNat ∧ c.toNat ≤ 90 then c.toNat + 32 else c.toNat := by
  have hv : ('A'.val ≤ c.val ∧ c.val ≤ 'Z'.val) ↔ 65 ≤ c.toNat ∧ c.toNat ≤ 90 := by
    simp [UInt32.le_iff_toNat_le]
  unfold Char.toLower
  split
  · next h =>
    rw [if_pos (hv.1 h)]
    have hc := (hv.1 h).2
    have h32 : ('a'.val - 'A'.val : UInt32).toNat = 32 := by decide
    show (c.val + ('a'.val - 'A'.val)).toNat = c.toNat + 32
    rw [UInt32.toNat_add, h32, Char.toNat_val]
    omega
  · next h => rw [if_neg fun h' => h (hv.2 h')]

/-- The case of a letter does not decide whether a word starts. -/
theorem startsWord_toLower (c : Char) : startsWord c.toLower = startsWord c := by
  rw [Bool.eq_iff_iff, startsWord_iff, startsWord_iff, toNat_toLower]
  split <;> omega

/-- The case of a letter does not decide whether it is part of a word. -/
theorem isWordChar_toLower (c : Char) : isWordChar c.toLower = isWordChar c := by
  rw [Bool.eq_iff_iff, isWordChar_iff, isWordChar_iff, startsWord_toLower, isDigit_iff, isDigit_iff,
    toNat_toLower, startsWord_iff]
  split <;> omega

/-- Texts that differ by the case of letters only are of the same characters of words. -/
theorem forall_isWordChar_of_toLower {cs cs' : List Char}
    (h : cs'.map Char.toLower = cs.map Char.toLower) (hw : ∀ c ∈ cs, isWordChar c = true) :
    ∀ c ∈ cs', isWordChar c = true := by
  intro c' hc'
  have hm : c'.toLower ∈ cs.map Char.toLower := h ▸ List.mem_map_of_mem hc'
  obtain ⟨c, hc, hl⟩ := List.mem_map.1 hm
  rw [← isWordChar_toLower, ← hl, isWordChar_toLower]
  exact hw c hc

/-- The case of letters does not decide where a word ends. -/
theorem goesOnWord_of_toLower {cs cs' : List Char}
    (h : cs'.map Char.toLower = cs.map Char.toLower) (rest : List Char) :
    GoesOnWord (cs' ++ rest) ↔ GoesOnWord (cs ++ rest) := by
  cases cs with
  | nil =>
    obtain rfl := List.map_eq_nil_iff.1 h
    rfl
  | cons c cs =>
    obtain ⟨c', cs', rfl, hc, -⟩ := List.map_eq_cons_iff.1 h
    have hw : isWordChar c' = isWordChar c := by
      rw [← isWordChar_toLower, hc, isWordChar_toLower]
    simp [GoesOnWord, hw]

/-! ## References by number -/

section References

variable {α : Type} [Zero α] [BEq α] {names : List String}

/-- Digits have no white space around them. -/
theorem trim_of_forall_isDigit {ds : List Char} (h : ∀ d ∈ ds, isDigit d = true) :
    Text.trim (String.ofList ds) = String.ofList ds := by
  have hs : ∀ d ∈ ds, Text.isSpace d = false := by
    intro d hd
    have hn := isDigit_iff.1 (h d hd)
    simp [Text.isSpace]
    omega
  have hdrop (es : List Char) (he : ∀ e ∈ es, Text.isSpace e = false) :
      es.dropWhile Text.isSpace = es := by
    cases es with
    | nil => rfl
    | cons e es => rw [List.dropWhile_cons_of_neg (by simp [he e List.mem_cons_self])]
  rw [Text.trim, String.toList_ofList, hdrop ds hs, hdrop _ (by simpa using hs),
    List.reverse_reverse]

/-- The digits of a number that fits into a word refer to the number. -/
theorem referenceNumber?_toDigits {n : Nat} (hn : n < wordBound) :
    referenceNumber? (String.ofList (Nat.toDigits 10 n)) = some n := by
  have hd : ∀ d ∈ Nat.toDigits 10 n, isDigit d = true := fun _ => isDigit_of_mem_toDigits
  obtain ⟨d, ds, hds⟩ := List.exists_cons_of_ne_nil (Nat.toDigits_ne_nil (n := n) (b := 10))
  have hplus : d ≠ '+' := by
    rintro rfl
    exact absurd (hd '+' (by simp [hds])) (by decide)
  have hall : (d :: ds).all isDigit = true := by rwa [List.all_eq_true, ← hds]
  have hv : digitsValue (d :: ds) = n := by rw [← hds, digitsValue_toDigits]
  rw [referenceNumber?, hds, String.toList_ofList]
  split
  · next h => exact absurd (List.cons.inj h).1 hplus
  · simp only [hall, hv, hn, decide_true, List.isEmpty_cons, Bool.not_false, Bool.and_self, if_true]

/-- The number of a dataset, counted from one, refers to it. -/
theorem resolveBracketed_toDigits {i : Nat} (hi : i < names.length)
    (hn : names.length < wordBound) :
    resolveBracketed (α := α) names (String.ofList (Nat.toDigits 10 (i + 1))) = .ok i := by
  unfold resolveBracketed
  dsimp only
  rw [trim_of_forall_isDigit fun _ => isDigit_of_mem_toDigits, referenceNumber?_toDigits (by omega)]
  exact if_neg (by omega)

end References

/-! ## Edits of pieces -/

section Edits

variable {α : Type} [Zero α] [BEq α] [OfScientific α] {names : List String} {mode : Mode}
  {s s' : ScanState} {p : Piece α} {qs rs : List (Piece α)} {rest : List Char}

/-- A blank may be put between any two pieces. -/
theorem Scans.insert_blank {c : Char} (hc : Text.isBlank c = true)
    (h : Scans names mode s (qs ++ rs) rest s') :
    Scans names mode s (qs ++ ⟨[c], none⟩ :: rs) rest s' := by
  have hf (cs : List Char) : FollowsOperand (c :: cs) := by
    rintro _ ⟨⟩
    exact .inl hc
  refine Scans.replace [] [⟨[c], none⟩] h fun s₁ s₂ _ hp =>
    ⟨?_, fun _ => hf _, fun hw => absurd hw (hf _).not_goesOnWord⟩
  cases hp
  exact .cons (.blank hc) .dropped .nil

/-- A plus sign may be put where an operand is due. -/
theorem Scans.insert_plus (hd : dueAfter s.due (Piece.tokensAt 0 qs) = true)
    (h : Scans names mode s (qs ++ rs) rest s') :
    Scans names mode s (qs ++ ⟨['+'], none⟩ :: rs) rest s' := by
  have hf (cs : List Char) : FollowsOperand ('+' :: cs) := by
    rintro _ ⟨⟩
    exact .inr (.inr ⟨.add, rfl⟩)
  refine Scans.replace [] [⟨['+'], none⟩] h fun s₁ s₂ hq hp =>
    ⟨?_, fun _ => hf _, fun hw => absurd hw (hf _).not_goesOnWord⟩
  cases hp
  have hdue : s₁.due = true := (hq.due_eq 0).trans hd
  exact .cons (hdue ▸ .plus) .dropped .nil

/-- A piece that starts an operand may be exchanged for one of the same kind. -/
theorem Scans.respell (h : Scans names mode s (qs ++ p :: rs) rest s') (p' : Piece α)
    {kind : TokenKind α} (hk : p.kind? = some kind) (hk' : p'.kind? = some kind)
    (hs : kind.startsOperand = true)
    (hl : ∀ due rest, Lexes names mode due p rest → Lexes names mode due p' rest)
    (hw : ∀ rest, GoesOnWord (p'.chars ++ rest) → GoesOnWord (p.chars ++ rest)) :
    Scans names mode s (qs ++ p' :: rs) rest s' := by
  refine Scans.replace [p] [p'] h fun s₁ s₂ _ hp => ?_
  cases hp with
  | cons hl₁ ha hnil =>
    cases hnil
    rw [hk] at ha
    refine ⟨.cons (hl _ _ hl₁) (hk' ▸ ha) .nil, fun hd => ?_, ?_⟩
    · exact absurd (ha.due_of_startsOperand hs) (by simp [hd])
    · simpa using hw (Piece.allChars rs ++ rest)

/-- A name of a function, or the variable, is read in any case of letters. -/
theorem Lexes.letterCase {due : Bool} {chars : List Char} (h : Lexes names mode due p rest)
    (hk : (∃ f, p.kind? = some (.builtin f)) ∨ p.kind? = some .laplace)
    (hc : chars.map Char.toLower = p.chars.map Char.toLower) :
    Lexes names mode due ⟨chars, p.kind?⟩ rest := by
  cases h with
  | @word _ c cs _ kind hstart hcs hrest hword =>
    obtain ⟨c', cs', rfl, hc', hcs'⟩ := List.map_eq_cons_iff.1 hc
    refine .word ?_ (forall_isWordChar_of_toLower hcs' hcs) hrest ?_
    · rw [← startsWord_toLower, hc', startsWord_toLower]
      exact hstart
    · rw [wordLexeme_eq_ok_iff] at hword ⊢
      rw [hc]
      rcases hword with hf | ⟨hf, hs | ⟨-, i, -, rfl⟩⟩
      · exact .inl hf
      · exact .inr ⟨hf, .inl hs⟩
      · obtain ⟨f, hf⟩ | hl := hk
        · cases hf
        · cases hl
  | blank | plus | number | bracket | openParen | closeParen | operator | negate =>
    obtain ⟨f, hf⟩ | hl := hk
    · cases hf
    · cases hl

/-- A reference to a dataset is read in its number as well. -/
theorem Lexes.reference {due : Bool} {i : Nat} (h : Lexes names .numeric due p rest)
    (hk : p.kind? = some (.dataset i)) (hn : names.length < wordBound) :
    Lexes names .numeric due
      (⟨'[' :: (Nat.toDigits 10 (i + 1) ++ [']']), some (.dataset i)⟩ : Piece α) rest := by
  refine .bracket (fun d hd => ?_) (resolveBracketed_toDigits ((h.isResolved hk).2 i rfl) hn)
  rintro rfl
  exact absurd (isDigit_of_mem_toDigits hd) (by decide)

end Edits

/-! ## Edits of texts -/

/-- A text is divided in one way before a count of bytes. -/
theorem append_inj_of_utf8ByteSize {as bs cs ds : List Char} (h : as ++ bs = cs ++ ds)
    (hs : (String.ofList as).utf8ByteSize = (String.ofList cs).utf8ByteSize) :
    as = cs ∧ bs = ds := by
  have hnil (xs ys : List Char) (h : (String.ofList xs).utf8ByteSize =
      (String.ofList (xs ++ ys)).utf8ByteSize) : ys = [] := by
    rw [String.ofList_append, String.utf8ByteSize_append] at h
    have hz : (String.ofList ys).utf8ByteSize = 0 := by omega
    simpa using String.utf8ByteSize_eq_zero_iff.1 hz
  rcases List.append_eq_append_iff.1 h with ⟨xs, rfl, rfl⟩ | ⟨xs, rfl, rfl⟩
  · simp [hnil _ _ hs]
  · simp [hnil _ _ hs.symm]

/-- The kinds of the tokens of pieces do not depend on where the pieces stand. -/
theorem kinds_tokensAt {α : Type} (position : Nat) (ps : List (Piece α)) :
    kinds (Piece.tokensAt position ps) = ps.filterMap (·.kind?) := by
  induction ps generalizing position with
  | nil => rfl
  | cons p ps ih =>
    rw [Piece.tokensAt, kinds_append, ih, List.filterMap_cons, Piece.tokenAt]
    cases p.kind? <;> rfl

/-- Pieces can be divided at every place that is not inside a token. -/
theorem Piece.exists_of_place {α : Type} {ps : List (Piece α)} {b : Nat} (hle : b ≤ byteSize ps)
    (hb : ∀ t ∈ tokensAt 0 ps, ¬(t.position < b ∧ b < t.stop))
    (hd : ∀ p ∈ ps, p.kind? = none → p.text.utf8ByteSize = 1) :
    ∃ qs rs, ps = qs ++ rs ∧ byteSize qs = b := by
  rcases Nat.eq_or_lt_of_le hle with rfl | hlt
  · exact ⟨ps, [], by simp, rfl⟩
  obtain ⟨qs, p, rs, rfl, h₁, h₂⟩ := exists_of_lt_byteSize hlt
  refine ⟨qs, p :: rs, rfl, Nat.le_antisymm h₁ (Nat.le_of_not_lt fun hin => ?_)⟩
  cases hk : p.kind? with
  | none =>
    have := hd p (by simp) hk
    omega
  | some kind =>
    refine hb ⟨kind, p.text, byteSize qs⟩ ?_ ⟨hin, h₂⟩
    rw [tokensAt_append, Nat.zero_add, tokensAt, tokenAt, hk]
    simp

section Respells

variable {α : Type} [Zero α] [BEq α] [OfScientific α] {names : List String} {mode : Mode}

/-- An edit of a text that does not change what it says. Places are counts of bytes before them, and
tokens are those of the text before the edit. -/
inductive Respells (α : Type) [Zero α] [BEq α] [OfScientific α] (names : List String)
    (mode : Mode) : String → String → Prop where
  /-- A blank, at a place that is not inside a token. -/
  | blank (before after : String) (c : Char) (tokens : List (Token α)) :
      scan names mode (before ++ after) = .ok tokens →
      (∀ t ∈ tokens, ¬(t.position < before.utf8ByteSize ∧ before.utf8ByteSize < t.stop)) →
      Text.isBlank c = true →
      Respells α names mode (before ++ after) (before ++ String.singleton c ++ after)
  /-- A plus sign, before a token that stands where an operand is due. -/
  | plus (before after : String) (ts us : List (Token α)) (t : Token α) :
      scan names mode (before ++ after) = .ok (ts ++ t :: us) →
      t.position = before.utf8ByteSize → dueAfter true ts = true →
      Respells α names mode (before ++ after) (before ++ "+" ++ after)
  /-- Other cases of the letters of a function or of the variable. -/
  | letterCase (before text after : String) (ts us : List (Token α)) (t : Token α) :
      scan names mode (before ++ t.text ++ after) = .ok (ts ++ t :: us) →
      t.position = before.utf8ByteSize → (∃ f, t.kind = .builtin f) ∨ t.kind = .laplace →
      text.toList.map Char.toLower = t.text.toList.map Char.toLower →
      Respells α names mode (before ++ t.text ++ after) (before ++ text ++ after)
  /-- The number of a dataset, counted from one, in place of a reference to it. -/
  | reference (before after : String) (ts us : List (Token α)) (t : Token α) (i : Nat) :
      mode = .numeric → scan names mode (before ++ t.text ++ after) = .ok (ts ++ t :: us) →
      t.position = before.utf8ByteSize → t.kind = .dataset i →
      Respells α names mode (before ++ t.text ++ after)
        (before ++ ("[" ++ toString (i + 1) ++ "]") ++ after)

/-- A token of a text is a piece of it, with all that stands before the token before the piece. -/
theorem exists_piece_of_scan {before after : String} {ts us : List (Token α)} {t : Token α}
    (h : scan names mode (before ++ after) = .ok (ts ++ t :: us))
    (hp : t.position = before.utf8ByteSize) :
    ∃ qs p rs s', before.toList = Piece.allChars qs ∧
      after.toList = p.chars ++ Piece.allChars rs ∧
      Scans names mode .start (qs ++ p :: rs) [] s' ∧ s'.depth = 0 ∧ Piece.tokensAt 0 qs = ts ∧
      p.kind? = some t.kind ∧ p.text = t.text ∧
      kinds (ts ++ t :: us) = (qs ++ p :: rs).filterMap (·.kind?) := by
  obtain ⟨ps, s', hc, hs, hd, htokens, -⟩ := scan_eq_ok_iff.1 h
  obtain ⟨qs, p, rs, rfl, hts, hk, ht, hpos⟩ := Piece.tokensAt_eq_append_cons htokens.symm
  rw [String.toList_append, Piece.allChars_append] at hc
  have hsize : (String.ofList before.toList).utf8ByteSize = Piece.byteSize qs := by
    rw [String.ofList_toList, ← hp, hpos, Nat.zero_add]
  obtain ⟨hb, ha⟩ := append_inj_of_utf8ByteSize hc hsize
  exact ⟨qs, p, rs, s', hb, ha, hs, hd, hts, hk, ht, by rw [htokens, kinds_tokensAt]⟩

/-- A text that the scanner cuts into pieces of certain kinds has tokens of these kinds. -/
theorem Scans.exists_scan {ps : List (Piece α)} {s' : ScanState}
    (h : Scans names mode .start ps [] s') (hd : s'.depth = 0) {tokens : List (Token α)}
    (hne : tokens ≠ []) (hk : ps.filterMap (·.kind?) = kinds tokens) {e : String}
    (he : e.toList = Piece.allChars ps) :
    ∃ tokens' : List (Token α), scan names mode e = .ok tokens' ∧ kinds tokens' = kinds tokens := by
  rw [← kinds_tokensAt 0] at hk
  refine ⟨_, scan_eq_ok_iff.2 ⟨ps, s', he, h, hd, rfl, fun hnil => hne ?_⟩, hk⟩
  rwa [hnil, kinds_nil, eq_comm, kinds_eq_nil_iff] at hk

/-- A blank may stand at every place that is not inside a token. -/
theorem exists_scan_of_blank {before after : String} {c : Char} {tokens : List (Token α)}
    (h : scan names mode (before ++ after) = .ok tokens)
    (hplace : ∀ t ∈ tokens,
      ¬(t.position < before.utf8ByteSize ∧ before.utf8ByteSize < t.stop))
    (hc : Text.isBlank c = true) :
    ∃ tokens' : List (Token α),
      scan names mode (before ++ String.singleton c ++ after) = .ok tokens' ∧
        kinds tokens' = kinds tokens := by
  obtain ⟨ps, s', hchars, hs, hd, rfl, hne⟩ := scan_eq_ok_iff.1 h
  have hle : before.utf8ByteSize ≤ Piece.byteSize ps := by
    rw [Piece.byteSize, ← hchars, String.ofList_toList, String.utf8ByteSize_append]
    omega
  have hdropped (p : Piece α) (hp : p ∈ ps) (hk : p.kind? = none) : p.text.utf8ByteSize = 1 := by
    obtain ⟨due, rest, hl⟩ := hs.exists_lexes hp
    exact hl.utf8ByteSize_dropped hk
  obtain ⟨qs, rs, rfl, hsize⟩ := Piece.exists_of_place hle hplace hdropped
  rw [String.toList_append, Piece.allChars_append] at hchars
  obtain ⟨hb, ha⟩ := append_inj_of_utf8ByteSize hchars
    (by rw [String.ofList_toList]; exact hsize.symm)
  exact (hs.insert_blank hc).exists_scan hd hne (by simp [kinds_tokensAt]) (by simp [hb, ha])

/-- A plus sign may stand before every token that stands where an operand is due. -/
theorem exists_scan_of_plus {before after : String} {ts us : List (Token α)} {t : Token α}
    (h : scan names mode (before ++ after) = .ok (ts ++ t :: us))
    (hp : t.position = before.utf8ByteSize) (hdue : dueAfter true ts = true) :
    ∃ tokens' : List (Token α), scan names mode (before ++ "+" ++ after) = .ok tokens' ∧
      kinds tokens' = kinds (ts ++ t :: us) := by
  obtain ⟨qs, p, rs, s', hb, ha, hs, hd, rfl, -, -, hkinds⟩ := exists_piece_of_scan h hp
  have hne : Piece.tokensAt 0 qs ++ t :: us ≠ [] := by simp
  exact (hs.insert_plus hdue).exists_scan hd hne (by rw [hkinds]; simp) (by simp [hb, ha])

/-- A token that starts an operand may be written in another way if the scanner reads both ways
alike, and if what stands before it does not go on with a word. -/
theorem exists_scan_of_respell {before after : String} (text : String) {ts us : List (Token α)}
    {t : Token α} (h : scan names mode (before ++ t.text ++ after) = .ok (ts ++ t :: us))
    (hp : t.position = before.utf8ByteSize) (hs : t.kind.startsOperand = true)
    (hl : ∀ due rest, Lexes names mode due ⟨t.text.toList, some t.kind⟩ rest →
      Lexes names mode due ⟨text.toList, some t.kind⟩ rest)
    (hw : ∀ rest, GoesOnWord (text.toList ++ rest) → GoesOnWord (t.text.toList ++ rest)) :
    ∃ tokens' : List (Token α), scan names mode (before ++ text ++ after) = .ok tokens' ∧
      kinds tokens' = kinds (ts ++ t :: us) := by
  rw [String.append_assoc] at h
  obtain ⟨qs, ⟨chars, kind?⟩, rs, s', hb, ha, hscans, hd, rfl, rfl, ht, hkinds⟩ :=
    exists_piece_of_scan h hp
  obtain rfl : chars = t.text.toList := by rw [← ht, Piece.text, String.toList_ofList]
  rw [String.toList_append, List.append_cancel_left_eq] at ha
  have hrespelled := hscans.respell ⟨text.toList, some t.kind⟩ rfl rfl hs hl hw
  refine hrespelled.exists_scan hd (by simp) ?_ (by simp [hb, ha])
  rw [hkinds, List.filterMap_append, List.filterMap_append, List.filterMap_cons,
    List.filterMap_cons]

/-- An edited text has tokens of the same kinds. -/
theorem Respells.exists_scan {e e' : String} (h : Respells α names mode e e')
    (hn : mode = .numeric → names.length < wordBound) :
    ∃ tokens tokens' : List (Token α), scan names mode e = .ok tokens ∧
      scan names mode e' = .ok tokens' ∧ kinds tokens' = kinds tokens := by
  cases h with
  | blank before after c tokens hscan hplace hc =>
    obtain ⟨tokens', h⟩ := exists_scan_of_blank hscan hplace hc
    exact ⟨_, tokens', hscan, h⟩
  | plus before after ts us t hscan hp hdue =>
    obtain ⟨tokens', h⟩ := exists_scan_of_plus hscan hp hdue
    exact ⟨_, tokens', hscan, h⟩
  | letterCase before text after ts us t hscan hp hkind htext =>
    have hs : t.kind.startsOperand = true := by
      rcases hkind with ⟨f, hk⟩ | hk <;> rw [hk] <;> rfl
    obtain ⟨tokens', h⟩ := exists_scan_of_respell text hscan hp hs
      (fun due rest hl => hl.letterCase (hkind.imp (·.imp fun f => congrArg some)
        (congrArg some)) htext)
      fun rest => (goesOnWord_of_toLower htext rest).1
    exact ⟨_, tokens', hscan, h⟩
  | reference before after ts us t i hm hscan hp hkind =>
    subst hm
    have hs : t.kind.startsOperand = true := by rw [hkind]; rfl
    have htext : ("[" ++ toString (i + 1) ++ "]").toList =
        '[' :: (Nat.toDigits 10 (i + 1) ++ [']']) := by simp
    obtain ⟨tokens', h⟩ := exists_scan_of_respell ("[" ++ toString (i + 1) ++ "]") hscan hp hs
      (fun due rest hl => by
        rw [htext, hkind]
        exact hl.reference (congrArg some hkind) (hn rfl))
      (by
        rintro rest ⟨c, hc, hw⟩
        rw [htext] at hc
        cases hc
        exact absurd hw (by decide))
    exact ⟨_, tokens', hscan, h⟩

/-- An edit of a text does not change its value in a meaning that ignores texts. -/
theorem Respells.evaluate_eq {V : Type} {m : Interpretation α V} (hm : m.IgnoresTexts)
    {names : List String} {mode : Mode} {e e' : String} {v : V} (h : Respells α names mode e e')
    (hn : mode = .numeric → names.length < wordBound)
    (hv : (scan names mode e >>= m.evaluate) = .ok v) :
    (scan names mode e' >>= m.evaluate) = .ok v := by
  obtain ⟨tokens, tokens', hs, hs', hk⟩ := h.exists_scan hn
  rw [hs, ok_bind] at hv
  rw [hs', ok_bind]
  exact hm.evaluate_eq (arranged_of_scan hs) hk hv

end Respells

/-! ## Values -/

section Values

variable {α : Type} [Zero α] [One α] [Neg α] [Add α] [Sub α] [Mul α] [Div α] [NatCast α]
  [OfScientific α] [Max α] [LT α] [DecidableLT α] [LE α] [DecidableLE α] [BEq α] [Elementary α]

/-- Over numbers and series the texts of tokens are there for errors only. -/
theorem Interpretation.ignoresTexts_numeric (datasets : List (Dataset α)) (factor : α) :
    (numeric datasets factor).IgnoresTexts where
  dataset {i text v} text' h := by
    simp only [numeric] at h ⊢
    split at h
    · next hd => rw [← h]
    · cases h
  laplace text' h := by cases h
  builtin {f text v w} text' h := by
    cases v with
    | number x =>
      simp only [numeric, Builtin.onValue] at h ⊢
      split at h
      · exact h
      · cases h
    | series s => exact h

omit [NatCast α] [OfScientific α] [Max α] [LE α] [DecidableLE α] in
/-- Over polynomials the texts of tokens are there for errors only. -/
theorem Interpretation.ignoresTexts_symbolic :
    (symbolic : Interpretation α (Poly α)).IgnoresTexts where
  dataset text' h := by cases h
  laplace text' h := h
  builtin {f text p q} text' h := by
    obtain ⟨c, hc, h⟩ := bind_eq_ok_iff.1 h
    refine bind_eq_ok_iff.2 ⟨c, ?_, ?_⟩
    · unfold Poly.constOr at hc ⊢
      split at hc
      · exact hc
      · cases hc
    · split at h
      · exact h
      · cases h

/-- **A value does not depend on the spelling.** Blanks at the borders of tokens, plus signs before
tokens where an operand is due, other cases of the letters of functions, and the numbers of datasets
in place of references to them, in any combination, leave the value of an expression as it is. So do
the first three and other cases of the variable for the polynomial of an expression. The number of
a dataset is read in 64 bits, and there are never as many datasets as that. -/
theorem value_ignores_spelling (datasets : List (Dataset α)) (factor : α) (e e' : String) :
    (datasets.length < wordBound →
      Relation.ReflTransGen (Respells α (datasets.map (·.name)) .numeric) e e' →
      ∀ v, solve datasets factor e = .ok v → solve datasets factor e' = .ok v) ∧
    ∀ names, Relation.ReflTransGen (Respells α names .symbolic) e e' →
      ∀ p : Poly α, solvePoly names e = .ok p → solvePoly names e' = .ok p := by
  refine ⟨fun hn h v hv => ?_, fun names h p hp => ?_⟩
  · induction h with
    | refl => exact hv
    | tail _ hstep ih =>
      exact hstep.evaluate_eq (Interpretation.ignoresTexts_numeric datasets factor)
        (fun _ => by simpa using hn) ih
  · induction h with
    | refl => exact hp
    | tail _ hstep ih => exact hstep.evaluate_eq Interpretation.ignoresTexts_symbolic nofun ih

end Values

/-- The value of `abs(b)` is that of `ABS( +[2])`, and the polynomial of `-s` that of `-+S`. -/
theorem value_ignores_spelling_edited :
    let datasets : List (Dataset Float) := [⟨"a", ⟨[]⟩⟩, ⟨"b", ⟨[⟨0, -1⟩]⟩⟩]
    Relation.ReflTransGen (Respells Float ["a", "b"] .numeric) "abs(b)" "ABS( +[2])" ∧
      (∃ v, solve datasets 1 "abs(b)" = .ok v ∧ solve datasets 1 "ABS( +[2])" = .ok v) ∧
    Relation.ReflTransGen (Respells Float [] .symbolic) "-s" "-+S" ∧
      ∃ p : Poly Float, solvePoly [] "-s" = .ok p ∧ solvePoly [] "-+S" = .ok p := by
  intro datasets
  let tokens (name reference : String) (p₁ p₂ p₃ : Nat) : List (Token Float) :=
    [⟨.builtin .abs, name, 0⟩, ⟨.openParen, "(", p₁⟩, ⟨.dataset 1, reference, p₂⟩,
      ⟨.closeParen, ")", p₃⟩]
  have h₁ : Respells Float ["a", "b"] .numeric "abs(b)" "ABS(b)" :=
    .letterCase "" "ABS" "(b)" [] ((tokens "abs" "b" 3 4 5).drop 1) ⟨.builtin .abs, "abs", 0⟩
      (by with_unfolding_all rfl) rfl (.inl ⟨.abs, rfl⟩) rfl
  have h₂ : Respells Float ["a", "b"] .numeric "ABS(b)" "ABS(+b)" :=
    .plus "ABS(" "b)" ((tokens "ABS" "b" 3 4 5).take 2) ((tokens "ABS" "b" 3 4 5).drop 3)
      ⟨.dataset 1, "b", 4⟩ (by with_unfolding_all rfl) rfl rfl
  have h₃ : Respells Float ["a", "b"] .numeric "ABS(+b)" "ABS(+[2])" :=
    .reference "ABS(+" ")" ((tokens "ABS" "b" 3 5 6).take 2) ((tokens "ABS" "b" 3 5 6).drop 3)
      ⟨.dataset 1, "b", 5⟩ 1 rfl (by with_unfolding_all rfl) rfl rfl
  have h₄ : Respells Float ["a", "b"] .numeric "ABS(+[2])" "ABS( +[2])" :=
    .blank "ABS(" "+[2])" ' ' (tokens "ABS" "[2]" 3 5 8) (by with_unfolding_all rfl)
      (by simp only [tokens]; decide) rfl
  have hs : Relation.ReflTransGen (Respells Float ["a", "b"] .numeric) "abs(b)" "ABS( +[2])" :=
    (((Relation.ReflTransGen.single h₁).tail h₂).tail h₃).tail h₄
  have h₅ : Respells Float [] .symbolic "-s" "-S" :=
    .letterCase "-" "S" "" [⟨.negate, "-", 0⟩] [] ⟨.laplace, "s", 1⟩ (by with_unfolding_all rfl)
      rfl (.inr rfl) rfl
  have h₆ : Respells Float [] .symbolic "-S" "-+S" :=
    .plus "-" "S" [⟨.negate, "-", 0⟩] [] ⟨.laplace, "S", 1⟩ (by with_unfolding_all rfl) rfl rfl
  have hp : Relation.ReflTransGen (Respells Float [] .symbolic) "-s" "-+S" :=
    (Relation.ReflTransGen.single h₅).tail h₆
  obtain ⟨v, hv⟩ : ∃ v, solve datasets 1 "abs(b)" = .ok v := by
    have h : scan (datasets.map (·.name)) .numeric "abs(b)" = .ok (tokens "abs" "b" 3 4 5) := by
      with_unfolding_all rfl
    exact ⟨_, bind_eq_ok_iff.2 ⟨_, h, rfl⟩⟩
  obtain ⟨p, hpoly⟩ : ∃ p : Poly Float, solvePoly [] "-s" = .ok p := by
    have h : scan [] .symbolic "-s" =
        .ok [(⟨.negate, "-", 0⟩ : Token Float), ⟨.laplace, "s", 1⟩] := by
      with_unfolding_all rfl
    exact ⟨_, bind_eq_ok_iff.2 ⟨_, h, rfl⟩⟩
  exact ⟨hs, ⟨v, hv, (value_ignores_spelling datasets 1 _ _).1 (by decide) hs v hv⟩, hp, p, hpoly,
    (value_ignores_spelling datasets 1 _ _).2 [] hp p hpoly⟩

end SignalCalc
