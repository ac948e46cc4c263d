import SignalCalc.Expression.Solve
import SignalCalc.Proofs.Decimal.Text
import SignalCalc.Proofs.Expression.Evaluation
import SignalCalc.Proofs.Poly.Term

/-!
# Characters that spell polynomials

`Spells rest level chars q` says that the characters, where an operand is due and `rest` follows,
are scanned as an expression of a level whose value is `q`. Numbers, the variable, the sign and the
operators each have a lemma, so the text of an expression is read piece by piece. What follows
matters only to where a number or a word ends.
-/

namespace SignalCalc

open Double

/-! ## One token -/

section Tokens

variable {names : List String} {mode : Mode} {position : Nat} {expects : Bool} {c : Char}
  {cs : List Char}

/-- A token other than a parenthesis goes before the tokens of the rest. -/
theorem scanFrom_token {kind : TokenKind Float} {more : Nat}
    (hl : lexeme names mode position expects c cs = .ok (.token kind more))
    (hd : depthAfter kind 0 = .ok 0) (hs : kind.startsOperand = true → expects = true) :
    ∃ text position',
      scanFrom names mode position 0 expects (c :: cs) =
        (scanFrom names mode position' 0 (!kind.endsOperand) (cs.drop more)).map
          ([⟨kind, text, position⟩] ++ ·) := by
  let text := String.ofList (c :: cs.take more)
  refine ⟨text, position + text.utf8ByteSize, ?_⟩
  have hb : (kind.startsOperand && !expects) = false := by
    cases hk : kind.startsOperand with
    | false => rfl
    | true => rw [hs hk]; rfl
  rw [scanFrom, hl, ok_bind]
  simp only [hd, hb, ok_bind]
  cases scanFrom names mode _ 0 (!kind.endsOperand) (cs.drop more) <;> rfl

/-- The sign of an operator is nothing else. -/
theorem lexeme_symbol (o : Operator) :
    (lexeme names mode position expects o.symbol cs : Except (Error Float) (Lexeme Float)) =
      operatorLexeme expects o := by
  cases o <;> rfl

/-- A digit is no blank. -/
theorem isBlank_of_isDigit {c : Char} (h : isDigit c = true) : Text.isBlank c = false := by
  cases hb : Text.isBlank c with
  | false => rfl
  | true =>
    simp only [Text.isBlank, Bool.or_eq_true, beq_iff_eq] at hb
    rcases hb with (((rfl | rfl) | rfl) | rfl) | rfl <;> exact absurd h (by decide)

/-- A number is scanned up to what does not go on with it. -/
theorem lexeme_literal {l : Literal} (h : l.IsPlain) {rest : List Char} (hr : EndsNumber rest)
    (hc : c :: cs = l.chars ++ rest) :
    lexeme names mode position expects c cs =
      .ok (.token (.number (l.value : Float)) (l.chars.length - 1)) := by
  have hd : isDigit c = true := by
    obtain ⟨w, ws, hw⟩ := List.exists_cons_of_ne_nil h.whole_ne_nil
    simp only [Literal.chars, hw, List.cons_append, List.cons.injEq] at hc
    rw [hc.1]
    exact h.whole w (by rw [hw]; exact List.mem_cons_self)
  have he : l.isComplete = true := by rw [Literal.isComplete, h.exponent]; rfl
  have hl : Literal.read (c :: cs) = l := by rw [hc, l.read_append h hr]
  simp [lexeme, isBlank_of_isDigit hd, hd, hl, he]

/-- The letter of the variable, no word going on with it, is the variable in any case. -/
theorem lexeme_variable (hc : cs.takeWhile isWordChar = []) :
    lexeme names .symbolic position expects 's' cs =
      .ok (.token (.laplace : TokenKind Float) 0) := by
  have hw (rest : List Char) : wordLexeme names .symbolic ['s'] rest =
      (.ok .laplace : Except (Error Float) (TokenKind Float)) := by
    have ho : Builtin.ofName? (String.ofList (['s'].map Char.toLower)) = none := by decide
    simp only [wordLexeme, ho]
    exact if_pos ⟨trivial, by decide⟩
  simp only [lexeme, hc, hw]
  rfl

end Tokens

/-! ## Spelling -/

/-- Texts that go on with an operator, or end. -/
def EndsOperand (rest : List Char) : Prop :=
  ∀ c, rest.head? = some c → c ∈ ['+', '-', '*', '^']

/-- An operator does not go on a number. -/
theorem EndsOperand.endsNumber {rest : List Char} (h : EndsOperand rest) : EndsNumber rest := by
  intro c hc
  have hm := h c hc
  simp only [List.mem_cons, List.not_mem_nil, or_false] at hm
  rcases hm with rfl | rfl | rfl | rfl <;> decide

/-- An operator does not go on a word. -/
theorem EndsOperand.takeWhile_isWordChar {rest : List Char} (h : EndsOperand rest) :
    rest.takeWhile isWordChar = [] := by
  cases rest with
  | nil => rfl
  | cons c rest =>
    have hm := h c rfl
    simp only [List.mem_cons, List.not_mem_nil, or_false] at hm
    rw [List.takeWhile_cons_of_neg]
    rcases hm with rfl | rfl | rfl | rfl <;> decide

/-- Where an operand is due and the rest follows, the characters are scanned as an expression of a
level with a value. -/
def Spells (rest : List Char) (level : Level) (chars : List Char) (q : Poly Float) : Prop :=
  ∀ (names : List String) (position : Nat), ∃ tokens tree position',
    scanFrom names .symbolic position 0 true (chars ++ rest) =
        (scanFrom names .symbolic position' 0 false rest).map (tokens ++ ·) ∧
      Derives level tokens tree ∧ tree.evaluate Interpretation.symbolic = .ok q

variable {rest chars chars' : List Char} {level : Level} {q q' : Poly Float}

/-- The characters of a plain literal spell the constant. -/
theorem Spells.number {l : Literal} (h : l.IsPlain) (hr : EndsNumber rest) :
    Spells rest .primary l.chars (Poly.const l.value) := by
  intro names position
  obtain ⟨c, cs, hc⟩ := List.exists_cons_of_ne_nil h.chars_ne_nil
  have hl : lexeme names .symbolic position true c (cs ++ rest) =
      .ok (.token (.number (l.value : Float)) (l.chars.length - 1)) :=
    lexeme_literal h hr (by rw [hc]; rfl)
  obtain ⟨text, position', h₁⟩ := scanFrom_token hl rfl fun _ => rfl
  refine ⟨_, _, position', ?_, .number l.value text position, rfl⟩
  rw [hc, List.cons_append, h₁, hc]
  simp [TokenKind.endsOperand]

/-- The letter `s` spells the variable. -/
theorem Spells.laplace (hr : EndsOperand rest) : Spells rest .primary ['s'] Poly.s := by
  intro names position
  have hl : lexeme names .symbolic position true 's' rest =
      .ok (.token (.laplace : TokenKind Float) 0) :=
    lexeme_variable hr.takeWhile_isWordChar
  obtain ⟨text, position', h₁⟩ := scanFrom_token hl rfl fun _ => rfl
  exact ⟨_, _, position', h₁, .laplace text position, rfl⟩

/-- An expression of a level is one of every looser level. -/
theorem Spells.imp {level' : Level}
    (hd : ∀ {tokens : List (Token Float)} {tree : Tree Float},
      Derives level tokens tree → Derives level' tokens tree)
    (h : Spells rest level chars q) : Spells rest level' chars q := by
  intro names position
  obtain ⟨tokens, tree, position', hs, ht, hv⟩ := h names position
  exact ⟨tokens, tree, position', hs, hd ht, hv⟩

/-- A minus sign in front spells the polynomial with its sign changed. -/
theorem Spells.negate (h : Spells rest .signed chars q) :
    Spells rest .signed ('-' :: chars) (-q) := by
  intro names position
  have hl : lexeme names .symbolic position true '-' (chars ++ rest) =
      .ok (.token (.negate : TokenKind Float) 0) :=
    lexeme_symbol .subtract
  obtain ⟨text, position₁, h₁⟩ := scanFrom_token hl rfl nofun
  obtain ⟨tokens, tree, position₂, h₂, ht, hv⟩ := h names position₁
  refine ⟨_, _, position₂, ?_, .negate text position ht, ?_⟩
  · rw [List.cons_append, h₁]
    show Except.map _ (scanFrom names .symbolic position₁ 0 true (chars ++ rest)) = _
    rw [h₂, map_append_append]
    rfl
  · rw [Tree.evaluate, hv]
    rfl

/-- Operands on both sides of an operator. -/
theorem Spells.binary {o : Operator} {l r level : Level} {p : Poly Float}
    (hd : ∀ {left right : List (Token Float)} {a b : Tree Float} (text : String) (position : Nat),
      Derives l left a → Derives r right b →
      Derives level (left ++ ⟨.operator o, text, position⟩ :: right) (.binary o text position a b))
    (h : Spells (o.symbol :: (chars' ++ rest)) l chars q) (h' : Spells rest r chars' q')
    (hp : Poly.binary o q q' = .ok p) : Spells rest level (chars ++ o.symbol :: chars') p := by
  intro names position
  obtain ⟨left, a, position₁, h₁, ha, hva⟩ := h names position
  have hl : lexeme names .symbolic position₁ false o.symbol (chars' ++ rest) =
      .ok (.token (.operator o : TokenKind Float) 0) :=
    lexeme_symbol o
  obtain ⟨text, position₂, h₂⟩ := scanFrom_token hl rfl nofun
  obtain ⟨right, b, position₃, h₃, hb, hvb⟩ := h' names position₂
  refine ⟨_, _, position₃, ?_, hd text position₁ ha hb, ?_⟩
  · rw [List.append_assoc, List.cons_append, h₁, h₂]
    show Except.map _ (Except.map _
      (scanFrom names .symbolic position₂ 0 true (chars' ++ rest))) = _
    rw [h₃, map_append_append, map_append_append]
    simp
  · rw [Tree.evaluate, hva, ok_bind, hvb]
    exact hp

/-- What spells a sum, nothing following it, is solved for the value. -/
theorem Spells.solvePoly_eq {text : String} (h : Spells [] .sum text.toList q)
    (names : List String) : solvePoly names text = .ok q := by
  obtain ⟨tokens, tree, position', hs, ht, hv⟩ := h names 0
  have hn : tokens.isEmpty = false := by
    have hm := (Drafts.of_derives ht).mem_code_iff tree.root
    rw [tree.postorder_eq] at hm
    have hr : tree.root ∈ tokens := (hm.1 (by simp)).1
    cases tokens with
    | nil => cases hr
    | cons t tokens => rfl
  have hscan : scan names .symbolic text = .ok tokens := by
    rw [List.append_nil] at hs
    have he : scanFrom names .symbolic position' 0 false [] =
        (.ok [] : Except (Error Float) (List (Token Float))) := by
      rw [scanFrom]
      rfl
    rw [scan, hs, he, map_ok, ok_bind, List.append_nil, hn]
    rfl
  rw [solvePoly, hscan, ok_bind, ht.evaluate]
  exact hv

end SignalCalc
