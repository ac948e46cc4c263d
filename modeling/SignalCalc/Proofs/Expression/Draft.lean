import SignalCalc.Expression.Grammar

/-!
# Drafts: expressions in which operands may be missing

`Drafts level tokens code holes` is the grammar of expressions with one rule more: nothing at all
may stand where a primary is due, and is counted as a hole. It lists the postfix code beside the
tokens, so what the conversion does is stated once, for expressions and for what the scanner lets
through.

Main statements: `Drafts.of_derives` and `Drafts.derives` say that the drafts without holes are the
expressions, and `Tree.eq_of_postorder` says that a tree is determined by its postfix code.
-/

namespace SignalCalc

variable {α : Type}

/-- Whether a token is an operand on its own. -/
def TokenKind.IsOperand : TokenKind α → Prop
  | .number _ | .dataset _ | .laplace => True
  | .operator _ | .negate | .builtin _ | .openParen | .closeParen => False

/-- The tokens are a draft of a level, with postfix code and with a count of missing operands. -/
inductive Drafts : Level → List (Token α) → List (Token α) → Nat → Prop where
  /-- A missing operand leaves no trace in the code. -/
  | hole : Drafts .primary [] [] 1
  | operand {t : Token α} : t.kind.IsOperand → Drafts .primary [t] [t] 0
  | group {tokens code : List (Token α)} {holes : Nat} {opening closing : Token α} :
      opening.kind = .openParen → closing.kind = .closeParen → Drafts .sum tokens code holes →
      Drafts .primary (opening :: tokens ++ [closing]) code holes
  | call {tokens code : List (Token α)} {holes : Nat} {function opening closing : Token α}
      {f : Builtin} :
      function.kind = .builtin f → opening.kind = .openParen → closing.kind = .closeParen →
      Drafts .sum tokens code holes →
      Drafts .primary (function :: opening :: tokens ++ [closing]) (code ++ [function]) holes
  | ofPrimary {tokens code : List (Token α)} {holes : Nat} :
      Drafts .primary tokens code holes → Drafts .signed tokens code holes
  | negate {tokens code : List (Token α)} {holes : Nat} {minus : Token α} :
      minus.kind = .negate → Drafts .signed tokens code holes →
      Drafts .signed (minus :: tokens) (code ++ [minus]) holes
  | ofSigned {tokens code : List (Token α)} {holes : Nat} :
      Drafts .signed tokens code holes → Drafts .power tokens code holes
  | power {left right c d : List (Token α)} {n k : Nat} {sign : Token α} {o : Operator} :
      sign.kind = .operator o → o.level = .power → Drafts .signed left c n →
      Drafts .power right d k → Drafts .power (left ++ sign :: right) (c ++ d ++ [sign]) (n + k)
  | ofPower {tokens code : List (Token α)} {holes : Nat} :
      Drafts .power tokens code holes → Drafts .product tokens code holes
  | product {left right c d : List (Token α)} {n k : Nat} {sign : Token α} {o : Operator} :
      sign.kind = .operator o → o.level = .product → Drafts .product left c n →
      Drafts .power right d k → Drafts .product (left ++ sign :: right) (c ++ d ++ [sign]) (n + k)
  | ofProduct {tokens code : List (Token α)} {holes : Nat} :
      Drafts .product tokens code holes → Drafts .sum tokens code holes
  | sum {left right c d : List (Token α)} {n k : Nat} {sign : Token α} {o : Operator} :
      sign.kind = .operator o → o.level = .sum → Drafts .sum left c n →
      Drafts .product right d k → Drafts .sum (left ++ sign :: right) (c ++ d ++ [sign]) (n + k)

/-! ## Drafts without holes -/

/-- An expression is a draft without holes, and its code is the postorder of its tree. -/
theorem Drafts.of_derives {level : Level} {tokens : List (Token α)} {tree : Tree α}
    (h : Derives level tokens tree) : Drafts level tokens tree.postorder 0 := by
  induction h with
  | number | dataset | laplace => exact .operand trivial
  | group ho hc _ ih => exact .group ho hc ih
  | call f text position ho hc _ ih => exact .call rfl ho hc ih
  | ofPrimary _ ih => exact .ofPrimary ih
  | negate text position _ ih => exact .negate rfl ih
  | ofSigned _ ih => exact .ofSigned ih
  | power text position ho _ _ ihl ihr => exact .power rfl ho ihl ihr
  | ofPower _ ih => exact .ofPower ih
  | product text position ho _ _ ihl ihr => exact .product rfl ho ihl ihr
  | ofProduct _ ih => exact .ofProduct ih
  | sum text position ho _ _ ihl ihr => exact .sum rfl ho ihl ihr

/-- An operand is an expression, whose tree is a leaf. -/
theorem Derives.of_isOperand {t : Token α} (h : t.kind.IsOperand) :
    ∃ tree, Derives .primary [t] tree ∧ tree.postorder = [t] := by
  obtain ⟨kind, text, position⟩ := t
  cases kind with
  | number v => exact ⟨_, .number v text position, rfl⟩
  | dataset i => exact ⟨_, .dataset i text position, rfl⟩
  | laplace => exact ⟨_, .laplace text position, rfl⟩
  | operator | negate | builtin | openParen | closeParen => exact h.elim

/-- A draft without holes is an expression: the sum of the holes of its parts is zero, so no part
has one. -/
theorem Drafts.derives {level : Level} {tokens code : List (Token α)} {holes : Nat}
    (h : Drafts level tokens code holes) (h₀ : holes = 0) :
    ∃ tree, Derives level tokens tree ∧ tree.postorder = code := by
  induction h with
  | hole => cases h₀
  | operand ht => exact Derives.of_isOperand ht
  | group ho hc _ ih =>
    obtain ⟨tree, hd, rfl⟩ := ih h₀
    exact ⟨tree, .group ho hc hd, rfl⟩
  | @call _ _ _ function _ _ f hf ho hc _ ih =>
    obtain ⟨tree, hd, rfl⟩ := ih h₀
    obtain ⟨_, text, position⟩ := function
    cases hf
    exact ⟨_, .call f text position ho hc hd, rfl⟩
  | @negate _ _ _ minus hm _ ih =>
    obtain ⟨tree, hd, rfl⟩ := ih h₀
    obtain ⟨_, text, position⟩ := minus
    cases hm
    exact ⟨_, .negate text position hd, rfl⟩
  | ofPrimary _ ih =>
    obtain ⟨tree, hd, rfl⟩ := ih h₀
    exact ⟨tree, .ofPrimary hd, rfl⟩
  | ofSigned _ ih =>
    obtain ⟨tree, hd, rfl⟩ := ih h₀
    exact ⟨tree, .ofSigned hd, rfl⟩
  | ofPower _ ih =>
    obtain ⟨tree, hd, rfl⟩ := ih h₀
    exact ⟨tree, .ofPower hd, rfl⟩
  | ofProduct _ ih =>
    obtain ⟨tree, hd, rfl⟩ := ih h₀
    exact ⟨tree, .ofProduct hd, rfl⟩
  | @power _ _ _ _ _ _ sign o hs ho _ _ ihl ihr =>
    obtain ⟨l, hl, rfl⟩ := ihl (by omega)
    obtain ⟨r, hr, rfl⟩ := ihr (by omega)
    obtain ⟨_, text, position⟩ := sign
    cases hs
    exact ⟨_, .power text position ho hl hr, rfl⟩
  | @product _ _ _ _ _ _ sign o hs ho _ _ ihl ihr =>
    obtain ⟨l, hl, rfl⟩ := ihl (by omega)
    obtain ⟨r, hr, rfl⟩ := ihr (by omega)
    obtain ⟨_, text, position⟩ := sign
    cases hs
    exact ⟨_, .product text position ho hl hr, rfl⟩
  | @sum _ _ _ _ _ _ sign o hs ho _ _ ihl ihr =>
    obtain ⟨l, hl, rfl⟩ := ihl (by omega)
    obtain ⟨r, hr, rfl⟩ := ihr (by omega)
    obtain ⟨_, text, position⟩ := sign
    cases hs
    exact ⟨_, .sum text position ho hl hr, rfl⟩

/-! ## Code -/

/-- The tokens of the code are tokens of the draft other than parentheses. -/
theorem Drafts.mem_code_iff {level : Level} {tokens code : List (Token α)} {holes : Nat}
    (h : Drafts level tokens code holes) (t : Token α) :
    t ∈ code ↔ t ∈ tokens ∧ t.kind ≠ .openParen ∧ t.kind ≠ .closeParen := by
  induction h with
  | hole => simp
  | operand ht =>
    simp only [List.mem_singleton, iff_self_and]
    rintro rfl
    constructor <;> intro he <;> rw [he] at ht <;> exact ht
  | group ho hc _ ih => grind
  | call hf ho hc _ ih => grind
  | negate hm _ ih => grind
  | ofPrimary _ ih | ofSigned _ ih | ofPower _ ih | ofProduct _ ih => exact ih
  | power hs _ _ _ ihl ihr | product hs _ _ _ ihl ihr | sum hs _ _ _ ihl ihr => grind

/-! ## Trees -/

namespace Tree

/-- The token at the root. -/
def root : Tree α → Token α
  | number value text position => ⟨.number value, text, position⟩
  | dataset index text position => ⟨.dataset index, text, position⟩
  | laplace text position => ⟨.laplace, text, position⟩
  | negate text position _ => ⟨.negate, text, position⟩
  | binary o text position _ _ => ⟨.operator o, text, position⟩
  | call f text position _ => ⟨.builtin f, text, position⟩

/-- The code of what the root acts on. -/
def operandCode : Tree α → List (Token α)
  | number _ _ _ | dataset _ _ _ | laplace _ _ => []
  | negate _ _ operand => operand.postorder
  | binary _ _ _ left right => left.postorder ++ right.postorder
  | call _ _ _ argument => argument.postorder

/-- The code of a tree ends with its root. -/
theorem postorder_eq (tree : Tree α) : tree.postorder = tree.operandCode ++ [tree.root] := by
  cases tree <;> rfl

/-- What stands before the last token of a list with a tree at its end, and that token. -/
theorem split_root {tree tree' : Tree α} {before before' : List (Token α)}
    (h : before ++ tree.postorder = before' ++ tree'.postorder) :
    before ++ tree.operandCode = before' ++ tree'.operandCode ∧ tree.root = tree'.root := by
  rw [postorder_eq, postorder_eq, ← List.append_assoc, ← List.append_assoc] at h
  simpa using List.append_inj' h rfl

/-- Trees are read off the end of a list: the token at the end is the root, and before it stand the
operands, the right one last. -/
theorem eq_of_append_postorder {tree tree' : Tree α} {before before' : List (Token α)}
    (h : before ++ tree.postorder = before' ++ tree'.postorder) :
    before = before' ∧ tree = tree' := by
  induction tree generalizing tree' before before' with
  | number | dataset | laplace =>
    obtain ⟨hc, hr⟩ := split_root h
    cases tree' <;> cases hr
    exact ⟨by simpa [operandCode] using hc, rfl⟩
  | negate text position operand ih | call f text position operand ih =>
    obtain ⟨hc, hr⟩ := split_root h
    cases tree' <;> cases hr
    obtain ⟨hb, rfl⟩ := ih hc
    exact ⟨hb, rfl⟩
  | binary o text position left right ihl ihr =>
    obtain ⟨hc, hr⟩ := split_root h
    cases tree' <;> cases hr
    simp only [operandCode, ← List.append_assoc] at hc
    obtain ⟨hl, rfl⟩ := ihr hc
    obtain ⟨hb, rfl⟩ := ihl hl
    exact ⟨hb, rfl⟩

/-- A tree is determined by its code. -/
theorem eq_of_postorder {tree tree' : Tree α} (h : tree.postorder = tree'.postorder) :
    tree = tree' := by
  have h' : [] ++ tree.postorder = [] ++ tree'.postorder := h
  exact (eq_of_append_postorder h').2

end Tree

end SignalCalc
