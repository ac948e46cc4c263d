import SignalCalc.Expression.Scan
import SignalCalc.Proofs.Expression.Draft
import SignalCalc.Proofs.Outcome

/-!
# What the scanner lets through

`Arranged depth due tokens` is the order of tokens that the scanner checks, given the count of open
groups and whether an operand is due: operands and operators alternate, a minus sign or a function
stands where an operand is due, and parentheses balance. A parenthesis may be closed although an
operand is due. `arranged_of_scan` says that scanned tokens are arranged.
-/

namespace SignalCalc

variable {α : Type}

/-- The order of tokens that the scanner checks. -/
inductive Arranged : Nat → Bool → List (Token α) → Prop where
  | nil {due : Bool} : Arranged 0 due []
  | operand {depth : Nat} {t : Token α} {ts : List (Token α)} :
      t.kind.IsOperand → Arranged depth false ts → Arranged depth true (t :: ts)
  | builtin {depth : Nat} {t : Token α} {ts : List (Token α)} {f : Builtin} :
      t.kind = .builtin f → Arranged depth true ts → Arranged depth true (t :: ts)
  | negate {depth : Nat} {t : Token α} {ts : List (Token α)} :
      t.kind = .negate → Arranged depth true ts → Arranged depth true (t :: ts)
  | operator {depth : Nat} {t : Token α} {ts : List (Token α)} {o : Operator} :
      t.kind = .operator o → Arranged depth true ts → Arranged depth false (t :: ts)
  | openParen {depth : Nat} {t : Token α} {ts : List (Token α)} :
      t.kind = .openParen → Arranged (depth + 1) true ts → Arranged depth true (t :: ts)
  /-- The end of a group, with or without an operand before it. -/
  | closeParen {depth : Nat} {due : Bool} {t : Token α} {ts : List (Token α)} :
      t.kind = .closeParen → Arranged depth false ts → Arranged (depth + 1) due (t :: ts)

/-! ## The scanner -/

section Scan

variable [Zero α] [BEq α] {names : List String} {mode : Mode}

/-- A word is a function, the variable or a dataset. -/
theorem kind_of_wordLexeme {word rest : List Char} {kind : TokenKind α}
    (h : wordLexeme names mode word rest = .ok kind) :
    kind.IsOperand ∨ ∃ f, kind = .builtin f := by
  unfold wordLexeme at h
  dsimp only at h
  split at h
  · cases h; exact .inr ⟨_, rfl⟩
  · split at h
    · cases h; exact .inl trivial
    · split at h
      · cases h; exact .inl trivial
      · split at h <;> cases h

/-- A sign is an operator where one may stand, and a minus sign or nothing where an operand is due.
-/
theorem kind_of_operatorLexeme {due : Bool} {o : Operator} {kind : TokenKind α} {more : Nat}
    (h : operatorLexeme due o = .ok (.token kind more)) :
    (due = true ∧ kind = .negate) ∨ (due = false ∧ kind = .operator o) := by
  cases due with
  | false => cases h; exact .inr ⟨rfl, rfl⟩
  | true => cases o <;> cases h; exact .inl ⟨rfl, rfl⟩

/-- One token in front of arranged ones: what the scanner checks about it is what `Arranged` asks
for. -/
theorem Arranged.cons {t : Token α} {ts : List (Token α)} {depth depth' : Nat} {due : Bool}
    (hk : (t.kind = .negate → due = true) ∧ ∀ o, t.kind = .operator o → due = false)
    (hd : depthAfter t.kind depth = .ok depth')
    (hs : (t.kind.startsOperand && !due) = false) (h : Arranged depth' (!t.kind.endsOperand) ts) :
    Arranged depth due (t :: ts) := by
  obtain ⟨kind, text, position⟩ := t
  cases kind with
  | number | dataset | laplace =>
    cases hd
    obtain rfl : due = true := by simpa [TokenKind.startsOperand] using hs
    exact .operand trivial h
  | operator o =>
    cases hd
    obtain rfl := hk.2 o rfl
    exact .operator rfl h
  | negate =>
    cases hd
    obtain rfl := hk.1 rfl
    exact .negate rfl h
  | builtin f =>
    cases hd
    obtain rfl : due = true := by simpa [TokenKind.startsOperand] using hs
    exact .builtin rfl h
  | openParen =>
    cases hd
    obtain rfl : due = true := by simpa [TokenKind.startsOperand] using hs
    exact .openParen rfl h
  | closeParen =>
    cases depth <;> cases hd
    exact .closeParen rfl h

variable [OfScientific α]

/-- An operator is read only where an operand has ended, and a minus sign only where one is due. -/
theorem kind_of_lexeme {position : Nat} {due : Bool} {c : Char} {cs : List Char}
    {kind : TokenKind α} {more : Nat}
    (h : lexeme names mode position due c cs = .ok (.token kind more)) :
    (kind = .negate → due = true) ∧ ∀ o, kind = .operator o → due = false := by
  unfold lexeme at h
  split at h
  · cases h
  split at h
  · dsimp only at h
    split at h <;> cases h
    exact ⟨nofun, nofun⟩
  split at h
  · obtain ⟨k, hk, hr⟩ := bind_eq_ok_iff.1 h
    cases hr
    rcases kind_of_wordLexeme hk with hop | ⟨f, rfl⟩
    · constructor <;> intros <;> subst_vars <;> exact hop.elim
    · exact ⟨nofun, nofun⟩
  split at h
  · dsimp only at h
    split at h
    · cases h
    · obtain ⟨i, -, hr⟩ := bind_eq_ok_iff.1 h
      cases hr
      exact ⟨nofun, nofun⟩
  split at h
  · cases h; exact ⟨nofun, nofun⟩
  split at h
  · cases h; exact ⟨nofun, nofun⟩
  split at h
  · rcases kind_of_operatorLexeme h with ⟨rfl, rfl⟩ | ⟨rfl, rfl⟩
    · exact ⟨fun _ => rfl, nofun⟩
    · exact ⟨nofun, fun _ _ => rfl⟩
  · cases h

/-- Scanned tokens are arranged, by induction on the rest of the text. -/
theorem arranged_of_scanFrom {position depth : Nat} {due : Bool} {cs : List Char}
    {tokens : List (Token α)} (h : scanFrom names mode position depth due cs = .ok tokens) :
    Arranged depth due tokens := by
  induction hn : cs.length using Nat.strongRecOn generalizing cs position depth due tokens with
  | ind n ih =>
    subst hn
    cases cs with
    | nil =>
      rw [scanFrom] at h
      split at h <;> cases h
      next hd => subst hd; exact .nil
    | cons c cs =>
      rw [scanFrom] at h
      obtain ⟨l, hl, h⟩ := bind_eq_ok_iff.1 h
      cases l with
      | dropped => exact ih _ (by simp) h rfl
      | token kind more =>
        obtain ⟨depth', hd, h⟩ := bind_eq_ok_iff.1 h
        dsimp only at h
        split at h
        · cases h
        · next hs =>
          obtain ⟨ts, hts, h⟩ := bind_eq_ok_iff.1 h
          cases h
          refine Arranged.cons (kind_of_lexeme hl) hd (Bool.eq_false_iff.2 hs) ?_
          have hl : (cs.drop more).length < (c :: cs).length := by
            rw [List.length_drop, List.length_cons]
            omega
          exact ih _ hl hts rfl

/-- The tokens of an expression are arranged, with no group open at either end. -/
theorem arranged_of_scan {expression : String} {tokens : List (Token α)}
    (h : scan names mode expression = .ok tokens) : Arranged 0 true tokens := by
  obtain ⟨ts, hts, h⟩ := bind_eq_ok_iff.1 h
  split at h <;> cases h
  exact arranged_of_scanFrom hts

end Scan

end SignalCalc
