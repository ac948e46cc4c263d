import SignalCalc.Proofs.Expression.Evaluation
import SignalCalc.Proofs.Expression.Reading

/-!
# Which scanned tokens have a value

The scanner lets some tokens through that are no expression, such as those of `()` or of `(2+)*3`.
If a function stands before no group the conversion refuses them (`Arranged.converts`). If not, they
are a draft, and running its code leaves one value less for every hole (`Drafts.length_of_run`), so
that no hole can be made up for elsewhere.

Main statement: `scanned_value_iff_expression`.
-/

namespace SignalCalc

variable {α : Type}

/-! ## Open groups -/

/-- The count of groups that are open on the stack. -/
def openGroups (stack : List (Token α)) : Nat := stack.countP fun t => startsGroup [t]

/-- What is not an open parenthesis opens no group. -/
theorem openGroups_cons {t : Token α} (h : t.kind ≠ .openParen) (stack : List (Token α)) :
    openGroups (t :: stack) = openGroups stack := by
  simp [openGroups, startsGroup_eq_false h]

/-- An open parenthesis opens a group. -/
theorem openGroups_cons_openParen {t : Token α} (h : t.kind = .openParen)
    (stack : List (Token α)) : openGroups (t :: stack) = openGroups stack + 1 := by
  simp [openGroups, startsGroup_iff.2 h]

/-- A stack without open groups has no open parenthesis in it. -/
theorem openGroups_eq_zero {stack : List (Token α)} (h : openGroups stack = 0) :
    ∀ t ∈ stack, t.kind ≠ .openParen := by
  intro t ht hk
  exact List.countP_eq_zero.1 h t ht (startsGroup_iff.2 hk)

/-- Closing a group takes its parenthesis off the stack. -/
theorem popGroup_of_openGroups {stack : List (Token α)} {depth : Nat}
    (h : openGroups stack = depth + 1) :
    ∃ inner outer, popGroup stack = some (inner, outer) ∧ openGroups outer = depth := by
  induction stack with
  | nil => simp [openGroups] at h
  | cons t stack ih =>
    by_cases ht : t.kind = .openParen
    · rw [openGroups_cons_openParen ht] at h
      exact ⟨[], stack, popGroup_openParen ht stack, by omega⟩
    · rw [openGroups_cons ht] at h
      obtain ⟨inner, outer, hp, ho⟩ := ih h
      refine ⟨t :: inner, outer, ?_, ho⟩
      rw [← List.singleton_append, popGroup_append (by simpa using ht), hp]
      rfl

/-- Taking the function of a group from the stack leaves its open groups. -/
theorem openGroups_popFunction (stack : List (Token α)) :
    openGroups (popFunction stack).2 = openGroups stack := by
  cases stack with
  | nil => rfl
  | cons t stack =>
    rw [popFunction]
    split
    · next f hk => exact (openGroups_cons (by simp [hk]) stack).symm
    · rfl

/-- What an operator makes go is no parenthesis. -/
theorem openGroups_dropWhile (o : Operator) (stack : List (Token α)) :
    openGroups (stack.dropWhile (Token.yieldsTo o)) = openGroups stack := by
  induction stack with
  | nil => rfl
  | cons t stack ih =>
    rw [List.dropWhile_cons]
    split
    · next hy =>
      rw [ih, openGroups_cons]
      intro hk
      simp [Token.yieldsTo, hk] at hy
    · rfl

section Convert

variable [Zero α] [BEq α]

/-- The conversion ends well, or at a function without a group. -/
def Converts (stack tokens : List (Token α)) : Prop :=
  (∃ text, postfixFrom stack tokens = .error (.missingArgument text)) ∨
    (∃ code, postfixFrom stack tokens = .ok code) ∧ Applied tokens

/-- A token that is no function, and after which the conversion goes on with another stack. -/
theorem Converts.step {t : Token α} {ts stack stack' : List (Token α)}
    {f : List (Token α) → List (Token α)} (ht : ∀ b, t.kind ≠ .builtin b)
    (h : postfixFrom stack (t :: ts) = (postfixFrom stack' ts).map f) (hc : Converts stack' ts) :
    Converts stack (t :: ts) := by
  rcases hc with ⟨text, he⟩ | ⟨⟨code, ho⟩, ha⟩
  · exact .inl ⟨text, by rw [h, he]; rfl⟩
  · exact .inr ⟨⟨f code, by rw [h, ho]; rfl⟩, fun b hb => absurd hb (ht b), ha⟩

/-- Parentheses balance in arranged tokens, so the conversion can only miss the group of a function.
-/
theorem Arranged.converts {depth : Nat} {due : Bool} {tokens : List (Token α)}
    (h : Arranged depth due tokens) :
    ∀ stack, openGroups stack = depth → Converts stack tokens := by
  induction h with
  | nil =>
    intro stack hd
    exact .inr ⟨⟨stack, postfixFrom_nil (openGroups_eq_zero hd)⟩, trivial⟩
  | operand ht _ ih =>
    intro stack hd
    refine .step ?_ (postfixFrom_operand ht) (ih stack hd)
    intro b hb
    rw [hb] at ht
    exact ht
  | @builtin depth t ts f ht _ ih =>
    intro stack hd
    -- A function without a group behind it is the only place where the conversion stops.
    cases hs : startsGroup ts with
    | false => exact .inl ⟨t.text, by simp [postfixFrom, ht, hs]⟩
    | true =>
      have hc := ih (t :: stack) (by rw [openGroups_cons (by simp [ht]), hd])
      rw [Converts, ← postfixFrom_builtin ht hs] at hc
      rcases hc with he | ⟨hok, ha⟩
      · exact .inl he
      · exact .inr ⟨hok, fun _ _ => hs, ha⟩
  | @negate depth t ts ht _ ih =>
    intro stack hd
    refine .step (f := id) (by simp [ht]) ?_
      (ih (t :: stack) (by rw [openGroups_cons (by simp [ht]), hd]))
    rw [postfixFrom_negate ht]
    cases postfixFrom (t :: stack) ts <;> rfl
  | @operator depth t ts o ht _ ih =>
    intro stack hd
    refine .step (by simp [ht]) (postfixFrom_operator ht) (ih _ ?_)
    rw [openGroups_cons (by simp [ht]), openGroups_dropWhile, hd]
  | @openParen depth t ts ht _ ih =>
    intro stack hd
    refine .step (f := id) (by simp [ht]) ?_
      (ih (t :: stack) (by rw [openGroups_cons_openParen ht, hd]))
    rw [postfixFrom_openParen ht]
    cases postfixFrom (t :: stack) ts <;> rfl
  | closeParen ht _ ih =>
    intro stack hd
    obtain ⟨inner, outer, hp, ho⟩ := popGroup_of_openGroups hd
    refine .step (by simp [ht]) (postfixFrom_closeParen ht hp) (ih _ ?_)
    rw [openGroups_popFunction, ho]

end Convert

/-! ## Counting values -/

section Count

variable {V : Type} [Zero α] [BEq α]

/-- The count of values on the stack after one token. A step that ends well had its operands. -/
theorem Interpretation.length_of_step (m : Interpretation α V) {t : Token α} {stack stack' : List V}
    (h : m.step stack t = .ok stack') :
    (t.kind.IsOperand → stack'.length = stack.length + 1) ∧
      ((t.kind = .negate ∨ ∃ f, t.kind = .builtin f) → stack'.length = stack.length) ∧
      ∀ o, t.kind = .operator o → stack'.length + 1 = stack.length := by
  obtain ⟨kind, text, position⟩ := t
  cases kind with
  | number v => cases h; simp [TokenKind.IsOperand]
  | dataset i =>
    obtain ⟨v, -, hr⟩ := bind_eq_ok_iff.1 h
    cases hr
    simp [TokenKind.IsOperand]
  | laplace =>
    obtain ⟨v, -, hr⟩ := bind_eq_ok_iff.1 h
    cases hr
    simp [TokenKind.IsOperand]
  | negate | builtin f =>
    cases stack with
    | nil => cases h
    | cons v stack =>
      obtain ⟨w, -, hr⟩ := bind_eq_ok_iff.1 h
      cases hr
      simp [TokenKind.IsOperand]
  | operator o =>
    rcases stack with - | ⟨b, - | ⟨a, stack⟩⟩
    · cases h
    · cases h
    · obtain ⟨v, -, hr⟩ := bind_eq_ok_iff.1 h
      cases hr
      simp [TokenKind.IsOperand]
  | openParen | closeParen => cases stack <;> cases h

/-- A hole is one value less on the stack at the end, wherever in the draft it is. -/
theorem Drafts.length_of_run {level : Level} {tokens code : List (Token α)} {holes : Nat}
    (h : Drafts level tokens code holes) (m : Interpretation α V) :
    ∀ {stack stack' : List V}, code.foldlM m.step stack = .ok stack' →
      stack'.length + holes = stack.length + 1 := by
  induction h with
  | hole =>
    intro stack stack' hr
    cases hr
    rfl
  | operand ht =>
    intro stack stack' hr
    rw [List.foldlM_cons] at hr
    obtain ⟨s, hs, hr⟩ := bind_eq_ok_iff.1 hr
    cases hr
    exact (m.length_of_step hs).1 ht
  | group _ _ _ ih | ofPrimary _ ih | ofSigned _ ih | ofPower _ ih | ofProduct _ ih => exact ih
  | call ht _ _ _ ih =>
    intro stack stack' hr
    rw [List.foldlM_append] at hr
    obtain ⟨s, hs, hr⟩ := bind_eq_ok_iff.1 hr
    obtain ⟨s', hs', hr⟩ := bind_eq_ok_iff.1 hr
    cases hr
    have := ih hs
    have := (m.length_of_step hs').2.1 (.inr ⟨_, ht⟩)
    omega
  | negate ht _ ih =>
    intro stack stack' hr
    rw [List.foldlM_append] at hr
    obtain ⟨s, hs, hr⟩ := bind_eq_ok_iff.1 hr
    obtain ⟨s', hs', hr⟩ := bind_eq_ok_iff.1 hr
    cases hr
    have := ih hs
    have := (m.length_of_step hs').2.1 (.inl ht)
    omega
  | power ht _ _ _ ihl ihr | product ht _ _ _ ihl ihr | sum ht _ _ _ ihl ihr =>
    intro stack stack' hr
    -- The left operand runs first, the right one on top of its value, and then the operator.
    rw [List.foldlM_append, List.foldlM_append] at hr
    obtain ⟨s, hs, hr⟩ := bind_eq_ok_iff.1 hr
    obtain ⟨s₁, hs₁, hs⟩ := bind_eq_ok_iff.1 hs
    obtain ⟨s', hs', hr⟩ := bind_eq_ok_iff.1 hr
    cases hr
    have := ihl hs₁
    have := ihr hs
    have := (m.length_of_step hs').2.2 _ ht
    omega

/-- Tokens of a draft that have a value have no hole. -/
theorem Drafts.holes_eq_zero {tokens code : List (Token α)} {holes : Nat}
    (h : Drafts .sum tokens code holes) {m : Interpretation α V} {v : V}
    (hv : m.evaluate tokens = .ok v) : holes = 0 := by
  rw [Interpretation.evaluate, h.toPostfix, ok_bind] at hv
  obtain ⟨stack, hs, hr⟩ := bind_eq_ok_iff.1 hv
  have hl := h.length_of_run m hs
  rcases stack with - | ⟨w, - | ⟨w', stack⟩⟩
  · cases hr
  · simpa using hl
  · simp only [List.length_cons, List.length_nil] at hl
    omega

end Count

/-! ## Meanings that never fail -/

section Errors

variable {V : Type} [Zero α] [BEq α]

/-- Every operation gives a value. -/
structure Interpretation.NeverFails (m : Interpretation α V) : Prop where
  dataset (i : Nat) (text : String) : ∃ v, m.dataset i text = .ok v
  laplace (text : String) : ∃ v, m.laplace text = .ok v
  negate (v : V) : ∃ w, m.negate v = .ok w
  binary (o : Operator) (a b : V) : ∃ v, m.binary o a b = .ok v
  builtin (f : Builtin) (text : String) (v : V) : ∃ w, m.builtin f text v = .ok w

/-- Something is missing from the expression. -/
def IsMissing (e : Error α) : Prop :=
  (∃ text, e = .missingOperand text) ∨ ∃ text, e = .missingArgument text

variable {m : Interpretation α V}

/-- A step that fails although no operation does finds too few values. -/
theorem Interpretation.NeverFails.error_of_step (hm : m.NeverFails) {t : Token α} {stack : List V}
    {e : Error α} (ht : t.kind ≠ .openParen ∧ t.kind ≠ .closeParen)
    (h : m.step stack t = .error e) : IsMissing e := by
  obtain ⟨kind, text, position⟩ := t
  cases kind with
  | number v => cases h
  | dataset i =>
    obtain ⟨v, hv⟩ := hm.dataset i text
    simp only [step, hv] at h
    cases h
  | laplace =>
    obtain ⟨v, hv⟩ := hm.laplace text
    simp only [step, hv] at h
    cases h
  | negate =>
    cases stack with
    | nil => cases h; exact .inl ⟨_, rfl⟩
    | cons v stack =>
      obtain ⟨w, hw⟩ := hm.negate v
      simp only [step, hw] at h
      cases h
  | builtin f =>
    cases stack with
    | nil => cases h; exact .inr ⟨_, rfl⟩
    | cons v stack =>
      obtain ⟨w, hw⟩ := hm.builtin f text v
      simp only [step, hw] at h
      cases h
  | operator o =>
    rcases stack with - | ⟨b, - | ⟨a, stack⟩⟩
    · cases h
      exact .inl ⟨_, rfl⟩
    · cases h
      exact .inl ⟨_, rfl⟩
    · obtain ⟨v, hv⟩ := hm.binary o a b
      simp only [step, hv] at h
      cases h
  | openParen => exact absurd rfl ht.1
  | closeParen => exact absurd rfl ht.2

/-- If nothing else can fail, code without parentheses fails for a missing value only. -/
theorem Interpretation.NeverFails.error_of_foldlM (hm : m.NeverFails) {code : List (Token α)}
    (hc : ∀ t ∈ code, t.kind ≠ .openParen ∧ t.kind ≠ .closeParen) {stack : List V} {e : Error α}
    (h : code.foldlM m.step stack = .error e) : IsMissing e := by
  induction code generalizing stack with
  | nil => cases h
  | cons t code ih =>
    obtain ⟨ht, hc⟩ := List.forall_mem_cons.1 hc
    rw [List.foldlM_cons] at h
    rcases bind_eq_error_iff.1 h with h | ⟨s, -, h⟩
    · exact hm.error_of_step ht h
    · exact ih hc h

/-- A draft without a value lacks something: the stack is never too full. -/
theorem Interpretation.NeverFails.error_of_draft (hm : m.NeverFails)
    {tokens code : List (Token α)} {holes : Nat} (hd : Drafts .sum tokens code holes) {e : Error α}
    (h : m.evaluate tokens = .error e) : e = .emptyExpression ∨ IsMissing e := by
  rw [evaluate, hd.toPostfix, ok_bind] at h
  rcases bind_eq_error_iff.1 h with h | ⟨stack, hs, h⟩
  · exact .inr (hm.error_of_foldlM (fun t ht => ((hd.mem_code_iff t).1 ht).2) h)
  · have hl := hd.length_of_run m hs
    rcases stack with - | ⟨v, - | ⟨v', stack⟩⟩
    · cases h
      exact .inl rfl
    · cases h
    · simp only [List.length_cons, List.length_nil] at hl
      omega

/-- A tree has a value in a meaning that never fails. -/
theorem Interpretation.NeverFails.evaluate_tree (hm : m.NeverFails) (tree : Tree α) :
    ∃ v, tree.evaluate m = .ok v := by
  induction tree with
  | number value text position => exact ⟨_, rfl⟩
  | dataset index text position => exact hm.dataset index text
  | laplace text position => exact hm.laplace text
  | negate text position operand ih =>
    obtain ⟨v, hv⟩ := ih
    rw [Tree.evaluate, hv]
    exact hm.negate v
  | binary o text position left right ihl ihr =>
    obtain ⟨a, ha⟩ := ihl
    obtain ⟨b, hb⟩ := ihr
    rw [Tree.evaluate, ha, hb]
    exact hm.binary o a b
  | call f text position argument ih =>
    obtain ⟨v, hv⟩ := ih
    rw [Tree.evaluate, hv]
    exact hm.builtin f text v

end Errors

/-! ## Values and expressions -/

section Values

variable {V : Type} [Zero α] [BEq α]

/-- Arranged tokens are converted to the code of a draft, unless a function misses its group. -/
theorem Arranged.draft_or_missing {tokens : List (Token α)} (h : Arranged 0 true tokens) :
    (∃ code holes, Drafts .sum tokens code holes) ∨
      ∃ text, toPostfix tokens = .error (.missingArgument text) := by
  rcases h.converts [] rfl with he | ⟨-, ha⟩
  · exact .inr he
  · exact .inl (h.isDraft ha)

/-- Arranged tokens that have a value in any meaning are an expression. -/
theorem Arranged.derives_of_evaluate {tokens : List (Token α)} (h : Arranged 0 true tokens)
    {m : Interpretation α V} {v : V} (hv : m.evaluate tokens = .ok v) :
    ∃ tree, Derives .sum tokens tree := by
  rcases h.draft_or_missing with ⟨code, holes, hd⟩ | ⟨text, he⟩
  · obtain ⟨tree, ht, -⟩ := hd.derives (hd.holes_eq_zero hv)
    exact ⟨tree, ht⟩
  · rw [Interpretation.evaluate, he] at hv
    cases hv

/-- **Exactly the expressions have values.** Let the scanner accept a text, and let no operation
fail. The tokens have a value if and only if they are an expression; if they are none, an operand or
an argument is missing or there is nothing at all. The conversion never finds unbalanced parentheses
and puts none out, and no run, failing operations allowed, leaves more than one value. -/
theorem scanned_value_iff_expression [OfScientific α] {names : List String} {mode : Mode}
    {expression : String} {tokens : List (Token α)}
    (h : scan names mode expression = .ok tokens) {m : Interpretation α V} (hm : m.NeverFails) :
    ((∃ v, m.evaluate tokens = .ok v) ↔ ∃ tree, Derives .sum tokens tree) ∧
      (∀ e, m.evaluate tokens = .error e →
        e = .emptyExpression ∨ (∃ text, e = .missingOperand text) ∨
          ∃ text, e = .missingArgument text) ∧
      toPostfix tokens ≠ .error .unbalancedParentheses ∧
      ∀ code, toPostfix tokens = .ok code →
        (∀ t ∈ code, t.kind ≠ .openParen ∧ t.kind ≠ .closeParen) ∧
        ∀ {W : Type} (n : Interpretation α W) (stack : List W),
          code.foldlM n.step [] = .ok stack → stack.length ≤ 1 := by
  have ha := arranged_of_scan h
  refine ⟨⟨?_, ?_⟩, ?_⟩
  · rintro ⟨v, hv⟩
    exact ha.derives_of_evaluate hv
  · rintro ⟨tree, ht⟩
    rw [ht.evaluate m]
    exact hm.evaluate_tree tree
  rcases ha.draft_or_missing with ⟨code, holes, hd⟩ | ⟨text, he⟩
  · refine ⟨fun e he => hm.error_of_draft hd he, ?_, fun code' hc => ?_⟩
    · rw [hd.toPostfix]
      intro hu
      cases hu
    · rw [hd.toPostfix] at hc
      cases hc
      refine ⟨fun t ht => ((hd.mem_code_iff t).1 ht).2, fun n stack hs => ?_⟩
      have hl := hd.length_of_run n hs
      simp only [List.length_nil] at hl
      omega
  · refine ⟨fun e hv => ?_, ?_, fun code hc => ?_⟩
    · rw [Interpretation.evaluate, he] at hv
      cases hv
      exact .inr (.inr ⟨text, rfl⟩)
    · rw [he]
      intro hu
      cases hu
    · rw [he] at hc
      cases hc

/-- In `(s+)*s` the hole is not made up for by the operand at the end: the tokens pass the scanner,
but they are no expression, and the sum finds one value where it needs two. -/
theorem scanned_value_iff_expression_hole :
    let tokens : List (Token Float) :=
      [⟨.openParen, "(", 0⟩, ⟨.laplace, "s", 1⟩, ⟨.operator .add, "+", 2⟩, ⟨.closeParen, ")", 3⟩,
        ⟨.operator .multiply, "*", 4⟩, ⟨.laplace, "s", 5⟩]
    let m : Interpretation Float Unit :=
      { number _ := (), dataset _ _ := .ok (), laplace _ := .ok (), negate _ := .ok (),
        binary _ _ _ := .ok (), builtin _ _ _ := .ok () }
    scan [] .symbolic "(s+)*s" = .ok tokens ∧ m.NeverFails ∧
      m.evaluate tokens = .error (.missingOperand "+") ∧ ¬∃ tree, Derives .sum tokens tree := by
  intro tokens m
  have h : scan [] .symbolic "(s+)*s" = .ok tokens := by with_unfolding_all rfl
  have hm : m.NeverFails :=
    ⟨fun _ _ => ⟨(), rfl⟩, fun _ => ⟨(), rfl⟩, fun _ => ⟨(), rfl⟩, fun _ _ _ => ⟨(), rfl⟩,
      fun _ _ _ => ⟨(), rfl⟩⟩
  have he : m.evaluate tokens = .error (.missingOperand "+") := rfl
  refine ⟨h, hm, he, fun ht => ?_⟩
  obtain ⟨v, hv⟩ := (scanned_value_iff_expression h hm).1.2 ht
  rw [he] at hv
  cases hv

end Values

end SignalCalc
