import SignalCalc.Proofs.Expression.Draft
import SignalCalc.Expression.Postfix

/-!
# The conversion to postfix order

The invariant of the conversion is about what is left waiting when a draft has been read: its code
is what has been put out, and then the waiting tokens (`Drafts.reads`). What waits gives way
to every operator that may follow the draft (`GivesWay`), and what waited before does not, so long
as the draft lasts (`Receives`).
-/

namespace SignalCalc

variable {α : Type}

/-! ## Binding -/

/-- The lowest precedence of the operators of a level and of those it is built from. -/
def Level.least : Level → Nat
  | .sum => 1
  | .product => 2
  | .power => 3
  | .signed | .primary => 4

/-- The highest precedence of an operator that takes an expression of a level as its left operand.
-/
def Level.leftOf : Level → Nat
  | .sum => 1
  | .product | .power => 2
  | .signed | .primary => 3

/-- The operators of a level have the lowest precedence of the level. -/
theorem Operator.precedence_of_level {o : Operator} {level : Level} (h : o.level = level) :
    o.precedence = level.least := by
  subst h
  cases o <;> rfl

/-- A waiting token goes before every operator that may follow an expression of a level. -/
def GivesWay (level : Level) (t : Token α) : Prop :=
  ∀ o : Operator, o.precedence ≤ level.leftOf → t.yieldsTo o = true

/-- The token on top of the stack stays there while an expression of a level is read: it is no
function, and no operator of the expression makes it go. -/
def Receives (level : Level) (stack : List (Token α)) : Prop :=
  ∀ t ∈ stack.head?, (∀ f, t.kind ≠ .builtin f) ∧
    ∀ o : Operator, level.least ≤ o.precedence → t.yieldsTo o = false

/-- A token that gives way to many operators gives way to fewer. -/
theorem GivesWay.of_leftOf_le {level level' : Level} {t : Token α} (h : GivesWay level t)
    (hl : level'.leftOf ≤ level.leftOf) : GivesWay level' t :=
  fun o ho => h o (Nat.le_trans ho hl)

/-- A stack that stays for many operators stays for fewer. -/
theorem Receives.of_least_le {level level' : Level} {stack : List (Token α)}
    (h : Receives level stack) (hl : level.least ≤ level'.least) : Receives level' stack :=
  fun t ht => ⟨(h t ht).1, fun o ho => (h t ht).2 o (Nat.le_trans hl ho)⟩

/-- On an empty stack every expression can be read. -/
theorem receives_nil (level : Level) : Receives (α := α) level [] := by
  simp [Receives]

/-- An open parenthesis keeps what waits outside from everything inside. -/
theorem receives_openParen {level : Level} {t : Token α} (h : t.kind = .openParen)
    (stack : List (Token α)) : Receives level (t :: stack) := by
  simp [Receives, Token.yieldsTo, h]

/-- A minus sign stays while its operand is read, since no operator is a part of that. -/
theorem receives_negate {t : Token α} (h : t.kind = .negate) (stack : List (Token α)) :
    Receives .signed (t :: stack) := by
  intro s hs
  obtain rfl : t = s := by simpa using hs
  refine ⟨by simp [h], fun o ho => ?_⟩
  cases o <;> simp [Level.least, Operator.precedence] at ho

/-- A waiting minus sign gives way to every operator. -/
theorem givesWay_negate {level : Level} {t : Token α} (h : t.kind = .negate) :
    GivesWay level t := by
  simp [GivesWay, Token.yieldsTo, h]

/-- The level of the right operand of an operator. A power is its own right operand, since powers
group from the right. -/
def Level.right : Level → Level
  | .sum => .product
  | .product | .power | .signed | .primary => .power

/-- An operator stays while its right operand is read. -/
theorem receives_operator {t : Token α} {o : Operator} (h : t.kind = .operator o)
    (stack : List (Token α)) : Receives o.level.right (t :: stack) := by
  intro s hs
  obtain rfl : t = s := by simpa using hs
  refine ⟨by simp [h], fun next hn => ?_⟩
  cases o <;> cases next <;> simp_all [Token.yieldsTo, Operator.yieldsTo, Level.right,
    Operator.level, Level.least, Operator.precedence, Operator.isRightAssociative]

/-- An operator goes once its right operand has been read. -/
theorem givesWay_operator {t : Token α} {o : Operator} (h : t.kind = .operator o) :
    GivesWay o.level t := by
  intro next hn
  cases o <;> cases next <;> simp_all [Token.yieldsTo, Operator.yieldsTo, Operator.level,
    Level.leftOf, Operator.precedence, Operator.isRightAssociative]

/-- What gives way is no parenthesis. -/
theorem GivesWay.ne_openParen {level : Level} {t : Token α} (h : GivesWay level t) :
    t.kind ≠ .openParen := by
  intro ht
  have hy := h .add (by cases level <;> decide)
  simp [Token.yieldsTo, ht] at hy

/-! ## The stack -/

/-- Waiting tokens that are no parentheses belong to the innermost group. -/
theorem popGroup_append {pending : List (Token α)} (h : ∀ t ∈ pending, t.kind ≠ .openParen)
    (stack : List (Token α)) :
    popGroup (pending ++ stack) =
      (popGroup stack).map fun (inner, outer) => (pending ++ inner, outer) := by
  induction pending with
  | nil => simp
  | cons t pending ih =>
    obtain ⟨ht, hp⟩ := List.forall_mem_cons.1 h
    rw [List.cons_append, popGroup]
    split
    · next hk => exact absurd hk ht
    · rw [ih hp]
      cases popGroup stack <;> rfl

/-- With an open parenthesis on top nothing waits in the innermost group. -/
theorem popGroup_openParen {t : Token α} (h : t.kind = .openParen) (stack : List (Token α)) :
    popGroup (t :: stack) = some ([], stack) := by
  simp [popGroup, h]

/-- A function on top is taken. -/
theorem popFunction_builtin {t : Token α} {f : Builtin} (h : t.kind = .builtin f)
    (stack : List (Token α)) : popFunction (t :: stack) = ([t], stack) := by
  simp [popFunction, h]

/-- A stack on which an expression can be read has no function on top. -/
theorem Receives.popFunction {level : Level} {stack : List (Token α)} (h : Receives level stack) :
    popFunction stack = ([], stack) := by
  cases stack with
  | nil => rfl
  | cons t stack =>
    rw [SignalCalc.popFunction]
    split
    · next f hk => exact absurd hk ((h t (by simp)).1 f)
    · rfl

/-- An operator makes exactly the tokens go that wait for the end of its left operand. -/
theorem Receives.takeWhile_dropWhile {level : Level} {pending stack : List (Token α)} {o : Operator}
    (h : Receives level stack) (ho : level.least ≤ o.precedence)
    (hp : ∀ t ∈ pending, t.yieldsTo o = true) :
    (pending ++ stack).takeWhile (Token.yieldsTo o) = pending ∧
      (pending ++ stack).dropWhile (Token.yieldsTo o) = stack := by
  rw [List.takeWhile_append_of_pos hp, List.dropWhile_append_of_pos hp]
  cases stack with
  | nil => simp
  | cons t stack =>
    have ht := (h t (by simp)).2 o ho
    simp [ht]

/-! ## One token -/

section Tokens

variable [Zero α] [BEq α] {t : Token α} {stack rest : List (Token α)}

/-- At the end the waiting tokens are put out, if none of them opens a group. -/
theorem postfixFrom_nil (h : ∀ t ∈ stack, t.kind ≠ .openParen) :
    postfixFrom stack [] = .ok stack := by
  have hp := popGroup_append h []
  rw [List.append_nil] at hp
  rw [postfixFrom, hp]
  rfl

/-- An operand is put out at once. -/
theorem postfixFrom_operand (h : t.kind.IsOperand) :
    postfixFrom stack (t :: rest) = (postfixFrom stack rest).map (t :: ·) := by
  rw [postfixFrom]
  split <;> first
    | cases postfixFrom stack rest <;> rfl
    | next hk => rw [hk] at h; exact h.elim

/-- A minus sign waits for its operand. -/
theorem postfixFrom_negate (h : t.kind = .negate) :
    postfixFrom stack (t :: rest) = postfixFrom (t :: stack) rest := by
  simp [postfixFrom, h]

/-- An open parenthesis waits for the one that closes it. -/
theorem postfixFrom_openParen (h : t.kind = .openParen) :
    postfixFrom stack (t :: rest) = postfixFrom (t :: stack) rest := by
  simp [postfixFrom, h]

/-- A function that stands before a group waits for the group. -/
theorem postfixFrom_builtin {f : Builtin} (h : t.kind = .builtin f)
    (hr : startsGroup rest = true) :
    postfixFrom stack (t :: rest) = postfixFrom (t :: stack) rest := by
  simp [postfixFrom, h, hr]

/-- An operator lets the waiting tokens go that yield to it, and waits. -/
theorem postfixFrom_operator {o : Operator} (h : t.kind = .operator o) :
    postfixFrom stack (t :: rest) =
      (postfixFrom (t :: stack.dropWhile (Token.yieldsTo o)) rest).map
        (stack.takeWhile (Token.yieldsTo o) ++ ·) := by
  simp only [postfixFrom, h]
  cases postfixFrom (t :: stack.dropWhile (Token.yieldsTo o)) rest <;> rfl

/-- A closing parenthesis lets the tokens of its group go, and the function of the group. -/
theorem postfixFrom_closeParen {inner outer : List (Token α)} (h : t.kind = .closeParen)
    (hg : popGroup stack = some (inner, outer)) :
    postfixFrom stack (t :: rest) =
      (postfixFrom (popFunction outer).2 rest).map (inner ++ (popFunction outer).1 ++ ·) := by
  simp only [postfixFrom, h, hg]
  cases postfixFrom (popFunction outer).2 rest <;> rfl

end Tokens

/-! ## What has been put out -/

section Output

variable {ε : Type}

/-- Nothing put before an outcome leaves it. -/
theorem map_nil_append (e : Except ε (List α)) : e.map ([] ++ ·) = e := by
  cases e <;> rfl

/-- Lists put before an outcome one after the other are put before it together. -/
theorem map_append_append (e : Except ε (List α)) (xs ys : List α) :
    (e.map (ys ++ ·)).map (xs ++ ·) = e.map (xs ++ ys ++ ·) := by
  cases e <;> simp [Except.map]

end Output

/-! ## Drafts -/

section Drafts

variable [Zero α] [BEq α]

/-- What reading a draft of a level does: its code is put out but for a last part, which waits and
gives way to every operator that may follow. -/
def Reads (level : Level) (tokens code : List (Token α)) : Prop :=
  ∃ out pending, code = out ++ pending ∧ (∀ t ∈ pending, GivesWay level t) ∧
    ∀ stack rest, Receives level stack →
      postfixFrom stack (tokens ++ rest) = (postfixFrom (pending ++ stack) rest).map (out ++ ·)

/-- A tighter expression is read as a looser one, which only fewer operators may follow. -/
theorem Reads.loosen {level level' : Level} {tokens code : List (Token α)}
    (h : Reads level tokens code) (hl : level'.leftOf ≤ level.leftOf)
    (hl' : level'.least ≤ level.least) : Reads level' tokens code := by
  obtain ⟨out, pending, hc, hp, hr⟩ := h
  exact ⟨out, pending, hc, fun t ht => (hp t ht).of_leftOf_le hl,
    fun stack rest hs => hr stack rest (hs.of_least_le hl')⟩

/-- A group is read as its inside is, and everything that waits inside goes at its end. The function
before the group, if there is one, goes with it. -/
theorem Reads.group {tokens code function : List (Token α)} {opening closing : Token α}
    (ho : opening.kind = .openParen) (hc : closing.kind = .closeParen)
    (h : Reads .sum tokens code) {stack : List (Token α)} (rest : List (Token α))
    (hs : popFunction (function ++ stack) = (function, stack)) :
    postfixFrom (function ++ stack) (opening :: tokens ++ [closing] ++ rest) =
      (postfixFrom stack rest).map (code ++ function ++ ·) := by
  obtain ⟨out, pending, rfl, hp, hr⟩ := h
  have hg : popGroup (pending ++ opening :: (function ++ stack)) =
      some (pending, function ++ stack) := by
    rw [popGroup_append fun t ht => (hp t ht).ne_openParen, popGroup_openParen ho]
    simp
  calc postfixFrom (function ++ stack) (opening :: tokens ++ [closing] ++ rest)
      = postfixFrom (opening :: (function ++ stack)) (tokens ++ closing :: rest) := by
        rw [List.append_assoc, List.cons_append, postfixFrom_openParen ho]
        rfl
    _ = (postfixFrom (pending ++ opening :: (function ++ stack)) (closing :: rest)).map
          (out ++ ·) := hr _ _ (receives_openParen ho _)
    _ = ((postfixFrom stack rest).map (pending ++ function ++ ·)).map (out ++ ·) := by
        rw [postfixFrom_closeParen hc hg, hs]
    _ = (postfixFrom stack rest).map (out ++ pending ++ function ++ ·) := by
        rw [map_append_append, List.append_assoc out]

/-- An operator between two operands: it makes go what waits for the end of the left one, and waits
for the end of the right one itself. -/
theorem Reads.binary {left right c d : List (Token α)} {sign : Token α} {o : Operator}
    {level leftLevel : Level} (hs : sign.kind = .operator o) (ho : o.level = level)
    (hl : Reads leftLevel left c) (hlo : level.least ≤ leftLevel.leftOf)
    (hll : level.least ≤ leftLevel.least) (hr : Reads level.right right d)
    (hro : level.leftOf ≤ level.right.leftOf) :
    Reads level (left ++ sign :: right) (c ++ d ++ [sign]) := by
  have hop := Operator.precedence_of_level ho
  subst ho
  obtain ⟨out, pending, rfl, hp, hl⟩ := hl
  obtain ⟨out', pending', rfl, hp', hr⟩ := hr
  refine ⟨out ++ pending ++ out', pending' ++ [sign], by simp, ?_, fun stack rest hst => ?_⟩
  · intro t ht
    rcases List.mem_append.1 ht with ht | ht
    · exact (hp' t ht).of_leftOf_le hro
    · obtain rfl := List.mem_singleton.1 ht
      exact givesWay_operator hs
  · obtain ⟨htake, hdrop⟩ := hst.takeWhile_dropWhile (Nat.le_of_eq hop.symm)
      fun t ht => hp t ht o (hop ▸ hlo)
    rw [List.append_assoc, hl _ _ (hst.of_least_le hll), List.cons_append,
      postfixFrom_operator hs, htake, hdrop, hr _ _ (receives_operator hs stack),
      map_append_append, map_append_append, List.append_assoc out, List.append_assoc pending',
      List.singleton_append]

/-- Every draft is read like that: by induction on it, one case for each rule of the grammar. -/
theorem Drafts.reads {level : Level} {tokens code : List (Token α)} {holes : Nat}
    (h : Drafts level tokens code holes) : Reads level tokens code := by
  induction h with
  | hole =>
    exact ⟨[], [], rfl, by simp, fun stack rest _ => (map_nil_append _).symm⟩
  | operand ht =>
    exact ⟨[_], [], rfl, by simp, fun stack rest _ => postfixFrom_operand ht⟩
  | @group _ code _ _ _ ho hc _ ih =>
    refine ⟨code, [], by simp, by simp, fun stack rest hs => ?_⟩
    have hp : popFunction ([] ++ stack) = ([], stack) := hs.popFunction
    simpa using ih.group ho hc rest hp
  | @call tokens code _ function opening _ f hf ho hc _ ih =>
    refine ⟨code ++ [function], [], by simp, by simp, fun stack rest hs => ?_⟩
    have hp : popFunction ([function] ++ stack) = ([function], stack) :=
      popFunction_builtin hf stack
    have hg := ih.group ho hc rest hp
    rw [List.cons_append, List.cons_append, List.cons_append, postfixFrom_builtin hf]
    · exact hg
    · simp [startsGroup, ho]
  | @negate tokens code _ minus hm _ ih =>
    obtain ⟨out, pending, rfl, hp, hr⟩ := ih
    refine ⟨out, pending ++ [minus], by simp, ?_, fun stack rest hs => ?_⟩
    · intro t ht
      rcases List.mem_append.1 ht with ht | ht
      · exact hp t ht
      · obtain rfl := List.mem_singleton.1 ht
        exact givesWay_negate hm
    · rw [List.cons_append, postfixFrom_negate hm, hr _ _ (receives_negate hm stack)]
      simp
  | ofPrimary _ ih | ofSigned _ ih | ofPower _ ih | ofProduct _ ih =>
    exact ih.loosen (by decide) (by decide)
  | power hs ho _ _ ihl ihr => exact .binary hs ho ihl (by decide) (by decide) ihr (by decide)
  | product hs ho _ _ ihl ihr => exact .binary hs ho ihl (by decide) (by decide) ihr (by decide)
  | sum hs ho _ _ ihl ihr => exact .binary hs ho ihl (by decide) (by decide) ihr (by decide)

/-- The conversion turns a draft into its code. -/
theorem Drafts.toPostfix {tokens code : List (Token α)} {holes : Nat}
    (h : Drafts .sum tokens code holes) : toPostfix tokens = .ok code := by
  obtain ⟨out, pending, rfl, hp, hr⟩ := h.reads
  have hr := hr [] [] (receives_nil _)
  rw [List.append_nil, List.append_nil,
    postfixFrom_nil fun t ht => (hp t ht).ne_openParen] at hr
  exact hr

end Drafts

end SignalCalc
