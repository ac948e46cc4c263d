import SignalCalc.Proofs.Expression.Arrangement

/-!
# Reading arranged tokens as drafts

Arranged tokens in which every function stands before a group are a draft (`Arranged.isDraft`).
They are read one by one. What has been read is kept as the open groups (`Encloses`) and the
unfinished sum inside the innermost one (`Awaits`); an operator completes the parts of that sum that
bind as tightly as it does, and a closing parenthesis completes all of it.
-/

namespace SignalCalc

variable {α : Type}

/-! ## Functions before groups -/

/-- Every function stands right before a group. -/
def Applied : List (Token α) → Prop
  | [] => True
  | t :: ts => (∀ f, t.kind = .builtin f → startsGroup ts = true) ∧ Applied ts

/-- A group starts with an open parenthesis. -/
theorem startsGroup_iff {t : Token α} {ts : List (Token α)} :
    startsGroup (t :: ts) = true ↔ t.kind = .openParen := by
  obtain ⟨kind, text, position⟩ := t
  cases kind <;> simp [startsGroup]

/-- What is not an open parenthesis starts no group. -/
theorem startsGroup_eq_false {t : Token α} (h : t.kind ≠ .openParen) (ts : List (Token α)) :
    startsGroup (t :: ts) = false :=
  Bool.eq_false_iff.2 fun hs => h (startsGroup_iff.1 hs)

/-! ## Drafts of a level -/

/-- The tokens are a draft of a level. -/
def IsDraft (level : Level) (tokens : List (Token α)) : Prop :=
  ∃ code holes, Drafts level tokens code holes

/-- Tokens that make a draft of a level out of every draft of a tighter one after them. -/
def Opens (level inner : Level) (tokens : List (Token α)) : Prop :=
  ∀ rest, IsDraft inner rest → IsDraft level (tokens ++ rest)

/-- An unfinished sum that breaks off where a primary is due: a sum and its sign, then a product and
its sign, then powers with their signs, then minus signs, any of them missing. -/
def Awaits (tokens : List (Token α)) : Prop :=
  ∃ sums products powers signs, tokens = sums ++ products ++ powers ++ signs ∧
    Opens .sum .product sums ∧ Opens .product .power products ∧ Opens .power .power powers ∧
    Opens .signed .signed signs

/-- Nothing, or a function. -/
def IsFunctionOrNone (function : List (Token α)) : Prop :=
  function = [] ∨ ∃ t f, function = [t] ∧ t.kind = .builtin f

/-- A missing operand is a draft of no tokens. -/
theorem isDraft_nil : IsDraft (α := α) .primary [] := ⟨_, _, .hole⟩

/-- A draft of an operand is one that may have signs, too. -/
theorem IsDraft.ofPrimary {tokens : List (Token α)} (h : IsDraft .primary tokens) :
    IsDraft .signed tokens := by
  obtain ⟨code, holes, h⟩ := h
  exact ⟨code, holes, .ofPrimary h⟩

/-- A draft with signs is one of a power without an operator. -/
theorem IsDraft.ofSigned {tokens : List (Token α)} (h : IsDraft .signed tokens) :
    IsDraft .power tokens := by
  obtain ⟨code, holes, h⟩ := h
  exact ⟨code, holes, .ofSigned h⟩

/-- A draft of a power is one of a product with a single factor. -/
theorem IsDraft.ofPower {tokens : List (Token α)} (h : IsDraft .power tokens) :
    IsDraft .product tokens := by
  obtain ⟨code, holes, h⟩ := h
  exact ⟨code, holes, .ofPower h⟩

/-- A draft of a product is one of a sum with a single term. -/
theorem IsDraft.ofProduct {tokens : List (Token α)} (h : IsDraft .product tokens) :
    IsDraft .sum tokens := by
  obtain ⟨code, holes, h⟩ := h
  exact ⟨code, holes, .ofProduct h⟩

/-- A minus sign may stand before a draft with signs. -/
theorem IsDraft.negate {tokens : List (Token α)} {minus : Token α} (hm : minus.kind = .negate)
    (h : IsDraft .signed tokens) : IsDraft .signed (minus :: tokens) := by
  obtain ⟨code, holes, h⟩ := h
  exact ⟨_, _, .negate hm h⟩

/-- A draft in parentheses is a primary, with a function before it or without. -/
theorem IsDraft.group {function tokens : List (Token α)} {opening closing : Token α}
    (hf : IsFunctionOrNone function) (ho : opening.kind = .openParen)
    (hc : closing.kind = .closeParen) (h : IsDraft .sum tokens) :
    IsDraft .primary (function ++ [opening] ++ tokens ++ [closing]) := by
  obtain ⟨code, holes, h⟩ := h
  rcases hf with rfl | ⟨t, f, rfl, hf⟩
  · exact ⟨_, _, .group ho hc h⟩
  · exact ⟨_, _, .call hf ho hc h⟩

/-- A draft and an operator after it are the beginning of a longer draft of the operator's level. -/
theorem IsDraft.opens_sum {left : List (Token α)} {sign : Token α} {o : Operator}
    (hs : sign.kind = .operator o) (ho : o.level = .sum) (h : IsDraft .sum left) :
    Opens .sum .product (left ++ [sign]) := by
  rintro right ⟨d, k, hr⟩
  obtain ⟨c, n, hl⟩ := h
  exact ⟨_, _, by simpa using Drafts.sum hs ho hl hr⟩

/-- A product and its sign wait for a factor, which may be a power. -/
theorem IsDraft.opens_product {left : List (Token α)} {sign : Token α} {o : Operator}
    (hs : sign.kind = .operator o) (ho : o.level = .product) (h : IsDraft .product left) :
    Opens .product .power (left ++ [sign]) := by
  rintro right ⟨d, k, hr⟩
  obtain ⟨c, n, hl⟩ := h
  exact ⟨_, _, by simpa using Drafts.product hs ho hl hr⟩

/-- An operand and the sign of its power wait for the exponent, which may be a power. -/
theorem IsDraft.opens_power {left : List (Token α)} {sign : Token α} {o : Operator}
    (hs : sign.kind = .operator o) (ho : o.level = .power) (h : IsDraft .signed left) :
    Opens .power .power (left ++ [sign]) := by
  rintro right ⟨d, k, hr⟩
  obtain ⟨c, n, hl⟩ := h
  exact ⟨_, _, by simpa using Drafts.power hs ho hl hr⟩

/-- Tokens that wait for a level, followed by tokens of the level that wait for another one. -/
theorem Opens.trans {level middle inner : Level} {tokens tokens' : List (Token α)}
    (h : Opens level middle tokens) (h' : Opens middle inner tokens') :
    Opens level inner (tokens ++ tokens') := by
  intro rest hr
  rw [List.append_assoc]
  exact h _ (h' _ hr)

/-- A sum may start with a product. -/
theorem opens_sum_nil : Opens (α := α) .sum .product [] := fun _ h => h.ofProduct

/-- A product may start with a power. -/
theorem opens_product_nil : Opens (α := α) .product .power [] := fun _ h => h.ofPower

/-- No tokens before a draft leave it a draft. -/
theorem opens_same_nil (level : Level) : Opens (α := α) level level [] := fun _ h => h

/-- At the start an operand is awaited. -/
theorem awaits_nil : Awaits (α := α) [] :=
  ⟨[], [], [], [], rfl, opens_sum_nil, opens_product_nil, opens_same_nil _, opens_same_nil _⟩

/-- Behind a minus sign the operand is awaited still. -/
theorem Awaits.negate {tokens : List (Token α)} {minus : Token α} (h : Awaits tokens)
    (hm : minus.kind = .negate) : Awaits (tokens ++ [minus]) := by
  obtain ⟨a, b, c, d, rfl, ha, hb, hc, hd⟩ := h
  refine ⟨a, b, c, d ++ [minus], by simp, ha, hb, hc, ?_⟩
  exact hd.trans fun _ hr => hr.negate hm

/-- The primary that is due completes the sum. -/
theorem Awaits.complete {tokens operand : List (Token α)} (h : Awaits tokens)
    (ho : IsDraft .primary operand) : IsDraft .sum (tokens ++ operand) := by
  obtain ⟨a, b, c, d, rfl, ha, hb, hc, hd⟩ := h
  simpa using ha _ (hb _ (hc _ (hd _ ho.ofPrimary).ofSigned))

/-- An operator after the primary that is due: the parts that bind as tightly as it does are
complete, and a new operand is due. -/
theorem Awaits.operator {tokens operand : List (Token α)} {sign : Token α} {o : Operator}
    (h : Awaits tokens) (ho : IsDraft .primary operand) (hs : sign.kind = .operator o) :
    Awaits (tokens ++ operand ++ [sign]) := by
  obtain ⟨a, b, c, d, rfl, ha, hb, hc, hd⟩ := h
  have hsigned := hd _ ho.ofPrimary
  have hproduct := hb _ (hc _ hsigned.ofSigned)
  cases hl : o.level with
  | sum =>
    exact ⟨a ++ (b ++ (c ++ (d ++ operand))) ++ [sign], [], [], [], by simp,
      (ha _ hproduct).opens_sum hs hl, opens_product_nil, opens_same_nil _, opens_same_nil _⟩
  | product =>
    exact ⟨a, b ++ (c ++ (d ++ operand)) ++ [sign], [], [], by simp, ha,
      hproduct.opens_product hs hl, opens_same_nil _, opens_same_nil _⟩
  | power =>
    exact ⟨a, b, c ++ (d ++ operand ++ [sign]), [], by simp, ha, hb,
      hc.trans (hsigned.opens_power hs hl), opens_same_nil _⟩
  | signed | primary => cases o <;> cases hl

/-- What has been read up to the last open parenthesis: for every open group an unfinished sum, the
function of the group if it has one, and the parenthesis. -/
inductive Encloses : Nat → List (Token α) → Prop where
  | nil : Encloses 0 []
  | group {depth : Nat} {outer tokens function : List (Token α)} {opening : Token α} :
      Encloses depth outer → Awaits tokens → IsFunctionOrNone function →
      opening.kind = .openParen →
      Encloses (depth + 1) (outer ++ tokens ++ function ++ [opening])

/-- Only an open parenthesis may come after a function. -/
theorem eq_nil_of_startsGroup {function ts : List (Token α)} {t : Token α}
    (hs : function ≠ [] → startsGroup (t :: ts) = true) (ht : t.kind ≠ .openParen) :
    function = [] := by
  refine Decidable.byContradiction fun hf => ht ?_
  exact startsGroup_iff.1 (hs hf)

/-- What has been read is completed by what is still to come: by induction on that. If an operand is
due, a function may have been read for it already; if not, the operand has been read. -/
theorem Arranged.isDraft_append {depth : Nat} {due : Bool} {ts : List (Token α)}
    (h : Arranged depth due ts) (ha : Applied ts) :
    ∀ {outer tokens : List (Token α)}, Encloses depth outer → Awaits tokens →
      (∀ function, due = true → IsFunctionOrNone function →
        (function ≠ [] → startsGroup ts = true) →
        IsDraft .sum (outer ++ tokens ++ function ++ ts)) ∧
      ∀ operand, due = false → IsDraft .primary operand →
        IsDraft .sum (outer ++ tokens ++ operand ++ ts) := by
  induction h with
  | nil =>
    intro outer tokens ho hw
    cases ho
    refine ⟨fun function _ _ hs => ?_, fun operand _ hop => by simpa using hw.complete hop⟩
    obtain rfl : function = [] := Decidable.byContradiction fun hf => nomatch hs hf
    simpa using hw.complete isDraft_nil
  | @operand depth t ts ht _ ih =>
    intro outer tokens ho hw
    refine ⟨fun function _ _ hs => ?_, nofun⟩
    have hk : t.kind ≠ .openParen := fun hk => by rw [hk] at ht; exact ht
    obtain rfl := eq_nil_of_startsGroup hs hk
    simpa using (ih ha.2 ho hw).2 [t] rfl ⟨_, _, .operand ht⟩
  | @builtin depth t ts f ht _ ih =>
    intro outer tokens ho hw
    refine ⟨fun function _ _ hs => ?_, nofun⟩
    obtain rfl := eq_nil_of_startsGroup hs (by simp [ht])
    simpa using (ih ha.2 ho hw).1 [t] rfl (.inr ⟨t, f, rfl, ht⟩) fun _ => ha.1 f ht
  | @negate depth t ts ht _ ih =>
    intro outer tokens ho hw
    refine ⟨fun function _ _ hs => ?_, nofun⟩
    obtain rfl := eq_nil_of_startsGroup hs (by simp [ht])
    simpa using (ih ha.2 ho (hw.negate ht)).1 [] rfl (.inl rfl) (absurd rfl)
  | operator ht _ ih =>
    intro outer tokens ho hw
    refine ⟨nofun, fun operand _ hop => ?_⟩
    simpa using (ih ha.2 ho (hw.operator hop ht)).1 [] rfl (.inl rfl) (absurd rfl)
  | openParen ht _ ih =>
    intro outer tokens ho hw
    refine ⟨fun function _ hf _ => ?_, nofun⟩
    simpa using (ih ha.2 (ho.group hw hf ht) awaits_nil).1 [] rfl (.inl rfl) (absurd rfl)
  | @closeParen depth due t ts ht _ ih =>
    intro outer tokens ho hw
    cases ho with
    | @group _ outer before function opening ho hb hf hp =>
      -- The group is complete now: it is the primary that is due in the sum around it.
      have hgroup (operand : List (Token α)) (hop : IsDraft .primary operand) :
          IsDraft .sum
            (outer ++ before ++ function ++ [opening] ++ tokens ++ operand ++ t :: ts) := by
        simpa using (ih ha.2 ho hb).2 _ rfl (.group hf hp ht (hw.complete hop))
      refine ⟨fun function _ _ hs => ?_, fun operand _ hop => hgroup operand hop⟩
      obtain rfl := eq_nil_of_startsGroup hs (by simp [ht])
      exact hgroup [] isDraft_nil

/-- Arranged tokens are a draft if every function stands before a group. -/
theorem Arranged.isDraft {tokens : List (Token α)} (h : Arranged 0 true tokens)
    (ha : Applied tokens) : IsDraft .sum tokens :=
  (h.isDraft_append ha .nil awaits_nil).1 [] rfl (.inl rfl) (absurd rfl)

end SignalCalc
