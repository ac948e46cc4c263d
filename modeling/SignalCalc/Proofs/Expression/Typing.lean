import SignalCalc.Proofs.Expression.Pointwise
import SignalCalc.Proofs.Expression.Scanning
import SignalCalc.Proofs.Spectrum.Blocks

/-!
# Numbers and series as types

Whether the value of a part of an expression is a number or a series can be told without computing
it: it is a series if there is a dataset in the part. Nothing but a function of series called on a
number goes against that, and apart from it only a spectrum can fail.

The scanner resolves every reference and reads no variable, so evaluation meets no dataset that
there is none of, whether or not the tokens are an expression.

Main statements: `Tree.isSeries_of_evaluate` and `Tree.exists_call_of_error`, by induction on the
tree, and `solve_is_typed`.
-/

namespace SignalCalc

/-! ## Calls -/

section Calls

variable {α : Type}

/-- A function in an expression with its argument. -/
structure FunctionCall (α : Type) where
  function : Builtin
  text : String
  argument : Tree α

/-- The calls in a tree, in the order in which they are evaluated. -/
def Tree.calls : Tree α → List (FunctionCall α)
  | number _ _ _ | dataset _ _ _ | laplace _ _ => []
  | negate _ _ operand => operand.calls
  | binary _ _ _ left right => left.calls ++ right.calls
  | call f text _ argument => argument.calls ++ [⟨f, text, argument⟩]

/-- A function of series is called on something without a dataset in it. -/
def FunctionCall.IsMisapplied (c : FunctionCall α) : Prop :=
  ¬c.function.IsPointwise ∧ c.argument.hasDataset = false

/-- References to datasets have been resolved, and the variable does not occur. -/
def IsResolved (count : Nat) (tokens : List (Token α)) : Prop :=
  ∀ t ∈ tokens, t.kind ≠ .laplace ∧ ∀ k, t.kind = .dataset k → k < count

/-- Some of the tokens refer to datasets that exist if all of them do. -/
theorem IsResolved.mono {count : Nat} {tokens tokens' : List (Token α)}
    (h : IsResolved count tokens) (ht : ∀ t ∈ tokens', t ∈ tokens) : IsResolved count tokens' :=
  fun t ht' => h t (ht t ht')

/-- A dataset in a tree is a token of its code. -/
theorem Tree.exists_mem_of_hasDataset {tree : Tree α} (h : tree.hasDataset = true) :
    ∃ t ∈ tree.postorder, ∃ k, t.kind = .dataset k := by
  induction tree with
  | number | laplace => cases h
  | dataset index text position => exact ⟨_, List.mem_singleton_self _, index, rfl⟩
  | negate text position operand ih | call f text position operand ih =>
    obtain ⟨t, ht, k, hk⟩ := ih h
    exact ⟨t, List.mem_append_left _ ht, k, hk⟩
  | binary o text position left right ihl ihr =>
    rw [hasDataset, Bool.or_eq_true] at h
    rcases h with h | h
    · obtain ⟨t, ht, k, hk⟩ := ihl h
      exact ⟨t, List.mem_append_left _ (List.mem_append_left _ ht), k, hk⟩
    · obtain ⟨t, ht, k, hk⟩ := ihr h
      exact ⟨t, List.mem_append_left _ (List.mem_append_right _ ht), k, hk⟩

end Calls

/-! ## Scanned references -/

section Scan

variable {α : Type} [Zero α] [BEq α] [OfScientific α] {names : List String}

/-- A piece of a numeric expression is not the variable, and a dataset in it is one of those there
are. -/
theorem Lexes.isResolved {due : Bool} {p : Piece α} {rest : List Char} {kind : TokenKind α}
    (h : Lexes names .numeric due p rest) (hk : p.kind? = some kind) :
    kind ≠ .laplace ∧ ∀ k, kind = .dataset k → k < names.length := by
  cases h with
  | blank | plus => cases hk
  | number | openParen | closeParen | operator | negate =>
    cases hk
    exact ⟨nofun, nofun⟩
  | word _ _ _ hw =>
    cases hk
    rcases wordLexeme_eq_ok_iff.1 hw with ⟨f, -, rfl⟩ | ⟨-, ⟨⟨hm, -⟩, -⟩ | ⟨-, i, hi, rfl⟩⟩
    · exact ⟨nofun, nofun⟩
    · cases hm
    · refine ⟨nofun, ?_⟩
      rintro _ ⟨⟩
      exact findDataset_lt hi
  | bracket _ hi =>
    cases hk
    refine ⟨nofun, ?_⟩
    rintro _ ⟨⟩
    exact resolveBracketed_lt hi

/-- The references that are scanned are those of datasets that exist. -/
theorem isResolved_of_scan {expression : String} {tokens : List (Token α)}
    (h : scan names .numeric expression = .ok tokens) : IsResolved names.length tokens := by
  obtain ⟨ps, s', -, hs, -, rfl, -⟩ := scan_eq_ok_iff.1 h
  intro t ht
  obtain ⟨qs, p, rs, rfl, hk, -⟩ := Piece.exists_of_mem_tokensAt ht
  obtain ⟨due, rest, hl⟩ := hs.exists_lexes (p := p) (by simp)
  exact hl.isResolved hk

end Scan

/-! ## Operations on values -/

section Values

variable {α : Type}

/-- Whether a value is a series. -/
def Value.isSeries : Value α → Bool
  | number _ => false
  | series _ => true

/-- A value that is no number is a series. -/
theorem Value.isSeries_iff {v : Value α} : v.isSeries = true ↔ ∃ s, v = .series s := by
  cases v <;> simp [isSeries]

/-- An operator gives a series if it is applied to one, on either side. -/
theorem Value.isSeries_binary [One α] [Add α] [Sub α] [Mul α] [Div α] [OfScientific α] [Max α]
    [LT α] [DecidableLT α] [LE α] [DecidableLE α] [Elementary α] (o : Operator) (v w : Value α) :
    (Value.binary o v w).isSeries = (v.isSeries || w.isSeries) := by
  cases v <;> cases w <;> rfl

/-- A change of sign keeps numbers numbers and series series. -/
theorem Value.isSeries_negate [Neg α] (v : Value α) : v.negate.isSeries = v.isSeries := by
  cases v <;> rfl

variable [Zero α] [One α] [Neg α] [Add α] [Sub α] [Mul α] [Div α] [NatCast α] [OfScientific α]
  [LT α] [DecidableLT α] [LE α] [DecidableLE α] [BEq α] [Elementary α]

/-- A function of one value is computed of a number, and every other is refused. -/
theorem Builtin.onValue_number (f : Builtin) (text : String) (x : α) :
    (f.IsPointwise ∧ ∃ y, f.onValue text (.number x) = .ok (.number y)) ∨
      ¬f.IsPointwise ∧ f.onValue text (.number x) = .error (.notSeries text) := by
  by_cases hf : f.IsPointwise
  · obtain ⟨g, hg⟩ := (isPointwise_iff (α := α) f).1 hf
    exact .inl ⟨hf, g x, by simp only [onValue, hg]⟩
  · refine .inr ⟨hf, ?_⟩
    cases hg : (f.onNumber? : Option (α → α)) with
    | none => simp only [onValue, hg]
    | some g => exact absurd ((isPointwise_iff f).2 ⟨g, hg⟩) hf

/-- A function of a series is computed, but for a spectrum that cannot be. -/
theorem Builtin.onValue_series (f : Builtin) (text : String) (s : Series α) :
    (∃ t, f.onValue text (.series s) = .ok (.series t)) ∨
      f = .fft ∧ ∃ e, s.amplitudeSpectrum .default = .error e ∧
        f.onValue text (.series s) = .error e := by
  cases f with
  | fft =>
    cases h : s.amplitudeSpectrum .default with
    | ok t => exact .inl ⟨t, by rw [onValue, onSeries, h]; rfl⟩
    | error e => exact .inr ⟨rfl, e, rfl, by rw [onValue, onSeries, h]; rfl⟩
  | _ => exact .inl ⟨_, rfl⟩

end Values

/-! ## Values of trees -/

section Trees

variable {α : Type} [Zero α] [One α] [Neg α] [Add α] [Sub α] [Mul α] [Div α] [NatCast α]
  [OfScientific α] [Max α] [LT α] [DecidableLT α] [LE α] [DecidableLE α] [BEq α] [Elementary α]
  {datasets : List (Dataset α)} {factor : α} {tree : Tree α} {v : Value α} {e : Error α}

/-- A value of a tree is a series if the tree has a dataset in it, and a number if it has none. -/
theorem Tree.isSeries_of_evaluate
    (h : tree.evaluate (Interpretation.numeric datasets factor) = .ok v) :
    v.isSeries = tree.hasDataset := by
  induction tree generalizing v with
  | number value text position =>
    cases h
    rfl
  | dataset index text position =>
    simp only [evaluate, Interpretation.numeric] at h
    split at h <;> cases h
    rfl
  | laplace text position => cases h
  | negate text position operand ih =>
    obtain ⟨w, hw, h⟩ := bind_eq_ok_iff.1 h
    cases h
    rw [Value.isSeries_negate]
    exact ih hw
  | binary o text position left right ihl ihr =>
    obtain ⟨a, ha, h⟩ := bind_eq_ok_iff.1 h
    obtain ⟨b, hb, h⟩ := bind_eq_ok_iff.1 h
    cases h
    rw [Value.isSeries_binary, ihl ha, ihr hb, hasDataset]
  | call f text position argument ih =>
    obtain ⟨w, hw, h⟩ := bind_eq_ok_iff.1 h
    rw [hasDataset, ← ih hw]
    cases w with
    | number x =>
      rcases f.onValue_number text x with ⟨-, y, hy⟩ | ⟨-, hy⟩
      · cases h.symm.trans hy
        rfl
      · cases h.symm.trans hy
    | series s =>
      rcases f.onValue_series text s with ⟨t, ht⟩ | ⟨-, e, -, ht⟩
      · cases h.symm.trans ht
        rfl
      · cases h.symm.trans ht

/-- A call whose argument has a value fails with an error. -/
def FunctionCall.FailsWith (datasets : List (Dataset α)) (factor : α) (c : FunctionCall α)
    (e : Error α) : Prop :=
  c.IsMisapplied ∧ e = .notSeries c.text ∨
    c.function = .fft ∧ ∃ s,
      c.argument.evaluate (Interpretation.numeric datasets factor) = .ok (.series s) ∧
      s.amplitudeSpectrum .default = .error e ∧ IsSpectrumError e

/-- A tree of resolved tokens fails in a call. -/
theorem Tree.exists_call_of_error (hr : IsResolved datasets.length tree.postorder)
    (h : tree.evaluate (Interpretation.numeric datasets factor) = .error e) :
    ∃ c ∈ tree.calls, c.FailsWith datasets factor e := by
  induction tree generalizing e with
  | number value text position => cases h
  | dataset index text position =>
    have hi : index < datasets.length := (hr _ (List.mem_singleton_self _)).2 index rfl
    simp only [evaluate, Interpretation.numeric, List.getElem?_eq_getElem hi] at h
    cases h
  | laplace text position => exact absurd rfl (hr _ (List.mem_singleton_self _)).1
  | negate text position operand ih =>
    rcases bind_eq_error_iff.1 h with h | ⟨w, -, ⟨⟩⟩
    exact ih (hr.mono fun t ht => List.mem_append_left _ ht) h
  | binary o text position left right ihl ihr =>
    rcases bind_eq_error_iff.1 h with h | ⟨a, -, h⟩
    · obtain ⟨c, hc, hf⟩ := ihl
        (hr.mono fun t ht => List.mem_append_left _ (List.mem_append_left _ ht)) h
      exact ⟨c, List.mem_append_left _ hc, hf⟩
    · rcases bind_eq_error_iff.1 h with h | ⟨b, -, ⟨⟩⟩
      obtain ⟨c, hc, hf⟩ := ihr
        (hr.mono fun t ht => List.mem_append_left _ (List.mem_append_right _ ht)) h
      exact ⟨c, List.mem_append_right _ hc, hf⟩
  | call f text position argument ih =>
    rcases bind_eq_error_iff.1 h with h | ⟨w, hw, h⟩
    · obtain ⟨c, hc, hf⟩ := ih (hr.mono fun t ht => List.mem_append_left _ ht) h
      exact ⟨c, List.mem_append_left _ hc, hf⟩
    · refine ⟨⟨f, text, argument⟩, List.mem_append_right _ (List.mem_singleton_self _), ?_⟩
      -- The argument has a value here, so what fails is the call itself.
      cases w with
      | number x =>
        rcases f.onValue_number text x with ⟨-, y, hy⟩ | ⟨hf, hy⟩
        · cases h.symm.trans hy
        · cases h.symm.trans hy
          exact .inl ⟨⟨hf, (isSeries_of_evaluate hw).symm⟩, rfl⟩
      | series s =>
        rcases f.onValue_series text s with ⟨t, ht⟩ | ⟨hf, e', he, ht⟩
        · cases h.symm.trans ht
        · cases h.symm.trans ht
          exact .inr ⟨hf, s, hw, he, Series.isSpectrumError_of_amplitudeSpectrum he⟩

/-- A tree with a value has no misapplied function in it. -/
theorem Tree.not_isMisapplied_of_evaluate
    (h : tree.evaluate (Interpretation.numeric datasets factor) = .ok v) :
    ∀ c ∈ tree.calls, ¬c.IsMisapplied := by
  induction tree generalizing v with
  | number | dataset | laplace => exact List.forall_mem_nil _
  | negate text position operand ih =>
    obtain ⟨w, hw, -⟩ := bind_eq_ok_iff.1 h
    exact ih hw
  | binary o text position left right ihl ihr =>
    obtain ⟨a, ha, h⟩ := bind_eq_ok_iff.1 h
    obtain ⟨b, hb, -⟩ := bind_eq_ok_iff.1 h
    exact List.forall_mem_append.2 ⟨ihl ha, ihr hb⟩
  | call f text position argument ih =>
    obtain ⟨w, hw, h⟩ := bind_eq_ok_iff.1 h
    refine List.forall_mem_append.2 ⟨ih hw, List.forall_mem_singleton.2 ?_⟩
    rintro ⟨hf, ha⟩
    rw [← isSeries_of_evaluate hw] at ha
    cases w with
    | number x =>
      rcases f.onValue_number text x with ⟨hp, -⟩ | ⟨-, hy⟩
      · exact hf hp
      · cases h.symm.trans hy
    | series s => cases ha

/-! ## Missing datasets -/

/-- A resolved token refers to a dataset that there is. -/
theorem Interpretation.ne_unknownDataset_of_step {stack : List (Value α)} {t : Token α}
    (ht : t.kind ≠ .laplace ∧ ∀ k, t.kind = .dataset k → k < datasets.length)
    (h : (numeric datasets factor).step stack t = .error e) (text : String) :
    e ≠ .unknownDataset text := by
  rintro rfl
  obtain ⟨kind, name, position⟩ := t
  cases kind with
  | number v => cases h
  | dataset i =>
    simp only [step, numeric, List.getElem?_eq_getElem (ht.2 i rfl)] at h
    cases h
  | laplace => exact ht.1 rfl
  | negate => cases stack <;> cases h
  | operator o => rcases stack with - | ⟨b, - | ⟨a, stack⟩⟩ <;> cases h
  | builtin f =>
    rcases stack with - | ⟨x | s, stack⟩
    · cases h
    · rcases bind_eq_error_iff.1 h with h | ⟨w, -, ⟨⟩⟩
      rcases f.onValue_number name x with ⟨-, y, hy⟩ | ⟨-, hy⟩ <;> cases h.symm.trans hy
    · rcases bind_eq_error_iff.1 h with h | ⟨w, -, ⟨⟩⟩
      rcases f.onValue_series name s with ⟨t, ht⟩ | ⟨-, e, he, ht⟩ <;> cases h.symm.trans ht
      obtain ⟨cause, hc⟩ | ⟨cause, hc⟩ := Series.isSpectrumError_of_amplitudeSpectrum he <;>
        cases hc
  | openParen | closeParen => cases stack <;> cases h

/-- Code whose references are resolved fails for no unknown dataset. -/
theorem Interpretation.ne_unknownDataset_of_foldlM {code : List (Token α)} {stack : List (Value α)}
    (hr : IsResolved datasets.length code)
    (h : code.foldlM (numeric datasets factor).step stack = .error e) (text : String) :
    e ≠ .unknownDataset text := by
  induction code generalizing stack with
  | nil => cases h
  | cons t code ih =>
    obtain ⟨ht, hr⟩ := List.forall_mem_cons.1 hr
    rw [List.foldlM_cons] at h
    rcases bind_eq_error_iff.1 h with h | ⟨s, -, h⟩
    · exact ne_unknownDataset_of_step ht h text
    · exact ih hr h

/-- Resolved tokens miss no dataset, and that holds of what the scanner lets through although it is
no expression, too. -/
theorem Arranged.ne_unknownDataset_of_evaluate {tokens : List (Token α)}
    (ha : Arranged 0 true tokens) (hr : IsResolved datasets.length tokens)
    (h : (Interpretation.numeric datasets factor).evaluate tokens = .error e) (text : String) :
    e ≠ .unknownDataset text := by
  rcases ha.draft_or_missing with ⟨code, holes, hd⟩ | ⟨text', he⟩
  · rw [Interpretation.evaluate, hd.toPostfix, ok_bind] at h
    rcases bind_eq_error_iff.1 h with h | ⟨stack, -, h⟩
    · have hr' := hr.mono fun t ht => ((hd.mem_code_iff t).1 ht).1
      exact Interpretation.ne_unknownDataset_of_foldlM hr' h text
    · rintro rfl
      split at h
      · cases h
      · cases h
      · split at h <;> cases h
  · rw [Interpretation.evaluate, he] at h
    rintro rfl
    cases h

/-! ## Solved expressions -/

/-- **Numbers and series are told apart by the text.** If an expression is solved, its value is a
series just when a token of it refers to a dataset. Whatever text the scanner accepts, its
references have been resolved to datasets that there are, it has no variable, and evaluation misses
no dataset. If it is an expression, its evaluation fails only in a function of series that is called
on something without a dataset in it, and then with this function in the error, or in a spectrum,
for want of data or because of a parameter. With a misapplied function it always fails, and without
one it has a value if it asks for no spectrum. -/
theorem solve_is_typed (datasets : List (Dataset α)) (factor : α) (expression : String) :
    (∀ v, solve datasets factor expression = .ok v →
      ∃ tokens : List (Token α), scan (datasets.map (·.name)) .numeric expression = .ok tokens ∧
        ((∃ s, v = .series s) ↔ ∃ t ∈ tokens, ∃ k, t.kind = .dataset k)) ∧
      ∀ tokens : List (Token α), scan (datasets.map (·.name)) .numeric expression = .ok tokens →
        IsResolved datasets.length tokens ∧
        (∀ text, solve datasets factor expression ≠ .error (.unknownDataset text)) ∧
        ∀ tree, Derives .sum tokens tree →
          (∀ e, solve datasets factor expression = .error e →
            ∃ c ∈ tree.calls, c.FailsWith datasets factor e) ∧
          ((∃ c ∈ tree.calls, c.IsMisapplied) →
            ∃ e, solve datasets factor expression = .error e) ∧
          ((∀ c ∈ tree.calls, ¬c.IsMisapplied ∧ c.function ≠ .fft) →
            ∃ v, solve datasets factor expression = .ok v) := by
  refine ⟨fun v hv => ?_, fun tokens hs => ?_⟩
  · obtain ⟨tokens, hs, hv⟩ := bind_eq_ok_iff.1 hv
    obtain ⟨tree, ht⟩ := (arranged_of_scan hs).derives_of_evaluate hv
    rw [ht.evaluate] at hv
    have hmem := (Drafts.of_derives ht).mem_code_iff
    refine ⟨tokens, hs, ?_⟩
    rw [← Value.isSeries_iff, Tree.isSeries_of_evaluate hv]
    constructor
    · intro h
      obtain ⟨t, htm, hk⟩ := Tree.exists_mem_of_hasDataset h
      exact ⟨t, ((hmem t).1 htm).1, hk⟩
    · rintro ⟨t, htm, k, hk⟩
      exact Tree.hasDataset_of_mem ((hmem t).2 ⟨htm, by simp [hk], by simp [hk]⟩) hk
  · have hr : IsResolved datasets.length tokens := by simpa using isResolved_of_scan hs
    have hsolve : solve datasets factor expression =
        (Interpretation.numeric datasets factor).evaluate tokens := by
      rw [solve, hs, ok_bind]
    refine ⟨hr, fun text h => ?_, fun tree ht => ?_⟩
    · rw [hsolve] at h
      exact (arranged_of_scan hs).ne_unknownDataset_of_evaluate hr h text rfl
    · have hr' := hr.mono fun t h => (((Drafts.of_derives ht).mem_code_iff t).1 h).1
      rw [hsolve, ht.evaluate]
      refine ⟨fun e he => Tree.exists_call_of_error hr' he, ?_, fun hc => ?_⟩
      · rintro ⟨c, hc, hm⟩
        cases h : tree.evaluate (Interpretation.numeric datasets factor) with
        | error e => exact ⟨e, rfl⟩
        | ok v => exact absurd hm (Tree.not_isMisapplied_of_evaluate h c hc)
      · cases h : tree.evaluate (Interpretation.numeric datasets factor) with
        | ok v => exact ⟨v, rfl⟩
        | error e =>
          obtain ⟨c, hcm, ⟨hm, -⟩ | ⟨hf, -⟩⟩ := Tree.exists_call_of_error hr' h
          · exact absurd hm (hc c hcm).1
          · exact absurd hf (hc c hcm).2

/-- In `fft(A)*rms(2)` one sample is too short for a spectrum, and that is found before the function
of a number. The value of `-[1]^2` is a series. -/
theorem solve_is_typed_short_history :
    let datasets : List (Dataset Float) := [⟨"a", ⟨[⟨0, 1⟩]⟩⟩]
    let tree : Tree Float :=
      .binary .multiply "*" 6 (.call .fft "fft" 0 (.dataset 0 "A" 4))
        (.call .rms "rms" 7 (.number 2 "2" 11))
    (∃ v, solve datasets 1 "-[1]^2" = .ok v ∧ ∃ s, v = .series s) ∧
      (∃ tokens, scan (datasets.map (·.name)) .numeric "fft(A)*rms(2)" = .ok tokens ∧
        Derives .sum tokens tree) ∧
      (∃ c ∈ tree.calls, c.FailsWith datasets 1 (.insufficientData (.transformSpacing 1))) ∧
      solve datasets 1 "fft(A)*rms(2)" = .error (.insufficientData (.transformSpacing 1)) := by
  intro datasets tree
  let tokens : List (Token Float) :=
    [⟨.builtin .fft, "fft", 0⟩, ⟨.openParen, "(", 3⟩, ⟨.dataset 0, "A", 4⟩, ⟨.closeParen, ")", 5⟩,
      ⟨.operator .multiply, "*", 6⟩, ⟨.builtin .rms, "rms", 7⟩, ⟨.openParen, "(", 10⟩,
      ⟨.number 2, "2", 11⟩, ⟨.closeParen, ")", 12⟩]
  let powerTokens : List (Token Float) :=
    [⟨.negate, "-", 0⟩, ⟨.dataset 0, "[1]", 1⟩, ⟨.operator .power, "^", 4⟩, ⟨.number 2, "2", 5⟩]
  have hs : scan (datasets.map (·.name)) .numeric "fft(A)*rms(2)" = .ok tokens := by
    with_unfolding_all rfl
  have hs' : scan (datasets.map (·.name)) .numeric "-[1]^2" = .ok powerTokens := by
    with_unfolding_all rfl
  have hgroup (f : Builtin) (text : String) (position : Nat) {ts : List (Token Float)}
      {t : Tree Float} (h : Derives .primary ts t) (i j : Nat) :
      Derives .power (⟨.builtin f, text, position⟩ :: ⟨.openParen, "(", i⟩ :: ts ++
        [⟨.closeParen, ")", j⟩]) (.call f text position t) :=
    .ofSigned (.ofPrimary (.call f text position rfl rfl
      (.ofProduct (.ofPower (.ofSigned (.ofPrimary h))))))
  have ht : Derives .sum tokens tree :=
    .ofProduct (.product "*" 6 rfl (.ofPower (hgroup .fft "fft" 0 (.dataset 0 "A" 4) 3 5))
      (hgroup .rms "rms" 7 (.number 2 "2" 11) 10 12))
  obtain ⟨v, hv⟩ : ∃ v, solve datasets 1 "-[1]^2" = .ok v := by
    rw [solve, hs']
    exact ⟨_, rfl⟩
  have he : solve datasets 1 "fft(A)*rms(2)" =
      .error (.insufficientData (.transformSpacing 1)) := by
    rw [solve, hs, ok_bind, ht.evaluate]
    rfl
  obtain ⟨tokens', h, hseries⟩ := (solve_is_typed datasets 1 "-[1]^2").1 v hv
  cases hs'.symm.trans h
  have hmem : ∃ t ∈ powerTokens, ∃ k, t.kind = .dataset k :=
    ⟨⟨.dataset 0, "[1]", 1⟩, by simp [powerTokens], 0, rfl⟩
  obtain ⟨-, -, hcalls⟩ := (solve_is_typed datasets 1 "fft(A)*rms(2)").2 tokens hs
  exact ⟨⟨v, hv, hseries.2 hmem⟩, ⟨tokens, hs, ht⟩, (hcalls tree ht).1 _ he, he⟩

end Trees

end SignalCalc
