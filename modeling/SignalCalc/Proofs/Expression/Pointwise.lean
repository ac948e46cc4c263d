import SignalCalc.Expression.Scalar
import SignalCalc.Expression.Solve
import SignalCalc.Proofs.Expression.Acceptance
import SignalCalc.Proofs.Series.Positions

/-!
# Series are computed sample by sample

Where all datasets of an expression have the same positions, no alignment drops a sample, and the
expression is computed at every index as if the datasets were the numbers at that index. What holds
of the value of every part of the expression is `Follows`: a part with a dataset in it is a series
with the common positions, and a part without one is a number.

Main statements: `follows_evaluate`, by induction on the tree, and `series_value_is_pointwise`.
-/

namespace SignalCalc

/-! ## Parts of an expression -/

/-- A function that acts on every value of a series by itself. -/
def Builtin.IsPointwise (f : Builtin) : Prop :=
  f ≠ .fft ∧ f ≠ .derivative ∧ f ≠ .integral ∧ f ≠ .rms

/-- The functions of one value are those that act on every value of a series by itself. -/
theorem Builtin.isPointwise_iff {α : Type} [Elementary α] (f : Builtin) :
    f.IsPointwise ↔ ∃ g : α → α, f.onNumber? = some g := by
  cases f <;> simp [IsPointwise, onNumber?]

/-- What an expression needs for a value by index: the functions in its tokens act on every value by
itself, and the datasets have the given positions. -/
structure IsPointwise {α : Type} (datasets : List (Dataset α)) (xs : List α)
    (tokens : List (Token α)) : Prop where
  builtin : ∀ t ∈ tokens, ∀ f, t.kind = .builtin f → f.IsPointwise
  dataset : ∀ t ∈ tokens, ∀ k d, t.kind = .dataset k → datasets[k]? = some d → d.series.xs = xs

/-- A part of pointwise tokens is pointwise. -/
theorem IsPointwise.mono {α : Type} {xs : List α} {datasets : List (Dataset α)}
    {tokens tokens' : List (Token α)} (h : IsPointwise datasets xs tokens)
    (ht : ∀ t ∈ tokens', t ∈ tokens) : IsPointwise datasets xs tokens' :=
  ⟨fun t h' => h.builtin t (ht t h'), fun t h' => h.dataset t (ht t h')⟩

/-- A tree has a dataset in it if a token of its code is one. -/
theorem Tree.hasDataset_of_mem {α : Type} {tree : Tree α} {t : Token α} {k : Nat}
    (ht : t ∈ tree.postorder) (hk : t.kind = .dataset k) : tree.hasDataset = true := by
  induction tree with
  | number value text position =>
    cases List.mem_singleton.1 ht
    cases hk
  | dataset index text position => rfl
  | laplace text position =>
    cases List.mem_singleton.1 ht
    cases hk
  | negate text position operand ih =>
    rcases List.mem_append.1 ht with ht | ht
    · exact ih ht
    · cases List.mem_singleton.1 ht
      cases hk
  | binary o text position left right ihl ihr =>
    rcases List.mem_append.1 ht with ht | ht
    · rcases List.mem_append.1 ht with ht | ht
      · rw [hasDataset, ihl ht, Bool.true_or]
      · rw [hasDataset, ihr ht, Bool.or_true]
    · cases List.mem_singleton.1 ht
      cases hk
  | call f text position argument ih =>
    rcases List.mem_append.1 ht with ht | ht
    · exact ih ht
    · cases List.mem_singleton.1 ht
      cases hk

/-- The value at an index in the dataset with a number. -/
def Dataset.valueAt {α : Type} [Zero α] (datasets : List (Dataset α)) (index number : Nat) : α :=
  (datasets[number]?.bind fun d => d.series.ys[index]?).getD 0

/-- The value of a dataset at an index, if there is one. -/
theorem Dataset.valueAt_eq {α : Type} [Zero α] {datasets : List (Dataset α)} {index number : Nat}
    {d : Dataset α} {y : α} (hd : datasets[number]? = some d)
    (hy : d.series.ys[index]? = some y) : Dataset.valueAt datasets index number = y := by
  simp [Dataset.valueAt, hd, hy]

section Pointwise

variable {α : Type} [Zero α] [BEq α]

/-- A value follows the numbers that a part of an expression has at the indices. A part without
datasets has one number at all of them. -/
def Follows (xs : List α) (hasDataset : Bool) (atIndex : Nat → Except (Error α) α) :
    Value α → Prop
  | .number c => hasDataset = false ∧ ∀ i, atIndex i = .ok c
  | .series s => hasDataset = true ∧ s.xs = xs ∧ ∀ i y, s.ys[i]? = some y → atIndex i = .ok y

variable {xs : List α}

/-- A change of sign, of a number or of a series. -/
theorem Follows.negate [Neg α] {b : Bool} {a : Nat → Except (Error α) α} {v : Value α}
    (h : Follows xs b a v) : Follows xs b (fun i => a i >>= fun y => .ok (-y)) v.negate := by
  cases v with
  | number c =>
    refine ⟨h.1, fun i => ?_⟩
    simp only [h.2 i, ok_bind]
  | series s =>
    refine ⟨h.1, (Series.xs_mapY s _).trans h.2.1, fun i y hy => ?_⟩
    rw [Series.ys_mapY, List.getElem?_map, Option.map_eq_some_iff] at hy
    obtain ⟨y', hy', rfl⟩ := hy
    simp only [h.2.2 i y' hy', ok_bind]

variable [One α] [Add α] [Sub α] [Mul α] [Div α] [OfScientific α] [LT α] [DecidableLT α] [LE α]
  [DecidableLE α] [Elementary α]

/-- An operator, in all four combinations of numbers and series. The positions match themselves, so
two series keep all their samples. -/
theorem Follows.binary [Max α] (hm : ∀ x ∈ xs, xMatches x x = true) (o : Operator) {b b' : Bool}
    {a a' : Nat → Except (Error α) α} {v w : Value α} (h : Follows xs b a v)
    (h' : Follows xs b' a' w) :
    Follows xs (b || b') (fun i => a i >>= fun y => a' i >>= fun y' => .ok (o.apply y y'))
      (Value.binary o v w) := by
  cases v with
  | number c =>
    cases w with
    | number c' =>
      refine ⟨by rw [h.1, h'.1]; rfl, fun i => ?_⟩
      simp only [h.2 i, h'.2 i, ok_bind]
    | series t =>
      refine ⟨by rw [h'.1, Bool.or_true], (Series.xs_mapY t _).trans h'.2.1, fun i y hy => ?_⟩
      rw [Series.ys_mapY, List.getElem?_map, Option.map_eq_some_iff] at hy
      obtain ⟨y', hy', rfl⟩ := hy
      simp only [h.2 i, h'.2.2 i y' hy', ok_bind]
  | series s =>
    cases w with
    | number c' =>
      refine ⟨by rw [h.1]; rfl, (Series.xs_mapY s _).trans h.2.1, fun i y hy => ?_⟩
      rw [Series.ys_mapY, List.getElem?_map, Option.map_eq_some_iff] at hy
      obtain ⟨y', hy', rfl⟩ := hy
      simp only [h.2.2 i y' hy', h'.2 i, ok_bind]
    | series t =>
      obtain ⟨hb, hs, hy⟩ := h
      obtain ⟨-, ht, hy'⟩ := h'
      obtain ⟨hx, hv⟩ := Series.combine_of_xs_eq (hs.trans ht.symm) (hs ▸ hm) o.apply
      rw [Value.binary, Operator.onSamples?_getD]
      refine ⟨by rw [hb]; rfl, hx.trans hs, fun i z hz => ?_⟩
      rw [hv, List.getElem?_zipWith] at hz
      split at hz
      · next y y' h₁ h₂ =>
        cases hz
        simp only [hy i y h₁, hy' i y' h₂, ok_bind]
      · cases hz

variable [Neg α] [NatCast α]

/-- A pointwise function changes every sample by itself. -/
theorem Builtin.IsPointwise.onSeries_eq {f : Builtin} (hf : f.IsPointwise) (s : Series α) :
    f.onSeries s = .ok (f.onSamples?.elim s s.mapY) := by
  obtain ⟨hfft, hderivative, hintegral, hrms⟩ := hf
  cases f with
  | fft | derivative | integral | rms => contradiction
  | _ => rfl

/-- A pointwise function of a number or of a series. -/
theorem Follows.builtin {f : Builtin} (hf : f.IsPointwise) (text : String) {b : Bool}
    {a : Nat → Except (Error α) α} {v w : Value α} (h : Follows xs b a v)
    (hw : f.onValue text v = .ok w) (d : Nat → Nat → α) (variable_ : α) :
    Follows xs b (fun i => a i >>= (Interpretation.scalar (d i) variable_).builtin f text) w := by
  obtain ⟨g, hg⟩ := (f.isPointwise_iff (α := α)).1 hf
  have hs : ∀ i y, (Interpretation.scalar (d i) variable_).builtin f text y = .ok (g y) := by
    intro i y
    simp only [Interpretation.scalar, hg]
  cases v with
  | number c =>
    simp only [Builtin.onValue, hg] at hw
    cases hw
    refine ⟨h.1, fun i => ?_⟩
    simp only [h.2 i, ok_bind, hs]
  | series s =>
    rw [Builtin.onValue, hf.onSeries_eq, f.onSamples?_eq, hg, Option.elim_some] at hw
    cases hw
    refine ⟨h.1, (Series.xs_mapY s g).trans h.2.1, fun i y hy => ?_⟩
    rw [Series.ys_mapY, List.getElem?_map, Option.map_eq_some_iff] at hy
    obtain ⟨y', hy', rfl⟩ := hy
    simp only [h.2.2 i y' hy', ok_bind, hs]

/-- The value of a tree follows its values at the indices. The induction is on the tree; the
variable has no numeric value, so no leaf is one. -/
theorem follows_evaluate [Max α] {datasets : List (Dataset α)} {factor : α} (tree : Tree α)
    (hp : IsPointwise datasets xs tree.postorder)
    (hm : ∀ x ∈ xs, xMatches (x * factor) (x * factor) = true) (variable_ : α) {v : Value α}
    (hv : tree.evaluate (Interpretation.numeric datasets factor) = .ok v) :
    Follows (xs.map (· * factor)) tree.hasDataset
      (fun i => tree.evaluate (Interpretation.scalar (Dataset.valueAt datasets i) variable_))
      v := by
  induction tree generalizing v with
  | number value text position =>
    cases hv
    exact ⟨rfl, fun _ => rfl⟩
  | dataset index text position =>
    simp only [Tree.evaluate, Interpretation.numeric] at hv
    split at hv
    · next d hd =>
      cases hv
      have hx : d.series.xs = xs := hp.dataset _ (List.mem_singleton_self _) index d rfl hd
      refine ⟨rfl, by rw [Series.xs_scaleX, hx], fun i y hy => ?_⟩
      rw [Series.ys_scaleX] at hy
      exact congrArg Except.ok (Dataset.valueAt_eq hd hy)
    · cases hv
  | laplace text position => cases hv
  | negate text position operand ih =>
    obtain ⟨w, hw, hv⟩ := bind_eq_ok_iff.1 hv
    cases hv
    exact (ih (hp.mono fun t ht => List.mem_append_left _ ht) hw).negate
  | binary o text position left right ihl ihr =>
    obtain ⟨a, ha, hv⟩ := bind_eq_ok_iff.1 hv
    obtain ⟨b, hb, hv⟩ := bind_eq_ok_iff.1 hv
    cases hv
    have hl := ihl (hp.mono fun t ht => List.mem_append_left _ (List.mem_append_left _ ht)) ha
    have hr := ihr (hp.mono fun t ht => List.mem_append_left _ (List.mem_append_right _ ht)) hb
    exact hl.binary (by simpa using hm) o hr
  | call f text position argument ih =>
    obtain ⟨w, hw, hv⟩ := bind_eq_ok_iff.1 hv
    have hf : f.IsPointwise :=
      hp.builtin _ (List.mem_append_right _ (List.mem_singleton_self _)) f rfl
    have ha := ih (hp.mono fun t ht => List.mem_append_left _ ht) hw
    exact ha.builtin hf text hv (Dataset.valueAt datasets) variable_

end Pointwise

/-! ## Values of expressions -/

/-- **Series are computed sample by sample.** Let the functions of an expression act on every value
by itself, and let the datasets that it refers to, at least one, have the same positions, finite
after scaling. A value is then a series with all the scaled positions, in their order, and its value
at every index is that of the syntax tree over the numbers that the datasets have at this index. -/
theorem series_value_is_pointwise {datasets : List (Dataset Float)} {factor : Float}
    {expression : String} {tokens : List (Token Float)} {xs : List Float} {v : Value Float}
    (hs : scan (datasets.map (·.name)) .numeric expression = .ok tokens)
    (hp : IsPointwise datasets xs tokens) (hd : ∃ t ∈ tokens, ∃ k, t.kind = .dataset k)
    (hx : ∀ x ∈ xs, isFinite (x * factor) = true)
    (hv : solve datasets factor expression = .ok v) :
    ∃ tree s, Derives .sum tokens tree ∧ v = .series s ∧ s.xs = xs.map (· * factor) ∧
      ∀ i, i < xs.length → ∃ y, s.ys[i]? = some y ∧ ∀ variable_ : Float,
        tree.evaluate (Interpretation.scalar (Dataset.valueAt datasets i) variable_) = .ok y := by
  have hv : (Interpretation.numeric datasets factor).evaluate tokens = .ok v := by
    rw [solve, hs] at hv
    exact hv
  obtain ⟨tree, ht⟩ := (arranged_of_scan hs).derives_of_evaluate hv
  rw [ht.evaluate] at hv
  have hmem := (Drafts.of_derives ht).mem_code_iff
  have hp' : IsPointwise datasets xs tree.postorder := hp.mono fun t h => ((hmem t).1 h).1
  have hf := follows_evaluate tree hp' fun x h => xMatches_self (hx x h)
  obtain ⟨t, htm, k, hk⟩ := hd
  have hb : tree.hasDataset = true :=
    Tree.hasDataset_of_mem ((hmem t).2 ⟨htm, by simp [hk], by simp [hk]⟩) hk
  cases v with
  | number c =>
    have := (hf 0 hv).1
    rw [hb] at this
    cases this
  | series s =>
    have hxs := (hf 0 hv).2.1
    refine ⟨tree, s, ht, rfl, hxs, fun i hi => ?_⟩
    have hl : i < s.ys.length := by
      rw [Series.length_ys, ← Series.length_xs, hxs, List.length_map]
      exact hi
    have hy := List.getElem?_eq_getElem hl
    exact ⟨_, hy, fun variable_ => (hf variable_ hv).2.2 i _ hy⟩

/-- The positions `2, 0, 2` are not sorted and repeat, and all three are kept. The value at the
second one is the remainder of the magnitude of `-1` by `-2`. -/
theorem series_value_is_pointwise_remainder :
    let datasets : List (Dataset Float) :=
      [⟨"a", ⟨[⟨2, 3⟩, ⟨0, -1⟩, ⟨2, 0.5⟩]⟩⟩, ⟨"b", ⟨[⟨2, 4⟩, ⟨0, 2⟩, ⟨2, -1⟩]⟩⟩]
    ∃ (tokens : List (Token Float)) (tree : Tree Float) (s : Series Float),
      scan (datasets.map (·.name)) .numeric "abs(a)%-b" = .ok tokens ∧ Derives .sum tokens tree ∧
      solve datasets 0.5 "abs(a)%-b" = .ok (.series s) ∧ s.xs = [1, 0, 1] ∧
      s.ys = [-1, -1, 0.5] ∧
      tree.evaluate (Interpretation.scalar (Dataset.valueAt datasets 1) 0) = .ok (-1) := by
  intro datasets
  let tokens : List (Token Float) :=
    [⟨.builtin .abs, "abs", 0⟩, ⟨.openParen, "(", 3⟩, ⟨.dataset 0, "a", 4⟩, ⟨.closeParen, ")", 5⟩,
      ⟨.operator .modulo, "%", 6⟩, ⟨.negate, "-", 7⟩, ⟨.dataset 1, "b", 8⟩]
  have hs : scan (datasets.map (·.name)) .numeric "abs(a)%-b" = .ok tokens := by
    with_unfolding_all rfl
  have hp : IsPointwise datasets [2, 0, 2] tokens := by
    constructor
    · simp [tokens, Builtin.IsPointwise]
    · simp only [tokens, datasets, List.forall_mem_cons]
      refine ⟨nofun, nofun, ?_, nofun, nofun, nofun, ?_, nofun⟩
      all_goals
        rintro k d ⟨⟩ ⟨⟩
        rfl
  have hd : ∃ t ∈ tokens, ∃ k, t.kind = .dataset k :=
    ⟨⟨.dataset 0, "a", 4⟩, by simp [tokens], 0, rfl⟩
  have hx : ∀ x ∈ [(2 : Float), 0, 2], isFinite (x * 0.5) = true := by decide
  obtain ⟨s, hv, hys⟩ : ∃ s, solve datasets 0.5 "abs(a)%-b" = .ok (.series s) ∧
      s.ys = [-1, -1, 0.5] := by
    rw [solve, hs]
    exact ⟨_, rfl, by decide +kernel⟩
  obtain ⟨tree, s', ht₀, ⟨⟩, hxs, hy⟩ := series_value_is_pointwise hs hp hd hx hv
  obtain ⟨y, hy, ht⟩ := hy 1 (by decide)
  rw [hys] at hy
  cases hy
  exact ⟨tokens, tree, s, hs, ht₀, hv, hxs.trans (by decide +kernel), hys, ht 0⟩

end SignalCalc
