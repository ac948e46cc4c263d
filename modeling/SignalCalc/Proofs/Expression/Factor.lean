import SignalCalc.Expression.Solve
import SignalCalc.Proofs.Double.Arithmetic
import SignalCalc.Proofs.Expression.Acceptance

/-!
# What the factor of the positions does

The datasets and the factor come into an evaluation where a token refers to a dataset, and nowhere
else: what is read there is the series with its positions multiplied (`Dataset.scaledAt`). Every
step of the stack machine that reads the same series is the same, and so is the run. Multiplying the
positions of all datasets beforehand gives the same series to read at every reference, however many
of them there are, with one as the factor.

Main statements: `solve_congr` and `factor_is_change_of_data`.
-/

namespace SignalCalc

variable {α : Type} [Mul α]

/-! ## Scaled datasets -/

namespace Dataset

/-- The dataset with its positions multiplied by a factor. -/
def scaleX (d : Dataset α) (factor : α) : Dataset α := ⟨d.name, d.series.scaleX factor⟩

/-- The series that a reference to the dataset with an index stands for. -/
def scaledAt (datasets : List (Dataset α)) (factor : α) (index : Nat) : Option (Series α) :=
  datasets[index]?.map fun d => d.series.scaleX factor

/-- A factor leaves the names of datasets. -/
theorem names_scaleX (datasets : List (Dataset α)) (factor : α) :
    (datasets.map (·.scaleX factor)).map (·.name) = datasets.map (·.name) := by
  rw [List.map_map]
  rfl

end Dataset

/-- If one is neutral for the numbers, then it is for series. -/
theorem Series.scaleX_one [One α] (h : ∀ x : α, x * 1 = x) (s : Series α) : s.scaleX 1 = s := by
  simp only [scaleX, h, List.map_id']

/-- A factor for the positions and the positions multiplied by it give the same series to read. -/
theorem Dataset.scaledAt_scaleX [One α] (h : ∀ x : α, x * 1 = x) (datasets : List (Dataset α))
    (factor : α) (index : Nat) :
    scaledAt (datasets.map (·.scaleX factor)) 1 index = scaledAt datasets factor index := by
  rw [scaledAt, scaledAt, List.getElem?_map, Option.map_map]
  refine congrArg (Option.map · datasets[index]?) (funext fun d => ?_)
  exact Series.scaleX_one h (d.series.scaleX factor)

/-! ## Runs that read the same series -/

variable [Zero α] [One α] [Neg α] [Add α] [Sub α] [Div α] [NatCast α] [OfScientific α] [Max α]
  [LT α] [DecidableLT α] [LE α] [DecidableLE α] [BEq α] [Elementary α]

/-- Two lists of datasets with a factor each have the same series to read for every token. -/
def ReadSame (datasets : List (Dataset α)) (factor : α) (datasets' : List (Dataset α))
    (factor' : α) (tokens : List (Token α)) : Prop :=
  ∀ t ∈ tokens, ∀ i, t.kind = .dataset i →
    Dataset.scaledAt datasets factor i = Dataset.scaledAt datasets' factor' i

section Runs

variable {datasets datasets' : List (Dataset α)} {factor factor' : α}

namespace Interpretation

/-- A reference looks at nothing but the scaled series. -/
theorem dataset_congr {i : Nat} (text : String)
    (h : Dataset.scaledAt datasets factor i = Dataset.scaledAt datasets' factor' i) :
    (numeric datasets factor).dataset i text = (numeric datasets' factor').dataset i text := by
  have hread (ds : List (Dataset α)) (f : α) : (numeric ds f).dataset i text =
      (Dataset.scaledAt ds f i).elim (.error (.unknownDataset text)) fun s => .ok (.series s) := by
    rw [Dataset.scaledAt]
    simp only [numeric]
    cases ds[i]? with
    | none => rfl
    | some d => rfl
  rw [hread, hread, h]

/-- One step reads at most one dataset. All other operations know nothing of datasets. -/
theorem step_congr {t : Token α} (h : ∀ i, t.kind = .dataset i →
    Dataset.scaledAt datasets factor i = Dataset.scaledAt datasets' factor' i)
    (stack : List (Value α)) :
    (numeric datasets factor).step stack t = (numeric datasets' factor').step stack t := by
  obtain ⟨kind, text, position⟩ := t
  cases kind with
  | dataset i => simp only [step, dataset_congr text (h i rfl)]
  | negate | builtin _ => cases stack <;> rfl
  | operator _ => rcases stack with - | ⟨b, - | ⟨a, stack⟩⟩ <;> rfl
  | number _ | laplace | openParen | closeParen => rfl

/-- The induction is on the code. The stacks of both runs are the same before every token. -/
theorem foldlM_step_congr {code : List (Token α)}
    (h : ReadSame datasets factor datasets' factor' code) (stack : List (Value α)) :
    code.foldlM (numeric datasets factor).step stack =
      code.foldlM (numeric datasets' factor').step stack := by
  induction code generalizing stack with
  | nil => rfl
  | cons t code ih =>
    obtain ⟨ht, hc⟩ := List.forall_mem_cons.1 h
    rw [List.foldlM_cons, List.foldlM_cons, step_congr ht]
    exact bind_congr fun stack' => ih hc stack'

/-- Code whose references read the same scaled series has the same value, or the same error. -/
theorem run_congr {code : List (Token α)}
    (h : ReadSame datasets factor datasets' factor' code) :
    (numeric datasets factor).run code = (numeric datasets' factor').run code := by
  rw [run, run, foldlM_step_congr h]

end Interpretation

/-- The conversion to code brings no reference in. If it refuses the tokens, nothing is read. -/
theorem Arranged.evaluate_congr {tokens : List (Token α)} (ha : Arranged 0 true tokens)
    (h : ReadSame datasets factor datasets' factor' tokens) :
    (Interpretation.numeric datasets factor).evaluate tokens =
      (Interpretation.numeric datasets' factor').evaluate tokens := by
  rw [Interpretation.evaluate, Interpretation.evaluate]
  rcases ha.draft_or_missing with ⟨code, holes, hd⟩ | ⟨text, he⟩
  · rw [hd.toPostfix, ok_bind, ok_bind]
    exact Interpretation.run_congr fun t ht => h t ((hd.mem_code_iff t).1 ht).1
  · rw [he]
    rfl

/-- The answer depends on the datasets through their names and through the scaled series of those
that the expression refers to. -/
theorem solve_congr {expression : String}
    (hnames : datasets.map (·.name) = datasets'.map (·.name))
    (h : ∀ tokens, scan (datasets.map (·.name)) .numeric expression = .ok tokens →
      ReadSame datasets factor datasets' factor' tokens) :
    solve datasets factor expression = solve datasets' factor' expression := by
  rw [solve, solve, ← hnames]
  cases hs : (scan (datasets.map (·.name)) .numeric expression : Except (Error α) _) with
  | error e => rfl
  | ok tokens => exact (arranged_of_scan hs).evaluate_congr (h tokens hs)

end Runs

/-! ## The factor -/

/-- **The factor is a change of the data.** Let one be neutral from the right. The answer to an
expression over datasets and a factor, value or error, is the answer over the datasets with their
positions multiplied by the factor and one as the factor. No other law of the arithmetic is needed,
so this holds of doubles, for infinite factors and for those that are no numbers, too. -/
theorem factor_is_change_of_data (h : ∀ x : α, x * 1 = x) (datasets : List (Dataset α))
    (factor : α) (expression : String) :
    solve datasets factor expression = solve (datasets.map (·.scaleX factor)) 1 expression :=
  solve_congr (Dataset.names_scaleX datasets factor).symm fun _ _ _ _ i _ =>
    (Dataset.scaledAt_scaleX h datasets factor i).symm

/-- Two references by number and by name to one dataset, an integral and a derivative, and samples
that the second dataset has alone. -/
theorem factor_is_change_of_data_half :
    let a : Series Float := ⟨[⟨0, 1⟩, ⟨2, 3⟩, ⟨6, 2⟩]⟩
    let b : Series Float := ⟨[⟨0, 0⟩, ⟨2, 1⟩, ⟨4, 4⟩, ⟨6, 9⟩]⟩
    (∀ x : Float, x * 1 = x) ∧ ∃ s : Series Float,
      solve [⟨"a", a⟩, ⟨"b", b⟩] 0.5 "int([1]*a)-ddt(b)" = .ok (.series s) ∧
      solve [⟨"a", a.scaleX 0.5⟩, ⟨"b", b.scaleX 0.5⟩] 1 "int([1]*a)-ddt(b)" = .ok (.series s) ∧
      s.xs = [0, 1, 3] ∧ s.ys = [-1, 4, 13] := by
  intro a b
  let tokens : List (Token Float) :=
    [⟨.builtin .integral, "int", 0⟩, ⟨.openParen, "(", 3⟩, ⟨.dataset 0, "[1]", 4⟩,
      ⟨.operator .multiply, "*", 7⟩, ⟨.dataset 0, "a", 8⟩, ⟨.closeParen, ")", 9⟩,
      ⟨.operator .subtract, "-", 10⟩, ⟨.builtin .derivative, "ddt", 11⟩, ⟨.openParen, "(", 14⟩,
      ⟨.dataset 1, "b", 15⟩, ⟨.closeParen, ")", 16⟩]
  have hs : scan ["a", "b"] .numeric "int([1]*a)-ddt(b)" = .ok tokens := by
    with_unfolding_all rfl
  obtain ⟨s, hv, hx, hy⟩ : ∃ s : Series Float,
      solve [⟨"a", a⟩, ⟨"b", b⟩] 0.5 "int([1]*a)-ddt(b)" = .ok (.series s) ∧
        s.xs = [0, 1, 3] ∧ s.ys = [-1, 4, 13] := by
    rw [solve, List.map_cons, List.map_cons, List.map_nil, hs]
    exact ⟨_, rfl, by decide +kernel, by decide +kernel⟩
  have h := factor_is_change_of_data Double.mul_one [⟨"a", a⟩, ⟨"b", b⟩] 0.5 "int([1]*a)-ddt(b)"
  exact ⟨Double.mul_one, s, hv, h.symm.trans hv, hx, hy⟩

end SignalCalc
