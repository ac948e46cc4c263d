import SignalCalc.Expression.Solve
import SignalCalc.Proofs.Series.Columns
import SignalCalc.Proofs.Spectrum.Columns

/-!
# Expressions over columns

A program that keeps every series as two columns runs an expression on a stack of its own: the
values on it are numbers and columns, and operators and functions are the loops over columns. It
reads the text and puts the tokens in order as for series, and refuses what is refused there.

`Value.stored` says what such a program holds in place of a value. Every token does to the stored
stack what it does to the stack (`Columns.step_stored`), and from this the same holds of whole runs
by induction on the code.

Main statement: `Columns.solve_stored`.
-/

namespace SignalCalc

/-! ## Stored values -/

/-- The value of an expression over columns. -/
inductive StoredValue (α : Type) where
  | number (value : α)
  | columns (columns : Columns α)

/-- Columns under the name by which expressions refer to them. -/
structure StoredDataset (α : Type) where
  name : String
  columns : Columns α

/-- What is stored in place of a value. -/
def Value.stored {α : Type} : Value α → StoredValue α
  | number v => .number v
  | series s => .columns s.columns

/-- What is stored in place of a dataset. -/
def Dataset.stored {α : Type} (d : Dataset α) : StoredDataset α := ⟨d.name, d.series.columns⟩

/-! ## Operators -/

namespace StoredValue

variable {α : Type}

/-- The stored value with its sign changed. -/
def negate [Neg α] : StoredValue α → StoredValue α
  | number v => number (-v)
  | columns c => columns (c.mapY (- ·))

/-- What is stored in place of a value with its sign changed. -/
theorem negate_stored [Neg α] (v : Value α) : v.stored.negate = v.negate.stored := by
  cases v with
  | number a => rfl
  | series s => exact congrArg columns (s.columns_mapY _).symm

variable [Zero α] [One α] [Add α] [Sub α] [Mul α] [Div α] [OfScientific α] [Max α] [LT α]
  [DecidableLT α] [LE α] [DecidableLE α] [BEq α] [Elementary α]

/-- An operator applied to two stored values. -/
def binary (o : Operator) : StoredValue α → StoredValue α → Except (Fault α) (StoredValue α)
  | number a, number b => return number (o.apply a b)
  | number a, columns d => return columns (d.mapY (o.apply a ·))
  | columns c, number b => return columns (c.mapY (o.apply · b))
  | columns c, columns d => return columns (← c.combine d (o.onSamples?.getD o.apply))

/-- An operator on stored values has the stored result of the operator on the values. In particular
the walk over the columns of two series meets no index outside one. -/
theorem binary_stored (o : Operator) (v w : Value α) :
    binary o v.stored w.stored = .ok (Value.binary o v w).stored := by
  cases v with
  | number a =>
    cases w with
    | number b => rfl
    | series t => exact congrArg (fun c => Except.ok (columns c)) (t.columns_mapY _).symm
  | series s =>
    cases w with
    | number b => exact congrArg (fun c => Except.ok (columns c)) (s.columns_mapY _).symm
    | series t =>
      rw [Value.stored, Value.stored, binary, s.columns_combine]
      rfl

end StoredValue

/-! ## Functions -/

section Functions

variable {α : Type} [Zero α] [One α] [Neg α] [Add α] [Sub α] [Mul α] [Div α] [NatCast α]
  [OfScientific α] [LT α] [DecidableLT α] [LE α] [DecidableLE α] [BEq α] [Elementary α]

namespace Builtin

/-- A function applied to columns. Functions of one value act on every entry of the second one. -/
def onColumns (f : Builtin) (c : Columns α) : Except (Fault α) (Columns α) :=
  match f with
  | fft => c.amplitudeSpectrum .default
  | derivative => c.derivative
  | integral => c.integral
  | rms => c.rms
  | _ => .ok (f.onSamples?.elim c c.mapY)

/-- A function applied to a stored value. The text names it in the error. -/
def onStored (f : Builtin) (text : String) : StoredValue α → Except (Fault α) (StoredValue α)
  | .number v =>
    match (f.onNumber? : Option (α → α)) with
    | some g => .ok (.number (g v))
    | none => .error (.error (.notSeries text))
  | .columns c => return .columns (← f.onColumns c)

/-- A function on the columns of a series ends as on the series. -/
theorem onColumns_columns (f : Builtin) (s : Series α) :
    f.onColumns s.columns = Fault.lift ((f.onSeries s).map Series.columns) := by
  cases f with
  | fft => exact s.columns_amplitudeSpectrum .default
  | derivative => exact s.columns_derivative
  | integral => exact s.columns_integral
  | rms => exact s.columns_rms
  | _ => exact congrArg Except.ok (s.columns_mapY _).symm

/-- A function on a stored value ends as on the value, its error included. -/
theorem onStored_stored (f : Builtin) (text : String) (v : Value α) :
    f.onStored text v.stored = Fault.lift ((f.onValue text v).map Value.stored) := by
  cases v with
  | number a =>
    rw [Value.stored, onStored, onValue]
    cases (f.onNumber? : Option (α → α)) <;> rfl
  | series s =>
    rw [Value.stored, onStored, onValue, f.onColumns_columns]
    cases f.onSeries s <;> rfl

end Builtin

end Functions

/-! ## The stack machine -/

namespace Columns

variable {α : Type} [Zero α] [One α] [Neg α] [Add α] [Sub α] [Mul α] [Div α] [NatCast α]
  [OfScientific α] [Max α] [LT α] [DecidableLT α] [LE α] [DecidableLE α] [BEq α] [Elementary α]

/-- What one token does to the stack of stored values. -/
def step (datasets : List (StoredDataset α)) (factor : α) (stack : List (StoredValue α))
    (t : Token α) : Except (Fault α) (List (StoredValue α)) :=
  match t.kind, stack with
  | .number c, stack => .ok (.number c :: stack)
  | .dataset i, stack =>
    match datasets[i]? with
    | some d => .ok (.columns (d.columns.scaleX factor) :: stack)
    | none => .error (.error (.unknownDataset t.text))
  | .laplace, _ => .error (.error (.unknownDataset t.text))
  | .negate, v :: stack => .ok (v.negate :: stack)
  | .operator o, right :: left :: stack => do return (← StoredValue.binary o left right) :: stack
  | .builtin f, v :: stack => do return (← f.onStored t.text v) :: stack
  | .negate, [] | .operator _, [] | .operator _, [_] => .error (.error (.missingOperand t.text))
  | .builtin _, [] => .error (.error (.missingArgument t.text))
  | .openParen, _ | .closeParen, _ => .error (.error .unbalancedParentheses)

/-- The stored value of postfix code: what is left on the stack, if it is one value. -/
def run (datasets : List (StoredDataset α)) (factor : α) (code : List (Token α)) :
    Except (Fault α) (StoredValue α) := do
  match ← code.foldlM (step datasets factor) [] with
  | [v] => return v
  | [] => throw (.error .emptyExpression)
  | _ =>
    match code.getLast? with
    | some t => throw (.error (.missingOperator t.text t.position))
    | none => throw (.error (.missingOperator "" 0))

/-- The value of an expression over stored datasets whose positions are multiplied by a factor. -/
def solve (datasets : List (StoredDataset α)) (factor : α) (expression : String) :
    Except (Fault α) (StoredValue α) := do
  let tokens : List (Token α) ← Fault.lift (scan (datasets.map (·.name)) .numeric expression)
  let code ← Fault.lift (toPostfix tokens)
  run datasets factor code

variable (datasets : List (Dataset α)) (factor : α)

/-- **One token.** On the stored stack it does what it does on the stack, errors included, and no
index is outside a column. -/
theorem step_stored (stack : List (Value α)) (t : Token α) :
    step (datasets.map Dataset.stored) factor (stack.map Value.stored) t =
      Fault.lift
        (((Interpretation.numeric datasets factor).step stack t).map (·.map Value.stored)) := by
  obtain ⟨kind, text, position⟩ := t
  cases kind with
  | number c => rfl
  | dataset i =>
    simp only [step, Interpretation.step, Interpretation.numeric, List.getElem?_map]
    cases datasets[i]? with
    | none => rfl
    | some d =>
      exact congrArg (fun c => Except.ok (StoredValue.columns c :: _))
        (d.series.columns_scaleX factor).symm
  | laplace => rfl
  | negate =>
    cases stack with
    | nil => rfl
    | cons v stack => exact congrArg (fun w => Except.ok (w :: _)) (StoredValue.negate_stored v)
  | operator o =>
    rcases stack with _ | ⟨right, _ | ⟨left, stack⟩⟩
    · rfl
    · rfl
    · simp only [step, List.map_cons, StoredValue.binary_stored]
      rfl
  | builtin f =>
    cases stack with
    | nil => rfl
    | cons v stack =>
      simp only [step, Interpretation.step, Interpretation.numeric, List.map_cons]
      rw [f.onStored_stored]
      cases f.onValue text v <;> rfl
  | openParen | closeParen => rfl

/-- **A whole run**, by induction on the code from any stack. -/
theorem foldlM_step_stored (code : List (Token α)) (stack : List (Value α)) :
    code.foldlM (step (datasets.map Dataset.stored) factor) (stack.map Value.stored) =
      Fault.lift ((code.foldlM (Interpretation.numeric datasets factor).step stack).map
        (·.map Value.stored)) := by
  induction code generalizing stack with
  | nil => rfl
  | cons t code ih =>
    rw [List.foldlM_cons, List.foldlM_cons, step_stored]
    cases (Interpretation.numeric datasets factor).step stack t with
    | error e => rfl
    | ok stack => exact ih stack

/-- Postfix code over stored datasets has the stored value of the code, or its error. -/
theorem run_stored (code : List (Token α)) :
    run (datasets.map Dataset.stored) factor code =
      Fault.lift (((Interpretation.numeric datasets factor).run code).map Value.stored) := by
  have h := foldlM_step_stored datasets factor code []
  rw [List.map_nil] at h
  rw [run, Interpretation.run, h]
  rcases code.foldlM (Interpretation.numeric datasets factor).step [] with e | stack
  · rfl
  · -- two or more values are refused with the last token
    rcases stack with _ | ⟨v, _ | ⟨w, stack⟩⟩
    · rfl
    · rfl
    · cases code.getLast? <;> rfl

/-- An expression over stored datasets has the stored value of the expression, or its error. -/
theorem solve_stored (expression : String) :
    solve (datasets.map Dataset.stored) factor expression =
      Fault.lift ((SignalCalc.solve datasets factor expression).map Value.stored) := by
  have hnames : (datasets.map Dataset.stored).map (·.name) = datasets.map (·.name) := by
    rw [List.map_map]
    rfl
  rw [solve, SignalCalc.solve, hnames]
  cases (scan (datasets.map (·.name)) .numeric expression : Except (Error α) _) with
  | error e => rfl
  | ok tokens =>
    rw [Fault.lift_ok, ok_bind, ok_bind, Interpretation.evaluate]
    cases toPostfix tokens with
    | error e => rfl
    | ok code => exact run_stored datasets factor code

end Columns

end SignalCalc
