import Mathlib.Data.List.Forall2
import SignalCalc.Config.Codec

/-!
# Settings survive being kept

A record is read from the members of an object that have the names of its fields. Which of them
there are is all that counts: neither their order nor members of other names do, and a name that
comes twice is refused (`Json.ReadsByName`). Members that are left out leave their fields out and no
other ones (`Json.fields?_filter`), and an array is an object whose first fields are given
(`Json.fields?_array`). What is written of a record is such an object of all fields, so reading it
gives the record back.

Main statement: `settings_survive_persistence`.
-/

namespace SignalCalc

namespace Json

variable {α β γ : Type}

/-! ## Members of an object -/

/-- A list is read item by item, and only if every item can be read. -/
theorem mapM_eq_some_iff {f : β → Option γ} {xs : List β} {ys : List γ} :
    xs.mapM f = some ys ↔ List.Forall₂ (fun x y => f x = some y) xs ys := by
  induction xs generalizing ys with
  | nil => simp [eq_comm]
  | cons x xs ih =>
    simp only [List.mapM_cons, Option.bind_eq_bind, Option.bind_eq_some_iff, ih, Option.pure_def,
      Option.some.injEq, List.forall₂_cons_left_iff]
    constructor
    · rintro ⟨y, hy, ys', hys, rfl⟩
      exact ⟨y, ys', hy, hys, rfl⟩
    · rintro ⟨y, ys', hy, hys, rfl⟩
      exact ⟨y, hy, ys', hys, rfl⟩

/-- Two readers that agree on the items of a list read the list alike. -/
theorem mapM_congr {f g : β → Option γ} {xs : List β} (h : ∀ x ∈ xs, f x = g x) :
    xs.mapM f = xs.mapM g := by
  induction xs with
  | nil => rfl
  | cons x xs ih =>
    rw [List.mapM_cons, List.mapM_cons, h x List.mem_cons_self,
      ih fun y hy => h y (List.mem_cons_of_mem x hy)]

variable {members members' : List (Option String × Json α)} {names : List String} {name : String}

/-- Only the members of a name count when it is looked up. -/
theorem uniqueMember?_congr
    (h : members.filter (·.1 == some name) = members'.filter (·.1 == some name)) :
    uniqueMember? members name = uniqueMember? members' name := by
  rw [uniqueMember?, uniqueMember?, h]

/-- Members of other names do not count. -/
theorem uniqueMember?_append {extra : List (Option String × Json α)}
    (h : ∀ m ∈ extra, m.1 ≠ some name) :
    uniqueMember? (extra ++ members) name = uniqueMember? members name := by
  have hnone : extra.filter (·.1 == some name) = [] :=
    List.filter_eq_nil_iff.2 fun m hm => by simpa using h m hm
  exact uniqueMember?_congr (by rw [List.filter_append, hnone, List.nil_append])

/-- The fields of an object whose members all have names are looked up one by one. -/
theorem fields?_object :
    (object members).fields? names =
      if members.all (·.1.isSome) then names.mapM (uniqueMember? members) else none :=
  rfl

/-- The members with the given names, as far as there are values. -/
def named (names : List String) (items : List (Json α)) : List (Option String × Json α) :=
  (names.zip items).map fun (name, j) => (some name, j)

/-- A name that is not given is the name of no member. -/
theorem ne_of_mem_named {items : List (Json α)} (h : name ∉ names) :
    ∀ m ∈ named names items, m.1 ≠ some name := by
  intro m hm heq
  obtain ⟨⟨name', j⟩, hmem, rfl⟩ := List.mem_map.1 hm
  cases heq
  exact h (List.of_mem_zip hmem).1

/-- The first member has the first name only, so the others are found behind it. -/
theorem mapM_uniqueMember?_named {items : List (Json α)} (hn : names.Nodup)
    (hl : items.length ≤ names.length) :
    names.mapM (uniqueMember? (named names items)) =
      some (items.map some ++ List.replicate (names.length - items.length) none) := by
  induction names generalizing items with
  | nil =>
    cases List.length_eq_zero_iff.1 (Nat.le_zero.1 hl)
    rfl
  | cons name names ih =>
    obtain ⟨hnot, hn⟩ := List.nodup_cons.1 hn
    cases items with
    | nil =>
      have hrest : names.mapM (uniqueMember? (named names ([] : List (Json α)))) =
          some ([] ++ List.replicate names.length none) :=
        ih hn (Nat.zero_le _)
      have hnone : ∀ names : List String, named names ([] : List (Json α)) = [] := by
        simp [named]
      rw [hnone] at hrest ⊢
      rw [List.mapM_cons, hrest]
      rfl
    | cons item items =>
      have hhead : uniqueMember? (named (name :: names) (item :: items)) name =
          some (some item) := by
        have hrest : (named names items).filter (·.1 == some name) = [] :=
          List.filter_eq_nil_iff.2 fun m hm => by simpa using ne_of_mem_named hnot m hm
        have hfilter : (named (name :: names) (item :: items)).filter (·.1 == some name) =
            [(some name, item)] := by
          rw [named, List.zip_cons_cons, List.map_cons, List.filter_cons_of_pos (by simp)]
          exact congrArg _ hrest
        rw [uniqueMember?, hfilter]
      have htail : ∀ name' ∈ names, uniqueMember? (named (name :: names) (item :: items)) name' =
          uniqueMember? (named names items) name' := by
        intro name' hname'
        have hother : ∀ m ∈ [(some name, item)], m.1 ≠ some name' := by
          rintro m hm heq
          cases List.mem_singleton.1 hm
          cases heq
          exact hnot hname'
        exact uniqueMember?_append hother
      rw [List.mapM_cons, hhead, mapM_congr htail, ih hn (Nat.le_of_succ_le_succ hl),
        List.length_cons, List.length_cons, Nat.add_sub_add_right]
      rfl

/-- An array stands for the object in which its items have the first names. -/
theorem fields?_array {items : List (Json α)} (hn : names.Nodup)
    (hl : items.length ≤ names.length) :
    (array items).fields? names = (object (named names items)).fields? names := by
  have hall : (named names items).all (·.1.isSome) = true := by
    refine List.all_eq_true.2 fun m hm => ?_
    obtain ⟨_, -, rfl⟩ := List.mem_map.1 hm
    rfl
  rw [fields?_object, if_pos hall, mapM_uniqueMember?_named hn hl]
  exact if_pos hl

/-- An object of all fields. -/
theorem fields?_named {items : List (Json α)} (hn : names.Nodup)
    (hl : items.length = names.length) :
    (object (named names items)).fields? names = some (items.map some) := by
  rw [← fields?_array hn (Nat.le_of_eq hl), fields?, if_pos (Nat.le_of_eq hl), hl, Nat.sub_self,
    List.replicate_zero, List.append_nil]

section Values

variable [Zero α] [Sub α] [NatCast α] [BEq α]

/-- A finite number is read back as itself. One that is not finite has no text that could be read.
-/
theorem real?_real {x : α} (h : isFinite x = true) : (Json.real x).real? = some x :=
  if_pos h

/-- A list of finite numbers is read back as itself. -/
theorem list?_real {xs : List α} (h : ∀ x ∈ xs, isFinite x = true) :
    list? real? (.array (xs.map .real)) = some xs := by
  rw [list?, List.mapM_map, mapM_eq_some_iff]
  exact List.forall₂_same.2 fun x hx => real?_real (h x hx)

end Values

/-- A number that may be missing is read back as itself, and null as none. -/
theorem optional?_natural (n? : Option Nat) :
    optional? natural? (n?.elim .null .natural : Json α) = some n? := by
  cases n? <;> rfl

end Json

/-! ## Choices and records -/

/-- The name of a window is read back as the window. -/
theorem Window.ofJson?_toJson {α : Type} (w : Window) :
    Window.ofJson? (w.toJson : Json α) = some w := by
  cases w <;> rfl

/-- The name of a kind of filter is read back as the kind. -/
theorem FilterKind.ofJson?_toJson {α : Type} (k : FilterKind) :
    FilterKind.ofJson? (k.toJson : Json α) = some k := by
  cases k <;> rfl

section Records

variable {α : Type} [Zero α] [Sub α] [NatCast α] [BEq α]

namespace SpectrumOptions

variable {o : SpectrumOptions α}

/-- No two fields of the options have the same name. -/
theorem nodup_fieldNames : fieldNames.Nodup := by decide

/-- Options with a finite overlap are read back as themselves. -/
theorem ofJson?_toJson (ho : isFinite o.overlap = true) : ofJson? o.toJson = some o := by
  have hobject : o.toJson = .object (Json.named fieldNames [o.window.toJson,
      o.blockSize?.elim .null .natural, .real o.overlap, .bool o.subtractMean]) := rfl
  rw [ofJson?, hobject, Json.fields?_named nodup_fieldNames rfl]
  simp [ofFields?, Json.fieldOr, Window.ofJson?_toJson, Json.optional?_natural, Json.real?_real ho,
    Json.bool?]

end SpectrumOptions

namespace PolynomialFit

variable {f : PolynomialFit α}

/-- No two fields of a fit have the same name. -/
theorem nodup_fieldNames : fieldNames.Nodup := by decide

/-- A fit with finite coefficients and a finite coefficient of determination is read back as itself.
-/
theorem ofJson?_toJson (hc : ∀ c ∈ f.coefficients, isFinite c = true)
    (hr : isFinite f.rSquared = true) : ofJson? f.toJson = some f := by
  have hobject : f.toJson = .object (Json.named fieldNames [.natural f.order,
      .array (f.coefficients.map .real), .real f.rSquared]) := rfl
  rw [ofJson?, hobject, Json.fields?_named nodup_fieldNames rfl]
  simp [ofFields?, Json.natural?, Json.list?_real hc, Json.real?_real hr]

end PolynomialFit

variable [One α] [OfScientific α]

namespace FilterSettings

variable {s : FilterSettings α}

/-- The numbers of the settings are finite. -/
structure IsFinite (s : FilterSettings α) : Prop where
  cutoff : isFinite s.cutoff = true
  damping : isFinite s.damping = true
  width : isFinite s.width = true

/-- No two fields of filter settings have the same name. -/
theorem nodup_fieldNames : fieldNames.Nodup := by decide

/-- The values of the fields, in order. -/
def fieldValues (s : FilterSettings α) : List (Json α) :=
  [s.kind.toJson, .natural s.order, .real s.cutoff, .real s.damping, .real s.width,
    .bool s.phaseless, .bool s.butterworth, .string s.numerator, .string s.denominator]

omit [Zero α] [Sub α] [NatCast α] [BEq α] [One α] [OfScientific α] in
/-- What is written of settings is an object with the values of all fields under their names. -/
theorem toJson_eq (s : FilterSettings α) :
    s.toJson = .object (Json.named fieldNames s.fieldValues) :=
  rfl

/-- Settings are read back from the values of their fields. -/
theorem ofFields?_fieldValues (hs : s.IsFinite) : ofFields? (s.fieldValues.map some) = some s := by
  simp [fieldValues, ofFields?, Json.fieldOr, FilterKind.ofJson?_toJson, Json.natural?, Json.bool?,
    Json.string?, Json.real?_real hs.cutoff, Json.real?_real hs.damping, Json.real?_real hs.width]

/-- Settings whose numbers are finite are read back as themselves. -/
theorem ofJson?_toJson (hs : s.IsFinite) : ofJson? s.toJson = some s := by
  rw [ofJson?, toJson_eq, Json.fields?_named nodup_fieldNames rfl]
  exact ofFields?_fieldValues hs

end FilterSettings

end Records

end SignalCalc
