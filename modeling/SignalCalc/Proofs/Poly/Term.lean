import SignalCalc.Proofs.Double.Whole
import SignalCalc.Proofs.Expression.Symbolic

/-!
# Polynomials over doubles by their coefficients

Doubles have two zeros, so polynomials are compared by their coefficients as numbers (`Agrees`). A
sum has the sums of the coefficients, which are exact where one of the two is zero. Products are
taken here of single terms only: `IsTerm p n c` says that `p` is `c` times the power `n` of the
variable, and a product of terms is a term without a rounding beyond that of the two factors.

Main statements: `coeff_add`, `IsTerm.mul`, `IsTerm.pow`.
-/

namespace SignalCalc

open Double

/-- The same number, whichever of the two zeros it is. -/
def SameNumber (x y : Float) : Prop := x = y ∨ IsZero x ∧ IsZero y

/-- Being the same number is transitive. -/
theorem SameNumber.trans {x y z : Float} (h : SameNumber x y) (h' : SameNumber y z) :
    SameNumber x z := by
  rcases h with rfl | ⟨hx, hy⟩
  · exact h'
  · rcases h' with rfl | ⟨-, hz⟩
    · exact .inr ⟨hx, hy⟩
    · exact .inr ⟨hx, hz⟩

/-- Being the same number is symmetric. -/
theorem SameNumber.symm {x y : Float} (h : SameNumber x y) : SameNumber y x :=
  h.imp Eq.symm And.symm

/-- If one of two same numbers is a zero, then so is the other. -/
theorem SameNumber.isZero_iff {x y : Float} (h : SameNumber x y) : IsZero x ↔ IsZero y := by
  rcases h with rfl | ⟨hx, hy⟩
  · rfl
  · exact ⟨fun _ => hy, fun _ => hx⟩

/-- A zero does not change the other summand. -/
theorem SameNumber.zero_add {x y : Float} (h : IsZero x) : SameNumber (x + y) y := by
  by_cases hy : IsZero y
  · exact .inr ⟨h.add hy, hy⟩
  · exact .inl (h.add_eq hy)

/-- A zero does not change the other summand, on the right either. -/
theorem SameNumber.add_zero {x y : Float} (h : IsZero y) : SameNumber (x + y) x := by
  by_cases hx : IsZero x
  · exact .inr ⟨hx.add h, hx⟩
  · exact .inl (h.eq_add hx)

namespace Poly

/-! ## Coefficients -/

/-- Dropping zeros at the end leaves the numbers at all places. -/
theorem getD_dropTrailingZeros (cs : List Float) (k : Nat) :
    SameNumber ((dropTrailingZeros cs).getD k 0) (cs.getD k 0) := by
  induction cs generalizing k with
  | nil => exact .inl rfl
  | cons c cs ih =>
    unfold dropTrailingZeros
    split
    · next hd =>
      rw [hd] at ih
      split
      · next hc =>
        cases k with
        | zero => exact .inr ⟨isZero_zero, beq_zero_iff.1 hc⟩
        | succ k => exact ih k
      · cases k with
        | zero => exact .inl rfl
        | succ k => exact ih k
    · next d ds hd =>
      rw [hd] at ih
      cases k with
      | zero => exact .inl rfl
      | succ k => exact ih k

/-- A function that keeps zero can be taken of an entry behind the end. -/
theorem getD_map {f : Float → Float} (h : f 0 = 0) (cs : List Float) (k : Nat) :
    (cs.map f).getD k 0 = f (cs.getD k 0) := by
  rw [List.getD_eq_getElem?_getD, List.getD_eq_getElem?_getD, List.getElem?_map]
  cases cs[k]? with
  | none => exact h.symm
  | some c => rfl

/-- The entries of a sum of lists are sums. Behind the end they are sums with zero. -/
theorem getD_addLists (as bs : List Float) (k : Nat) :
    (addLists as bs).getD k 0 = as.getD k 0 + bs.getD k 0 := by
  induction as generalizing bs k with
  | nil =>
    cases bs with
    | nil => exact getD_map (f := (· + 0)) rfl [] k
    | cons b bs => exact getD_map (f := (0 + ·)) rfl (b :: bs) k
  | cons a as ih =>
    cases bs with
    | nil => exact getD_map (f := (· + 0)) rfl (a :: as) k
    | cons b bs =>
      cases k with
      | zero => rfl
      | succ k => exact ih bs k

/-- The coefficients of a sum. -/
theorem coeff_add (p q : Poly Float) (k : Nat) :
    SameNumber ((p + q).coeff k) (p.coeff k + q.coeff k) := by
  have h := getD_dropTrailingZeros (addLists p.coeffs q.coeffs) k
  rw [getD_addLists] at h
  exact h

/-- A list without zeros at its end is kept. -/
theorem dropTrailingZeros_append {cs : List Float} {c : Float} (h : ¬IsZero c) :
    dropTrailingZeros (cs ++ [c]) = cs ++ [c] := by
  have hc : ¬(c == 0) = true := fun hc => h (beq_zero_iff.1 hc)
  induction cs with
  | nil => simp [dropTrailingZeros, hc]
  | cons a cs ih =>
    rw [List.cons_append, dropTrailingZeros, ih]
    cases cs <;> rfl

/-- Polynomials with the same numbers as coefficients. -/
def Agrees (p q : Poly Float) : Prop := ∀ k, SameNumber (p.coeff k) (q.coeff k)

/-- Behind the last coefficient there are zeros. -/
theorem coeff_eq_zero {p : Poly Float} {k : Nat} (h : p.coeffs.length ≤ k) : p.coeff k = 0 := by
  rw [coeff, List.getD_eq_getElem?_getD, List.getElem?_eq_none h]
  rfl

/-- The coefficient of the highest power is no zero. -/
theorem not_isZero_leading {p : Poly Float} {n : Nat} (h : p.coeffs.length = n + 1) :
    ¬IsZero (p.coeff n) := by
  have hn : n < p.coeffs.length := by omega
  have hl : p.coeffs.getLast? = some p.coeffs[n] := by
    rw [List.getLast?_eq_getElem?, h, Nat.add_sub_cancel, List.getElem?_eq_getElem hn]
  have hc : p.coeff n = p.coeffs[n] := by
    rw [coeff, List.getD_eq_getElem?_getD, List.getElem?_eq_getElem hn]
    rfl
  rw [hc]
  intro hz
  have := p.noTrailingZero _ hl
  rw [beq_zero_iff.2 hz] at this
  cases this

/-- Polynomials that agree have the same number of coefficients. -/
theorem Agrees.length_eq {p q : Poly Float} (h : Agrees p q) :
    p.coeffs.length = q.coeffs.length := by
  have hle {p q : Poly Float} (h : Agrees p q) : p.coeffs.length ≤ q.coeffs.length := by
    cases hp : p.coeffs.length with
    | zero => exact Nat.zero_le _
    | succ n =>
      refine Nat.lt_of_not_le fun hq => not_isZero_leading hp ?_
      rw [(h n).isZero_iff, coeff_eq_zero hq]
      exact isZero_zero
  exact Nat.le_antisymm (hle h) (hle fun k => (h k).symm)

/-! ## Terms -/

/-- The polynomial is a number other than zero times a power of the variable. -/
def IsTerm (p : Poly Float) (n : Nat) (c : Float) : Prop :=
  ¬IsZero c ∧ ∃ zs : List Float, p.coeffs = zs ++ [c] ∧ zs.length = n ∧ ∀ z ∈ zs, IsZero z

/-- A list of zeros and a last number that is none is a term. -/
theorem isTerm_ofList {zs : List Float} {c : Float} (hz : ∀ z ∈ zs, IsZero z) (hc : ¬IsZero c) :
    IsTerm (ofList (zs ++ [c])) zs.length c :=
  ⟨hc, zs, dropTrailingZeros_append hc, rfl, hz⟩

/-- A constant that is not zero is a term. -/
theorem isTerm_const {c : Float} (hc : ¬IsZero c) : IsTerm (const c) 0 c := by
  have hz : ∀ z ∈ ([] : List Float), IsZero z := nofun
  exact isTerm_ofList hz hc

/-- The variable is a term. -/
theorem isTerm_s : IsTerm s 1 1 := by
  have hz : ∀ z ∈ [(0 : Float)], IsZero z := by simp [isZero_zero]
  exact isTerm_ofList hz not_isZero_one

variable {p q : Poly Float} {n m : Nat} {a b c : Float}

/-- The coefficient of a term. -/
theorem IsTerm.coeff_self (h : IsTerm p n c) : p.coeff n = c := by
  obtain ⟨-, zs, hp, rfl, -⟩ := h
  simp [coeff, hp]

/-- All other coefficients of a term are zeros. -/
theorem IsTerm.isZero_coeff (h : IsTerm p n c) {k : Nat} (hk : k ≠ n) : IsZero (p.coeff k) := by
  obtain ⟨-, zs, hp, rfl, hz⟩ := h
  rw [coeff, hp, List.getD_eq_getElem?_getD]
  rcases Nat.lt_or_ge k zs.length with h | h
  · rw [List.getElem?_append_left h, List.getElem?_eq_getElem h]
    exact hz _ (List.getElem_mem h)
  · rw [List.getElem?_eq_none (by simp; omega)]
    exact isZero_zero

/-- The degree of a term is its power. -/
theorem IsTerm.natDegree (h : IsTerm p n c) : p.natDegree = n := by
  obtain ⟨-, zs, hp, rfl, -⟩ := h
  unfold Poly.natDegree degree?
  rw [hp]
  cases zs <;> simp

/-- A term of power zero is a constant. -/
theorem IsTerm.const?_zero (h : IsTerm p 0 c) : p.const? = some c := by
  obtain ⟨-, zs, hp, hl, -⟩ := h
  cases List.eq_nil_of_length_eq_zero hl
  simp [Poly.const?, hp]

/-- A term of a positive power is no constant. -/
theorem IsTerm.const?_succ (h : IsTerm p (n + 1) c) : p.const? = none := by
  obtain ⟨-, zs, hp, hl, -⟩ := h
  match zs, hl with
  | [z], _ => simp [Poly.const?, hp]
  | _ :: _ :: _, _ => simp [Poly.const?, hp]

/-- The negative of a term. -/
theorem IsTerm.neg (h : IsTerm p n c) : IsTerm (-p) n (-c) := by
  obtain ⟨hc, zs, hp, rfl, hz⟩ := h
  have hn : -p = ofList (zs.map (· * -1) ++ [-c]) := by
    show ofList (p.coeffs.map (· * -1)) = _
    rw [hp, List.map_append, List.map_singleton, Double.mul_neg_one]
  rw [hn, ← List.length_map (f := (· * (-1 : Float)))]
  refine isTerm_ofList ?_ fun h => hc ?_
  · rintro z hz'
    obtain ⟨z, hm, rfl⟩ := List.mem_map.1 hz'
    rw [Double.mul_neg_one]
    exact (hz z hm).neg
  · rw [← Double.neg_neg c]
    exact h.neg

/-! ## Products of terms -/

/-- Multiples that are zeros leave zeros. -/
theorem isZero_addMultiples {sums bs : List Float} (hs : ∀ s ∈ sums, IsZero s)
    (hb : ∀ b ∈ bs, IsZero (a * b)) :
    (∀ s ∈ addMultiples a sums bs, IsZero s) ∧ (addMultiples a sums bs).length = sums.length := by
  induction bs generalizing sums with
  | nil => cases sums <;> exact ⟨hs, rfl⟩
  | cons b bs ih =>
    cases sums with
    | nil => exact ⟨hs, rfl⟩
    | cons s sums =>
      obtain ⟨hs₀, hs⟩ := List.forall_mem_cons.1 hs
      obtain ⟨hb₀, hb⟩ := List.forall_mem_cons.1 hb
      obtain ⟨hi, hl⟩ := ih hs hb
      exact ⟨List.forall_mem_cons.2 ⟨hs₀.add hb₀, hi⟩, congrArg (· + 1) hl⟩

/-- Of the multiples of a term the one of its coefficient is left. -/
theorem addMultiples_term {sums ws : List Float} (hs : ∀ s ∈ sums, IsZero s)
    (hl : sums.length = ws.length + 1) (hw : ∀ w ∈ ws, IsZero (a * w)) (hab : ¬IsZero (a * b)) :
    ∃ zs, addMultiples a sums (ws ++ [b]) = zs ++ [a * b] ∧ zs.length = ws.length ∧
      ∀ z ∈ zs, IsZero z := by
  induction ws generalizing sums with
  | nil =>
    match sums, hl with
    | [s], _ =>
      refine ⟨[], ?_, rfl, nofun⟩
      show [s + a * b] = [a * b]
      rw [(hs s (by simp)).add_eq hab]
  | cons w ws ih =>
    match sums, hl with
    | s :: sums, hl =>
      obtain ⟨hs₀, hs⟩ := List.forall_mem_cons.1 hs
      obtain ⟨hw₀, hw⟩ := List.forall_mem_cons.1 hw
      obtain ⟨zs, he, hn, hz⟩ := ih hs (by simpa using hl) hw
      refine ⟨(s + a * w) :: zs, ?_, by simp [hn], List.forall_mem_cons.2 ⟨hs₀.add hw₀, hz⟩⟩
      show (s + a * w) :: addMultiples a sums (ws ++ [b]) = _
      rw [he]
      rfl

/-- The first entry of a product is settled by the first round, and the others by the rest. -/
theorem mulLists_cons {sums sums' as bs : List Float} {s : Float}
    (h : addMultiples a sums bs = s :: sums') :
    mulLists sums (a :: as) bs = s :: mulLists sums' as bs := by
  rw [mulLists, h]

/-- The products of the coefficients of two terms: zeros, and the product of the last ones. -/
theorem mulLists_term {zs ws sums : List Float} (hz : ∀ z ∈ zs, IsZero z)
    (hw : ∀ w ∈ ws, IsZero w) (hs : ∀ s ∈ sums, IsZero s)
    (hl : sums.length = zs.length + ws.length + 1) (ha : isFinite a = true)
    (hb : isFinite b = true) (hab : ¬IsZero (a * b)) :
    ∃ xs, mulLists sums (zs ++ [a]) (ws ++ [b]) = xs ++ [a * b] ∧
      xs.length = zs.length + ws.length ∧ ∀ x ∈ xs, IsZero x := by
  induction zs generalizing sums with
  | nil =>
    obtain ⟨xs, he, hn, hx⟩ :=
      addMultiples_term hs (by simpa using hl) (fun w h => (hw w h).of_mul ha) hab
    refine ⟨xs, ?_, by simpa using hn, hx⟩
    cases xs <;> exact mulLists_cons he
  | cons z zs ih =>
    obtain ⟨hz₀, hz⟩ := List.forall_mem_cons.1 hz
    have hb' : ∀ x ∈ ws ++ [b], isFinite x = true :=
      List.forall_mem_append.2 ⟨fun w h => isFinite_of_isZero (hw w h), by simpa using hb⟩
    -- The multiples of this coefficient leave zeros, and the first of them is a result already.
    obtain ⟨hs', hl'⟩ := isZero_addMultiples hs fun x h => hz₀.mul (hb' x h)
    cases hm : addMultiples z sums (ws ++ [b]) with
    | nil =>
      rw [hm, hl] at hl'
      cases hl'
    | cons s sums' =>
      rw [hm] at hs' hl'
      obtain ⟨hs₀, hs'⟩ := List.forall_mem_cons.1 hs'
      simp only [List.length_cons] at hl' hl
      obtain ⟨xs, he, hn, hx⟩ := ih hz hs' (by omega)
      refine ⟨s :: xs, ?_, by simp only [List.length_cons]; omega, List.forall_mem_cons.2 ⟨hs₀, hx⟩⟩
      rw [List.cons_append, mulLists_cons hm, he]
      rfl

/-- A product of terms is a term. -/
theorem IsTerm.mul (h : IsTerm p n a) (h' : IsTerm q m b) (ha : isFinite a = true)
    (hb : isFinite b = true) (hab : ¬IsZero (a * b)) : IsTerm (p * q) (n + m) (a * b) := by
  obtain ⟨-, zs, hp, rfl, hz⟩ := h
  obtain ⟨-, ws, hq, rfl, hw⟩ := h'
  have hs : ∀ s ∈ List.replicate (zs.length + ws.length + 1) (0 : Float), IsZero s := by
    intro s hs
    rw [List.eq_of_mem_replicate hs]
    exact isZero_zero
  obtain ⟨xs, he, hl, hx⟩ := mulLists_term hz hw hs (by simp) ha hb hab
  have hm : p * q = ofList (xs ++ [a * b]) := by
    show (if p.isZero || q.isZero then 0 else ofList (mulLists
      (List.replicate (p.coeffs.length + q.coeffs.length - 1) 0) p.coeffs q.coeffs)) = _
    rw [if_neg (by simp [isZero, hp, hq]), hp, hq, ← he]
    congr 2
    simp
    omega
  rw [hm, ← hl]
  exact isTerm_ofList hx hab

/-! ## Powers -/

/-- A power of `s` or of `-s`: the sign is left if the exponent is odd. -/
theorem IsTerm.pow (h : IsTerm p 1 c) (hc : c = 1 ∨ c = -1) (n : Nat) :
    IsTerm (p.pow n) n (if n % 2 = 0 then 1 else c) := by
  have hf : isFinite c = true ∧ isFinite (1 : Float) = true := by
    rcases hc with rfl | rfl <;> decide
  induction n with
  | zero => exact isTerm_const not_isZero_one
  | succ n ih =>
    have hn : (if n % 2 = 0 then 1 else c) * c = if (n + 1) % 2 = 0 then 1 else c := by
      rcases Nat.mod_two_eq_zero_or_one n with hn | hn
      · rw [if_pos hn, if_neg (by omega), Double.one_mul]
      · rw [if_neg (by omega), if_pos (by omega)]
        rcases hc with rfl | rfl
        · exact Double.mul_one 1
        · rw [Double.mul_neg_one, Double.neg_neg]
    have hf' : isFinite (if n % 2 = 0 then 1 else c) = true := by
      split
      · exact hf.2
      · exact hf.1
    have hz : ¬IsZero (if (n + 1) % 2 = 0 then 1 else c) := by
      split
      · exact not_isZero_one
      · exact h.1
    rw [← hn] at hz ⊢
    exact ih.mul h hf' hf.1 hz

/-- A power with an exponent up to the highest degree is taken. -/
theorem power_const (h : IsTerm p 1 c) {n : Nat} (hn : 0 < n) (hm : n ≤ maxDegree) :
    p.power (const (OfScientific.ofScientific n false 0)) = .ok (p.pow n) := by
  have hsmall : n < 2 ^ 52 := hm.trans_lt (by decide)
  obtain ⟨hfinite, hvalue⟩ := value_ofNat (n := n) (by omega)
  have hself : (Float.ofNat n == Float.ofNat n) = true := (beq_iff_value hfinite hfinite).2 rfl
  obtain ⟨hneg, hwhole, hround⟩ := roundToNat_of_beq hsmall hself
  have hzero : ¬IsZero (Float.ofNat n) := by
    intro hz
    rw [hz.value_eq, eq_comm, Nat.cast_eq_zero] at hvalue
    omega
  have hofNat : (OfScientific.ofScientific n false 0 : Float) = Float.ofNat n := rfl
  rw [hofNat]
  refine power_eq_ok_iff.2
    ⟨_, (isTerm_const hzero).const?_zero, .inr ⟨h.const?_succ, hneg, hwhole, ?_, ?_⟩⟩
  · rw [hround, h.natDegree, Nat.one_mul]
    exact hm
  · rw [hround]

end Poly

end SignalCalc
