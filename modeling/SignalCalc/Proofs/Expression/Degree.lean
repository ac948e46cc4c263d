import SignalCalc.Expression.Solve
import SignalCalc.Proofs.Double.Whole
import SignalCalc.Proofs.Expression.Evaluation
import SignalCalc.Proofs.Expression.Symbolic
import SignalCalc.Proofs.Poly.Degree

/-!
# Degrees of symbolic values

No value of a symbolic expression exceeds the highest degree. Products are checked after they have
been multiplied out and powers before, and nothing else raises a degree, so the bound is an
invariant of the stack machine (`Interpretation.Preserves.foldlM`). A power is multiplied out for
exponents that are natural numbers, and the checks keep both the exponent and all partial products
to the highest degree (`Poly.IsExponent`). None of this depends on what the coefficients are.

Main statement: `symbolic_values_are_bounded`.
-/

namespace SignalCalc

/-! ## Invariants of the stack machine -/

section Invariant

variable {α V : Type} [Zero α] [BEq α]

/-- Every operation that gives a value gives one with the property, if its operands have it. -/
structure Interpretation.Preserves (m : Interpretation α V) (P : V → Prop) : Prop where
  number (c : α) : P (m.number c)
  dataset {i : Nat} {text : String} {v : V} : m.dataset i text = .ok v → P v
  laplace {text : String} {v : V} : m.laplace text = .ok v → P v
  negate {v w : V} : P v → m.negate v = .ok w → P w
  binary {o : Operator} {a b v : V} : P a → P b → m.binary o a b = .ok v → P v
  builtin {f : Builtin} {text : String} {v w : V} : P v → m.builtin f text v = .ok w → P w

namespace Interpretation.Preserves

variable {m : Interpretation α V} {P : V → Prop} (hm : m.Preserves P)

include hm

/-- One token leaves a stack of values with the property. -/
theorem step {t : Token α} {stack stack' : List V} (h : m.step stack t = .ok stack')
    (hs : ∀ v ∈ stack, P v) : ∀ v ∈ stack', P v := by
  obtain ⟨kind, text, position⟩ := t
  cases kind with
  | number c =>
    cases h
    exact List.forall_mem_cons.2 ⟨hm.number c, hs⟩
  | dataset i =>
    obtain ⟨v, hv, hr⟩ := bind_eq_ok_iff.1 h
    cases hr
    exact List.forall_mem_cons.2 ⟨hm.dataset hv, hs⟩
  | laplace =>
    obtain ⟨v, hv, hr⟩ := bind_eq_ok_iff.1 h
    cases hr
    exact List.forall_mem_cons.2 ⟨hm.laplace hv, hs⟩
  | negate =>
    cases stack with
    | nil => cases h
    | cons v stack =>
      obtain ⟨w, hw, hr⟩ := bind_eq_ok_iff.1 h
      cases hr
      obtain ⟨hv, hs⟩ := List.forall_mem_cons.1 hs
      exact List.forall_mem_cons.2 ⟨hm.negate hv hw, hs⟩
  | operator o =>
    rcases stack with - | ⟨b, - | ⟨a, stack⟩⟩
    · cases h
    · cases h
    · obtain ⟨v, hv, hr⟩ := bind_eq_ok_iff.1 h
      cases hr
      obtain ⟨hb, hs⟩ := List.forall_mem_cons.1 hs
      obtain ⟨ha, hs⟩ := List.forall_mem_cons.1 hs
      exact List.forall_mem_cons.2 ⟨hm.binary ha hb hv, hs⟩
  | builtin f =>
    cases stack with
    | nil => cases h
    | cons v stack =>
      obtain ⟨w, hw, hr⟩ := bind_eq_ok_iff.1 h
      cases hr
      obtain ⟨hv, hs⟩ := List.forall_mem_cons.1 hs
      exact List.forall_mem_cons.2 ⟨hm.builtin hv hw, hs⟩
  | openParen | closeParen => cases stack <;> cases h

/-- So does any code. -/
theorem foldlM {code : List (Token α)} {stack stack' : List V}
    (h : code.foldlM m.step stack = .ok stack') (hs : ∀ v ∈ stack, P v) : ∀ v ∈ stack', P v := by
  induction code generalizing stack with
  | nil =>
    cases h
    exact hs
  | cons t code ih =>
    rw [List.foldlM_cons] at h
    obtain ⟨s, ht, h⟩ := bind_eq_ok_iff.1 h
    exact ih h (hm.step ht hs)

/-- What is left of code at its end has the property. -/
theorem run {code : List (Token α)} {v : V} (h : m.run code = .ok v) : P v := by
  obtain ⟨stack, hs, h⟩ := bind_eq_ok_iff.1 h
  have hall := hm.foldlM hs (List.forall_mem_nil P)
  rcases stack with - | ⟨w, - | ⟨w', stack⟩⟩
  · cases h
  · cases h
    exact hall v List.mem_cons_self
  · dsimp only at h
    split at h <;> cases h

/-- The value of any tokens has the property, since all values on the stack have it. -/
theorem evaluate {tokens : List (Token α)} {v : V} (h : m.evaluate tokens = .ok v) : P v := by
  obtain ⟨code, -, h⟩ := bind_eq_ok_iff.1 h
  exact hm.run h

/-- The value of a tree has the property, as the value of its postfix code. -/
theorem evaluate_tree {tree : Tree α} {v : V} (h : tree.evaluate m = .ok v) : P v :=
  hm.run ((m.run_postorder tree).trans h)

end Interpretation.Preserves

end Invariant

/-! ## Operators on polynomials -/

namespace Poly

section Degree

variable {α : Type} [Zero α] [BEq α] {p q r : Poly α}

/-- A function has a constant as its value. -/
theorem natDegree_of_builtin [Elementary α] {f : Builtin} {text : String}
    (h : builtin f text p = .ok r) : r.natDegree = 0 := by
  obtain ⟨c, g, -, -, rfl⟩ := builtin_eq_ok_iff.1 h
  exact natDegree_const (g c)

variable [One α] [Add α] [Sub α] [Mul α] [LT α] [DecidableLT α] [Elementary α]

/-- A power that is computed is within the greatest degree. -/
theorem natDegree_of_power (h : p.power q = .ok r) : r.natDegree ≤ maxDegree := by
  obtain ⟨e, -, ⟨base, -, rfl⟩ | ⟨-, -, -, hfits, rfl⟩⟩ := power_eq_ok_iff.1 h
  · rw [natDegree_const]
    exact Nat.zero_le _
  · have hpow := p.natDegree_pow_le (Elementary.roundToNat e)
    rw [Nat.mul_comm] at hpow
    exact hpow.trans hfits

variable [Neg α] [Div α]

/-- Only products and powers can raise degrees, and these are checked. -/
theorem natDegree_of_binary {o : Operator} (hp : p.natDegree ≤ maxDegree)
    (hq : q.natDegree ≤ maxDegree) (h : binary o p q = .ok r) : r.natDegree ≤ maxDegree := by
  cases o with
  | add =>
    cases h
    exact (natDegree_add_le p q).trans (max_le hp hq)
  | subtract =>
    cases h
    exact (natDegree_sub_le p q).trans (max_le hp hq)
  | multiply =>
    obtain ⟨hle, rfl⟩ := checkDegree_eq_ok_iff.1 h
    exact hle
  | divide =>
    obtain ⟨c, -, -, -, rfl⟩ := divide_eq_ok_iff.1 h
    exact (p.natDegree_scale_le _).trans hp
  | modulo => cases h
  | power => exact natDegree_of_power h

end Degree

end Poly

/-- The highest degree is an invariant of symbolic values, whatever numbers occur in them. -/
theorem Interpretation.preserves_symbolic {α : Type} [Zero α] [One α] [Neg α] [Add α] [Sub α]
    [Mul α] [Div α] [NatCast α] [LT α] [DecidableLT α] [BEq α] [Elementary α] :
    (symbolic : Interpretation α (Poly α)).Preserves fun p => p.natDegree ≤ Poly.maxDegree where
  number c := by
    rw [symbolic, Poly.natDegree_const]
    exact Nat.zero_le _
  dataset h := by cases h
  laplace h := by
    cases h
    exact Poly.natDegree_s_le.trans (by decide)
  negate hp h := by
    cases h
    exact (Poly.natDegree_neg_le _).trans hp
  binary hp hq h := Poly.natDegree_of_binary hp hq h
  builtin _ h := by
    rw [Poly.natDegree_of_builtin h]
    exact Nat.zero_le _

/-! ## Exponents -/

namespace Poly

open Double

/-- The exponent of a power that is multiplied out: the constant is a natural number at which the
power of the base keeps to the highest degree. -/
structure IsExponent (p q : Poly Float) (e : Float) (n : Nat) : Prop where
  base_not_const : p.const? = none
  const?_eq : q.const? = some e
  natural : (Float.ofNat n == e) = true
  fits : p.natDegree * n ≤ maxDegree

namespace IsExponent

variable {p q : Poly Float} {e : Float} {n : Nat} (h : IsExponent p q e n)

include h

/-- The exponent is at most the greatest degree, since the base is no constant. -/
theorem le_maxDegree : n ≤ maxDegree :=
  (Nat.le_mul_of_pos_left n ((const?_eq_none_iff p).1 h.base_not_const)).trans h.fits

/-- The constant is rounded to the exponent. -/
theorem roundToNat_eq : Elementary.roundToNat e = n :=
  (roundToNat_of_beq (h.le_maxDegree.trans_lt (by decide)) h.natural).2.2

/-- A short word has room for the exponent. -/
theorem toUInt32_eq : e.toUInt32.toNat = n := by
  have hn : n < 2 ^ 52 := h.le_maxDegree.trans_lt (by decide)
  obtain ⟨hneg, hwhole, hround⟩ := roundToNat_of_beq hn h.natural
  have hn' : n < UInt32.size := h.le_maxDegree.trans_lt (by decide)
  exact ((hround ▸ isWhole_roundToNat hneg hwhole).of_lt hn').2

/-- The partial products of a power keep to the highest degree as the power itself does. -/
theorem natDegree_pow_le {k : Nat} (hk : k ≤ n) : (p.pow k).natDegree ≤ maxDegree :=
  calc (p.pow k).natDegree ≤ k * p.natDegree := p.natDegree_pow_le k
    _ ≤ n * p.natDegree := Nat.mul_le_mul_right _ hk
    _ = p.natDegree * n := Nat.mul_comm _ _
    _ ≤ maxDegree := h.fits

end IsExponent

variable {p q r : Poly Float}

/-- The two checks pass exactly the natural numbers that keep the power to the highest degree. -/
theorem isExponent_iff {e : Float} {n : Nat} :
    IsExponent p q e n ↔ p.const? = none ∧ q.const? = some e ∧ ¬e < 0 ∧
      (e - Elementary.floor e == 0) = true ∧ p.natDegree * n ≤ maxDegree ∧
        n = Elementary.roundToNat e := by
  constructor
  · intro h
    obtain ⟨hneg, hwhole, hround⟩ :=
      roundToNat_of_beq (h.le_maxDegree.trans_lt (by decide)) h.natural
    exact ⟨h.base_not_const, h.const?_eq, hneg, hwhole, h.fits, hround.symm⟩
  · rintro ⟨hp, hq, hneg, hwhole, hfits, rfl⟩
    refine ⟨hp, hq, ?_, hfits⟩
    have hn := (Nat.le_mul_of_pos_left _ ((const?_eq_none_iff p).1 hp)).trans hfits
    exact ((isWhole_roundToNat hneg hwhole).of_lt (hn.trans_lt (by decide))).1

/-- A power is that of two constants, or it is multiplied out. -/
theorem power_eq_ok_iff_isExponent :
    p.power q = .ok r ↔
      (∃ base e, p.const? = some base ∧ q.const? = some e ∧ r = const (base.pow e)) ∨
        ∃ e n, IsExponent p q e n ∧ r = p.pow n := by
  rw [power_eq_ok_iff]
  constructor
  · rintro ⟨e, hq, ⟨base, hp, rfl⟩ | ⟨hp, hneg, hwhole, hfits, rfl⟩⟩
    · exact .inl ⟨base, e, hp, hq, rfl⟩
    · exact .inr ⟨e, _, isExponent_iff.2 ⟨hp, hq, hneg, hwhole, hfits, rfl⟩, rfl⟩
  · rintro (⟨base, e, hp, hq, rfl⟩ | ⟨e, n, h, rfl⟩)
    · exact ⟨e, hq, .inl ⟨base, hp, rfl⟩⟩
    · obtain ⟨hp, hq, hneg, hwhole, hfits, rfl⟩ := isExponent_iff.1 h
      exact ⟨e, hq, .inr ⟨hp, hneg, hwhole, hfits, rfl⟩⟩

/-- The check of a power's degree can be made on doubles: the product of the degree and the exponent
is above the highest degree for both or neither, however great the exponent is. -/
theorem lt_degree_mul_iff (hp : p.const? = none) (hp' : p.natDegree ≤ maxDegree) {e : Float}
    (hneg : ¬e < 0) (hwhole : (e - Elementary.floor e == 0) = true) :
    Float.ofNat maxDegree < Float.ofNat p.natDegree * e ↔
      maxDegree < p.natDegree * Elementary.roundToNat e :=
  (isWhole_roundToNat hneg hwhole).lt_mul_iff ((const?_eq_none_iff p).1 hp) hp' (by decide)

end Poly

/-- **Symbolic values are bounded.** Whatever code runs, no polynomial on the stack exceeds the
highest degree; so it is with the values of trees and their parts, and with what an expression is
solved to. Of polynomials that keep to it, a product has at most twice the highest degree before it
is checked, and it is given out just if it keeps to it. A power is that of two constants, or it is
multiplied out for an exponent that is a natural number, not above the highest degree, and the same
as a word; then no partial product exceeds the highest degree. Comparing doubles instead of natural
numbers would not change the check of a power. -/
theorem symbolic_values_are_bounded :
    (∀ (code : List (Token Float)) (stack : List (Poly Float)),
      code.foldlM Interpretation.symbolic.step [] = .ok stack →
        ∀ p ∈ stack, p.natDegree ≤ Poly.maxDegree) ∧
    (∀ (tree : Tree Float) (p : Poly Float),
      tree.evaluate Interpretation.symbolic = .ok p → p.natDegree ≤ Poly.maxDegree) ∧
    (∀ (names : List String) (expression : String) (p : Poly Float),
      solvePoly names expression = .ok p → p.natDegree ≤ Poly.maxDegree) ∧
    ∀ p q : Poly Float, p.natDegree ≤ Poly.maxDegree → q.natDegree ≤ Poly.maxDegree →
      ((p * q).natDegree ≤ 2 * Poly.maxDegree ∧
        ∀ r, Poly.binary .multiply p q = .ok r ↔ r.natDegree ≤ Poly.maxDegree ∧ r = p * q) ∧
      (∀ r, Poly.binary .power p q = .ok r ↔
        (∃ base e, p.const? = some base ∧ q.const? = some e ∧ r = Poly.const (base.pow e)) ∨
          ∃ e n, Poly.IsExponent p q e n ∧ r = p.pow n) ∧
      (∀ e n, Poly.IsExponent p q e n →
        Elementary.roundToNat e = n ∧ e.toUInt32.toNat = n ∧ n ≤ Poly.maxDegree ∧
          ∀ k ≤ n, (p.pow k).natDegree ≤ Poly.maxDegree) ∧
      ∀ e, p.const? = none → ¬e < 0 → (e - Elementary.floor e == 0) = true →
        (Float.ofNat Poly.maxDegree < Float.ofNat p.natDegree * e ↔
          Poly.maxDegree < p.natDegree * Elementary.roundToNat e) := by
  have hm := Interpretation.preserves_symbolic (α := Float)
  refine ⟨fun code stack h => ?_, fun tree p h => hm.evaluate_tree h,
    fun names expression p h => ?_, fun p q hp hq => ⟨⟨?_, fun r => ?_⟩, fun r => ?_, ?_, ?_⟩⟩
  · exact hm.foldlM h (List.forall_mem_nil _)
  · obtain ⟨tokens, -, h⟩ := bind_eq_ok_iff.1 h
    exact hm.evaluate h
  · calc (p * q).natDegree ≤ p.natDegree + q.natDegree := Poly.natDegree_mul_le p q
      _ ≤ Poly.maxDegree + Poly.maxDegree := Nat.add_le_add hp hq
      _ = 2 * Poly.maxDegree := (Nat.two_mul _).symm
  · rw [Poly.binary, Poly.checkDegree_eq_ok_iff]
    constructor
    · rintro ⟨hle, rfl⟩
      exact ⟨hle, rfl⟩
    · rintro ⟨hle, rfl⟩
      exact ⟨hle, rfl⟩
  · exact Poly.power_eq_ok_iff_isExponent
  · intro e n h
    exact ⟨h.roundToNat_eq, h.toUInt32_eq, h.le_maxDegree, fun k hk => h.natDegree_pow_le hk⟩
  · intro e hconst hneg hwhole
    exact Poly.lt_degree_mul_iff hconst hp hneg hwhole

/-- The third power of a polynomial with a coefficient that has overflowed, and its exponent. -/
theorem symbolic_values_are_bounded_overflow :
    (∃ p : Poly Float, solvePoly [] "(1e300*1e300*s-2)^3" = .ok p ∧ p.natDegree = 3 ∧
      p.natDegree ≤ Poly.maxDegree) ∧
    ∃ p q : Poly Float, p.natDegree = 1 ∧ Poly.IsExponent p q 3 3 ∧
      (3 : Float).toUInt32.toNat = 3 ∧ ∀ k ≤ 3, (p.pow k).natDegree ≤ Poly.maxDegree := by
  obtain ⟨-, -, hsolve, hoperators⟩ := symbolic_values_are_bounded
  constructor
  · have hdegree : (solvePoly (α := Float) [] "(1e300*1e300*s-2)^3").toOption.map
        Poly.natDegree = some 3 := by
      decide +kernel
    cases h : solvePoly (α := Float) [] "(1e300*1e300*s-2)^3" with
    | error e =>
      rw [h] at hdegree
      cases hdegree
    | ok p =>
      rw [h] at hdegree
      exact ⟨p, rfl, Option.some.inj hdegree, hsolve _ _ _ h⟩
  · have hp : (Poly.ofList [-2, 1e300 * 1e300] : Poly Float).natDegree = 1 := by decide +kernel
    have hq : (Poly.const 3 : Poly Float).natDegree = 0 := Poly.natDegree_const 3
    have h : Poly.IsExponent (.ofList [-2, 1e300 * 1e300]) (.const 3) 3 3 := by
      constructor
      case base_not_const => rw [Poly.const?_eq_none_iff, hp]; exact Nat.one_pos
      case const?_eq => decide +kernel
      case natural => decide +kernel
      case fits => rw [hp]; decide
    have hp' := hp.trans_le (by decide : 1 ≤ Poly.maxDegree)
    have hq' := hq.trans_le (Nat.zero_le Poly.maxDegree)
    obtain ⟨-, -, hexponent, -⟩ := hoperators _ _ hp' hq'
    obtain ⟨-, hword, -, hpartial⟩ := hexponent 3 3 h
    exact ⟨_, _, hp, h, hword, hpartial⟩

end SignalCalc
