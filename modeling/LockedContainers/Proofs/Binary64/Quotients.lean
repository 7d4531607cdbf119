import Mathlib.Tactic.Ring
import LockedContainers.Proofs.Binary64.Products

/-!
# Quotients, rounded up to whole numbers

A rounded product with a power of two is exact. A rounded quotient exceeds a
power of two exactly when the dividend exceeds that product, for two numbers of
53 significant bits lie at least one last place apart and rounding moves a
quotient by half of one at most.
-/
namespace LockedContainers

/-- The nearest whole number is off by a half at most. -/
theorem two_mul_le_nearestEven {den : Nat} (num : Nat) (hpos : 0 < den) :
    2 * num ≤ (2 * nearestEven num den + 1) * den := by
  have hdiv := Nat.div_add_mod num den
  have hmod := Nat.mod_lt num hpos
  have hdown : (2 * (num / den) + 1) * den = 2 * (den * (num / den)) + den := by ring
  have hup : (2 * (num / den + 1) + 1) * den = 2 * (den * (num / den)) + 3 * den := by ring
  have heven : (2 * (num / den) + 1) * den ≤ (2 * (num / den + num / den % 2) + 1) * den :=
    Nat.mul_le_mul_right _ (by omega)
  simp only [nearestEven]
  split
  · omega
  · split <;> omega

namespace Binary64

variable {x : Binary64} {u v n k num den : Nat}

section Spacing

/-- A rounded quotient is off by half its last place at most. -/
theorem two_mul_le_roundUnits (num : Nat) (hpos : 0 < den) :
    2 * num ≤ (2 * roundUnits num den + 2 ^ lastPlace (num / den)) * den := by
  simp only [roundUnits, Nat.shiftLeft_eq]
  calc 2 * num
    _ ≤ (2 * nearestEven num (den * 2 ^ lastPlace (num / den)) + 1) *
          (den * 2 ^ lastPlace (num / den)) :=
      two_mul_le_nearestEven num (Nat.mul_pos hpos (Nat.two_pow_pos _))
    _ = _ := by ring

/-- A product with a power of two has no more significant bits. -/
theorem dvd_mul_two_pow (h : 2 ^ lastPlace u ∣ u) (k : Nat) :
    2 ^ lastPlace (u * 2 ^ k) ∣ u * 2 ^ k := by
  have hlt : u * 2 ^ k < 2 ^ (lastPlace u + k + 1 + 52) := by
    calc u * 2 ^ k
      _ < 2 ^ (lastPlace u + 53) * 2 ^ k :=
        Nat.mul_lt_mul_of_pos_right (lt_of_lastPlace u) (Nat.two_pow_pos k)
      _ = 2 ^ (lastPlace u + k + 1 + 52) := by ring
  have hplace : lastPlace (u * 2 ^ k) < lastPlace u + k + 1 := lastPlace_lt (by omega) hlt
  calc 2 ^ lastPlace (u * 2 ^ k)
    _ ∣ 2 ^ (lastPlace u + k) := Nat.pow_dvd_pow 2 (by omega)
    _ = 2 ^ lastPlace u * 2 ^ k := Nat.pow_add 2 _ _
    _ ∣ u * 2 ^ k := Nat.mul_dvd_mul_right h _

/-- Two numbers are at least a last place of the lesser one apart. -/
theorem add_two_pow_le (hu : 2 ^ lastPlace u ∣ u) (hv : 2 ^ lastPlace v ∣ v) (h : u < v) :
    u + 2 ^ lastPlace u ≤ v := by
  have hplace : 2 ^ lastPlace u ∣ v :=
    Nat.dvd_trans (Nat.pow_dvd_pow 2 (lastPlace_mono (Nat.le_of_lt h))) hv
  have hgap := Nat.le_of_dvd (Nat.sub_pos_of_lt h) (Nat.dvd_sub hplace hu)
  omega

/-- A finite number has 53 significant bits at most. -/
theorem dvd_of_value {s : Bool} (hx : x.value = .finite s u) : 2 ^ lastPlace u ∣ u := by
  rw [value] at hx
  split at hx
  · obtain rfl : unitsOf x.magnitude = u := by simpa using (Value.finite.inj hx).2
    rw [unitsOf]
    split
    · rename_i hzero
      have hsmall : x.magnitude < 2 ^ 52 := by
        rw [Nat.shiftRight_eq_div_pow] at hzero
        omega
      rw [lastPlace_eq (p := 0) (Nat.lt_trans hsmall (by decide)) (.inl rfl)]
      exact Nat.one_dvd _
    · rw [Nat.shiftLeft_eq, Nat.one_shiftLeft]
      apply dvd_mul_two_pow
      have hfraction := Nat.mod_lt x.magnitude (Nat.two_pow_pos 52)
      rw [lastPlace_eq (p := 0) (by omega) (.inl rfl)]
      exact Nat.one_dvd _
  · split at hx <;> cases hx

end Spacing

section Powers

theorem one_pos : 0 < one := Nat.zero_lt_of_lt two_pow_lt_one

theorem dvd_one : 2 ^ lastPlace one ∣ one := by
  rw [one_eq (p := 1022) rfl]
  exact two_pow_dvd 1022

theorem roundUnits_two_pow (k : Nat) : roundUnits (2 ^ k * one) 1 = 2 ^ k * one := by
  have hdvd := dvd_mul_two_pow dvd_one k
  rw [Nat.mul_comm one] at hdvd
  exact roundUnits_of_dvd hdvd

/-- Words are far below infinity. -/
theorem two_pow_mul_one_lt (h : k ≤ 64) : 2 ^ k * one < beyond := by
  obtain ⟨p, hp⟩ : ∃ p, p + 52 = 1074 := ⟨1022, rfl⟩
  obtain ⟨q, hq⟩ : ∃ q, q + 52 = 2098 := ⟨2046, rfl⟩
  rw [one_eq hp, beyond_eq hq, ← Nat.pow_add]
  exact Nat.pow_lt_pow_right (by decide) (by omega)

theorem wholeUnits_two_pow (h : k ≤ 64) : wholeUnits (2 ^ k) = 2 ^ k * one := by
  rw [wholeUnits, roundUnits_two_pow, Nat.min_eq_left (Nat.le_of_lt (two_pow_mul_one_lt h))]

theorem wholeUnits_lt (h : n < 2 ^ 64) : wholeUnits n < beyond :=
  Nat.lt_of_le_of_lt (wholeUnits_mono (Nat.le_of_lt h))
    (by rw [wholeUnits_two_pow (Nat.le_refl 64)]; exact two_pow_mul_one_lt (Nat.le_refl 64))

theorem value_ofNat (h : n < 2 ^ 64) : (ofNat n).value = .finite false (wholeUnits n) := by
  have hfinite := wholeUnits_lt h
  rw [wholeUnits] at hfinite ⊢
  have hround : roundUnits (n * one) 1 < beyond := by omega
  rw [ofNat, value_ofRatio, if_pos hround, Nat.min_eq_left (Nat.le_of_lt hround)]

/-- A product with a power of two is not rounded, but may be infinite. -/
theorem productUnits_two_pow (hu : 2 ^ lastPlace u ∣ u) (h : k ≤ 64) :
    productUnits u (2 ^ k) = min (u * 2 ^ k) beyond := by
  rw [productUnits, roundUnits_two_pow, if_pos (two_pow_mul_one_lt h), ← Nat.mul_assoc,
    roundUnits_mul_self (dvd_mul_two_pow hu k) one_pos]

/-- If rounding brought a quotient down to the power of two, the dividend would be off the product
by less than the spacing there. -/
theorem two_pow_lt_roundUnits_iff (hu : 2 ^ lastPlace u ∣ u) (hpos : 0 < u)
    (hv : 2 ^ lastPlace v ∣ v) : 2 ^ k * one < roundUnits (v * one) u ↔ u * 2 ^ k < v := by
  have hproduct := dvd_mul_two_pow hu k
  constructor
  · intro hround
    by_contra hle
    have hmono : roundUnits (v * one) u ≤ roundUnits (2 ^ k * one * u) u :=
      roundUnits_mono u <| calc v * one
        _ ≤ u * 2 ^ k * one := Nat.mul_le_mul_right one (Nat.le_of_not_lt hle)
        _ = 2 ^ k * one * u := by ring
    have hdvd := dvd_mul_two_pow dvd_one k
    rw [Nat.mul_comm one] at hdvd
    rw [roundUnits_mul_self hdvd hpos] at hmono
    omega
  · intro hlt
    by_contra hround
    obtain ⟨p, hp⟩ : ∃ p, p + 52 = 1074 := ⟨1022, rfl⟩
    have hone : 2 ^ k * one = 2 ^ (k + p) * 2 ^ 52 := by
      rw [one_eq hp]
      ring
    have hplace : lastPlace (v * one / u) ≤ k + p := by
      by_contra hlarge
      have hlow : 2 ^ (lastPlace (v * one / u) + 52) ≤ roundUnits (v * one) u :=
        le_roundUnits (by omega)
      have hpow : 2 ^ (k + p + 1 + 52) ≤ 2 ^ (lastPlace (v * one / u) + 52) :=
        Nat.pow_le_pow_right (by decide) (by omega)
      have hstep : 2 ^ (k + p + 1 + 52) = 2 * (2 ^ (k + p) * 2 ^ 52) := by ring
      have hhalf := Nat.mul_pos (Nat.two_pow_pos (k + p)) (Nat.two_pow_pos 52)
      omega
    have hgap := add_two_pow_le hproduct hv hlt
    have hoff : 2 * (v * one) ≤ 2 ^ (k + p) * (2 ^ 53 + 1) * u := by
      calc 2 * (v * one)
        _ ≤ (2 * roundUnits (v * one) u + 2 ^ lastPlace (v * one / u)) * u :=
          two_mul_le_roundUnits _ hpos
        _ ≤ (2 * (2 ^ (k + p) * 2 ^ 52) + 2 ^ (k + p)) * u := by
          apply Nat.mul_le_mul_right
          have hpow : 2 ^ lastPlace (v * one / u) ≤ 2 ^ (k + p) :=
            Nat.pow_le_pow_right (by decide) hplace
          omega
        _ = 2 ^ (k + p) * (2 ^ 53 + 1) * u := by ring
    have hscaled : 2 ^ p * (v * 2 ^ 53) ≤ 2 ^ p * (u * 2 ^ k * 2 ^ 53 + u * 2 ^ k) := by
      calc 2 ^ p * (v * 2 ^ 53)
        _ = 2 * (v * one) := by
          rw [one_eq hp]
          ring
        _ ≤ 2 ^ (k + p) * (2 ^ 53 + 1) * u := hoff
        _ = _ := by ring
    have hbound := Nat.le_of_mul_le_mul_left hscaled (Nat.two_pow_pos p)
    have hwide : u * 2 ^ k < 2 ^ lastPlace (u * 2 ^ k) * 2 ^ 53 := by
      rw [← Nat.pow_add]
      exact lt_of_lastPlace _
    omega

end Powers

theorem div_of_finite {y : Binary64} {s t : Bool} (hx : x.value = .finite s u)
    (hy : y.value = .finite t v) (hpos : v ≠ 0) : x.div y = ofRatio (s ^^ t) (u * one) v := by
  rw [div, hx, hy]
  exact if_pos hpos

section Ceiling

/-- The least whole number that is not below, in units. -/
def wholeAbove (units : Nat) : Nat := (units + one - 1) / one * one

theorem mul_one_lt_wholeAbove_iff (b units : Nat) :
    b * one < wholeAbove units ↔ b * one < units := by
  have hpos := one_pos
  rw [wholeAbove, Nat.mul_lt_mul_right hpos, ← Nat.succ_le_iff, Nat.le_div_iff_mul_le hpos,
    Nat.succ_mul]
  omega

theorem le_wholeAbove (units : Nat) : units ≤ wholeAbove units := by
  by_contra hlt
  have hpart := (mul_one_lt_wholeAbove_iff ((units + one - 1) / one) units).2 (Nat.lt_of_not_le hlt)
  exact Nat.lt_irrefl _ hpart

/-- A number of 2⁵² or more is whole. -/
theorem dvd_wholeAbove (hu : 2 ^ lastPlace u ∣ u) :
    2 ^ lastPlace (wholeAbove u) ∣ wholeAbove u := by
  obtain ⟨p, hp⟩ : ∃ p, p = 1074 := ⟨1074, rfl⟩
  have hone : one = 2 ^ p := by rw [one, ← hp, Nat.one_shiftLeft]
  by_cases hlarge : 2 ^ (p + 52) ≤ u
  · have hplace : p ≤ lastPlace u := by
      have hmono := lastPlace_mono hlarge
      rwa [lastPlace_two_pow] at hmono
    have hwhole : one ∣ u := by
      rw [hone]
      exact Nat.dvd_trans (Nat.pow_dvd_pow 2 hplace) hu
    have hsame : wholeAbove u = u := by
      apply Nat.le_antisymm _ (le_wholeAbove u)
      obtain ⟨m, rfl⟩ := hwhole
      by_contra hlt
      rw [Nat.mul_comm one, Nat.not_le, mul_one_lt_wholeAbove_iff] at hlt
      exact Nat.lt_irrefl _ hlt
    rw [hsame]
    exact hu
  · apply dvd_mul_one
    by_contra hmany
    have hbelow : 2 ^ 52 * one < wholeAbove u :=
      Nat.mul_lt_mul_of_pos_right (by omega) one_pos
    rw [mul_one_lt_wholeAbove_iff, hone, ← Nat.pow_add, Nat.add_comm] at hbelow
    omega

theorem rank?_ofUnits (hu : 2 ^ lastPlace u ∣ u) :
    (ofUnits false u).rank? = some (min u beyond : Nat) := by
  rw [rank?, value_ofUnits hu]
  by_cases hfinite : u < beyond
  · simp [hfinite, Nat.min_eq_left (Nat.le_of_lt hfinite)]
  · simp [hfinite, Nat.min_eq_right (Nat.le_of_not_lt hfinite)]

theorem rank?_ceil_ofRatio (num den : Nat) :
    (ofRatio false num den).ceil.rank? =
      some (min (wholeAbove (roundUnits num den)) beyond : Nat) := by
  rw [ceil, value_ofRatio]
  by_cases hfinite : roundUnits num den < beyond
  · rw [if_pos hfinite]
    exact rank?_ofUnits (dvd_wholeAbove (dvd_roundUnits num den))
  · have hlarge := le_wholeAbove (roundUnits num den)
    rw [if_neg hfinite, rank?_ofRatio, Nat.min_eq_right (Nat.le_of_not_lt hfinite),
      Nat.min_eq_right (by omega)]

end Ceiling

/-- Whether a power of two is below the rounded-up quotient of whole numbers, or the product with it
below the dividend, is the same question. -/
theorem lt_ceil_div_iff (hx : x.value = .finite false u) (hpos : u ≠ 0) (hn : n < 2 ^ 64)
    (hk : k < 64) :
    (ofNat (2 ^ k)).lt ((ofNat n).div x).ceil = decide (productUnits u (2 ^ k) < wholeUnits n) := by
  have hu := dvd_of_value hx
  have hfinite := two_pow_mul_one_lt (Nat.le_of_lt hk)
  have hwhole := wholeUnits_lt hn
  have hquotient := two_pow_lt_roundUnits_iff (k := k) hu (Nat.pos_of_ne_zero hpos)
    (dvd_of_value (value_ofNat hn))
  rw [← mul_one_lt_wholeAbove_iff] at hquotient
  rw [div_of_finite (value_ofNat hn) hx hpos, Bool.xor_self, lt, rank?_ofNat, rank?_ceil_ofRatio,
    wholeUnits_two_pow (Nat.le_of_lt hk), productUnits_two_pow hu (Nat.le_of_lt hk)]
  simp only [Option.pure_def, Option.bind_eq_bind, Option.bind_some, Int.ofNat_lt, decide_eq_decide]
  omega

end Binary64
end LockedContainers
