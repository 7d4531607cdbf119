import Mathlib.Algebra.Group.Nat.Defs
import LockedContainers.Binary64.Arithmetic

/-!
# Rounding to binary64

A rounded quotient keeps 53 significant bits. Rounding respects the order,
leaves what is representable, and commutes with doubling as long as the last
place is above the least one.
-/
namespace LockedContainers

section NearestEven
variable {num num' den : Nat}

theorem div_le_nearestEven (num den : Nat) : num / den ≤ nearestEven num den := by
  simp only [nearestEven]
  split
  · omega
  · split <;> omega

theorem nearestEven_le (num den : Nat) : nearestEven num den ≤ num / den + 1 := by
  simp only [nearestEven]
  split
  · omega
  · split <;> omega

theorem nearestEven_mono (h : num ≤ num') : nearestEven num den ≤ nearestEven num' den := by
  have hdiv : num / den ≤ num' / den := Nat.div_le_div_right h
  by_cases hlt : num / den < num' / den
  · have hup := nearestEven_le num den
    have hdown := div_le_nearestEven num' den
    omega
  · have hsame : num / den = num' / den := by omega
    have hnum := Nat.div_add_mod num den
    have hnum' := Nat.div_add_mod num' den
    rw [hsame] at hnum
    simp only [nearestEven, hsame]
    split <;> split <;> (try split) <;> (try split) <;> omega

theorem nearestEven_double (num den : Nat) :
    nearestEven (2 * num) (2 * den) = nearestEven num den := by
  simp only [nearestEven]
  rw [Nat.mul_div_mul_left num den (by decide), Nat.mul_mod_mul_left]
  simp only [Nat.mul_lt_mul_left (by decide : 0 < 2)]

theorem nearestEven_of_dvd (hpos : 0 < den) (h : den ∣ num) : nearestEven num den = num / den := by
  have hmod : num % den = 0 := Nat.mod_eq_zero_of_dvd h
  simp only [nearestEven, hmod]
  rw [if_pos (by omega)]

end NearestEven

namespace Binary64

section LastPlace
variable {u v p : Nat}

theorem lt_of_lastPlace (u : Nat) : u < 2 ^ (lastPlace u + 53) := by
  by_cases hu : u = 0
  · rw [hu]
    exact Nat.two_pow_pos _
  · rw [← Nat.log2_lt hu, lastPlace]
    omega

theorem le_of_lastPlace (h : lastPlace u ≠ 0) : 2 ^ (lastPlace u + 52) ≤ u := by
  rw [lastPlace] at h ⊢
  have hu : u ≠ 0 := by
    rintro rfl
    simp at h
  rw [← Nat.le_log2 hu]
  omega

theorem lastPlace_lt (hp : 0 < p) (h : u < 2 ^ (p + 52)) : lastPlace u < p := by
  by_cases hzero : lastPlace u = 0
  · omega
  · have hlow := le_of_lastPlace hzero
    have hexp := (Nat.pow_lt_pow_iff_right (by decide : 1 < 2)).1 (Nat.lt_of_le_of_lt hlow h)
    omega

theorem lastPlace_eq (hlt : u < 2 ^ (p + 53)) (hle : p = 0 ∨ 2 ^ (p + 52) ≤ u) :
    lastPlace u = p := by
  rw [lastPlace]
  by_cases hu : u = 0
  · rcases hle with rfl | hle
    · simp [hu]
    · have hpos := Nat.two_pow_pos (p + 52)
      omega
  · have hlog := (Nat.log2_lt hu).2 hlt
    rcases hle with rfl | hle
    · omega
    · have hlog' := (Nat.le_log2 hu).2 hle
      omega

theorem lastPlace_two_pow (p : Nat) : lastPlace (2 ^ (p + 52)) = p :=
  lastPlace_eq (Nat.pow_lt_pow_right (by decide) (by omega)) (.inr (Nat.le_refl _))

/-- A power of two has one significant bit. -/
theorem two_pow_dvd (p : Nat) : 2 ^ lastPlace (2 ^ (p + 52)) ∣ 2 ^ (p + 52) := by
  rw [lastPlace_two_pow]
  exact Nat.pow_dvd_pow 2 (Nat.le_add_right _ _)

theorem lastPlace_mono (h : u ≤ v) : lastPlace u ≤ lastPlace v := by
  by_cases hp : lastPlace u = 0
  · omega
  · have hlow := le_of_lastPlace hp
    have hhigh := lt_of_lastPlace v
    have hlt : 2 ^ (lastPlace u + 52) < 2 ^ (lastPlace v + 53) := by omega
    have hexp := (Nat.pow_lt_pow_iff_right (by decide : 1 < 2)).1 hlt
    omega

theorem lastPlace_double (h : 2 ^ 52 ≤ u) (b : Nat) (hb : b ≤ 1) :
    lastPlace (2 * u + b) = lastPlace u + 1 := by
  have hhigh := lt_of_lastPlace u
  have hpow53 : 2 ^ (lastPlace u + 1 + 53) = 2 * 2 ^ (lastPlace u + 53) := by
    rw [Nat.add_right_comm, Nat.pow_succ, Nat.mul_comm]
  have hpow52 : 2 ^ (lastPlace u + 1 + 52) = 2 * 2 ^ (lastPlace u + 52) := by
    rw [Nat.add_right_comm, Nat.pow_succ, Nat.mul_comm]
  have hlow : 2 ^ (lastPlace u + 52) ≤ u := by
    by_cases hp : lastPlace u = 0
    · rw [hp]
      exact h
    · exact le_of_lastPlace hp
  apply lastPlace_eq
  · omega
  · right
    omega

end LastPlace

section RoundUnits
variable {num num' den u : Nat}

/-- The quotient in its last places has 53 bits at most. -/
theorem scaled_lt (num den : Nat) :
    num / (den <<< lastPlace (num / den)) < 2 ^ 53 := by
  rw [Nat.shiftLeft_eq, ← Nat.div_div_eq_div_mul, Nat.div_lt_iff_lt_mul (Nat.two_pow_pos _),
    ← Nat.pow_add, Nat.add_comm]
  exact lt_of_lastPlace _

theorem le_scaled (h : lastPlace (num / den) ≠ 0) :
    2 ^ 52 ≤ num / (den <<< lastPlace (num / den)) := by
  rw [Nat.shiftLeft_eq, ← Nat.div_div_eq_div_mul, Nat.le_div_iff_mul_le (Nat.two_pow_pos _),
    ← Nat.pow_add, Nat.add_comm]
  exact le_of_lastPlace h

theorem roundUnits_le (num den : Nat) :
    roundUnits num den ≤ 2 ^ (lastPlace (num / den) + 53) := by
  have hquotient := scaled_lt num den
  have hnearest := nearestEven_le num (den <<< lastPlace (num / den))
  simp only [roundUnits]
  rw [Nat.shiftLeft_eq, Nat.add_comm, Nat.pow_add]
  exact Nat.mul_le_mul_right _ (by omega)

theorem le_roundUnits (h : lastPlace (num / den) ≠ 0) :
    2 ^ (lastPlace (num / den) + 52) ≤ roundUnits num den := by
  have hquotient := le_scaled h
  have hnearest := div_le_nearestEven num (den <<< lastPlace (num / den))
  simp only [roundUnits]
  rw [Nat.shiftLeft_eq, Nat.add_comm, Nat.pow_add]
  exact Nat.mul_le_mul_right _ (by omega)

/-- Rounding respects the order: within a place by the nearest whole number, across places by the
powers of two between them. -/
theorem roundUnits_mono (den : Nat) (h : num ≤ num') :
    roundUnits num den ≤ roundUnits num' den := by
  have hplace : lastPlace (num / den) ≤ lastPlace (num' / den) :=
    lastPlace_mono (Nat.div_le_div_right h)
  by_cases hsame : lastPlace (num / den) = lastPlace (num' / den)
  · simp only [roundUnits, hsame, Nat.shiftLeft_eq]
    exact Nat.mul_le_mul_right _ (nearestEven_mono h)
  · have hpos : lastPlace (num' / den) ≠ 0 := by omega
    have hup := roundUnits_le num den
    have hdown := le_roundUnits hpos
    have hpow : 2 ^ (lastPlace (num / den) + 53) ≤ 2 ^ (lastPlace (num' / den) + 52) :=
      Nat.pow_le_pow_right (by decide) (by omega)
    omega

/-- A rounded number has 53 significant bits at most. -/
theorem dvd_roundUnits (num den : Nat) :
    2 ^ lastPlace (roundUnits num den) ∣ roundUnits num den := by
  have hup := roundUnits_le num den
  by_cases htop : roundUnits num den = 2 ^ (lastPlace (num / den) + 53)
  · have hplace : lastPlace (roundUnits num den) = lastPlace (num / den) + 1 := by
      apply lastPlace_eq
      · rw [htop]
        exact Nat.pow_lt_pow_right (by decide) (by omega)
      · right
        exact Nat.le_of_eq htop.symm
    rw [hplace, htop]
    exact Nat.pow_dvd_pow 2 (by omega)
  · have hplace : lastPlace (roundUnits num den) = lastPlace (num / den) := by
      apply lastPlace_eq
      · omega
      · by_cases hp : lastPlace (num / den) = 0
        · exact .inl hp
        · exact .inr (le_roundUnits hp)
    rw [hplace, roundUnits, Nat.shiftLeft_eq]
    exact Nat.dvd_mul_left _ _

/-- A quotient that is representable is exact. -/
theorem roundUnits_mul_self (h : 2 ^ lastPlace u ∣ u) (hpos : 0 < den) :
    roundUnits (u * den) den = u := by
  have hdvd : den * 2 ^ lastPlace u ∣ u * den := by
    rw [Nat.mul_comm u]
    exact Nat.mul_dvd_mul_left den h
  simp only [roundUnits, Nat.mul_div_cancel u hpos, Nat.shiftLeft_eq]
  rw [nearestEven_of_dvd (Nat.mul_pos hpos (Nat.two_pow_pos _)) hdvd, Nat.mul_comm u,
    Nat.mul_div_mul_left _ _ hpos, Nat.div_mul_cancel h]

/-- A number that is representable is not changed. -/
theorem roundUnits_of_dvd (h : 2 ^ lastPlace u ∣ u) : roundUnits u 1 = u := by
  have hself := roundUnits_mul_self h Nat.one_pos
  rwa [Nat.mul_one] at hself

theorem roundUnits_le_of_small (h : num / den < 2 ^ 52) : roundUnits num den ≤ 2 ^ 52 := by
  have hplace : lastPlace (num / den) = 0 :=
    lastPlace_eq (Nat.lt_trans h (by decide)) (.inl rfl)
  have hnearest := nearestEven_le num den
  simp only [roundUnits, hplace, Nat.shiftLeft_zero]
  omega

/-- Above the least place a doubled quotient is rounded to the double. -/
theorem roundUnits_double (h : 2 ^ 52 < roundUnits num den) :
    roundUnits (2 * num) den = 2 * roundUnits num den := by
  have hlarge : 2 ^ 52 ≤ num / den :=
    Nat.le_of_not_lt fun hsmall => Nat.not_lt.2 (roundUnits_le_of_small hsmall) h
  have hpos : 0 < den := Nat.pos_of_ne_zero fun hzero => by simp [hzero] at hlarge
  have hquotient : 2 * num / den = 2 * (num / den) + 2 * (num % den) / den := by
    have hsplit : 2 * num = 2 * (num % den) + den * (2 * (num / den)) := by
      rw [Nat.mul_left_comm, ← Nat.mul_add, Nat.mod_add_div]
    rw [hsplit, Nat.add_mul_div_left _ _ hpos, Nat.add_comm]
  have hcarry : 2 * (num % den) / den ≤ 1 := by
    have hmod := Nat.mod_lt num hpos
    have hlt : 2 * (num % den) / den < 2 := (Nat.div_lt_iff_lt_mul hpos).2 (by omega)
    omega
  have hplace : lastPlace (2 * num / den) = lastPlace (num / den) + 1 := by
    rw [hquotient]
    exact lastPlace_double hlarge _ hcarry
  have hden : den <<< (lastPlace (num / den) + 1) = 2 * (den <<< lastPlace (num / den)) := by
    rw [Nat.shiftLeft_succ]
  simp only [roundUnits, hplace, hden, nearestEven_double]
  rw [Nat.shiftLeft_succ]

end RoundUnits
end Binary64
end LockedContainers
