import LockedContainers.Proofs.Binary64.Values

/-!
# Whole numbers and their products

Whole numbers keep their order in binary64, and so do their products with a
fixed number. Both double when the whole number does, so that twice a bound
still bounds one more than what it bounded before.
-/
namespace LockedContainers.Binary64

variable {x : Binary64} {u m n : Nat}

/-- Units of a whole number, cut off at infinity. -/
def wholeUnits (n : Nat) : Nat := min (roundUnits (n * one) 1) beyond

/-- Units of the product of so many units and a whole number, cut off at infinity. -/
def productUnits (u n : Nat) : Nat :=
  if roundUnits (n * one) 1 < beyond then min (roundUnits (u * roundUnits (n * one) 1) one) beyond
  else beyond

theorem rank?_ofNat (n : Nat) : (ofNat n).rank? = some (wholeUnits n : Nat) :=
  rank?_ofRatio (n * one) 1

theorem rank?_mul_ofNat (hx : x.value = .finite false u) (hu : u ≠ 0) (n : Nat) :
    (x.mul (ofNat n)).rank? = some (productUnits u n : Nat) := by
  rw [mul, hx, ofNat, value_ofRatio, productUnits]
  by_cases hfinite : roundUnits (n * one) 1 < beyond
  · simp only [if_pos hfinite, Bool.xor_self]
    exact rank?_ofRatio _ _
  · simp only [if_neg hfinite, if_neg hu, Bool.xor_self]
    exact rank?_infinity

theorem wholeUnits_mono (h : m ≤ n) : wholeUnits m ≤ wholeUnits n := by
  have hround := roundUnits_mono 1 (Nat.mul_le_mul_right one h)
  rw [wholeUnits, wholeUnits]
  omega

theorem wholeUnits_zero : wholeUnits 0 = 0 := by
  rw [wholeUnits, Nat.zero_mul, roundUnits_of_dvd (Nat.dvd_zero _), Nat.zero_min]

theorem one_eq {p : Nat} (h : p + 52 = 1074) : one = 2 ^ (p + 52) := by
  rw [one, ← h, Nat.one_shiftLeft]

theorem roundUnits_one : roundUnits one 1 = one := by
  apply roundUnits_of_dvd
  rw [one_eq (p := 1022) rfl]
  exact two_pow_dvd 1022

theorem one_le_roundUnits (h : 0 < n) : one ≤ roundUnits (n * one) 1 := by
  have hmono := roundUnits_mono 1 (Nat.le_mul_of_pos_left one h)
  rw [roundUnits_one] at hmono
  exact hmono

theorem one_le_beyond : one ≤ beyond := by decide +kernel

theorem one_le_wholeUnits (h : 0 < n) : one ≤ wholeUnits n := by
  have hround := one_le_roundUnits h
  have hbeyond := one_le_beyond
  rw [wholeUnits]
  omega

theorem two_pow_lt_one : 2 ^ 52 < one := by decide +kernel

/-- Whole numbers up to the 53rd power of two have 53 significant bits at most. -/
theorem dvd_mul_one (h : n ≤ 2 ^ 53) : 2 ^ lastPlace (n * one) ∣ n * one := by
  obtain ⟨p, hp⟩ : ∃ p, p + 52 = 1074 := ⟨1022, rfl⟩
  have hpower : 2 ^ 53 * one = 2 ^ (53 + p + 52) := by
    rw [one_eq hp, ← Nat.pow_add, ← Nat.add_assoc]
  rcases Nat.lt_or_eq_of_le h with hlt | rfl
  · have hless : n * one < 2 ^ (53 + p + 52) := by
      rw [← hpower]
      exact Nat.mul_lt_mul_of_pos_right hlt (Nat.zero_lt_of_lt two_pow_lt_one)
    have hlast := lastPlace_lt (by omega) hless
    have hpart : 2 ^ lastPlace (n * one) ∣ 2 ^ (p + 52) := Nat.pow_dvd_pow 2 (by omega)
    rw [← one_eq hp] at hpart
    exact Nat.dvd_mul_left_of_dvd hpart n
  · rw [hpower]
    exact two_pow_dvd (53 + p)

/-- Whole numbers up to the 53rd power of two are exact. -/
theorem wholeUnits_eq (h : n ≤ 2 ^ 53) : wholeUnits n = n * one := by
  have hsmall : n * one ≤ beyond :=
    Nat.le_trans (Nat.mul_le_mul_right one h) (by decide +kernel)
  rw [wholeUnits, roundUnits_of_dvd (dvd_mul_one h), Nat.min_eq_left hsmall]

theorem roundUnits_double_whole (h : 0 < n) :
    roundUnits (n * 2 * one) 1 = 2 * roundUnits (n * one) 1 := by
  have hlarge : 2 ^ 52 < roundUnits (n * one) 1 :=
    Nat.lt_of_lt_of_le two_pow_lt_one (one_le_roundUnits h)
  rw [← roundUnits_double hlarge, Nat.mul_assoc, Nat.mul_left_comm]

/-- One more than a whole number is at most its double, also when both are rounded. -/
theorem wholeUnits_succ_le (h : 0 < n) : wholeUnits (n + 1) ≤ min (2 * wholeUnits n) beyond := by
  have hmono : wholeUnits (n + 1) ≤ wholeUnits (n * 2) := wholeUnits_mono (by omega)
  rw [wholeUnits, wholeUnits, roundUnits_double_whole h] at hmono
  rw [wholeUnits, wholeUnits]
  omega

theorem productUnits_mono (u : Nat) (h : m ≤ n) : productUnits u m ≤ productUnits u n := by
  have hwhole := roundUnits_mono 1 (Nat.mul_le_mul_right one h)
  have hproduct := roundUnits_mono one (Nat.mul_le_mul_left u hwhole)
  rw [productUnits, productUnits]
  split <;> split <;> omega

/-- A product of one at least is doubled with its whole factor. -/
theorem le_productUnits_double (pos : 0 < n) (h : one ≤ productUnits u n) :
    min (2 * productUnits u n) beyond ≤ productUnits u (n * 2) := by
  have hwhole := roundUnits_double_whole pos
  by_cases hfinite : 2 * roundUnits (n * one) 1 < beyond
  · have hhalf : roundUnits (n * one) 1 < beyond := by omega
    rw [productUnits, if_pos hhalf] at h ⊢
    rw [productUnits, hwhole, if_pos hfinite, Nat.mul_left_comm]
    have hlarge : 2 ^ 52 < roundUnits (u * roundUnits (n * one) 1) one :=
      Nat.lt_of_lt_of_le two_pow_lt_one (Nat.le_trans h (Nat.min_le_left _ _))
    rw [roundUnits_double hlarge]
    omega
  · have hinfinite : productUnits u (n * 2) = beyond := by
      rw [productUnits, hwhole, if_neg hfinite]
    rw [hinfinite]
    exact Nat.min_le_right _ _

end LockedContainers.Binary64
