import LockedContainers.Proofs.Binary64.Rounding

/-!
# What the bits of a result stand for

A representable number of units is read back from its bits, and whatever is
too large becomes infinite. So the rank of a rounded result is the rounded
number of units, cut off at infinity.
-/
namespace LockedContainers.Binary64

variable {s : Bool} {u : Nat}

theorem beyond_eq {p : Nat} (h : p + 52 = 2098) : beyond = 2 ^ (p + 52) := by
  rw [beyond, ← h, Nat.one_shiftLeft]

section Bits

/-- Below 2⁵² units the bits are the units. -/
theorem magnitudeOf_small (h : u < 2 ^ 52) : magnitudeOf u = u := by
  have hplace : lastPlace u = 0 := lastPlace_eq (Nat.lt_trans h (by decide)) (.inl rfl)
  simp [magnitudeOf, hplace]

/-- The leading one of the fraction is not stored; it raises the exponent. -/
theorem magnitudeOf_large (h : 2 ^ 52 ≤ u) :
    magnitudeOf u = 2 ^ 52 * (lastPlace u + 1) + (u / 2 ^ lastPlace u - 2 ^ 52) ∧
      2 ^ 52 ≤ u / 2 ^ lastPlace u ∧ u / 2 ^ lastPlace u < 2 ^ 53 := by
  have hlow : 2 ^ (lastPlace u + 52) ≤ u := by
    by_cases hp : lastPlace u = 0
    · rw [hp]
      exact h
    · exact le_of_lastPlace hp
  have hle : 2 ^ 52 ≤ u / 2 ^ lastPlace u := by
    rw [Nat.le_div_iff_mul_le (Nat.two_pow_pos _), ← Nat.pow_add, Nat.add_comm]
    exact hlow
  have hlt : u / 2 ^ lastPlace u < 2 ^ 53 := by
    rw [Nat.div_lt_iff_lt_mul (Nat.two_pow_pos _), ← Nat.pow_add, Nat.add_comm]
    exact lt_of_lastPlace u
  rw [magnitudeOf, Nat.shiftLeft_eq, Nat.shiftRight_eq_div_pow]
  omega

theorem unitsOf_magnitudeOf (h : 2 ^ lastPlace u ∣ u) : unitsOf (magnitudeOf u) = u := by
  by_cases hsmall : u < 2 ^ 52
  · have hzero : u >>> 52 = 0 := by
      rw [Nat.shiftRight_eq_div_pow]
      exact Nat.div_eq_of_lt hsmall
    rw [magnitudeOf_small hsmall, unitsOf, if_pos hzero]
  · obtain ⟨hmagnitude, hle, hlt⟩ := magnitudeOf_large (Nat.le_of_not_lt hsmall)
    have hexponent : magnitudeOf u >>> 52 = lastPlace u + 1 := by
      rw [Nat.shiftRight_eq_div_pow, hmagnitude, Nat.mul_add_div (Nat.two_pow_pos _),
        Nat.div_eq_of_lt (by omega), Nat.add_zero]
    have hfraction : magnitudeOf u % (1 <<< 52) = u / 2 ^ lastPlace u - 2 ^ 52 := by
      rw [Nat.one_shiftLeft, hmagnitude, Nat.mul_add_mod, Nat.mod_eq_of_lt (by omega)]
    rw [unitsOf, hexponent, if_neg (by omega), hfraction, Nat.one_shiftLeft,
      Nat.add_sub_cancel' hle, Nat.add_sub_cancel, Nat.shiftLeft_eq, Nat.div_mul_cancel h]

/-- A finite number has one of the exponents below the last. -/
theorem magnitudeOf_lt (h : u < beyond) : magnitudeOf u < 2047 * 2 ^ 52 := by
  by_cases hsmall : u < 2 ^ 52
  · rw [magnitudeOf_small hsmall]
    omega
  · obtain ⟨hmagnitude, hle, hlt⟩ := magnitudeOf_large (Nat.le_of_not_lt hsmall)
    have hplace : lastPlace u < 2046 := by
      rw [beyond_eq (p := 2046) rfl] at h
      exact lastPlace_lt (by decide) h
    rw [hmagnitude]
    omega

theorem magnitudeOf_two_pow (p : Nat) : magnitudeOf (2 ^ (p + 52)) = (p + 1) * 2 ^ 52 := by
  have hquotient : 2 ^ (p + 52) / 2 ^ p = 2 ^ 52 := by
    rw [Nat.pow_add, Nat.mul_div_cancel_left _ (Nat.two_pow_pos _)]
  rw [magnitudeOf, lastPlace_two_pow, Nat.shiftLeft_eq, Nat.shiftRight_eq_div_pow, hquotient,
    Nat.succ_mul]

theorem magnitudeOf_beyond : magnitudeOf beyond = 2047 * 2 ^ 52 := by
  rw [beyond_eq (p := 2046) rfl]
  exact magnitudeOf_two_pow 2046

theorem magnitudeOf_le (u : Nat) : magnitudeOf (min u beyond) ≤ 2047 * 2 ^ 52 := by
  by_cases h : u < beyond
  · rw [Nat.min_eq_left (Nat.le_of_lt h)]
    exact Nat.le_of_lt (magnitudeOf_lt h)
  · have htop : min u beyond = beyond := Nat.min_eq_right (Nat.le_of_not_lt h)
    exact Nat.le_of_eq (by rw [htop, magnitudeOf_beyond])

theorem toNat_ofUnits (s : Bool) (u : Nat) :
    (ofUnits s u).bits.toNat = (if s then 2 ^ 63 else 0) + magnitudeOf (min u beyond) := by
  have hle := magnitudeOf_le u
  rw [ofUnits, UInt64.toNat_ofNat', Nat.one_shiftLeft]
  apply Nat.mod_eq_of_lt
  split <;> omega

theorem magnitude_ofUnits (s : Bool) (u : Nat) :
    (ofUnits s u).magnitude = magnitudeOf (min u beyond) := by
  have hle := magnitudeOf_le u
  rw [magnitude, toNat_ofUnits, Nat.one_shiftLeft]
  split <;> omega

theorem negative_ofUnits (s : Bool) (u : Nat) : (ofUnits s u).negative = s := by
  have hle := magnitudeOf_le u
  rw [negative, toNat_ofUnits, Nat.one_shiftLeft]
  cases s with
  | false =>
    rw [if_neg Bool.false_ne_true, decide_eq_false_iff_not]
    omega
  | true =>
    rw [if_pos rfl, decide_eq_true_eq]
    omega

end Bits

section Value

theorem value_ofUnits (h : 2 ^ lastPlace u ∣ u) :
    (ofUnits s u).value = if u < beyond then .finite s u else .infinite s := by
  rw [value, magnitude_ofUnits, negative_ofUnits, Nat.shiftRight_eq_div_pow, Nat.one_shiftLeft]
  by_cases hfinite : u < beyond
  · have hlt := magnitudeOf_lt hfinite
    rw [Nat.min_eq_left (Nat.le_of_lt hfinite), if_pos, if_pos hfinite, unitsOf_magnitudeOf h]
    exact (Nat.div_lt_iff_lt_mul (Nat.two_pow_pos _)).2 hlt
  · rw [Nat.min_eq_right (Nat.le_of_not_lt hfinite), magnitudeOf_beyond, if_neg hfinite,
      Nat.mul_div_cancel _ (Nat.two_pow_pos _), if_neg (by omega), Nat.mul_mod_left, if_pos rfl]

theorem value_ofRatio (s : Bool) (num den : Nat) :
    (ofRatio s num den).value =
      if roundUnits num den < beyond then .finite s (roundUnits num den) else .infinite s :=
  value_ofUnits (dvd_roundUnits num den)

theorem rank?_ofRatio (num den : Nat) :
    (ofRatio false num den).rank? = some (min (roundUnits num den) beyond : Nat) := by
  rw [rank?, value_ofRatio]
  by_cases hfinite : roundUnits num den < beyond
  · simp [hfinite, Nat.min_eq_left (Nat.le_of_lt hfinite)]
  · simp [hfinite, Nat.min_eq_right (Nat.le_of_not_lt hfinite)]

theorem value_zero (s : Bool) : (zero s).value = .finite s 0 := by
  have hpos : 0 < beyond := Nat.zero_lt_of_lt (by decide +kernel : 1 < beyond)
  rw [zero, value_ofUnits (Nat.dvd_zero _), if_pos hpos]

theorem rank?_infinity : (infinity false).rank? = some (beyond : Nat) := by
  have hdvd : 2 ^ lastPlace beyond ∣ beyond := by
    rw [beyond_eq (p := 2046) rfl]
    exact two_pow_dvd 2046
  rw [rank?, infinity, value_ofUnits hdvd, if_neg (Nat.lt_irrefl _)]
  rfl

/-- A positive finite number is some units. -/
theorem exists_units {x : Binary64} (finite : x.isFinite) (positive : (zero false).lt x) :
    ∃ u, u ≠ 0 ∧ x.value = .finite false u := by
  cases hvalue : x.value with
  | finite s u =>
    rw [lt, rank?, rank?, value_zero, hvalue] at positive
    cases s with
    | false =>
      refine ⟨u, ?_, rfl⟩
      rintro rfl
      simp at positive
    | true =>
      simp at positive
      omega
  | infinite s =>
    rw [isFinite, hvalue] at finite
    simp at finite
  | nan =>
    rw [isFinite, hvalue] at finite
    simp at finite

end Value

end LockedContainers.Binary64
