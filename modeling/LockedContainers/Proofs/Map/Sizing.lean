import LockedContainers.Proofs.Binary64.Quotients
import LockedContainers.Proofs.Map.Load

/-!
# The size of a sized table

Sizing rounds a quotient up and doubles the least table until it is no smaller;
the maps multiply and compare. Both ask the same of every power of two, so the
table that sizing stops at is the least one that the entries do not exceed.
-/
namespace LockedContainers.MapOptions

/-- Doubling a bucket count, as a 64-bit word, while it is less than what is needed; the answer is
none if the next word would not hold the double. -/
inductive Doubles (target : Binary64) : UInt64 → Option UInt64 → Prop
  | enough {b : UInt64} (reached : (Binary64.ofNat b.toNat).lt target = false) :
    Doubles target b (some b)
  | refused {b : UInt64} (short : (Binary64.ofNat b.toNat).lt target = true)
    (last : (2 ^ 64 - 1) / 2 < b.toNat) : Doubles target b none
  | double {b : UInt64} {answer : Option UInt64}
    (short : (Binary64.ofNat b.toNat).lt target = true) (next : b.toNat ≤ (2 ^ 64 - 1) / 2)
    (rest : Doubles target (b <<< 1) answer) : Doubles target b answer

/-- What doubling from sixteen buckets on goes for. -/
def needed (capacity : UInt64) (threshold : Binary64) : Binary64 :=
  ((Binary64.ofNat capacity.toNat).div threshold).ceil

/-- The least power of two from sixteen on that the entries do not exceed. -/
structure Sized (capacity : UInt64) (threshold : Binary64) (options : MapOptions) : Prop where
  threshold : options.threshold = threshold
  stripes : options.stripes = 16
  power : ∃ k, 4 ≤ k ∧ k ≤ 63 ∧ options.buckets.toNat = 2 ^ k
  fits : ∀ e ≤ capacity.toNat, options.exceeds e options.buckets.toNat = false
  tight : options.buckets.toNat = 16 ∨
    options.exceeds capacity.toNat (options.buckets.toNat / 2) = true

section Words
variable {target : Binary64} {k : Nat}

theorem toNat_word (h : k ≤ 63) : (UInt64.ofNat (2 ^ k)).toNat = 2 ^ k := by
  rw [UInt64.toNat_ofNat']
  exact Nat.mod_eq_of_lt (Nat.pow_lt_pow_right (by decide) (by omega))

theorem word_shiftLeft (h : k < 63) : UInt64.ofNat (2 ^ k) <<< 1 = .ofNat (2 ^ (k + 1)) := by
  have hbit : (1 : UInt64).toNat % 64 = 1 := rfl
  have hlt : 2 ^ (k + 1) < 2 ^ 64 := Nat.pow_lt_pow_right (by decide) (by omega)
  rw [← UInt64.toNat_inj, UInt64.toNat_shiftLeft, toNat_word (by omega), toNat_word (by omega),
    hbit, Nat.shiftLeft_eq, ← Nat.pow_succ, Nat.mod_eq_of_lt hlt]

/-- Powers of two that are too small are passed one by one. -/
theorem Doubles.climb {answer : Option UInt64} (i : Nat) (within : k + i ≤ 63)
    (short : ∀ j < i, (Binary64.ofNat (2 ^ (k + j))).lt target = true)
    (top : Doubles target (.ofNat (2 ^ (k + i))) answer) :
    Doubles target (.ofNat (2 ^ k)) answer := by
  induction i generalizing k with
  | zero => exact top
  | succ i ih =>
    have hword := toNat_word (k := k) (by omega)
    refine .double ?_ ?_ ?_
    · rw [hword]
      exact short 0 (Nat.succ_pos i)
    · have hpow : 2 ^ k < 2 ^ 63 := Nat.pow_lt_pow_right (by decide) (by omega)
      rw [hword]
      omega
    · rw [word_shiftLeft (by omega)]
      have hsame (j : Nat) : k + 1 + j = k + (j + 1) := by omega
      apply ih (by omega)
      · intro j hj
        rw [hsame]
        exact short (j + 1) (by omega)
      · rw [hsame]
        exact top

end Words

section Sizes

theorem tableSizes_eq : tableSizes = (List.range 60).map fun i => 2 ^ (4 + i) := by
  decide +kernel

/-- The sizes are searched from the least one on. -/
theorem find?_tableSizes_cases (p : Nat → Bool) :
    (∃ i < 60, tableSizes.find? p = some (2 ^ (4 + i)) ∧ p (2 ^ (4 + i)) ∧
      ∀ j < i, p (2 ^ (4 + j)) = false) ∨
    tableSizes.find? p = none ∧ ∀ i < 60, p (2 ^ (4 + i)) = false := by
  rw [tableSizes_eq, List.find?_map]
  cases hfind : (List.range 60).find? (p ∘ fun i => 2 ^ (4 + i)) with
  | some i =>
    obtain ⟨hp, hi, hless⟩ := List.find?_range_eq_some.1 hfind
    exact .inl ⟨i, List.mem_range.1 hi, rfl, hp, by simpa using hless⟩
  | none => exact .inr ⟨rfl, by simpa using List.find?_range_eq_none.1 hfind⟩

end Sizes

section Sizing
variable {capacity : UInt64} {threshold : Binary64}

/-- Division and product ask the same of a power of two. -/
theorem lt_needed {options : MapOptions} (positive : options.Positive) {k : Nat} (hk : k < 64) :
    (Binary64.ofNat (2 ^ k)).lt (needed capacity options.threshold) =
      options.exceeds capacity.toNat (2 ^ k) := by
  obtain ⟨u, hu, hvalue⟩ := positive
  rw [exceeds_eq hvalue hu]
  exact Binary64.lt_ceil_div_iff hvalue hu capacity.toNat_lt hk

theorem check_default (finite : threshold.isFinite)
    (positive : (Binary64.zero false).lt threshold) :
    ({ threshold } : MapOptions).check = .ok () := by
  rw [check_eq_ok_iff]
  refine ⟨by simp, by simp, ?_, ?_⟩
  · exact finite
  · exact positive

theorem sizedFor_eq (usable : ({ threshold } : MapOptions).check = .ok ()) {found : Option Nat}
    (hfind : tableSizes.find? (fun b => !(Binary64.ofNat b).lt (needed capacity threshold)) =
      found) :
    sizedFor capacity threshold =
      match found with
      | some b => .ok { threshold, buckets := .ofNat b }
      | none => .error (.tooMany capacity) := by
  have hcheck : ({ threshold } : MapOptions).check.mapError SizingError.unusable = pure () := by
    rw [usable]
    rfl
  rw [needed] at hfind
  unfold sizedFor
  simp only [hcheck, pure_bind, hfind]
  cases found with
  | some b => rfl
  | none => rfl

/-- Sizing gives the least table that the entries do not exceed, or refuses them when they exceed
the greatest one; either is what doubling comes to. -/
theorem sizedFor_cases (usable : ({ threshold } : MapOptions).check = .ok ()) :
    (∃ options, sizedFor capacity threshold = .ok options ∧ Sized capacity threshold options ∧
      Doubles (needed capacity threshold) 16 (some options.buckets) ∧
      ({ threshold } : MapOptions).exceeds capacity.toNat (2 ^ 63) = false) ∨
    sizedFor capacity threshold = .error (.tooMany capacity) ∧
      Doubles (needed capacity threshold) 16 none ∧
      ({ threshold } : MapOptions).exceeds capacity.toNat (2 ^ 63) = true := by
  have hpositive := positive_of_check usable
  have hneeded (k : Nat) (hk : k < 64) :
      (Binary64.ofNat (2 ^ k)).lt (needed capacity threshold) =
        ({ threshold } : MapOptions).exceeds capacity.toNat (2 ^ k) := lt_needed hpositive hk
  obtain ⟨i, hi, hfind, henough, hshort⟩ | ⟨hfind, hshort⟩ := find?_tableSizes_cases
    fun b => !(Binary64.ofNat b).lt (needed capacity threshold)
  · simp only [Bool.not_eq_true', Bool.not_eq_false'] at henough hshort
    have hword := toNat_word (k := 4 + i) (by omega)
    have hfit : ({ threshold } : MapOptions).exceeds capacity.toNat (2 ^ (4 + i)) = false := by
      rw [← hneeded _ (by omega)]
      exact henough
    refine .inl ⟨_, sizedFor_eq usable hfind,
      ⟨rfl, rfl, ⟨4 + i, by omega, by omega, hword⟩, ?_, ?_⟩, ?_, ?_⟩
    · intro e he
      rw [hword]
      exact exceeds_mono hpositive he (Nat.le_refl _) hfit
    · rw [hword]
      cases i with
      | zero => exact .inl rfl
      | succ i =>
        have hhalf : 2 ^ (4 + (i + 1)) / 2 = 2 ^ (4 + i) := by
          rw [← Nat.add_assoc, Nat.pow_succ, Nat.mul_div_cancel _ (by decide)]
        rw [hhalf]
        refine .inr ?_
        rw [← hshort i (Nat.lt_succ_self i)]
        exact (hneeded _ (by omega)).symm
    · apply Doubles.climb (k := 4) i (by omega) hshort
      apply Doubles.enough
      rw [hword]
      exact henough
    · have hpow : 2 ^ (4 + i) ≤ 2 ^ 63 := Nat.pow_le_pow_right (by decide) (by omega)
      exact exceeds_mono hpositive (Nat.le_refl _) hpow hfit
  · simp only [Bool.not_eq_false'] at hshort
    refine .inr ⟨sizedFor_eq usable hfind, ?_, ?_⟩
    · apply Doubles.climb (k := 4) 59 (by decide) fun j hj => hshort j (by omega)
      exact .refused (hshort 59 (by decide)) (by decide)
    · rw [← hneeded 63 (by decide)]
      exact hshort 59 (by decide)

end Sizing
end LockedContainers.MapOptions
