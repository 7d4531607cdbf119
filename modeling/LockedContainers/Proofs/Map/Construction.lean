import Mathlib.Order.Bounds.Defs
import LockedContainers.Map.Integer
import LockedContainers.Proofs.Map.Callbacks
import LockedContainers.Proofs.Map.Effects
import LockedContainers.Proofs.Sequential

/-!
# What construction makes of the options

A striped map raises its bucket count to a multiple of its stripe count. As
long as the sum that is divided stays a word this is the least multiple, and
the raised options are fixed for good. Beyond that it is zero.
-/
namespace LockedContainers

variable {l : Locking} {K V ε σ : Type}

namespace MapOptions

variable {options : MapOptions}

theorem check_eq_ok_iff : options.check = .ok () ↔ options.buckets ≠ 0 ∧ options.stripes ≠ 0 ∧
    options.threshold.isFinite ∧ (Binary64.zero false).lt options.threshold := by
  rw [check]
  by_cases hbuckets : options.buckets = 0
  · simp [hbuckets]
  · by_cases hstripes : options.stripes = 0
    · simp [hbuckets, hstripes]
    · rw [if_neg hbuckets, if_neg hstripes, ← Bool.and_eq_true]
      split <;> simp_all

theorem buckets_pos (usable : options.check = .ok ()) : 0 < options.buckets.toNat :=
  Nat.pos_of_ne_zero fun hzero => (check_eq_ok_iff.1 usable).1 (UInt64.toNat_inj.1 hzero)

theorem stripes_pos (usable : options.check = .ok ()) : 0 < options.stripes.toNat :=
  Nat.pos_of_ne_zero fun hzero => (check_eq_ok_iff.1 usable).2.1 (UInt64.toNat_inj.1 hzero)

section Rounding

theorem toNat_buckets_rounded (positive : 0 < options.stripes.toNat) :
    options.rounded.buckets.toNat =
      (options.buckets.toNat + options.stripes.toNat - 1) % 2 ^ 64 / options.stripes.toNat *
        options.stripes.toNat := by
  have hbuckets := options.buckets.toNat_lt
  have hstripes := options.stripes.toNat_lt
  have hsum : (options.buckets + options.stripes - 1).toNat =
      (options.buckets.toNat + options.stripes.toNat - 1) % 2 ^ 64 := by
    rw [UInt64.toNat_sub, UInt64.toNat_add, UInt64.toNat_one]
    omega
  rw [rounded, UInt64.toNat_mul, UInt64.toNat_div, hsum]
  apply Nat.mod_eq_of_lt
  exact Nat.lt_of_le_of_lt (Nat.div_mul_le_self _ _) (Nat.mod_lt _ (Nat.two_pow_pos 64))

/-- While the sum is a word the bucket count is raised to the least multiple. -/
theorem isLeast_rounded (positive : 0 < options.stripes.toNat)
    (word : options.buckets.toNat + options.stripes.toNat ≤ 2 ^ 64) :
    IsLeast {m | options.stripes.toNat ∣ m ∧ options.buckets.toNat ≤ m}
      options.rounded.buckets.toNat := by
  rw [toNat_buckets_rounded positive, Nat.mod_eq_of_lt (by omega)]
  constructor
  · refine ⟨Nat.dvd_mul_left _ _, ?_⟩
    have hdiv := Nat.div_add_mod' (options.buckets.toNat + options.stripes.toNat - 1)
      options.stripes.toNat
    have hmod := Nat.mod_lt (options.buckets.toNat + options.stripes.toNat - 1) positive
    omega
  · rintro m ⟨⟨k, rfl⟩, hle⟩
    rw [Nat.mul_comm options.stripes.toNat k] at hle ⊢
    apply Nat.mul_le_mul_right
    rw [← Nat.lt_succ_iff, Nat.div_lt_iff_lt_mul positive, Nat.succ_mul]
    omega

/-- Past the greatest word the sum falls short of one stripe count. -/
theorem rounded_eq_zero (overflow : 2 ^ 64 < options.buckets.toNat + options.stripes.toNat) :
    options.rounded.buckets = 0 := by
  have hbuckets := options.buckets.toNat_lt
  have hstripes := options.stripes.toNat_lt
  rw [← UInt64.toNat_inj, toNat_buckets_rounded (by omega), Nat.div_eq_of_lt, Nat.zero_mul,
    UInt64.toNat_zero]
  omega

/-- A multiple is its own least multiple. -/
theorem rounded_of_dvd (positive : 0 < options.stripes.toNat)
    (word : options.buckets.toNat + options.stripes.toNat ≤ 2 ^ 64)
    (multiple : options.stripes.toNat ∣ options.buckets.toNat) : options.rounded = options := by
  have hleast := isLeast_rounded positive word
  have hbuckets : options.rounded.buckets = options.buckets := by
    rw [← UInt64.toNat_inj]
    exact Nat.le_antisymm (hleast.2 ⟨multiple, Nat.le_refl _⟩) hleast.1.2
  cases options
  exact congrArg (fun buckets => MapOptions.mk buckets _ _) hbuckets

end Rounding
end MapOptions

section Made
variable (cb : MapCallbacks K V ε σ) (options : MapOptions)

theorem MapOptions.yields_require :
    Yields (options.require : EStateM (MapFailure ε) σ Unit) (fun _ => options.check = .ok ())
      fun _ => True := by
  intro o
  rw [MapOptions.require]
  cases hcheck : options.check with
  | ok u => exact rfl
  | error e => trivial

theorem MapCallbacks.yields_grant (bytes : Nat) :
    Yields ((cb.allocate bytes).adaptExcept MapFailure.callback) (fun _ => cb.Grants bytes)
      fun _ => True :=
  Yields.adaptExcept ((cb.yields_allocate bytes).mono (fun _ h => h) fun _ _ => trivial)

theorem LockedMap.yields_build_vacant :
    Yields (LockedMap.build cb options : EStateM _ _ (LockedMap l K V))
      (fun map => cb.Grants (Table.bucketBytes * options.buckets.toNat) ∧
        map = { options, table := Table.vacant options.buckets.toNat }) fun _ => True :=
  (cb.yields_grant _).bind fun _ hgrant => .pure ⟨hgrant, rfl⟩

/-- A map behind one lock is made with the options as given. -/
theorem MonitorMap.yields_make_vacant :
    Yields (MonitorMap.make cb options)
      (fun map => options.check = .ok () ∧
        map = { options, table := Table.vacant options.buckets.toNat }) fun _ => True := by
  apply options.yields_require.bind
  intro _ hcheck
  exact (LockedMap.yields_build_vacant cb options).mono (fun _ h => ⟨hcheck, h.2⟩) fun _ h => h

/-- A striped map is made with the options as rounded, once locks and buckets are granted. -/
theorem StripedMap.yields_make_vacant :
    Yields (StripedMap.make cb options)
      (fun map => options.check = .ok () ∧ cb.Grants (Table.lockBytes * options.stripes.toNat) ∧
        cb.Grants (Table.bucketBytes * options.rounded.buckets.toNat) ∧
        map = { options := options.rounded, table := Table.vacant options.rounded.buckets.toNat })
      fun _ => True := by
  apply options.yields_require.bind
  intro _ hcheck
  apply (cb.yields_grant _).bind
  intro _ hlocks
  exact (LockedMap.yields_build_vacant cb options.rounded).mono
    (fun _ h => ⟨hcheck, hlocks, h.1, h.2⟩) fun _ h => h

end Made

section Runs
variable {cb : MapCallbacks K V ε σ} {map : LockedMap l K V}

/-- A table with a bucket keeps one, whatever is asked of the map. -/
theorem LockedMap.Effect.roomy {request : MapRequest K V} {answer : MapAnswer V}
    {map' : LockedMap l K V} (h : LockedMap.Effect map request answer map')
    (roomy : 0 < map.table.size) : 0 < map'.table.size := by
  cases request with
  | put key value =>
    obtain ⟨n, grown, previous, hgrown, hplaced, -⟩ := h
    rw [hplaced.size]
    exact hgrown.size_pos roomy
  | remove key =>
    obtain ⟨previous, htaken, -⟩ := h
    rw [htaken.size]
    exact roomy
  | _ =>
    cases h
    exact roomy

theorem LockedMap.Leftover.roomy {request : MapRequest K V} {f : MapFailure ε}
    {map' : LockedMap l K V} (h : LockedMap.Leftover map request f map')
    (roomy : 0 < map.table.size) : 0 < map'.table.size ∧ f ≠ .noBucket := by
  cases request with
  | put key value =>
    obtain ⟨⟨n, hgrown, -⟩, hbucket⟩ := h
    exact ⟨hgrown.size_pos roomy, fun hf => Nat.ne_of_gt roomy (hbucket hf)⟩
  | _ =>
    obtain ⟨rfl, hbucket⟩ := h
    exact ⟨roomy, fun hf => Nat.ne_of_gt roomy (hbucket hf)⟩

/-- No look-up of any run goes to a table without buckets. -/
theorem LockedMap.never_noBucket (cb : MapCallbacks K V ε σ) (roomy : 0 < map.table.size) (o : σ)
    (requests : List (MapRequest K V)) :
    ∀ entry ∈ (serve (MapRequest.perform cb) requests ⟨map, o⟩).1, entry.2 ≠ .error .noBucket := by
  refine (serve_invariant (fun map : LockedMap l K V => 0 < map.table.size)
    (fun _ (outcome : Except (MapFailure ε) (MapAnswer V)) => outcome ≠ .error .noBucket)
    ?_ roomy o requests).1
  intro map request roomy
  apply (LockedMap.ends_perform_any cb map request).mono
  · exact fun _ _ h => ⟨nofun, h.roomy roomy⟩
  · intro f map' h
    obtain ⟨hroomy, hf⟩ := h.roomy roomy
    exact ⟨fun herror => hf (Except.error.inj herror), hroomy⟩

end Runs

/-- The table has the least number of buckets that the options allow, every look-up of every run
finds a bucket, and the options as rounded are usable and rounded for good. -/
structure StripedMap.Rounded (cb : MapCallbacks K V ε σ) (options : MapOptions)
    (map : StripedMap K V) : Prop where
  least : IsLeast {m | options.stripes.toNat ∣ m ∧ options.buckets.toNat ≤ m} map.table.size
  roomy : 0 < map.table.size
  found : ∀ (o : σ) (requests : List (MapRequest K V)),
    ∀ entry ∈ (serve (MapRequest.perform cb) requests ⟨map, o⟩).1, entry.2 ≠ .error .noBucket
  usable : map.options.check = .ok ()
  settled : ∀ (o o' : σ) (again : StripedMap K V), make cb map.options o = .ok again o' →
    again.options = map.options

/-- A table and locks that memory holds leave room for another rounding. -/
theorem MapOptions.rounded_rounded {options : MapOptions} (usable : options.check = .ok ())
    (word : options.buckets.toNat + options.stripes.toNat ≤ 2 ^ 64)
    (locks : Table.lockBytes * options.stripes.toNat < 2 ^ 63)
    (table : Table.bucketBytes * options.rounded.buckets.toNat < 2 ^ 63) :
    options.rounded.rounded = options.rounded := by
  have hpositive := stripes_pos usable
  have hleast := isLeast_rounded hpositive word
  have hsame : options.rounded.stripes = options.stripes := rfl
  have hword : options.rounded.buckets.toNat + options.rounded.stripes.toNat ≤ 2 ^ 64 := by
    rw [Table.lockBytes] at locks
    rw [Table.bucketBytes] at table
    rw [hsame]
    omega
  exact rounded_of_dvd hpositive hword hleast.1.1

theorem StripedMap.rounded_vacant {cb : MapCallbacks K V ε σ}
    (memory : ∀ bytes, cb.Grants bytes → bytes < 2 ^ 63) {options : MapOptions}
    (usable : options.check = .ok ())
    (locks : cb.Grants (Table.lockBytes * options.stripes.toNat))
    (table : cb.Grants (Table.bucketBytes * options.rounded.buckets.toNat))
    (word : options.buckets.toNat + options.stripes.toNat ≤ 2 ^ 64) :
    Rounded cb options
      { options := options.rounded, table := Table.vacant options.rounded.buckets.toNat } := by
  have hleast := MapOptions.isLeast_rounded (MapOptions.stripes_pos usable) word
  have hroomy : 0 < options.rounded.buckets.toNat :=
    Nat.lt_of_lt_of_le (MapOptions.buckets_pos usable) hleast.1.2
  have hsettled := MapOptions.rounded_rounded usable word (memory _ locks) (memory _ table)
  have hsize := Table.size_vacant (K := K) (V := V) options.rounded.buckets.toNat
  rw [← hsize] at hleast hroomy
  refine ⟨hleast, hroomy, LockedMap.never_noBucket cb hroomy, ?_, ?_⟩
  · apply MapOptions.check_eq_ok_iff.2
    refine ⟨fun hzero => ?_, (MapOptions.check_eq_ok_iff.1 usable).2⟩
    rw [hsize, hzero] at hroomy
    exact Nat.lt_irrefl 0 hroomy
  · intro o₁ o₂ again hagain
    have hmade := yields_make_vacant cb options.rounded o₁
    rw [hagain] at hmade
    obtain ⟨-, -, -, rfl⟩ := hmade
    exact hsettled

/-- Rounding succeeds unless the bucket count and the stripe count together exceed the greatest word
by more than one; then the map has no bucket at all. -/
theorem striped_map_rounded_or_bare {cb : MapCallbacks K V ε σ}
    (memory : ∀ bytes, cb.Grants bytes → bytes < 2 ^ 63) {options : MapOptions} {o o' : σ}
    {map : StripedMap K V} (made : StripedMap.make cb options o = .ok map o') :
    (options.buckets.toNat + options.stripes.toNat ≤ 2 ^ 64 →
      StripedMap.Rounded cb options map) ∧
    (2 ^ 64 < options.buckets.toNat + options.stripes.toNat → map.table.size = 0) := by
  have hmade := StripedMap.yields_make_vacant cb options o
  rw [made] at hmade
  obtain ⟨hcheck, hlocks, htable, rfl⟩ := hmade
  constructor
  · exact StripedMap.rounded_vacant memory hcheck hlocks htable
  · intro overflow
    rw [Table.size_vacant, MapOptions.rounded_eq_zero overflow]
    rfl

theorem MapCallbacks.lt_of_integer_grants {bytes : Nat}
    (h : (integer : MapCallbacks Int V MemoryFault σ).Grants bytes) : bytes < 2 ^ 63 := by
  obtain ⟨o, o', h⟩ := h
  by_contra hlarge
  have hblock : 1 <<< 63 ≤ bytes := by
    rw [Nat.one_shiftLeft]
    exact Nat.not_lt.1 hlarge
  simp only [integer, allocateBlock, if_pos hblock] at h
  cases h

/-- Only memory can excuse a failure. -/
theorem MapCallbacks.callback_of_excuses {f : MapFailure MemoryFault}
    (h : (integer : MapCallbacks Int V MemoryFault σ).Excuses f) :
    ∃ fault, f = .callback fault := by
  cases f with
  | callback fault => exact ⟨fault, rfl⟩
  | tooLarge =>
    obtain ⟨bytes, hlarge, hgrants⟩ := h
    have hsmall := MapCallbacks.lt_of_integer_grants hgrants
    have hword : 2 ^ 63 < UInt64.size := by decide
    omega
  | unusable error => exact h.elim
  | noBucket => exact h.elim

/-- Twelve buckets for eight stripes become sixteen. -/
theorem striped_map_rounded_or_bare_uneven :
    StripedMap.Rounded (.integer : MapCallbacks Int Int MemoryFault Unit)
      { buckets := 12, stripes := 8 }
      { options := { buckets := 16, stripes := 8 }, table := Table.vacant 16 } := by
  have hcheck : ({ buckets := 12, stripes := 8 } : MapOptions).check = .ok () := by decide +kernel
  have hmade : StripedMap.make (.integer : MapCallbacks Int Int MemoryFault Unit)
      { buckets := 12, stripes := 8 } () =
        .ok { options := { buckets := 16, stripes := 8 }, table := Table.vacant 16 } () := by
    rw [StripedMap.make, MapOptions.require, hcheck]
    rfl
  exact (striped_map_rounded_or_bare (fun _ => MapCallbacks.lt_of_integer_grants) hmade).1
    (by decide)

/-- The greatest word is a multiple of three, but the map that is asked for so many buckets on three
stripes is made without one, and a look-up in it fails. -/
theorem striped_map_made_bare :
    ({ buckets := 18446744073709551615, stripes := 3 } : MapOptions).check = .ok () ∧
      IsLeast {m | 3 ∣ m ∧ 18446744073709551615 ≤ m} 18446744073709551615 ∧
      ∃ map : StripedMap Int Int,
        StripedMap.make .integer { buckets := 18446744073709551615, stripes := 3 } () =
          .ok map () ∧
        map.table.size = 0 ∧ LockedMap.get .integer 5 ⟨map, ()⟩ = .error .noBucket ⟨map, ()⟩ := by
  have hcheck : ({ buckets := 18446744073709551615, stripes := 3 } : MapOptions).check = .ok () := by
    decide +kernel
  refine ⟨hcheck, ⟨⟨by decide, Nat.le_refl _⟩, fun m hm => hm.2⟩,
    { options := { buckets := 0, stripes := 3 }, table := Table.vacant 0 }, ?_, rfl, rfl⟩
  rw [StripedMap.make, MapOptions.require, hcheck]
  rfl

end LockedContainers
