import LockedContainers.Proofs.Binary64.Products
import LockedContainers.Proofs.Map.Construction
import LockedContainers.Proofs.Map.Sequential

/-!
# How full a run leaves a map

A striped map grows until the next entry fits. A map behind one lock doubles its
table once, which is enough as soon as one entry fits in twice the buckets it
began with: twice the buckets that hold some entries hold one more, also when
the products are rounded.
-/
namespace LockedContainers

open Binary64 (wholeUnits productUnits)

variable {l : Locking} {K V ε σ : Type}

namespace MapOptions

variable {options : MapOptions} {u m n a b : Nat}

/-- The threshold is a positive finite number. -/
def Positive (options : MapOptions) : Prop :=
  ∃ u, u ≠ 0 ∧ options.threshold.value = .finite false u

theorem positive_of_check (usable : options.check = .ok ()) : options.Positive := by
  obtain ⟨-, -, hfinite, hpositive⟩ := check_eq_ok_iff.1 usable
  exact Binary64.exists_units hfinite hpositive

theorem exceeds_eq (hvalue : options.threshold.value = .finite false u) (hu : u ≠ 0) (n b : Nat) :
    options.exceeds n b = decide (productUnits u b < wholeUnits n) := by
  rw [exceeds, Binary64.lt, Binary64.rank?_mul_ofNat hvalue hu, Binary64.rank?_ofNat]
  simp

theorem exceeds_zero (positive : options.Positive) (b : Nat) : options.exceeds 0 b = false := by
  obtain ⟨u, hu, hvalue⟩ := positive
  rw [exceeds_eq hvalue hu, Binary64.wholeUnits_zero]
  simp

/-- Where some entries fit, fewer fit in more buckets. -/
theorem exceeds_mono (positive : options.Positive) (hentries : m ≤ n) (hbuckets : a ≤ b)
    (fit : options.exceeds n a = false) : options.exceeds m b = false := by
  obtain ⟨u, hu, hvalue⟩ := positive
  have hwhole := Binary64.wholeUnits_mono hentries
  have hproduct := Binary64.productUnits_mono u hbuckets
  rw [exceeds_eq hvalue hu, decide_eq_false_iff_not] at fit ⊢
  omega

/-- Where some entries fit, one more fits in twice the buckets. -/
theorem exceeds_double (positive : options.Positive) (hentries : 0 < n) (hbuckets : 0 < b)
    (fit : options.exceeds n b = false) : options.exceeds (n + 1) (b * 2) = false := by
  obtain ⟨u, hu, hvalue⟩ := positive
  rw [exceeds_eq hvalue hu, decide_eq_false_iff_not, Nat.not_lt] at fit ⊢
  calc wholeUnits (n + 1)
    _ ≤ min (2 * wholeUnits n) Binary64.beyond := Binary64.wholeUnits_succ_le hentries
    _ ≤ min (2 * productUnits u b) Binary64.beyond := by omega
    _ ≤ productUnits u (b * 2) :=
      Binary64.le_productUnits_double hbuckets
        (Nat.le_trans (Binary64.one_le_wholeUnits hentries) fit)

/-- The whole part of the threshold times so many buckets, if the product is finite. -/
def allowance? (options : MapOptions) (buckets : Nat) : Option Nat :=
  match (options.threshold.mul (.ofNat buckets)).value with
  | .finite false u => some (u / Binary64.one)
  | _ => none

/-- Where entries fit they are no more than the allowance, as long as whole numbers are exact. -/
theorem le_allowance (positive : options.Positive) (fit : options.exceeds n b = false)
    (allowed : options.allowance? b = some m) (exact' : n ≤ 2 ^ 53 ∨ m < 2 ^ 53) : n ≤ m := by
  obtain ⟨u, hu, hvalue⟩ := positive
  rw [exceeds_eq hvalue hu, decide_eq_false_iff_not, Nat.not_lt] at fit
  have hrank := Binary64.rank?_mul_ofNat hvalue hu b
  rw [allowance?] at allowed
  rw [Binary64.rank?] at hrank
  cases hproduct : (options.threshold.mul (.ofNat b)).value with
  | nan => simp [hproduct] at allowed
  | infinite s => simp [hproduct] at allowed
  | finite s v =>
    cases s with
    | true => simp [hproduct] at allowed
    | false =>
      have hv : (v : Int) = productUnits u b := by simpa [hproduct] using hrank
      have hm : v / Binary64.one = m := by simpa [hproduct] using allowed
      have hunits : ∀ k ≤ n, k ≤ 2 ^ 53 → k ≤ m := by
        intro k hk hsmall
        have hmono := Binary64.wholeUnits_mono hk
        rw [Binary64.wholeUnits_eq hsmall] at hmono
        rw [← hm, Nat.le_div_iff_mul_le (Nat.zero_lt_of_lt Binary64.two_pow_lt_one)]
        omega
      rcases Nat.le_total n (2 ^ 53) with hsmall | hlarge
      · exact hunits n (Nat.le_refl n) hsmall
      · have hbound := hunits (2 ^ 53) hlarge (Nat.le_refl _)
        omega

/-- A positive threshold and, when the table is doubled only once, room for a first entry in twice
the buckets. -/
structure Ample (l : Locking) (options : MapOptions) : Prop where
  positive : options.Positive
  room : l = .monitor →
    0 < options.buckets.toNat ∧ options.exceeds 1 (options.buckets.toNat * 2) = false

end MapOptions

namespace LockedMap

/-- Whether the map has more entries than the threshold allows for its buckets. -/
def isOverloaded (map : LockedMap l K V) : Bool :=
  map.options.exceeds map.count map.table.size

/-- No run leaves the map overloaded. -/
def StaysWithinLoad (cb : MapCallbacks K V ε σ) (map : LockedMap l K V) : Prop :=
  ∀ (o : σ) (requests : List (MapRequest K V)),
    (serve (MapRequest.perform cb) requests ⟨map, o⟩).2.container.isOverloaded = false

/-- The entries fit, and no bucket of those it began with was lost. -/
structure Fits (options : MapOptions) (map : LockedMap l K V) : Prop where
  kept : map.options = options
  wide : options.buckets.toNat ≤ map.table.size
  within : options.exceeds map.count map.table.size = false

section Changes
variable {options : MapOptions} {map map' : LockedMap l K V}

theorem fits_vacant (positive : options.Positive) :
    Fits options
      ({ options, table := Table.vacant options.buckets.toNat } : LockedMap l K V) where
  kept := rfl
  wide := Nat.le_of_eq (Table.size_vacant _).symm
  within := MapOptions.exceeds_zero positive _

/-- No more entries in a table that is no smaller. -/
theorem Fits.relaxed (h : Fits options map) (positive : options.Positive)
    (hoptions : map'.options = map.options) (hcount : map'.count ≤ map.count)
    (hsize : map.table.size ≤ map'.table.size) : Fits options map' where
  kept := hoptions.trans h.kept
  wide := Nat.le_trans h.wide hsize
  within := MapOptions.exceeds_mono positive hcount hsize h.within

theorem Fits.grown {n : Nat} (h : Fits options map) (positive : options.Positive)
    (grown : Grown n map map') : Fits options map' := by
  apply h.relaxed positive grown.options (Nat.le_of_eq grown.count)
  rw [grown.size]
  exact Nat.le_mul_of_pos_right _ (Nat.two_pow_pos n)

theorem Fits.taken {previous : Option V} (h : Fits options map) (positive : options.Positive)
    (taken : Taken map previous map') : Fits options map' := by
  apply h.relaxed positive taken.options _ (Nat.le_of_eq taken.size.symm)
  cases taken with
  | unlink bound cut => simp
  | absent => exact Nat.le_refl _

/-- An entry is linked only where one more fits. -/
theorem Fits.placed {key : K} {value : V} {previous : Option V} (h : Fits options map)
    (positive : options.Positive) (placed : Placed map key value previous map')
    (room : previous = none → ¬ map.isFull) : Fits options map' := by
  cases placed with
  | overwrite bound cut => exact h.relaxed positive rfl (Nat.le_refl _) (by simp)
  | link bound =>
    have hroom := room rfl
    rw [isFull, h.kept, Bool.not_eq_true] at hroom
    exact ⟨h.kept, by simpa using h.wide, by simpa using hroom⟩

/-- One doubling makes room for one entry, the first by assumption and any other by the entries that
fit before. -/
theorem Fits.not_isFull_of_doubled {grown : LockedMap l K V} (h : Fits options map)
    (ample : options.Ample .monitor) (doubled : Doubled map grown) : ¬ grown.isFull := by
  obtain ⟨hbuckets, hroom⟩ := ample.room rfl
  have hwide := h.wide
  rw [isFull, doubled.options, h.kept, doubled.count, doubled.size, Bool.not_eq_true]
  by_cases hempty : map.count = 0
  · rw [hempty]
    exact MapOptions.exceeds_mono ample.positive (Nat.le_refl _) (by omega) hroom
  · exact MapOptions.exceeds_double ample.positive (by omega) (by omega) h.within

end Changes

section Steps
variable {options : MapOptions} {map : LockedMap l K V} (cb : MapCallbacks K V ε σ)

theorem Fits.ends_put (h : Fits options map) (ample : options.Ample l) (key : K) (value : V) :
    Ends map (put cb key value) (fun _ map' => Fits options map') fun _ map' => Fits options map' := by
  have hfail : ∀ (f : MapFailure ε) map', Halted map f map' → Fits options map' := by
    rintro f map' ⟨⟨n, hgrown, -⟩, -⟩
    exact h.grown ample.positive hgrown
  cases l with
  | monitor =>
    apply (MonitorMap.ends_put_any cb map key value).mono _ hfail
    rintro previous map' (⟨hplaced, hroom⟩ | ⟨grown, hfull, hgrown, -, hplaced⟩)
    · exact h.placed ample.positive hplaced hroom
    · have hfits := h.grown ample.positive (.once hfull hgrown)
      exact hfits.placed ample.positive hplaced fun _ => h.not_isFull_of_doubled ample hgrown
  | striped =>
    apply (StripedMap.ends_put_any cb map key value).mono _ hfail
    rintro previous map' ⟨n, grown, hgrown, hplaced, hroom⟩
    exact (h.grown ample.positive hgrown).placed ample.positive hplaced hroom

theorem Fits.ends_perform (h : Fits options map) (ample : options.Ample l)
    (request : MapRequest K V) :
    Ends map (request.perform cb) (fun _ map' => Fits options map')
      fun _ map' => Fits options map' := by
  cases request with
  | put key value => exact .map (h.ends_put cb ample key value)
  | remove key =>
    apply (ends_perform_any cb map (.remove key)).mono
    · rintro answer map' ⟨previous, htaken, -⟩
      exact h.taken ample.positive htaken
    · rintro f map' ⟨rfl, -⟩
      exact h
  | _ =>
    apply (ends_perform_any cb map _).mono
    · rintro answer map' rfl
      exact h
    · rintro f map' ⟨rfl, -⟩
      exact h

/-- What one request maintains, every run maintains. -/
theorem Fits.staysWithinLoad (h : Fits options map) (ample : options.Ample l) :
    map.StaysWithinLoad cb := by
  intro o requests
  have hrun := (serve_invariant (Fits options)
    (fun (_ : MapRequest K V) (_ : Except (MapFailure ε) (MapAnswer V)) => True)
    (fun map request hmap => (hmap.ends_perform cb ample request).mono
      (fun _ _ h => ⟨trivial, h⟩) fun _ _ h => ⟨trivial, h⟩) h o requests).2
  rw [isOverloaded, hrun.kept]
  exact hrun.within

/-- With one lock a first entry is linked after one doubling, whether it fits or not. -/
theorem ends_put_overloads (positive : options.Positive)
    (tight : options.exceeds 1 (options.buckets.toNat * 2) = true) (key : K) (value : V) :
    Ends ({ options, table := Table.vacant options.buckets.toNat } : MonitorMap K V)
      (put cb key value) (fun _ map' => map'.isOverloaded = true) fun _ _ => True := by
  apply (MonitorMap.ends_put_any cb _ key value).mono _ fun _ _ _ => trivial
  rintro previous map' (⟨hplaced, hroom⟩ | ⟨grown, -, hgrown, rfl, hplaced⟩)
  · cases hplaced with
    | overwrite bound cut => simp [Hit.bucket, Table.bucket_vacant] at cut
    | link bound =>
      have hfit := hroom rfl
      rw [isFull, Bool.not_eq_true] at hfit
      have hdouble := MapOptions.exceeds_mono positive (Nat.le_refl _)
        (Nat.le_mul_of_pos_right _ (by decide : 0 < 2)) hfit
      simp [Table.vacant, tight] at hdouble
  · cases hplaced with
    | link bound =>
      rw [isOverloaded, size_linked, hgrown.size, options_linked, hgrown.options, count_linked,
        hgrown.count]
      simpa [Table.vacant] using tight

end Steps
end LockedMap

/-- A map behind one lock is never left with more entries than its threshold allows, if one entry
fits in twice the buckets that were asked for; if it does not, the first insertion leaves the map
overloaded. -/
theorem monitor_map_within_load_or_over {cb : MapCallbacks K V ε σ} {options : MapOptions} {o o' : σ}
    {map : MonitorMap K V} (made : MonitorMap.make cb options o = .ok map o') :
    (options.exceeds 1 (options.buckets.toNat * 2) = false → map.StaysWithinLoad cb) ∧
    (options.exceeds 1 (options.buckets.toNat * 2) = true → ∀ key value,
      Ends map (LockedMap.put cb key value) (fun _ map' => map'.isOverloaded = true)
        fun _ _ => True) := by
  have hmade := MonitorMap.yields_make_vacant cb options o
  rw [made] at hmade
  obtain ⟨hcheck, rfl⟩ := hmade
  have hpositive := MapOptions.positive_of_check hcheck
  constructor
  · intro hroom
    have hample : options.Ample .monitor :=
      ⟨hpositive, fun _ => ⟨MapOptions.buckets_pos hcheck, hroom⟩⟩
    exact (LockedMap.fits_vacant hpositive).staysWithinLoad cb hample
  · exact LockedMap.ends_put_overloads cb hpositive

/-- One bucket, and a threshold of a quarter: one entry needs four. -/
def MapOptions.quarter : MapOptions :=
  { buckets := 1, stripes := 1, threshold := ⟨0x3fd0000000000000⟩ }

/-- A new map with one bucket that a quarter of an entry fills. -/
def LockedMap.ofQuarter : MonitorMap Int Int where
  options := .quarter
  table := Table.vacant 1

theorem LockedMap.make_ofQuarter : MonitorMap.make .integer .quarter () = .ok ofQuarter () := by
  have hcheck : MapOptions.quarter.check = .ok () := by decide +kernel
  rw [MonitorMap.make, MapOptions.require, hcheck]
  rfl

/-- Two buckets at three quarters are enough; one bucket at a quarter is not. -/
theorem monitor_map_within_load_or_over_quarter :
    (LockedMap.ofTwo : MonitorMap Nat Nat).StaysWithinLoad (.fused tensHash sameTens) ∧
      Ends LockedMap.ofQuarter
        (LockedMap.put (.integer : MapCallbacks Int Int MemoryFault Unit) 1 1)
        (fun _ map' => map'.isOverloaded = true) fun _ _ => True := by
  constructor
  · have hmade : MonitorMap.make (.fused tensHash sameTens) { buckets := 2, stripes := 2 } none =
        .ok (LockedMap.ofTwo : MonitorMap Nat Nat) none :=
      LockedMap.make_ofTwo (l := .monitor) tensHash sameTens
    exact (monitor_map_within_load_or_over hmade).1 (by decide +kernel)
  · exact (monitor_map_within_load_or_over LockedMap.make_ofQuarter).2 (by decide +kernel) 1 1

/-- One insertion, which does not fail, leaves one entry in two buckets, where none is allowed. -/
theorem monitor_map_left_overloaded :
    MonitorMap.make .integer .quarter () = .ok LockedMap.ofQuarter () ∧
      (serve (MapRequest.perform .integer) [.put 1 1, .size, .bucketCount]
        ⟨LockedMap.ofQuarter, ()⟩).1.map Prod.snd =
          [.ok (.value none), .ok (.count 1), .ok (.count 2)] ∧
      MapOptions.quarter.exceeds 1 2 = true ∧
      ¬ LockedMap.ofQuarter.StaysWithinLoad (.integer : MapCallbacks Int Int MemoryFault Unit) := by
  refine ⟨LockedMap.make_ofQuarter, by decide +kernel, by decide +kernel, fun h => ?_⟩
  have hrun : (serve (MapRequest.perform .integer) [.put 1 1]
      ⟨LockedMap.ofQuarter, ()⟩).2.container.isOverloaded = true := by decide +kernel
  rw [h () [.put 1 1]] at hrun
  exact Bool.noConfusion hrun

/-- A striped map is never left with more entries than its threshold allows. -/
theorem striped_map_within_load {cb : MapCallbacks K V ε σ} {options : MapOptions} {o o' : σ}
    {map : StripedMap K V} (made : StripedMap.make cb options o = .ok map o') :
    map.StaysWithinLoad cb := by
  have hmade := StripedMap.yields_make_vacant cb options o
  rw [made] at hmade
  obtain ⟨hcheck, -, -, rfl⟩ := hmade
  have hpositive := MapOptions.positive_of_check hcheck
  have hample : options.rounded.Ample .striped := ⟨hpositive, nofun⟩
  exact (LockedMap.fits_vacant hample.positive).staysWithinLoad cb hample

end LockedContainers
