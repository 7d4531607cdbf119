import LockedContainers.Proofs.Map.Agreement
import LockedContainers.Proofs.Map.Conservation
import LockedContainers.Proofs.Map.Sizing

/-!
# Runs in a map that was made to size

While no more entries are stored than the table was sized for, a put is out of
room only when it would store one more. Such a put breaks the bound unless it
fails; when it fails after the growth, the table stays grown.
-/
namespace LockedContainers

variable {l : Locking} {K V ε σ : Type}

namespace LockedMap

/-- A put of a key that the map misses while it stores `n` entries. -/
def Overfills (hash : K → UInt64) (same : K → K → Bool) (n : Nat) (map : LockedMap l K V) :
    MapRequest K V → Prop
  | .put key _ => map.table.entries.length = n ∧ map.found hash same key = none
  | _ => False

/-- At no moment of the run are more than `n` entries stored, and no put fails that would store one
more. -/
def RunsWithin (cb : MapCallbacks K V ε σ) (hash : K → UInt64) (same : K → K → Bool) (n : Nat) :
    List (MapRequest K V) → Shared (LockedMap l K V) σ → Prop
  | [], s => s.container.table.entries.length ≤ n
  | r :: rest, s => s.container.table.entries.length ≤ n ∧
    match r.perform cb s with
    | .ok _ s' => RunsWithin cb hash same n rest s'
    | .error _ s' => ¬ s.container.Overfills hash same n r ∧ RunsWithin cb hash same n rest s'

theorem RunsWithin.few {cb : MapCallbacks K V ε σ} {hash : K → UInt64} {same : K → K → Bool}
    {n : Nat} {requests : List (MapRequest K V)} {s : Shared (LockedMap l K V) σ}
    (h : RunsWithin cb hash same n requests s) : s.container.table.entries.length ≤ n := by
  cases requests with
  | nil => exact h
  | cons r rest => exact h.1

end LockedMap

section Puts
variable {cb : MapCallbacks K V ε σ} {hash : K → UInt64} {same : K → K → Bool}
  (follows : cb.Follows hash same) {key : K}
include follows

/-- What follows the look-up of a key sees the entry that is found; a look-up that fails leaves the
map. -/
theorem LockedMap.ends_locate_bind {map : LockedMap l K V} (roomy : 0 < map.table.size) (key : K)
    {α : Type} {next : Nat × Option (Hit K V) → MapSection l K V ε σ α}
    {post : α → LockedMap l K V → Prop} {failed : MapFailure ε → LockedMap l K V → Prop}
    (hfail : ∀ f, failed f map)
    (hnext : Ends map (next (map.home hash key, map.found hash same key)) post failed) :
    Ends map (Guarded.ask (cb.hash key) >>= fun x => lookup cb x key >>= next) post failed := by
  apply Ends.ask_bind (follows.yields_hash key) fun _ _ => hfail _
  rintro x rfl
  have hlookup := (comesTo_lookup follows roomy key).and (ends_lookup_any cb (hash key))
  apply (hlookup.mono (fun _ _ h => h.1) _).bind
  · rintro found map' hfound
    cases hfound
    exact hnext
  · rintro f map' ⟨-, rfl, -⟩
    exact hfail f

/-- A put that finds its key or has room for it does not grow the table, nor when it fails. -/
theorem MonitorMap.ends_put_still {map : MonitorMap K V} (roomy : 0 < map.table.size) (value : V)
    (still : map.found hash same key = none → ¬ map.isFull) :
    Ends map (put cb key value) (fun _ map' => map' = map.afterPut hash same key value)
      fun _ map' => map' = map := by
  apply LockedMap.ends_locate_bind follows roomy key
  · exact fun _ => rfl
  · rw [LockedMap.afterPut]
    cases hfound : map.found hash same key with
    | some hit => exact .modify_bind (.pure rfl)
    | none =>
      apply Ends.read_bind
      rw [if_neg (still hfound), LockedMap.enlarged, if_neg (still hfound)]
      exact LockedMap.ends_link_any_bind cb (fun _ _ => rfl) (.pure rfl)

namespace StripedMap
variable {map : StripedMap K V}

theorem ends_put_still (roomy : 0 < map.table.size) (value : V)
    (still : map.found hash same key = none → ¬ map.isFull) :
    Ends map (put cb key value) (fun _ map' => map' = map.afterPut hash same key value)
      fun _ map' => map' = map := by
  apply Ends.ask_bind (follows.yields_hash key) fun _ _ => rfl
  rintro x rfl
  have hattempt := ((comesTo_attempt follows roomy key value).and
    (ends_attempt_any cb map (hash key) key value)).mono (fun _ _ h => h.1) fun _ _ h => h.2.1
  apply hattempt.bind
  intro outcome map' hout
  rw [LockedMap.afterPut]
  cases hfound : map.found hash same key with
  | some hit =>
    rw [hfound] at hout
    cases hout
    exact .pure rfl
  | none =>
    rw [hfound] at hout
    simp only [if_neg (still hfound)] at hout
    cases hout
    rw [LockedMap.enlarged, if_neg (still hfound)]
    exact .pure rfl

/-- A key that is missing at first is missing after every growth. -/
theorem ends_putWithin_missing (roomy : 0 < map.table.size) (homed : map.table.Homed hash)
    (missing : map.found hash same key = none) (value : V) (attempts : Nat) :
    Ends map (putWithin cb (hash key) key value attempts) (fun previous _ => previous = none)
      fun _ _ => True := by
  induction attempts generalizing map with
  | zero => exact .throw trivial
  | succ attempts ih =>
    have hattempt := comesTo_attempt follows roomy key value
    rw [missing] at hattempt
    apply (hattempt.mono (fun _ _ h => h) fun _ _ _ => trivial).bind
    intro outcome map' hout
    by_cases hfull : map.isFull
    · simp only [if_pos hfull] at hout
      cases hout
      apply ((comesTo_grow follows hfull).mono (fun _ _ h => h) fun _ _ _ => trivial).bind
      intro _ grown hgrown
      cases hgrown
      have hpos : 0 < map.table.size * 2 := by omega
      have hdoubled : LockedMap.Doubled map (map.doubled hash) := LockedMap.doubled_doubled roomy
      have hsize := hdoubled.size
      apply ih
      · rw [hsize]
        exact hpos
      · exact Table.rehomed_homed hpos
      · rw [LockedMap.found, Bucket.hit?_eq_none] at missing ⊢
        rw [LockedMap.home, hsize]
        exact homed.missing roomy missing
    · simp only [if_neg hfull] at hout
      cases hout
      exact .pure rfl

end StripedMap

namespace LockedMap
variable {map : LockedMap l K V}

theorem ends_put_still (roomy : 0 < map.table.size) (value : V)
    (still : map.found hash same key = none → ¬ map.isFull) :
    Ends map (put cb key value) (fun _ map' => map' = map.afterPut hash same key value)
      fun _ map' => map' = map := by
  cases l with
  | monitor => exact MonitorMap.ends_put_still follows roomy value still
  | striped => exact StripedMap.ends_put_still follows roomy value still

/-- A put of a missing key that is answered has stored one more entry. -/
theorem ends_put_missing (roomy : 0 < map.table.size) (homed : map.table.Homed hash)
    (missing : map.found hash same key = none) (value : V) :
    Ends map (put cb key value) (fun _ map' => map'.count = map.count + 1) fun _ _ => True := by
  cases l with
  | monitor =>
    apply ends_locate_bind follows roomy key fun _ => trivial
    rw [missing]
    apply Ends.read_bind
    by_cases hfull : map.isFull
    · rw [if_pos hfull]
      apply ends_double_any_bind cb fun _ _ => trivial
      intro grown hgrown
      have hsize := hgrown.size
      apply ends_hash_any_bind cb fun _ _ => trivial
      intro h
      apply Ends.read_bind
      rw [Table.slot, if_neg (by omega), pure_bind]
      exact ends_link_any_bind cb (fun _ _ => trivial) (.pure (congrArg (· + 1) hgrown.count))
    · rw [if_neg hfull]
      exact ends_link_any_bind cb (fun _ _ => trivial) (.pure rfl)
  | striped =>
    have hnone : Ends map (StripedMap.put cb key value) (fun previous _ => previous = none)
        fun _ _ => True := by
      apply Ends.ask_bind (follows.yields_hash key) fun _ _ => trivial
      rintro x rfl
      exact StripedMap.ends_putWithin_missing follows roomy homed missing value _
    apply (hnone.and (StripedMap.ends_put_any cb map key value)).mono _ fun _ _ _ => trivial
    rintro previous map' ⟨rfl, n, grown, hgrown, hplaced, -⟩
    cases hplaced with
    | link bound => rw [count_linked, hgrown.count]

end LockedMap
end Puts

namespace LockedMap

/-- The map was never resized, with every entry at home and counted. -/
structure Unresized (hash : K → UInt64) (options : MapOptions) (map : LockedMap l K V) : Prop where
  kept : map.options = options
  homed : map.table.Homed hash
  accounted : Accounted options.buckets.toNat map
  never : map.growths = 0

namespace Unresized
variable {hash : K → UInt64} {same : K → K → Bool} {options : MapOptions} {map : LockedMap l K V}

theorem vacant (hash : K → UInt64) (options : MapOptions) :
    Unresized hash options
      ({ options, table := Table.vacant options.buckets.toNat } : LockedMap l K V) where
  kept := rfl
  homed := Table.vacant_homed hash _
  accounted := by
    refine ⟨?_, ?_⟩
    · simp [Table.contents, Table.entries_vacant]
    · simp [Table.size_vacant]
  never := rfl

theorem size (h : map.Unresized hash options) : map.table.size = options.buckets.toNat := by
  rw [h.accounted.doubled, h.never, Nat.pow_zero, Nat.mul_one]

theorem count (h : map.Unresized hash options) : map.count = map.table.entries.length :=
  h.accounted.counted

theorem afterPut (h : map.Unresized hash options) (roomy : 0 < map.table.size) {key : K} (value : V)
    (still : map.found hash same key = none → ¬ map.isFull) :
    (map.afterPut hash same key value).Unresized hash options := by
  have hhome : map.home hash key < map.table.size := Nat.mod_lt _ roomy
  rw [LockedMap.afterPut]
  cases hfound : map.found hash same key with
  | some hit =>
    have cut := Bucket.bucket_of_hit? hfound
    have hplaced : Placed map key value (some hit.value)
        (map.overwritten (map.home hash key) hit value) := .overwrite hhome cut
    exact ⟨h.kept, h.homed.replaced hhome cut value, h.accounted.placed hplaced, h.never⟩
  | none =>
    rw [enlarged, if_neg (still hfound)]
    exact ⟨h.kept, h.homed.append hhome rfl, h.accounted.placed (.link hhome), h.never⟩

theorem taken {map' : LockedMap l K V} {previous : Option V} (h : map.Unresized hash options)
    (taken : Taken map previous map') : map'.Unresized hash options := by
  refine ⟨taken.options.trans h.kept, ?_, h.accounted.taken taken, ?_⟩
  · cases taken with
    | unlink bound cut => exact h.homed.removed bound cut
    | absent => exact h.homed
  · cases taken with
    | unlink bound cut => exact h.never
    | absent => exact h.never

section Steps
variable {cb : MapCallbacks K V ε σ} {n : Nat} (follows : cb.Follows hash same)
  (usable : options.check = .ok ()) (fit : options.exceeds n options.buckets.toNat = false)
include follows usable fit

/-- A put is out of room only when it would store one entry more than fit. -/
theorem ends_put (h : map.Unresized hash options) (few : map.table.entries.length ≤ n) (key : K)
    (value : V) :
    Ends map (put cb key value)
      (fun _ map' => map'.table.entries.length ≤ n → map'.Unresized hash options)
      fun _ map' => ¬ map.Overfills hash same n (.put key value) → map'.Unresized hash options := by
  have hroomy : 0 < map.table.size := by
    rw [h.size]
    exact MapOptions.buckets_pos usable
  by_cases still : map.found hash same key = none → ¬ map.isFull
  · apply (ends_put_still follows hroomy value still).mono
    · rintro previous map' rfl -
      exact h.afterPut hroomy value still
    · rintro f map' rfl -
      exact h
  · obtain ⟨hmissing, hfull⟩ := Classical.not_imp.1 still
    have hbrim : map.table.entries.length = n := by
      by_contra hless
      have hroom := MapOptions.exceeds_mono (MapOptions.positive_of_check usable)
        (m := map.count + 1) (by rw [h.count]; omega) (Nat.le_refl _) fit
      rw [isFull, h.kept, h.size, hroom] at hfull
      exact hfull Bool.false_ne_true
    have hgrows := (ends_put_missing follows hroomy h.homed hmissing value).and
      (ends_put_any cb map key value)
    apply hgrows.mono
    · rintro previous map' ⟨hcount, k, grown, hgrown, hplaced⟩ hfew
      have hcounted : map'.count = map'.table.entries.length :=
        ((h.accounted.grown hgrown).placed hplaced).counted
      have hone := h.count
      omega
    · rintro f map' - hspared
      exact absurd ⟨hbrim, hmissing⟩ hspared

theorem ends_perform (h : map.Unresized hash options) (few : map.table.entries.length ≤ n)
    (request : MapRequest K V) :
    Ends map (request.perform cb)
      (fun _ map' => map'.table.entries.length ≤ n → map'.Unresized hash options)
      fun _ map' => ¬ map.Overfills hash same n request → map'.Unresized hash options := by
  cases request with
  | put key value => exact .map (h.ends_put follows usable fit few key value)
  | remove key =>
    apply (ends_perform_any cb map (.remove key)).mono
    · rintro answer map' ⟨previous, htaken, -⟩ -
      exact h.taken htaken
    · rintro f map' ⟨rfl, -⟩ -
      exact h
  | _ =>
    apply (ends_perform_any cb map _).mono
    · rintro answer map' rfl -
      exact h
    · rintro f map' ⟨rfl, -⟩ -
      exact h

/-- What one request leaves unresized, a run does. -/
theorem serve {s : Shared (LockedMap l K V) σ} (h : s.container.Unresized hash options)
    {requests : List (MapRequest K V)} (within : RunsWithin cb hash same n requests s) :
    (serve (MapRequest.perform cb) requests s).2.container.Unresized hash options := by
  induction requests generalizing s with
  | nil => exact h
  | cons r rest ih =>
    obtain ⟨few, hrest⟩ := within
    have hstep := h.ends_perform follows usable fit few r
    rw [LockedContainers.serve]
    cases hrun : r.perform cb s with
    | ok answer s' =>
      rw [hrun] at hrest
      exact ih (hstep.of_ok hrun hrest.few) hrest
    | error f s' =>
      rw [hrun] at hrest
      exact ih (hstep.of_error hrun hrest.1) hrest.2

end Steps
end Unresized
end LockedMap

/-- A map that is made with the options is never resized while no more than `n` entries are stored,
unless a put fails that would store one more. -/
def MapOptions.Spare (options : MapOptions) (n : Nat) : Prop :=
  ∀ {K V ε σ : Type} (l : Locking) (cb : MapCallbacks K V ε σ) (hash : K → UInt64)
    (same : K → K → Bool), cb.Follows hash same →
    ∀ (o o' : σ) (map : LockedMap l K V), LockedMap.make cb l options o = .ok map o' →
    ∀ (outside : σ) (requests : List (MapRequest K V)),
      LockedMap.RunsWithin cb hash same n requests ⟨map, outside⟩ →
      let final := (serve (MapRequest.perform cb) requests ⟨map, outside⟩).2.container
      final.growths = 0 ∧ final.table.size = options.buckets.toNat

namespace MapOptions.Sized
variable {capacity : UInt64} {threshold : Binary64} {options : MapOptions}

theorem check (h : Sized capacity threshold options) (finite : threshold.isFinite)
    (positive : (Binary64.zero false).lt threshold) : options.check = .ok () := by
  rw [check_eq_ok_iff, h.threshold, h.stripes]
  refine ⟨?_, by decide, finite, positive⟩
  rintro hzero
  obtain ⟨k, -, -, hpower⟩ := h.power
  have hpos := Nat.two_pow_pos k
  rw [hzero, UInt64.toNat_zero] at hpower
  omega

/-- Powers of two from sixteen on come out even among sixteen stripes. -/
theorem rounded (h : Sized capacity threshold options) : options.rounded = options := by
  have hstripes : options.stripes.toNat = 2 ^ 4 := by
    rw [h.stripes]
    rfl
  obtain ⟨k, hlow, hhigh, hpower⟩ := h.power
  have hle : 2 ^ k ≤ 2 ^ 63 := Nat.pow_le_pow_right (by decide) hhigh
  apply rounded_of_dvd
  · rw [hstripes]
    decide
  · rw [hstripes, hpower]
    omega
  · rw [hstripes, hpower]
    exact Nat.pow_dvd_pow 2 hlow

theorem spare (h : Sized capacity threshold options) (usable : options.check = .ok ()) :
    options.Spare capacity.toNat := by
  intro K V ε σ l cb hash same follows o o' map made outside requests within
  have hmade := LockedMap.yields_make_usable (l := l) cb usable h.rounded o
  rw [made] at hmade
  obtain rfl : map = _ := hmade
  have hfinal := (LockedMap.Unresized.vacant hash options).serve (s := ⟨_, outside⟩) follows usable
    (h.fits _ (Nat.le_refl _)) within
  exact ⟨hfinal.never, hfinal.size⟩

end MapOptions.Sized

/-- Sizing by a rounded division and growing by rounded products agree: the table is the least power
of two that the entries do not exceed, or there is none among the words; and a map that was made to
size is not resized below its capacity, unless by a put beyond it that fails. -/
theorem sizing_agrees_with_growth (capacity : UInt64) {threshold : Binary64}
    (finite : threshold.isFinite) (positive : (Binary64.zero false).lt threshold) :
    (∃ options, MapOptions.sizedFor capacity threshold = .ok options ∧
      ({ threshold } : MapOptions).exceeds capacity.toNat (2 ^ 63) = false ∧
      MapOptions.Doubles (MapOptions.needed capacity threshold) 16 (some options.buckets) ∧
      MapOptions.Sized capacity threshold options ∧ options.Spare capacity.toNat) ∨
    (MapOptions.sizedFor capacity threshold = .error (.tooMany capacity) ∧
      ({ threshold } : MapOptions).exceeds capacity.toNat (2 ^ 63) = true ∧
      MapOptions.Doubles (MapOptions.needed capacity threshold) 16 none) := by
  have husable := MapOptions.check_default finite positive
  obtain ⟨options, hsized, hoptions, hdoubles, hfit⟩ | ⟨hrefused, hdoubles, hexceeds⟩ :=
    MapOptions.sizedFor_cases husable
  · exact .inl ⟨options, hsized, hfit, hdoubles, hoptions,
      hoptions.spare (hoptions.check finite positive)⟩
  · exact .inr ⟨hrefused, hexceeds, hdoubles⟩

def Binary64.threeQuarters : Binary64 := ⟨0x3fe8000000000000⟩

theorem MapOptions.sizedFor_twelve : sizedFor 12 .threeQuarters = .ok {} := by decide +kernel

/-- Twelve entries fit in sixteen buckets. -/
theorem sizing_agrees_with_growth_twelve :
    MapOptions.sizedFor 12 .threeQuarters = .ok {} ∧ MapOptions.Sized 12 .threeQuarters {} ∧
      ({} : MapOptions).Spare 12 := by
  have hsized := MapOptions.sizedFor_twelve
  have hfinite : Binary64.threeQuarters.isFinite := by decide +kernel
  have hpositive : (Binary64.zero false).lt .threeQuarters := by decide +kernel
  obtain ⟨options, hok, -, -, hoptions, hspare⟩ | ⟨herror, -⟩ :=
    sizing_agrees_with_growth 12 hfinite hpositive
  · obtain rfl : {} = options := Except.ok.inj (hsized.symm.trans hok)
    exact ⟨hsized, hoptions, hspare⟩
  · cases hsized.symm.trans herror

/-- Keys that are their own hashes. -/
def MapCallbacks.plain : MapCallbacks Nat Nat Unit (Option Nat) :=
  .fused UInt64.ofNat fun a b => a = b

/-- Some keys, put one after another. -/
def LockedMap.putsBelow (n : Nat) : List (MapRequest Nat Nat) :=
  (List.range n).map fun k => .put k k

/-- What some puts make of sixteen buckets, when the thirteenth fails to hash its key again. -/
def LockedMap.afterPuts (n : Nat) : MonitorMap Nat Nat :=
  (serve (MapRequest.perform .plain) (putsBelow n)
    ⟨{ options := {}, table := Table.vacant 16 }, some 63⟩).2.container

/-- There are never more than twelve entries in a map that was sized for twelve, yet it is resized:
the put of a thirteenth key fails after the growth. -/
theorem sized_map_resized_by_failed_put :
    MapOptions.sizedFor 12 .threeQuarters = .ok {} ∧
      MonitorMap.make .plain {} none = .ok (LockedMap.afterPuts 0) none ∧
      (∀ n ≤ 13, (LockedMap.afterPuts n).table.entries.length ≤ 12) ∧
      (LockedMap.afterPuts 13).table.size = 32 ∧ (LockedMap.afterPuts 13).growths = 1 := by
  have hcheck : ({} : MapOptions).check = .ok () := by decide +kernel
  refine ⟨MapOptions.sizedFor_twelve, ?_, by decide +kernel, by decide +kernel⟩
  rw [MonitorMap.make, MapOptions.require, hcheck]
  rfl

end LockedContainers
