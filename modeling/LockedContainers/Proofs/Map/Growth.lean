import Mathlib.Data.Nat.Find
import Mathlib.Order.Bounds.Basic
import LockedContainers.Proofs.Map.Coverage
import LockedContainers.Proofs.Map.Integer

/-!
# How far a put grows a table

An insertion that finds a striped map full has the table doubled and starts
over. What is doubled was still full, so the rounds end with the first bucket
count that leaves room for one entry more. No other request, and no put of a
key that is present, changes the number of buckets.
-/
namespace LockedContainers

variable {l : Locking} {K V ε σ : Type}

namespace LockedMap

/-- So many doublings stay below 2⁶³ buckets and make room for one entry more. -/
def Suffices (map : LockedMap l K V) (doublings : Nat) : Prop :=
  map.table.size * 2 ^ doublings < 2 ^ 63 ∧
    map.options.exceeds (map.count + 1) (map.table.size * 2 ^ doublings) = false

variable {map map' : LockedMap l K V}

theorem Suffices.lt {j : Nat} (h : map.Suffices j) (roomy : 0 < map.table.size) : j < 63 := by
  rw [← Nat.pow_lt_pow_iff_right (by decide : 1 < 2)]
  exact Nat.lt_of_le_of_lt (Nat.le_mul_of_pos_left _ roomy) h.1

open Classical in
theorem Suffices.exists_isLeast {j : Nat} (h : map.Suffices j) :
    ∃ i, IsLeast {i | map.Suffices i} i :=
  ⟨_, Nat.find_spec ⟨j, h⟩, fun _ hi => Nat.find_min' ⟨j, h⟩ hi⟩

/-- Before its last growth the table was full with every bucket count that it had. -/
theorem Grown.full {n : Nat} {grown : LockedMap l K V} (h : Grown n map grown) :
    ∀ i < n, map.options.exceeds (map.count + 1) (map.table.size * 2 ^ i) = true := by
  induction h with
  | none => exact fun i hi => absurd hi (Nat.not_lt_zero i)
  | @next n map mid grown full doubled rest ih =>
    intro i hi
    cases i with
    | zero =>
      rw [Nat.pow_zero, Nat.mul_one]
      exact full
    | succ i =>
      have hmid := ih i (by omega)
      rw [doubled.options, doubled.count, doubled.size, Nat.mul_assoc, ← Nat.pow_succ'] at hmid
      exact hmid

/-- A table that was grown until it was not full was grown as little as suffices. -/
theorem Grown.isLeast {n j : Nat} {grown : LockedMap l K V} (h : Grown n map grown)
    (room : ¬ grown.isFull) (enough : map.Suffices j) : IsLeast {i | map.Suffices i} n := by
  have hleast : ∀ i, map.Suffices i → n ≤ i := by
    intro i hi
    by_contra hlt
    have hfull := h.full i (by omega)
    rw [hi.2] at hfull
    exact Bool.noConfusion hfull
  refine ⟨⟨?_, ?_⟩, fun i hi => hleast i hi⟩
  · have hpow : 2 ^ n ≤ 2 ^ j := Nat.pow_le_pow_right (by decide) (hleast j enough)
    exact Nat.lt_of_le_of_lt (Nat.mul_le_mul_left _ hpow) enough.1
  · rw [isFull, h.options, h.count, h.size, Bool.not_eq_true] at room
    exact room

end LockedMap

/-- The table and its growths are as many as before. -/
def LockedMap.SameWidth (map map' : LockedMap l K V) : Prop :=
  map'.table.size = map.table.size ∧ map'.growths = map.growths

namespace LockedMap
variable {map map' : LockedMap l K V}

theorem Widened.sameWidth (h : Widened 0 map map') : SameWidth map map' := by
  have hsize := h.size
  rw [Nat.pow_zero, Nat.mul_one] at hsize
  exact ⟨hsize, h.growths⟩

/-- Only a put can grow a table. -/
theorem ends_perform_sameWidth (cb : MapCallbacks K V ε σ) (map : LockedMap l K V)
    {request : MapRequest K V} (other : ∀ key value, request ≠ .put key value) :
    Ends map (request.perform cb) (fun _ => SameWidth map) fun _ => SameWidth map := by
  apply (ends_perform_any cb map request).mono
  · intro answer map' h
    cases request with
    | put key value => exact absurd rfl (other key value)
    | remove key =>
      obtain ⟨previous, htaken, -⟩ := h
      exact htaken.widened.sameWidth
    | _ =>
      cases h
      exact ⟨rfl, rfl⟩
  · intro f map' h
    cases request with
    | put key value => exact absurd rfl (other key value)
    | _ =>
      obtain ⟨rfl, -⟩ := h
      exact ⟨rfl, rfl⟩

end LockedMap

namespace StripedMap
variable {cb : MapCallbacks K V ε σ} {hash : K → UInt64} {same : K → K → Bool}
  {map : StripedMap K V} {dict : Dictionary K V} {key : K}

/-- The first attempt finds a key that is present. -/
theorem ends_attempt_present (lawful : LawfulKeys hash same) (follows : cb.Follows hash same)
    (h : map.Stores hash same dict) (present : ∃ e ∈ dict, same e.1 key) (value : V) :
    Ends map (attempt cb (hash key) key value)
      (fun outcome _ => ∃ previous, outcome = .done previous)
      (LockedMap.Keeps cb hash same dict) := by
  apply LockedMap.ends_lookup_bind lawful follows h
  · intro habsent
    obtain ⟨e, he, hsame⟩ := present
    rw [habsent e he] at hsame
    exact Bool.noConfusion hsame
  · exact fun hit _ _ => .modify_bind (.pure ⟨_, rfl⟩)

theorem ends_put_present (lawful : LawfulKeys hash same) (follows : cb.Follows hash same)
    (h : map.Stores hash same dict) (present : ∃ e ∈ dict, same e.1 key) (value : V) :
    Ends map (put cb key value) (fun _ => map.SameWidth) fun _ => map.SameWidth := by
  have hhash := (follows.yields_hash key).mono (fun _ hx => hx) fun _ _ => trivial
  apply Ends.ask_any_bind hhash (fun _ => ⟨rfl, rfl⟩)
  rintro x rfl
  have hattempt := (ends_attempt_present lawful follows h present value).and
    (ends_attempt_any cb map (hash key) key value)
  have hfailed : ∀ f map', LockedMap.Keeps cb hash same dict f map' ∧
      LockedMap.Untouched map f map' → map.SameWidth map' := by
    rintro f map' ⟨-, rfl, -⟩
    exact ⟨rfl, rfl⟩
  apply (hattempt.mono (fun _ _ hout => hout) hfailed).bind
  rintro outcome map' ⟨⟨previous, rfl⟩, hplaced, -⟩
  exact .pure hplaced.widened.sameWidth

/-- How far requests grow the map, when the keys hash and compare by these functions. A put of an
absent key, with room after some doublings and memory for them, ends after as few as suffice. -/
structure GrowsExactly (hash : K → UInt64) (same : K → K → Bool) (map : StripedMap K V) : Prop where
  counted : map.count = map.table.entries.length
  absent : ∀ {ε σ : Type} (cb : MapCallbacks K V ε σ) (key : K) (value : V) (j : Nat),
    cb.Follows hash same → (∀ e ∈ map.table.entries, same e.1 key = false) → map.Suffices j →
    cb.Calm (max (Table.bucketBytes * (map.table.size * 2 ^ j)) (cb.listBytes map.count)) →
    ∃ i, IsLeast {i | map.Suffices i} i ∧ ∀ o, ∃ map' o',
      put cb key value ⟨map, o⟩ = .ok none ⟨map', o'⟩ ∧ LockedMap.Widened i map map' ∧
        map'.count = map.count + 1 ∧ map'.isOverloaded = false
  present : ∀ {ε σ : Type} (cb : MapCallbacks K V ε σ) (key : K) (value : V),
    cb.Follows hash same → (∃ e ∈ map.table.entries, same e.1 key) →
    Ends map (put cb key value) (fun _ => map.SameWidth) fun _ => map.SameWidth
  other : ∀ {ε σ : Type} (cb : MapCallbacks K V ε σ) (request : MapRequest K V),
    (∀ key value, request ≠ .put key value) →
    Ends map (request.perform cb) (fun _ => map.SameWidth) fun _ => map.SameWidth

theorem growsExactly_of_stores (lawful : LawfulKeys hash same) (h : map.Stores hash same dict) :
    GrowsExactly hash same map where
  counted := h.counted.trans h.entries.length_eq.symm
  absent cb key value j follows habsent enough calm := by
    have hattempts : j < maxAttempts := Nat.lt_succ_of_lt (enough.lt h.roomy)
    have hlists : cb.listBytes map.table.entries.length ≤
        max (Table.bucketBytes * (map.table.size * 2 ^ j)) (cb.listBytes map.count) := by
      rw [h.counted, h.entries.length_eq]
      exact Nat.le_max_right ..
    have hcalm : Ends map (put cb key value) (fun _ _ => True) fun _ _ => False :=
      ends_put_calm calm value h.roomy enough.2 (fun _ => Nat.le_max_left ..) hlists hattempts
    have hput := (ends_put lawful follows h key value).and (ends_put_any cb map key value)
    have hanswers := (hput.surely hcalm).answers
    have hnone : Dictionary.get? same dict key = none :=
      Dictionary.get?_eq_none fun e he => habsent e (h.entries.mem_iff.2 he)
    obtain ⟨i, hi⟩ := enough.exists_isLeast
    refine ⟨i, hi, fun o => ?_⟩
    obtain ⟨previous, map', o', hrun, ⟨hprevious, -⟩, n, grown, hgrown, hplaced, hroom⟩ := hanswers o
    obtain rfl : previous = none := hprevious.trans hnone
    have hnot := hroom rfl
    obtain rfl : n = i := (hgrown.isLeast hnot enough).unique hi
    have hwidened := hgrown.widened.trans hplaced.widened
    refine ⟨map', o', hrun, hwidened, ?_⟩
    cases hplaced with
    | link bound =>
      rw [Bool.not_eq_true] at hnot
      refine ⟨?_, ?_⟩
      · rw [LockedMap.count_linked, hgrown.count]
      · rw [LockedMap.isOverloaded, LockedMap.options_linked, LockedMap.count_linked,
          LockedMap.size_linked]
        exact hnot
  present cb key value follows hpresent := by
    obtain ⟨e, he, hsame⟩ := hpresent
    exact ends_put_present lawful follows h ⟨e, h.entries.mem_iff.1 he, hsame⟩ value
  other cb request hother := LockedMap.ends_perform_sameWidth cb map hother

end StripedMap

/-- From every state that requests lead a striped map to, an insertion grows the table exactly as
often as the threshold asks for, and nothing else changes the number of buckets. -/
theorem striped_put_grows_exactly {cb : MapCallbacks K V ε σ} {hash : K → UInt64}
    {same : K → K → Bool} (lawful : LawfulKeys hash same) (follows : cb.Follows hash same)
    {options : MapOptions} {o o' : σ} {map : StripedMap K V}
    (made : StripedMap.make cb options o = .ok map o') (roomy : 0 < map.table.size) (outside : σ)
    (requests : List (MapRequest K V)) :
    StripedMap.GrowsExactly hash same
      (serve (MapRequest.perform cb) requests ⟨map, outside⟩).2.container := by
  have hstart : map.Stores hash same [] := LockedMap.stores_made made roomy
  obtain ⟨dict, -, hstores⟩ := serve_explained (Dictionary.object same)
    (fun _ _ request h => LockedMap.ends_perform lawful follows h request) hstart outside requests
  exact StripedMap.growsExactly_of_stores lawful hstores

/-- A new striped map with one bucket that a quarter of an entry fills. -/
def StripedMap.ofQuarter : StripedMap Int Int where
  options := .quarter
  table := Table.vacant 1

theorem StripedMap.make_ofQuarter : make .integer .quarter () = .ok ofQuarter () := by
  have hcheck : MapOptions.quarter.check = .ok () := by decide +kernel
  rw [make, MapOptions.require, hcheck]
  rfl

/-- A first entry needs four buckets, so the only bucket is doubled twice. -/
theorem striped_put_grows_exactly_quarter :
    IsLeast {i | StripedMap.ofQuarter.Suffices i} 2 ∧ ∃ map' : StripedMap Int Int,
      StripedMap.put (.integer : MapCallbacks Int Int MemoryFault Unit) 7 1
        ⟨StripedMap.ofQuarter, ()⟩ = .ok none ⟨map', ()⟩ ∧
      LockedMap.Widened 2 StripedMap.ofQuarter map' ∧ map'.count = 1 ∧
      map'.isOverloaded = false := by
  have hgrows : StripedMap.GrowsExactly UInt64.ofInt (fun a b => decide (a = b))
      StripedMap.ofQuarter :=
    striped_put_grows_exactly integer_lawful MapCallbacks.integer_follows StripedMap.make_ofQuarter
      (by decide) () []
  have henough : StripedMap.ofQuarter.Suffices 2 := ⟨by decide, by decide +kernel⟩
  obtain ⟨i, hi, hput⟩ := hgrows.absent .integer 7 1 2 MapCallbacks.integer_follows
    (by simp [StripedMap.ofQuarter, Table.entries_vacant]) henough
    (MapCallbacks.integer_calm (V := Int) (σ := Unit) (by decide))
  obtain ⟨map', _, hrun, hwidened, hcount, hload⟩ := hput ()
  have hfew : ∀ i < 2, StripedMap.ofQuarter.options.exceeds (StripedMap.ofQuarter.count + 1)
      (StripedMap.ofQuarter.table.size * 2 ^ i) = true := by decide +kernel
  obtain rfl : i = 2 := by
    have hle : i ≤ 2 := hi.2 henough
    by_contra hne
    have hsmall := hfew i (by omega)
    rw [hi.1.2] at hsmall
    exact Bool.noConfusion hsmall
  exact ⟨hi, map', hrun, hwidened, hcount, hload⟩

end LockedContainers
