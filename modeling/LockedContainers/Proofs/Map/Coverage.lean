import LockedContainers.Proofs.Map.Conservation
import LockedContainers.Proofs.Map.Overshoot

/-!
# The buckets that a stripe covers

A table is only ever doubled, and the number of stripes is fixed with the
options. The bucket count stays a multiple of it, so the hashes of one bucket
are of one stripe, and a hash keeps its stripe for the life of the map.
-/
namespace LockedContainers

variable {l : Locking} {K V ε σ Thread : Type}

namespace LockedMap

/-- The options are the same, and the table has been doubled so many times. -/
structure Widened (n : Nat) (map map' : LockedMap l K V) : Prop where
  options : map'.options = map.options
  growths : map'.growths = map.growths + n
  size : map'.table.size = map.table.size * 2 ^ n

namespace Widened

variable {n m : Nat} {map map' map'' : LockedMap l K V}

theorem refl (map : LockedMap l K V) : Widened 0 map map where
  options := rfl
  growths := rfl
  size := by rw [Nat.pow_zero, Nat.mul_one]

theorem trans (h : Widened n map map') (h' : Widened m map' map'') :
    Widened (n + m) map map'' where
  options := h'.options.trans h.options
  growths := by rw [h'.growths, h.growths, Nat.add_assoc]
  size := by rw [h'.size, h.size, Nat.mul_assoc, Nat.pow_add]

/-- One width, whatever becomes of the counter and the entries. -/
theorem of_same (options : map'.options = map.options) (growths : map'.growths = map.growths)
    (size : map'.table.size = map.table.size) : Widened 0 map map' where
  options := options
  growths := growths
  size := by rw [size, Nat.pow_zero, Nat.mul_one]

theorem size_pos (h : Widened n map map') (roomy : 0 < map.table.size) : 0 < map'.table.size := by
  rw [h.size]
  exact Nat.mul_pos roomy (Nat.two_pow_pos n)

end Widened

variable {map map' : LockedMap l K V}

theorem Doubled.widened (h : Doubled map map') : Widened 1 map map' where
  options := h.options
  growths := h.growths
  size := h.size

theorem Grown.widened {n : Nat} (h : Grown n map map') : Widened n map map' where
  options := h.options
  growths := h.growths
  size := h.size

theorem Placed.widened {key : K} {value : V} {previous : Option V}
    (h : Placed map key value previous map') : Widened 0 map map' := by
  cases h with
  | overwrite bound cut => exact .of_same rfl rfl size_overwritten
  | link bound => exact .of_same rfl rfl size_linked

theorem Taken.widened {previous : Option V} (h : Taken map previous map') :
    Widened 0 map map' := by
  cases h with
  | unlink bound cut => exact .of_same rfl rfl size_unlinked
  | absent => exact .refl map

/-- No request does more to the width of a table than doubling it, time after time. -/
theorem ends_perform_widened (cb : MapCallbacks K V ε σ) (map : LockedMap l K V)
    (request : MapRequest K V) :
    Ends map (request.perform cb) (fun _ map' => ∃ n, Widened n map map')
      fun _ map' => ∃ n, Widened n map map' := by
  apply (ends_perform_any cb map request).mono
  · intro answer map' h
    cases request with
    | put key value =>
      obtain ⟨n, grown, previous, hgrown, hplaced, -⟩ := h
      exact ⟨n, hgrown.widened.trans hplaced.widened⟩
    | remove key =>
      obtain ⟨previous, htaken, -⟩ := h
      exact ⟨0, htaken.widened⟩
    | _ =>
      cases h
      exact ⟨0, .refl map⟩
  · intro f map' h
    cases request with
    | put key value =>
      obtain ⟨⟨n, hgrown, -⟩, -⟩ := h
      exact ⟨n, hgrown.widened⟩
    | _ =>
      obtain ⟨rfl, -⟩ := h
      exact ⟨0, .refl map'⟩

theorem serve_widened (map : LockedMap l K V) (outside : σ) (requests : List (Called K V ε σ)) :
    ∃ n, Widened n map (serve Called.perform requests ⟨map, outside⟩).2.container := by
  refine (serve_invariant (fun map' : LockedMap l K V => ∃ n, Widened n map map')
    (fun _ _ => True) ?_ ⟨0, .refl map⟩ outside requests).2
  rintro map' r ⟨n, h⟩
  have hnext : ∀ map'', (∃ m, Widened m map' map'') → True ∧ ∃ m, Widened m map map'' := by
    rintro map'' ⟨m, h'⟩
    exact ⟨trivial, n + m, h.trans h'⟩
  exact (ends_perform_widened r.1 map' r.2).mono (fun _ => hnext) fun _ => hnext

end LockedMap

namespace StripedMap

/-- The stripes that `map` was made with cover the buckets of `map'`: those of one bucket have one
stripe, and no hash has another stripe than it had at first. -/
structure Covers (map map' : StripedMap K V) : Prop where
  roomy : 0 < map'.table.size
  fixed : stripes map' = stripes map
  even : stripes map' ∣ map'.table.size
  slot : ∀ h : UInt64, h.toNat % map'.table.size % stripes map' = stripeOf map' h
  bucket : ∀ h h' : UInt64, h.toNat % map'.table.size = h'.toNat % map'.table.size →
    stripeOf map' h = stripeOf map' h'
  lasting : ∀ h : UInt64, stripeOf map' h = stripeOf map h

/-- Doubling keeps the bucket count even among the stripes. -/
theorem covers_of_widened {n : Nat} {map map' : StripedMap K V} (roomy : 0 < map.table.size)
    (even : stripes map ∣ map.table.size) (h : LockedMap.Widened n map map') :
    Covers map map' := by
  have hstripes : stripes map' = stripes map := by rw [stripes, h.options, stripes]
  have heven : stripes map' ∣ map'.table.size := by
    rw [hstripes, h.size]
    exact Nat.dvd_mul_right_of_dvd even _
  have hslot (x : UInt64) : x.toNat % map'.table.size % stripes map' = stripeOf map' x :=
    Nat.mod_mod_of_dvd _ heven
  refine ⟨h.size_pos roomy, hstripes, heven, hslot, fun x x' hsame => ?_, fun x => ?_⟩
  · rw [← hslot, hsame, hslot]
  · rw [stripeOf, hstripes, stripeOf]

theorem even_of_made {cb : MapCallbacks K V ε σ} {options : MapOptions} {o o' : σ}
    {map : StripedMap K V} (made : make cb options o = .ok map o') :
    stripes map ∣ map.table.size := by
  have hmade := yields_make_vacant cb options o
  rw [made] at hmade
  obtain ⟨-, -, -, rfl⟩ := hmade
  rw [Table.size_vacant]
  exact Nat.dvd_of_mod_eq_zero options.rounded_even

end StripedMap

namespace StripeBank

/-- The slot that a task has looked up and may write to. -/
def Task.slot? : Task K V ε → Option Nat
  | found _ _ slot _ => some slot
  | weighing _ slot => some slot
  | linking _ slot => some slot
  | _ => none

/-- A task with a slot is inside the table and holds the stripe of the slot, and no other. -/
theorem Task.Knows.slot {S : Nat} {map : StripedMap K V} {task : Task K V ε}
    (h : task.Knows S map) {slot : Nat} (here : slot ∈ task.slot?) :
    slot < map.table.size ∧ HoldsOnly S (some task) (slot % S) := by
  have hslotted : ∀ x : UInt64, Slotted S map x slot → task.span S = (x.toNat % S, 1) →
      slot < map.table.size ∧ HoldsOnly S (some task) (slot % S) := by
    rintro x ⟨hbound, hstripe⟩ hspan
    rw [hstripe]
    exact ⟨hbound, holdsOnly_of_span hspan⟩
  cases task with
  | found r x slot' hit =>
    cases here
    exact hslotted x h.1 rfl
  | weighing put slot' =>
    cases here
    exact hslotted put.hash h rfl
  | linking put slot' =>
    cases here
    exact hslotted put.hash h rfl
  | _ => cases here

variable [DecidableEq Thread] {options : MapOptions} {s : StripeRun Thread K V ε σ}
  (cb : MapCallbacks K V ε σ)

theorem Upheld.step_widened (h : Upheld options s) (t : Thread) :
    ∃ n, LockedMap.Widened n s.shared.container.map
      (s.step (sections cb) t).shared.container.map := by
  rcases h.step_cases cb t with hsame | ⟨task, pending, shared, out, done, -, move, hstep⟩
  · rw [hsame]
    exact ⟨0, .refl _⟩
  · rw [hstep]
    rcases move.grows with ⟨hsize, hgrowths⟩ | ⟨-, hdoubled⟩
    · exact ⟨0, .of_same move.options hgrowths hsize⟩
    · exact ⟨1, hdoubled.widened⟩

theorem Upheld.run_widened (positive : options.Positive) (h : Upheld options s)
    (schedule : List Thread) : ∃ n, LockedMap.Widened n s.shared.container.map
      (s.run (sections cb) schedule).shared.container.map := by
  induction schedule generalizing s with
  | nil => exact ⟨0, .refl _⟩
  | cons t rest ih =>
    obtain ⟨n, hstep⟩ := h.step_widened cb t
    obtain ⟨m, hrest⟩ := ih (h.step cb positive t)
    exact ⟨n + m, hstep.trans hrest⟩

omit [DecidableEq Thread] in
/-- Threads that have looked slots up hold their stripes, so no two are at one bucket. -/
theorem Kept.slots {keeper : Nat → Option Thread} (h : Kept options keeper s) :
    (∀ t, ∀ task ∈ (s.clients t).task, ∀ slot ∈ task.slot?,
      slot < s.shared.container.map.table.size ∧
        Holds options.stripes.toNat (s.clients t).task (slot % options.stripes.toNat)) ∧
    ∀ t t', ∀ task ∈ (s.clients t).task, ∀ task' ∈ (s.clients t').task, ∀ slot,
      slot ∈ task.slot? → slot ∈ task'.slot? → t = t' := by
  have hheld : ∀ t, ∀ task ∈ (s.clients t).task, ∀ slot ∈ task.slot?,
      slot < s.shared.container.map.table.size ∧
        Holds options.stripes.toNat (s.clients t).task (slot % options.stripes.toNat) := by
    intro t task htask slot hslot
    obtain ⟨hbound, honly⟩ := (h.knows t task htask).slot hslot
    rw [Option.mem_def.1 htask]
    exact ⟨hbound, (honly _).2 rfl⟩
  refine ⟨hheld, fun t t' task htask task' htask' slot hslot hslot' => ?_⟩
  exact h.exclusive (hheld t task htask slot hslot).2 (hheld t' task' htask' slot hslot').2

end StripeBank

/-- The stripes of a map cover its buckets between any two sections of any threads; a thread at a
bucket holds the stripe of the bucket, and no other thread is at it. -/
structure StripedMap.Guards (map : StripedMap K V) (s : StripeRun Thread K V ε σ) : Prop where
  covers : map.Covers s.shared.container.map
  held : ∀ t, ∀ task ∈ (s.clients t).task, ∀ slot ∈ task.slot?,
    slot < s.shared.container.map.table.size ∧
      StripeBank.Holds (stripes map) (s.clients t).task (slot % stripes map)
  apart : ∀ t t', ∀ task ∈ (s.clients t).task, ∀ task' ∈ (s.clients t').task, ∀ slot,
    slot ∈ task.slot? → slot ∈ task'.slot? → t = t'

/-- Whatever is asked of a striped map that was made with a bucket, whatever the callbacks answer
and whichever calls fail, its stripes cover its buckets for life. -/
theorem stripes_cover_buckets [DecidableEq Thread] {cb : MapCallbacks K V ε σ}
    {options : MapOptions} {o o' : σ} {map : StripedMap K V}
    (made : StripedMap.make cb options o = .ok map o') (roomy : 0 < map.table.size) (outside : σ) :
    (∀ requests : List (LockedMap.Called K V ε σ),
      map.Covers (serve LockedMap.Called.perform requests ⟨map, outside⟩).2.container) ∧
    ∀ (program : Thread → List (MapRequest K V)) (schedule : List Thread),
      map.Guards ((Interleaving.begin ⟨{ map }, outside⟩ program).run
        (StripeBank.sections cb) schedule) := by
  have heven := StripedMap.even_of_made made
  refine ⟨fun requests => ?_, fun program schedule => ?_⟩
  · obtain ⟨n, hwidened⟩ := LockedMap.serve_widened map outside requests
    exact StripedMap.covers_of_widened roomy heven hwidened
  · obtain ⟨positive, hbegin⟩ := StripeBank.upheld_run made outside program []
    obtain ⟨n, hwidened⟩ := hbegin.run_widened cb positive schedule
    obtain ⟨keeper, marks, kept, -⟩ := hbegin.run cb positive schedule
    obtain ⟨hheld, hapart⟩ := kept.slots
    exact ⟨StripedMap.covers_of_widened roomy heven hwidened, hheld, hapart⟩

/-- The map grows while comparing and hashing are switched, and two threads insert under their own
stripes. -/
theorem stripes_cover_buckets_ofTwo :
    let map : StripedMap Nat Nat := LockedMap.ofTwo
    let run := serve LockedMap.Called.perform switchedRequests ⟨map, some 14⟩
    let s := (Interleaving.begin ⟨{ map }, none⟩ twoInserters).run
      (StripeBank.sections (.fused tensHash sameTens))
      (List.replicate 5 false ++ List.replicate 5 true)
    (map.Covers run.2.container ∧ run.2.container.table.size = 4) ∧
      map.Guards s ∧ (s.clients false).task.bind StripeBank.Task.slot? = some 1 ∧
      (s.clients true).task.bind StripeBank.Task.slot? = some 0 :=
  have made := LockedMap.make_ofTwo (l := .striped) tensHash sameTens
  have covers (outside : Option Nat) :=
    @stripes_cover_buckets Nat Nat Unit (Option Nat) Bool _ _ _ _ _ _ made (by decide) outside
  ⟨⟨(covers (some 14)).1 switchedRequests, by decide +kernel⟩, (covers none).2 twoInserters _,
    by decide +kernel, by decide +kernel⟩

end LockedContainers
