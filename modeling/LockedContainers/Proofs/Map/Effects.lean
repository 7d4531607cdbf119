import Mathlib.Algebra.Group.Nat.Defs
import LockedContainers.Map.Request
import LockedContainers.Proofs.Guarded
import LockedContainers.Proofs.Map.Entries

/-!
# What an operation makes of a map, whatever the callbacks answer

Hashing and comparing may answer anything and fail at any call. All that an
operation can do to a map is then to grow it, time after time, and at last to
overwrite, link or take out one entry. A failure leaves what was grown.
-/
namespace LockedContainers

variable {l : Locking} {K V C ε σ α β : Type}

/-- A callback runs beside the container. -/
theorem Guarded.ask_eq {act : EStateM ε σ α} {c : C} {o : σ} :
    (Guarded.ask act : Guarded C (MapFailure ε) σ α) ⟨c, o⟩ = match act o with
      | .ok a o' => .ok a ⟨c, o'⟩
      | .error e o' => .error (.callback e) ⟨c, o'⟩ := by
  simp only [Guarded.ask, Guarded.call, onPart, EStateM.adaptExcept]
  cases act o <;> rfl

theorem Ends.ask_any_bind {c : C} {act : EStateM ε σ α} {answers : α → Prop}
    {next : α → Guarded C (MapFailure ε) σ β} {post : β → C → Prop}
    {failed : MapFailure ε → C → Prop} (h : Yields act answers fun _ => True)
    (hfail : ∀ e, failed (.callback e) c) (hnext : ∀ a, answers a → Ends c (next a) post failed) :
    Ends c (Guarded.ask act >>= next) post failed :=
  .call_bind (Yields.adaptExcept (h.mono (fun _ ha => ha) fun e _ => hfail e)) hnext

section Loops
variable (cb : MapCallbacks K V ε σ)

/-- A hit is a cut of the bucket. -/
theorem Bucket.yields_scan_any (key : K) (before after : Bucket K V) :
    Yields (Bucket.scan cb key before after)
      (fun found => ∀ hit ∈ found, hit.bucket = before.reverse ++ after) fun _ => True := by
  induction after generalizing before with
  | nil => exact .pure (by simp)
  | cons e after ih =>
    apply (Yields.any (cb.equal e.1 key)).bind
    intro same _
    cases same with
    | true =>
      apply Yields.pure
      intro hit hhit
      rw [← Option.some.inj hhit, Hit.bucket]
    | false =>
      have hrest := ih (e :: before)
      rw [List.reverse_cons, List.append_assoc] at hrest
      exact hrest

theorem Bucket.yields_find_any (key : K) (bucket : Bucket K V) :
    Yields (bucket.find cb key) (fun found => ∀ hit ∈ found, hit.bucket = bucket) fun _ => True :=
  yields_scan_any cb key [] bucket

/-- Every entry is placed once, in a slot that some hash selects. -/
theorem Table.yields_placements_any (buckets noted : Nat) (entries : List (K × V)) :
    Yields (Table.placements cb buckets noted entries)
      (fun placed => placed.map Prod.snd = entries ∧
        ∀ p ∈ placed, ∃ h : UInt64, p.1 = h.toNat % buckets) fun _ => True := by
  induction entries generalizing noted with
  | nil => exact .pure (by simp)
  | cons e rest ih =>
    apply (Yields.any (cb.hash e.1)).bind
    intro h _
    apply (Yields.any _).bind
    intro _ _
    apply (ih (noted + 1)).bind
    intro placed hplaced
    apply Yields.pure
    rw [List.map_cons, hplaced.1]
    exact ⟨rfl, List.forall_mem_cons.2 ⟨⟨h, rfl⟩, hplaced.2⟩⟩

/-- Twice the buckets for the same entries; twice none hold none. -/
theorem Table.yields_placements_double_any (table : Table K V) :
    Yields (Table.placements cb (table.size * 2) 0 table.entries)
      (fun placed => (distribute (table.size * 2) placed).size = table.size * 2 ∧
        (distribute (table.size * 2) placed).entries.Perm table.entries) fun _ => True := by
  apply (yields_placements_any cb (table.size * 2) 0 table.entries).mono _ fun _ hf => hf
  intro placed hplaced
  have hbound : ∀ p ∈ placed, p.1 < table.size * 2 := by
    intro p hp
    obtain ⟨h, hslot⟩ := hplaced.2 p hp
    have hentry : p.2 ∈ table.entries := by
      rw [← hplaced.1]
      exact List.mem_map_of_mem hp
    rw [hslot]
    exact Nat.mod_lt _ (Nat.mul_pos (size_pos_of_mem hentry) (by decide))
  have hentries := entries_distribute_perm hbound
  rw [hplaced.1] at hentries
  exact ⟨size_distribute hbound, hentries⟩

theorem Table.yields_resized_any (table : Table K V) :
    Yields (table.resized cb (table.size * 2))
      (fun grown => grown.size = table.size * 2 ∧ grown.entries.Perm table.entries)
      fun _ => True := by
  apply (Yields.any _).bind
  intro _ _
  apply (yields_placements_double_any cb table).bind
  intro placed hplaced
  apply (Yields.any _).bind
  intro _ _
  exact (Yields.any _).bind fun _ _ => .pure hplaced

end Loops

namespace LockedMap

def overwritten (map : LockedMap l K V) (slot : Nat) (hit : Hit K V) (value : V) : LockedMap l K V :=
  { map with table := map.table.setIfInBounds slot (hit.replaced value) }

def linked (map : LockedMap l K V) (slot : Nat) (key : K) (value : V) : LockedMap l K V :=
  { map with table := map.table.append slot (key, value), count := map.count + 1 }

def unlinked (map : LockedMap l K V) (slot : Nat) (hit : Hit K V) : LockedMap l K V :=
  { map with table := map.table.setIfInBounds slot hit.removed, count := map.count - 1 }

section Fields
variable {map : LockedMap l K V} {slot : Nat} {hit : Hit K V} {key : K} {value : V}

@[simp] theorem options_overwritten : (map.overwritten slot hit value).options = map.options := rfl

@[simp] theorem count_overwritten : (map.overwritten slot hit value).count = map.count := rfl

@[simp] theorem size_overwritten :
    (map.overwritten slot hit value).table.size = map.table.size := by
  simp [overwritten]

@[simp] theorem options_linked : (map.linked slot key value).options = map.options := rfl

@[simp] theorem count_linked : (map.linked slot key value).count = map.count + 1 := rfl

@[simp] theorem size_linked : (map.linked slot key value).table.size = map.table.size := by
  simp [linked]

@[simp] theorem options_unlinked : (map.unlinked slot hit).options = map.options := rfl

@[simp] theorem count_unlinked : (map.unlinked slot hit).count = map.count - 1 := rfl

@[simp] theorem size_unlinked : (map.unlinked slot hit).table.size = map.table.size := by
  simp [unlinked]

end Fields

/-- A table of twice the size was installed for the same entries. -/
structure Doubled (map grown : LockedMap l K V) : Prop where
  options : grown.options = map.options
  count : grown.count = map.count
  growths : grown.growths = map.growths + 1
  size : grown.table.size = map.table.size * 2
  entries : grown.table.entries.Perm map.table.entries

/-- So many growths, each of a full map. -/
inductive Grown : Nat → LockedMap l K V → LockedMap l K V → Prop
  | none {map : LockedMap l K V} : Grown 0 map map
  | next {n : Nat} {map mid grown : LockedMap l K V} (full : map.isFull) (doubled : Doubled map mid)
      (rest : Grown n mid grown) : Grown (n + 1) map grown

namespace Grown

variable {n : Nat} {map grown : LockedMap l K V}

theorem once (full : map.isFull) (doubled : Doubled map grown) : Grown 1 map grown :=
  .next full doubled .none

theorem options (h : Grown n map grown) : grown.options = map.options := by
  induction h with
  | none => rfl
  | next _ doubled _ ih => rw [ih, doubled.options]

theorem count (h : Grown n map grown) : grown.count = map.count := by
  induction h with
  | none => rfl
  | next _ doubled _ ih => rw [ih, doubled.count]

theorem growths (h : Grown n map grown) : grown.growths = map.growths + n := by
  induction h with
  | none => rfl
  | next _ doubled _ ih => rw [ih, doubled.growths, Nat.add_assoc, Nat.add_comm 1]

theorem size (h : Grown n map grown) : grown.table.size = map.table.size * 2 ^ n := by
  induction h with
  | none => rw [Nat.pow_zero, Nat.mul_one]
  | next _ doubled _ ih => rw [ih, doubled.size, Nat.mul_assoc, Nat.pow_succ, Nat.mul_comm 2]

theorem entries (h : Grown n map grown) : grown.table.entries.Perm map.table.entries := by
  induction h with
  | none => exact .refl _
  | next _ doubled _ ih => exact ih.trans doubled.entries

theorem size_pos (h : Grown n map grown) (hpos : 0 < map.table.size) : 0 < grown.table.size := by
  rw [h.size]
  exact Nat.mul_pos hpos (Nat.two_pow_pos n)

theorem size_eq_zero (h : Grown n map grown) (hzero : grown.table.size = 0) :
    map.table.size = 0 := by
  rw [h.size] at hzero
  exact (Nat.mul_eq_zero.1 hzero).resolve_right (Nat.pos_iff_ne_zero.1 (Nat.two_pow_pos n))

end Grown

/-- One entry was overwritten, or one was linked, somewhere in the table. -/
inductive Placed (map : LockedMap l K V) (key : K) (value : V) : Option V → LockedMap l K V → Prop
  | overwrite {slot : Nat} {hit : Hit K V} (bound : slot < map.table.size)
      (cut : hit.bucket = map.table.bucket slot) :
      Placed map key value (some hit.value) (map.overwritten slot hit value)
  | link {slot : Nat} (bound : slot < map.table.size) :
      Placed map key value none (map.linked slot key value)

/-- One entry was taken out of the table, or none. -/
inductive Taken (map : LockedMap l K V) : Option V → LockedMap l K V → Prop
  | unlink {slot : Nat} {hit : Hit K V} (bound : slot < map.table.size)
      (cut : hit.bucket = map.table.bucket slot) :
      Taken map (some hit.value) (map.unlinked slot hit)
  | absent : Taken map none map

theorem Placed.size {map map' : LockedMap l K V} {key : K} {value : V} {previous : Option V}
    (h : Placed map key value previous map') : map'.table.size = map.table.size := by
  cases h <;> simp

theorem Taken.options {map map' : LockedMap l K V} {previous : Option V}
    (h : Taken map previous map') : map'.options = map.options := by
  cases h <;> rfl

theorem Taken.size {map map' : LockedMap l K V} {previous : Option V}
    (h : Taken map previous map') : map'.table.size = map.table.size := by
  cases h <;> simp

/-- What a request that was answered can have made of a map. -/
def Effect (map : LockedMap l K V) : MapRequest K V → MapAnswer V → LockedMap l K V → Prop
  | .put key value, answer, map' => ∃ n grown previous, Grown n map grown ∧
      Placed grown key value previous map' ∧ answer = .value previous
  | .remove _, answer, map' => ∃ previous, Taken map previous map' ∧ answer = .value previous
  | _, _, map' => map' = map

/-- The map was left as it was; that it has no bucket is said only of a map without one. -/
def Untouched (map : LockedMap l K V) (f : MapFailure ε) (map' : LockedMap l K V) : Prop :=
  map' = map ∧ (f = .noBucket → map.table.size = 0)

/-- A put that failed left what it had grown, which with one lock is one growth at most. -/
def Halted (map : LockedMap l K V) (f : MapFailure ε) (map' : LockedMap l K V) : Prop :=
  (∃ n, Grown n map map' ∧ (l = .monitor → n ≤ 1)) ∧ (f = .noBucket → map.table.size = 0)

theorem Untouched.halted {map map' : LockedMap l K V} {f : MapFailure ε}
    (h : Untouched map f map') : Halted map f map' := by
  obtain ⟨rfl, hbucket⟩ := h
  exact ⟨⟨0, .none, fun _ => Nat.zero_le 1⟩, hbucket⟩

/-- What a request that failed can have made of a map. -/
def Leftover (map : LockedMap l K V) :
    MapRequest K V → MapFailure ε → LockedMap l K V → Prop
  | .put _ _ => Halted map
  | _ => Untouched map

section Operations
variable (cb : MapCallbacks K V ε σ) {map : LockedMap l K V} {key : K}

theorem untouched_callback (map : LockedMap l K V) (e : ε) : Untouched map (.callback e) map :=
  ⟨rfl, fun h => by cases h⟩

/-- A look-up finds a cut of the bucket that the hash selects, or no entry. -/
theorem ends_lookup_any (h : UInt64) :
    Ends map (lookup cb h key)
      (fun found map' => map' = map ∧ found.1 = h.toNat % map.table.size ∧
        found.1 < map.table.size ∧ ∀ hit ∈ found.2, hit.bucket = map.table.bucket found.1)
      (Untouched map) := by
  rw [lookup]
  apply Ends.read_bind
  by_cases hzero : map.table.size = 0
  · rw [Table.slot, if_pos hzero]
    exact Ends.throw ⟨rfl, fun _ => hzero⟩
  · have hslot : h.toNat % map.table.size < map.table.size :=
      Nat.mod_lt _ (Nat.pos_of_ne_zero hzero)
    rw [Table.slot, if_neg hzero, pure_bind]
    apply Ends.ask_any_bind (Bucket.yields_find_any cb key _) (untouched_callback map)
    intro found hfound
    exact .pure ⟨rfl, rfl, hslot, hfound⟩

/-- What follows a look-up sees a cut of one bucket, or no entry. -/
theorem ends_lookup_any_bind (h : UInt64) {next : Nat × Option (Hit K V) → MapSection l K V ε σ β}
    {post : β → LockedMap l K V → Prop} {failed : MapFailure ε → LockedMap l K V → Prop}
    (hfail : ∀ f, Untouched map f map → failed f map)
    (hmiss : ∀ slot < map.table.size, Ends map (next (slot, none)) post failed)
    (hhit : ∀ slot < map.table.size, ∀ hit : Hit K V, hit.bucket = map.table.bucket slot →
      Ends map (next (slot, some hit)) post failed) :
    Ends map (lookup cb h key >>= next) post failed := by
  have hfailed : ∀ f map', Untouched map f map' → failed f map' := by
    rintro f map' ⟨rfl, hbucket⟩
    exact hfail f ⟨rfl, hbucket⟩
  apply ((ends_lookup_any cb h).mono (fun _ _ hout => hout) hfailed).bind
  rintro ⟨slot, hit⟩ map' ⟨rfl, -, hslot, hcut⟩
  cases hit with
  | none => exact hmiss slot hslot
  | some hit => exact hhit slot hslot hit (hcut hit rfl)

theorem ends_hash_any_bind {next : UInt64 → MapSection l K V ε σ β}
    {post : β → LockedMap l K V → Prop} {failed : MapFailure ε → LockedMap l K V → Prop}
    (hfail : ∀ f, Untouched map f map → failed f map)
    (hnext : ∀ h, Ends map (next h) post failed) :
    Ends map (Guarded.ask (cb.hash key) >>= next) post failed :=
  .ask_any_bind (Yields.any _) (fun e => hfail _ (untouched_callback map e)) fun h _ => hnext h

theorem ends_get_any : Ends map (get cb key) (fun _ map' => map' = map) (Untouched map) := by
  apply ends_hash_any_bind cb (fun _ hf => hf)
  intro h
  apply ends_lookup_any_bind cb h (fun _ hf => hf)
  · exact fun _ _ => .pure rfl
  · intro slot _ hit _
    apply Ends.map
    rw [← bind_pure (Guarded.ask (cb.copy hit.value))]
    exact .ask_any_bind (Yields.any _) (untouched_callback map) fun _ _ => .pure rfl

theorem ends_contains_any :
    Ends map (contains cb key) (fun _ map' => map' = map) (Untouched map) := by
  apply ends_hash_any_bind cb (fun _ hf => hf)
  intro h
  apply ends_lookup_any_bind cb h (fun _ hf => hf)
  · exact fun _ _ => .pure rfl
  · exact fun _ _ _ _ => .pure rfl

theorem ends_remove_any : Ends map (remove cb key) (Taken map) (Untouched map) := by
  apply ends_hash_any_bind cb (fun _ hf => hf)
  intro h
  apply ends_lookup_any_bind cb h (fun _ hf => hf)
  · exact fun _ _ => .pure .absent
  · exact fun _ hslot _ hcut => .modify_bind (.pure (.unlink hslot hcut))

theorem ends_auditTable_any :
    Ends map (auditTable cb) (fun _ map' => map' = map) (Untouched map) := by
  apply Ends.read_bind
  exact .ask_any_bind (Yields.any _) (untouched_callback map) fun _ _ => .pure rfl

/-- A growth either installs the new table or leaves the old one. -/
theorem ends_double_any_bind {next : Unit → MapSection l K V ε σ β}
    {post : β → LockedMap l K V → Prop} {failed : MapFailure ε → LockedMap l K V → Prop}
    (hfail : ∀ f, Untouched map f map → failed f map)
    (hnext : ∀ grown, Doubled map grown → Ends grown (next ()) post failed) :
    Ends map (double cb >>= next) post failed := by
  rw [double, bind_assoc]
  apply Ends.read_bind
  rw [bind_assoc]
  apply Ends.ask_any_bind (Table.yields_resized_any cb map.table)
  · exact fun e => hfail _ (untouched_callback map e)
  · rintro table ⟨hsize, hentries⟩
    exact .modify_bind (hnext _ ⟨rfl, rfl, rfl, hsize, hentries⟩)

theorem ends_double_any :
    Ends map (double cb) (fun _ grown => Doubled map grown) (Untouched map) := by
  rw [← bind_pure (double cb)]
  exact ends_double_any_bind cb (fun _ hf => hf) fun _ hgrown => .pure hgrown

theorem ends_makeRoom_any (slot : Nat) :
    Ends map (makeRoom cb slot) (fun _ map' => map' = map) (Untouched map) := by
  apply Ends.read_bind
  rw [← bind_pure (Guarded.ask _)]
  exact .ask_any_bind (Yields.any _) (untouched_callback map) fun _ _ => .pure rfl

/-- An entry is linked, unless there is no storage for it. -/
theorem ends_link_any_bind {slot : Nat} {value : V} {next : Unit → MapSection l K V ε σ β}
    {post : β → LockedMap l K V → Prop} {failed : MapFailure ε → LockedMap l K V → Prop}
    (hfail : ∀ f, Untouched map f map → failed f map)
    (hnext : Ends (map.linked slot key value) (next ()) post failed) :
    Ends map (link cb slot key value >>= next) post failed := by
  have hfailed : ∀ f map', Untouched map f map' → failed f map' := by
    rintro f map' ⟨rfl, hbucket⟩
    exact hfail f ⟨rfl, hbucket⟩
  rw [link, bind_assoc]
  apply ((ends_makeRoom_any cb slot).mono (fun _ _ h => h) hfailed).bind
  rintro _ map' rfl
  exact .modify_bind hnext

end Operations
end LockedMap

/-- With one lock the map is grown once, when it is full and the key is absent. -/
theorem MonitorMap.ends_put_any (cb : MapCallbacks K V ε σ) (map : MonitorMap K V) (key : K)
    (value : V) :
    Ends map (MonitorMap.put cb key value)
      (fun previous map' =>
        (LockedMap.Placed map key value previous map' ∧ (previous = none → ¬ map.isFull)) ∨
        ∃ grown, map.isFull ∧ LockedMap.Doubled map grown ∧ previous = none ∧
          LockedMap.Placed grown key value previous map')
      (LockedMap.Halted map) := by
  apply LockedMap.ends_hash_any_bind cb (fun _ hf => hf.halted)
  intro h
  apply LockedMap.ends_lookup_any_bind cb h (fun _ hf => hf.halted)
  · intro slot hslot
    apply Ends.read_bind
    by_cases hfull : map.isFull
    · rw [if_pos hfull]
      apply LockedMap.ends_double_any_bind cb (fun _ hf => hf.halted)
      intro grown hgrown
      have hroomy : 0 < grown.table.size := by
        rw [hgrown.size]
        omega
      have hafter : ∀ f : MapFailure ε, LockedMap.Untouched grown f grown →
          LockedMap.Halted map f grown := by
        rintro f ⟨-, hbucket⟩
        refine ⟨⟨1, .once hfull hgrown, fun _ => Nat.le_refl 1⟩, fun hf => ?_⟩
        have hzero := hbucket hf
        omega
      apply LockedMap.ends_hash_any_bind cb hafter
      intro h'
      apply Ends.read_bind
      rw [Table.slot, if_neg (by omega), pure_bind]
      apply LockedMap.ends_link_any_bind cb hafter
      exact .pure (.inr ⟨grown, hfull, hgrown, rfl, .link (Nat.mod_lt _ hroomy)⟩)
    · rw [if_neg hfull]
      apply LockedMap.ends_link_any_bind cb (fun _ hf => hf.halted)
      exact .pure (.inl ⟨.link hslot, fun _ => hfull⟩)
  · intro slot hslot hit hcut
    exact .modify_bind (.pure (.inl ⟨.overwrite hslot hcut, fun h => by cases h⟩))

namespace StripedMap

theorem ends_attempt_any (cb : MapCallbacks K V ε σ) (map : StripedMap K V) (h : UInt64) (key : K)
    (value : V) :
    Ends map (attempt cb h key value)
      (fun outcome map' => match outcome with
        | .done previous => LockedMap.Placed map key value previous map' ∧
          (previous = none → ¬ map.isFull)
        | .full seen => map' = map ∧ seen = map.table.size ∧ map.isFull)
      (LockedMap.Untouched map) := by
  apply LockedMap.ends_lookup_any_bind cb h (fun _ hf => hf)
  · intro slot hslot
    apply Ends.read_bind
    by_cases hfull : map.isFull
    · rw [if_pos hfull]
      exact .pure ⟨rfl, rfl, hfull⟩
    · rw [if_neg hfull]
      exact LockedMap.ends_link_any_bind cb (fun _ hf => hf) (.pure ⟨.link hslot, fun _ => hfull⟩)
  · intro slot hslot hit hcut
    exact .modify_bind (.pure ⟨.overwrite hslot hcut, fun h => by cases h⟩)

theorem ends_grow_any (cb : MapCallbacks K V ε σ) (map : StripedMap K V) (full : map.isFull) :
    Ends map (grow cb map.table.size) (fun _ grown => LockedMap.Doubled map grown)
      (LockedMap.Untouched map) := by
  apply Ends.read_bind
  rw [if_pos (by simp [full])]
  exact LockedMap.ends_double_any cb

/-- A striped map is grown until it is not full, or until an attempt finds the key. -/
theorem ends_putWithin_any (cb : MapCallbacks K V ε σ) (map : StripedMap K V) (h : UInt64) (key : K)
    (value : V) (attempts : Nat) :
    Ends map (putWithin cb h key value attempts)
      (fun previous map' => ∃ n grown, LockedMap.Grown n map grown ∧
        LockedMap.Placed grown key value previous map' ∧ (previous = none → ¬ grown.isFull))
      (LockedMap.Halted map) := by
  induction attempts generalizing map with
  | zero => exact .throw ⟨⟨0, .none, fun _ => Nat.zero_le 1⟩, fun hf => by cases hf⟩
  | succ attempts ih =>
    have hattempt := (ends_attempt_any cb map h key value).mono (fun _ _ hout => hout)
      fun _ _ hf => hf.halted
    apply hattempt.bind
    intro outcome map' hout
    cases outcome with
    | done previous => exact .pure ⟨0, map, .none, hout⟩
    | full seen =>
      obtain ⟨rfl, rfl, hfull⟩ := hout
      have hgrow := (ends_grow_any cb map' hfull).mono (fun _ _ hgrown => hgrown)
        fun _ _ hf => hf.halted
      apply hgrow.bind
      intro _ mid hmid
      apply (ih mid).mono
      · rintro previous map'' ⟨n, grown, hgrown, hplaced⟩
        exact ⟨n + 1, grown, .next hfull hmid hgrown, hplaced⟩
      · rintro f map'' ⟨⟨n, hgrown, -⟩, hbucket⟩
        refine ⟨⟨n + 1, .next hfull hmid hgrown, fun hl => by cases hl⟩, fun hf => ?_⟩
        exact (LockedMap.Grown.once hfull hmid).size_eq_zero (hbucket hf)

theorem ends_put_any (cb : MapCallbacks K V ε σ) (map : StripedMap K V) (key : K) (value : V) :
    Ends map (put cb key value)
      (fun previous map' => ∃ n grown, LockedMap.Grown n map grown ∧
        LockedMap.Placed grown key value previous map' ∧ (previous = none → ¬ grown.isFull))
      (LockedMap.Halted map) :=
  LockedMap.ends_hash_any_bind cb (fun _ hf => hf.halted) fun h =>
    ends_putWithin_any cb map h key value maxAttempts

end StripedMap

namespace LockedMap
variable (cb : MapCallbacks K V ε σ) (map : LockedMap l K V)

theorem ends_put_any (key : K) (value : V) :
    Ends map (put cb key value)
      (fun previous map' => ∃ n grown, Grown n map grown ∧ Placed grown key value previous map')
      (Halted map) := by
  cases l with
  | monitor =>
    apply (MonitorMap.ends_put_any cb map key value).mono
    · rintro previous map' (⟨hplaced, -⟩ | ⟨grown, hfull, hgrown, -, hplaced⟩)
      · exact ⟨0, map, .none, hplaced⟩
      · exact ⟨1, grown, .once hfull hgrown, hplaced⟩
    · exact fun _ _ hf => hf
  | striped =>
    apply (StripedMap.ends_put_any cb map key value).mono
    · rintro previous map' ⟨n, grown, hgrown, hplaced, -⟩
      exact ⟨n, grown, hgrown, hplaced⟩
    · exact fun _ _ hf => hf

theorem ends_audit_any : Ends map (audit cb) (fun _ map' => map' = map) (Untouched map) := by
  cases l with
  | monitor => exact ends_auditTable_any cb
  | striped =>
    apply Ends.read_bind
    by_cases heven : map.table.size % StripedMap.stripes map = 0
    · rw [if_pos heven]
      exact ends_auditTable_any cb
    · rw [if_neg heven]
      exact .pure rfl

/-- Whatever the callbacks do, a request can make no more of a map than its effect or, when it
fails, its leftover. -/
theorem ends_perform_any (request : MapRequest K V) :
    Ends map (request.perform cb) (Effect map request) (Leftover map request) := by
  cases request with
  | put key value =>
    apply Ends.map
    apply (ends_put_any cb map key value).mono
    · rintro previous map' ⟨n, grown, hgrown, hplaced⟩
      exact ⟨n, grown, previous, hgrown, hplaced, rfl⟩
    · exact fun _ _ hf => hf
  | get key => exact .map (ends_get_any cb)
  | remove key =>
    apply Ends.map
    exact (ends_remove_any cb).mono (fun previous _ htaken => ⟨previous, htaken, rfl⟩)
      fun _ _ hf => hf
  | contains key => exact .map (ends_contains_any cb)
  | size => exact .map (.read_bind (.pure rfl))
  | isEmpty => exact .map (.read_bind (.pure rfl))
  | bucketCount => exact .map (.read_bind (.pure rfl))
  | growthCount => exact .map (.read_bind (.pure rfl))
  | loadFactor => exact .map (.read_bind (.pure rfl))
  | options => exact .map (.read rfl)
  | audit => exact .map (ends_audit_any cb map)

end LockedMap
end LockedContainers
