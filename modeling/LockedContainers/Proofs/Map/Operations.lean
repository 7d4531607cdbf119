import Mathlib.Algebra.Group.Nat.Defs
import LockedContainers.Proofs.Map.Storage

/-!
# The operations of the maps

Under lawful keys every critical section of either map answers as the
dictionary that it stores, and leaves a map that stores what the dictionary
then is. A section that fails leaves the dictionary.
-/
namespace LockedContainers

variable {l : Locking} {K V ε σ α β C : Type}

theorem Ends.ask_bind {c : C} {cb : MapCallbacks K V ε σ} {act : EStateM ε σ α}
    {answers : α → Prop} {next : α → Guarded C (MapFailure ε) σ β} {post : β → C → Prop}
    {failed : MapFailure ε → C → Prop} (h : Yields act answers cb.Raises)
    (hfail : ∀ e, cb.Raises e → failed (.callback e) c)
    (hnext : ∀ a, answers a → Ends c (next a) post failed) :
    Ends c (Guarded.ask act >>= next) post failed :=
  .call_bind (Yields.adaptExcept (h.mono (fun _ ha => ha) hfail)) hnext

theorem Ends.ask {c : C} {cb : MapCallbacks K V ε σ} {act : EStateM ε σ α}
    {answers : α → Prop} {failed : MapFailure ε → C → Prop} (h : Yields act answers cb.Raises)
    (hfail : ∀ e, cb.Raises e → failed (.callback e) c) :
    Ends c (Guarded.ask act) (fun a c' => answers a ∧ c' = c) failed := by
  have hact : Yields (act.adaptExcept MapFailure.callback) answers (failed · c) :=
    Yields.adaptExcept (h.mono (fun _ ha => ha) hfail)
  refine (Ends.call hact).mono (fun _ _ ha => ha) ?_
  rintro f c' ⟨hf, rfl⟩
  exact hf

theorem Table.slot_eq {table : Table K V} (h : 0 < table.size) (x : UInt64) :
    (table.slot x : Guarded C (MapFailure ε) σ Nat) = pure (x.toNat % table.size) := by
  rw [slot, if_neg (by omega)]

namespace LockedMap

variable {cb : MapCallbacks K V ε σ} {hash : K → UInt64} {same : K → K → Bool}
  {map : LockedMap l K V} {dict : Dictionary K V} {key : K}

/-- The failure is excused, and the map still stores the dictionary. -/
def Keeps (cb : MapCallbacks K V ε σ) (hash : K → UInt64) (same : K → K → Bool)
    (dict : Dictionary K V) (f : MapFailure ε) (map : LockedMap l K V) : Prop :=
  cb.Excuses f ∧ map.Stores hash same dict

/-- A callback made the operation fail, and the map stays as it was. -/
def Spares (cb : MapCallbacks K V ε σ) (map : LockedMap l K V) (f : MapFailure ε)
    (map' : LockedMap l K V) : Prop :=
  (∃ e, f = .callback e ∧ cb.Raises e) ∧ map' = map

theorem Spares.keeps (h : map.Stores hash same dict) {f : MapFailure ε} {map' : LockedMap l K V}
    (hf : Spares cb map f map') : Keeps cb hash same dict f map' := by
  obtain ⟨⟨e, rfl, he⟩, rfl⟩ := hf
  exact ⟨he, h⟩

/-- Hashing a key hands its hash on. -/
theorem ends_hash_bind (follows : cb.Follows hash same) (h : map.Stores hash same dict)
    {next : UInt64 → MapSection l K V ε σ β} {post : β → LockedMap l K V → Prop}
    (hnext : Ends map (next (hash key)) post (Keeps cb hash same dict)) :
    Ends map (Guarded.ask (cb.hash key) >>= next) post (Keeps cb hash same dict) := by
  refine .ask_bind (follows.yields_hash key) (fun e he => ⟨he, h⟩) fun x hx => ?_
  rw [hx]
  exact hnext

section Lawful
variable (lawful : LawfulKeys hash same) (follows : cb.Follows hash same)
include lawful follows

/-- What follows a look-up sees the entry with the key, or that there is none. -/
theorem ends_lookup_bind (h : map.Stores hash same dict)
    {next : Nat × Option (Hit K V) → MapSection l K V ε σ β} {post : β → LockedMap l K V → Prop}
    (hmiss : (∀ e ∈ dict, same e.1 key = false) →
      Ends map (next ((hash key).toNat % map.table.size, none)) post (Keeps cb hash same dict))
    (hhit : ∀ hit : Hit K V,
      hit.bucket = map.table.bucket ((hash key).toNat % map.table.size) → same hit.key key →
      Ends map (next ((hash key).toNat % map.table.size, some hit)) post (Keeps cb hash same dict)) :
    Ends map (lookup cb (hash key) key >>= next) post (Keeps cb hash same dict) := by
  rw [lookup, bind_assoc]
  refine .read_bind ?_
  rw [Table.slot_eq h.roomy, pure_bind, bind_assoc]
  refine .ask_bind (Bucket.yields_find follows key _) (fun e he => ⟨he, h⟩) fun found hfound => ?_
  rw [pure_bind]
  cases found with
  | none => exact hmiss (h.absent lawful hfound)
  | some hit => exact hhit hit hfound.1 hfound.2.1

theorem ends_get (h : map.Stores hash same dict) :
    Ends map (get cb key) (fun v map' => v = Dictionary.get? same dict key ∧ map' = map)
      (Keeps cb hash same dict) := by
  refine ends_hash_bind follows h (ends_lookup_bind lawful follows h (fun habsent => ?_)
    fun hit hbucket hkey => ?_)
  · exact .pure ⟨(Dictionary.get?_eq_none habsent).symm, rfl⟩
  · refine .map ((Ends.ask (follows.yields_copy hit.value) fun e he => ⟨he, h⟩).mono
      (fun v map' hv => ⟨?_, hv.2⟩) fun _ _ hf => hf)
    rw [hv.1, h.get?_hit lawful hbucket hkey]

theorem ends_contains (h : map.Stores hash same dict) :
    Ends map (contains cb key)
      (fun b map' => b = (Dictionary.get? same dict key).isSome ∧ map' = map)
      (Keeps cb hash same dict) := by
  refine ends_hash_bind follows h (ends_lookup_bind lawful follows h (fun habsent => ?_)
    fun hit hbucket hkey => ?_)
  · rw [Dictionary.get?_eq_none habsent]
    exact .pure ⟨rfl, rfl⟩
  · rw [h.get?_hit lawful hbucket hkey]
    exact .pure ⟨rfl, rfl⟩

theorem ends_remove (h : map.Stores hash same dict) :
    Ends map (remove cb key)
      (fun v map' => v = Dictionary.get? same dict key ∧
        map'.Stores hash same (Dictionary.erase same dict key)) (Keeps cb hash same dict) := by
  refine ends_hash_bind follows h (ends_lookup_bind lawful follows h (fun habsent => ?_)
    fun hit hbucket hkey => ?_)
  · rw [Dictionary.get?_eq_none habsent, Dictionary.erase_eq_self habsent]
    exact .pure ⟨rfl, h⟩
  · rw [h.get?_hit lawful hbucket hkey]
    exact .modify_bind (.pure ⟨rfl, h.unlink lawful hbucket hkey⟩)

end Lawful

/-- A growth that succeeds doubles the table, for which memory was granted. -/
theorem ends_double_bind (follows : cb.Follows hash same) (h : map.Stores hash same dict)
    {next : Unit → MapSection l K V ε σ β} {post : β → LockedMap l K V → Prop}
    (hnext : ∀ map' : LockedMap l K V, map'.Stores hash same dict →
      map'.table.size = map.table.size * 2 →
      cb.Grants (Table.bucketBytes * map'.table.size) →
      Ends map' (next ()) post (Keeps cb hash same dict)) :
    Ends map (double cb >>= next) post (Keeps cb hash same dict) := by
  rw [double, bind_assoc]
  refine .read_bind ?_
  rw [bind_assoc]
  refine .ask_bind (Table.yields_resized follows map.table (map.table.size * 2))
    (fun e he => ⟨he, h⟩) fun table htable => ?_
  obtain ⟨rfl, hgrant⟩ := htable
  have hsize : (Table.rehomed hash (map.table.size * 2) map.table).size = map.table.size * 2 :=
    Table.size_rehomed (Nat.mul_pos h.roomy (by decide))
  refine .modify_bind (hnext _ h.double hsize ?_)
  rw [hsize]
  exact hgrant

/-- An entry is linked where storage is granted for it. -/
theorem ends_link_bind (h : map.Stores hash same dict) {slot : Nat} {value : V}
    {next : Unit → MapSection l K V ε σ β} {post : β → LockedMap l K V → Prop}
    (hnext : Ends { map with table := map.table.append slot (key, value), count := map.count + 1 }
      (next ()) post (Keeps cb hash same dict)) :
    Ends map (link cb slot key value >>= next) post (Keeps cb hash same dict) := by
  rw [link, makeRoom, bind_assoc, bind_assoc]
  refine .read_bind (.ask_bind (cb.yields_allocate _) (fun e he => ⟨he, h⟩) fun _ _ => ?_)
  exact .modify_bind hnext

/-- Whatever the table holds, its audit looks at one bucket at a time, which is enough. -/
theorem ends_auditTable (lawful : LawfulKeys hash same) (follows : cb.Follows hash same)
    (map : LockedMap l K V) :
    Ends map (auditTable cb)
      (fun b map' => (b = true ↔ map.table.Homed hash ∧ DistinctKeys same map.table.entries ∧
        map.count = map.table.entries.length) ∧ map' = map) (Spares cb map) := by
  refine .read_bind (.ask_bind (Table.yields_homed follows map.table)
    (fun e he => ⟨⟨e, rfl, he⟩, rfl⟩) fun n hn => .pure ⟨?_, rfl⟩)
  rw [decide_eq_true_eq, hn map.count, and_assoc]
  apply and_congr_right
  intro homed
  rw [homed.distinctKeys_iff lawful]

end LockedMap

section Puts
variable {cb : MapCallbacks K V ε σ} {hash : K → UInt64} {same : K → K → Bool}
  {dict : Dictionary K V} (lawful : LawfulKeys hash same) (follows : cb.Follows hash same)
include lawful follows

theorem MonitorMap.ends_put {map : MonitorMap K V} (h : map.Stores hash same dict) (key : K)
    (value : V) :
    Ends map (MonitorMap.put cb key value)
      (fun v map' => v = Dictionary.get? same dict key ∧
        map'.Stores hash same (Dictionary.put same dict key value))
      (LockedMap.Keeps cb hash same dict) := by
  refine LockedMap.ends_hash_bind follows h (LockedMap.ends_lookup_bind lawful follows h
    (fun habsent => ?_) fun hit hbucket hkey => ?_)
  · rw [Dictionary.get?_eq_none habsent]
    refine .read_bind ?_
    by_cases hfull : map.isFull
    · rw [if_pos hfull]
      refine LockedMap.ends_double_bind follows h fun map' h' _ _ => ?_
      refine LockedMap.ends_hash_bind follows h' (.read_bind ?_)
      rw [Table.slot_eq h'.roomy, pure_bind]
      exact LockedMap.ends_link_bind h' (.pure ⟨rfl, h'.link habsent value⟩)
    · rw [if_neg hfull]
      exact LockedMap.ends_link_bind h (.pure ⟨rfl, h.link habsent value⟩)
  · rw [h.get?_hit lawful hbucket hkey]
    exact .modify_bind (.pure ⟨rfl, h.overwrite lawful hbucket hkey value⟩)

namespace StripedMap

/-- One attempt puts the entry, or finds the table full and leaves it. -/
theorem ends_attempt {map : StripedMap K V} (h : map.Stores hash same dict) (key : K) (value : V) :
    Ends map (attempt cb (hash key) key value)
      (fun outcome map' => match outcome with
        | .done previous => previous = Dictionary.get? same dict key ∧
          map'.Stores hash same (Dictionary.put same dict key value)
        | .full seen => map' = map ∧ seen = map.table.size ∧ map.isFull)
      (LockedMap.Keeps cb hash same dict) := by
  refine LockedMap.ends_lookup_bind lawful follows h (fun habsent => ?_) fun hit hbucket hkey => ?_
  · refine .read_bind ?_
    by_cases hfull : map.isFull
    · rw [if_pos hfull]
      exact .pure ⟨rfl, rfl, hfull⟩
    · rw [if_neg hfull]
      exact LockedMap.ends_link_bind h
        (.pure ⟨(Dictionary.get?_eq_none habsent).symm, h.link habsent value⟩)
  · exact .modify_bind (.pure ⟨(h.get?_hit lawful hbucket hkey).symm,
      h.overwrite lawful hbucket hkey value⟩)

omit lawful in
/-- A growth, needed still or not, leaves the dictionary. -/
theorem ends_grow {map : StripedMap K V} (h : map.Stores hash same dict) (seen : Nat) :
    Ends map (grow cb seen)
      (fun _ map' => map'.Stores hash same dict ∧ (map.table.size = seen → map.isFull →
        map'.table.size = map.table.size * 2 ∧ cb.Grants (Table.bucketBytes * map'.table.size)))
      (LockedMap.Keeps cb hash same dict) := by
  refine .read_bind ?_
  by_cases hgrow : (map.table.size = seen && map.isFull) = true
  · rw [if_pos hgrow]
    have hdouble : Ends map (LockedMap.double cb >>= pure)
        (fun _ map' => map'.Stores hash same dict ∧ (map.table.size = seen → map.isFull →
          map'.table.size = map.table.size * 2 ∧ cb.Grants (Table.bucketBytes * map'.table.size)))
        (LockedMap.Keeps cb hash same dict) :=
      LockedMap.ends_double_bind follows h fun map' h' hsize hgrant =>
        .pure ⟨h', fun _ _ => ⟨hsize, hgrant⟩⟩
    rw [bind_pure] at hdouble
    exact hdouble
  · rw [if_neg hgrow]
    refine .pure ⟨h, fun hseen hfull => absurd ?_ hgrow⟩
    simp [hseen, hfull]

/-- Every attempt that gives up is followed by a growth, so when the last one does the table has
more buckets than the machine can address. -/
theorem ends_putWithin {map : StripedMap K V} (h : map.Stores hash same dict) (key : K) (value : V)
    (attempts : Nat) (hle : attempts ≤ maxAttempts)
    (hsize : 2 ^ (maxAttempts - attempts) ≤ map.table.size)
    (hgrant : attempts < maxAttempts → cb.Grants (Table.bucketBytes * map.table.size)) :
    Ends map (putWithin cb (hash key) key value attempts)
      (fun v map' => v = Dictionary.get? same dict key ∧
        map'.Stores hash same (Dictionary.put same dict key value))
      (LockedMap.Keeps cb hash same dict) := by
  induction attempts generalizing map with
  | zero =>
    refine .throw ⟨⟨_, ?_, hgrant (by decide)⟩, h⟩
    exact Nat.le_trans hsize (Nat.le_mul_of_pos_left _ (by decide))
  | succ attempts ih =>
    refine (ends_attempt lawful follows h key value).bind fun outcome map' hout => ?_
    cases outcome with
    | done previous => exact .pure hout
    | full seen =>
      obtain ⟨rfl, hseen, hfull⟩ := hout
      refine (ends_grow follows h seen).bind fun _ grown hgrow => ?_
      obtain ⟨hdouble, hgranted⟩ := hgrow.2 hseen.symm hfull
      refine ih hgrow.1 (by omega) ?_ fun _ => hgranted
      have hpow : maxAttempts - attempts = maxAttempts - (attempts + 1) + 1 := by omega
      rw [hdouble, hpow, Nat.pow_succ]
      exact Nat.mul_le_mul_right 2 hsize

theorem ends_put {map : StripedMap K V} (h : map.Stores hash same dict) (key : K) (value : V) :
    Ends map (put cb key value)
      (fun v map' => v = Dictionary.get? same dict key ∧
        map'.Stores hash same (Dictionary.put same dict key value))
      (LockedMap.Keeps cb hash same dict) :=
  LockedMap.ends_hash_bind follows h (ends_putWithin lawful follows h key value maxAttempts
    (Nat.le_refl _) h.roomy fun hlt => absurd hlt (Nat.lt_irrefl _))

end StripedMap

namespace LockedMap
variable {map : LockedMap l K V}

theorem ends_put (h : map.Stores hash same dict) (key : K) (value : V) :
    Ends map (put cb key value)
      (fun v map' => v = Dictionary.get? same dict key ∧
        map'.Stores hash same (Dictionary.put same dict key value)) (Keeps cb hash same dict) := by
  cases l with
  | monitor => exact MonitorMap.ends_put lawful follows h key value
  | striped => exact StripedMap.ends_put lawful follows h key value

/-- An audit accepts the well-formed maps, and no other. -/
theorem ends_audit (map : LockedMap l K V) :
    Ends map (audit cb) (fun b map' => (b = true ↔ map.WellFormed hash same) ∧ map' = map)
      (Spares cb map) := by
  have htable := ends_auditTable lawful follows map
  cases l with
  | monitor =>
    apply htable.mono _ fun _ _ hf => hf
    rintro b map' ⟨hb, hmap⟩
    exact ⟨hb.trans ⟨fun h => ⟨h.1, h.2.1, h.2.2, nofun⟩,
      fun h => ⟨h.homed, h.distinct, h.counted⟩⟩, hmap⟩
  | striped =>
    apply Ends.read_bind
    by_cases heven : map.table.size % StripedMap.stripes map = 0
    · rw [if_pos heven]
      apply htable.mono _ fun _ _ hf => hf
      rintro b map' ⟨hb, hmap⟩
      exact ⟨hb.trans ⟨fun h => ⟨h.1, h.2.1, h.2.2, fun _ => Nat.dvd_of_mod_eq_zero heven⟩,
        fun h => ⟨h.homed, h.distinct, h.counted⟩⟩, hmap⟩
    · rw [if_neg heven]
      refine .pure ⟨⟨nofun, fun h => ?_⟩, rfl⟩
      exact absurd (Nat.mod_eq_zero_of_dvd (h.even rfl)) heven

/-- A request to a map is answered as by the dictionary that it stores. -/
theorem ends_perform (h : map.Stores hash same dict) (request : MapRequest K V) :
    Ends map (request.perform cb)
      (fun answer map' => Dictionary.Accepts same dict request answer ∧
        map'.Stores hash same (Dictionary.effect same dict request)) (Keeps cb hash same dict) := by
  cases request with
  | put key value =>
    exact .map ((ends_put lawful follows h key value).mono
      (fun _ _ hv => ⟨congrArg MapAnswer.value hv.1, hv.2⟩) fun _ _ hf => hf)
  | get key =>
    exact .map ((ends_get lawful follows h).mono
      (fun _ _ hv => ⟨congrArg MapAnswer.value hv.1, hv.2 ▸ h⟩) fun _ _ hf => hf)
  | remove key =>
    exact .map ((ends_remove lawful follows h).mono
      (fun _ _ hv => ⟨congrArg MapAnswer.value hv.1, hv.2⟩) fun _ _ hf => hf)
  | contains key =>
    exact .map ((ends_contains lawful follows h).mono
      (fun _ _ hb => ⟨congrArg MapAnswer.flag hb.1, hb.2 ▸ h⟩) fun _ _ hf => hf)
  | size => exact .map (.read_bind (.pure ⟨congrArg MapAnswer.count h.counted, h⟩))
  | isEmpty =>
    refine .map (.read_bind (.pure ⟨?_, h⟩))
    rw [h.counted]
    cases dict <;> rfl
  | bucketCount => exact .map (.read_bind (.pure ⟨trivial, h⟩))
  | growthCount => exact .map (.read_bind (.pure ⟨trivial, h⟩))
  | loadFactor => exact .map (.read_bind (.pure ⟨trivial, h⟩))
  | options => exact .map (.read ⟨trivial, h⟩)
  | audit =>
    exact .map ((ends_audit lawful follows map).mono
      (fun _ _ hb => ⟨congrArg MapAnswer.flag (hb.1.2 (h.wellFormed lawful)), hb.2 ▸ h⟩)
      fun _ _ hf => hf.keeps h)

end LockedMap
end Puts
end LockedContainers
