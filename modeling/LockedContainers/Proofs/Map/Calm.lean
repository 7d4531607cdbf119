import LockedContainers.Proofs.Map.Effects

/-!
# Operations that cannot fail

Where no callback fails and memory is granted, a map with a bucket answers
every operation. An insertion into a striped map ends with the growth that
makes room for it, when there are attempts enough.
-/
namespace LockedContainers

variable {l : Locking} {K V C ε σ α β : Type}

namespace Table

theorem widerBytes_mono {elementBytes elementBytes' length length' : Nat}
    (hbytes : elementBytes ≤ elementBytes') (hlength : length ≤ length') :
    widerBytes elementBytes length ≤ widerBytes elementBytes' length' :=
  Nat.mul_le_mul hbytes (by omega)

theorem mul_le_widerBytes (elementBytes length : Nat) :
    elementBytes * length ≤ widerBytes elementBytes length :=
  Nat.mul_le_mul_left _ (by omega)

end Table

/-- A block of so many bytes is enough for every list of a table with so many entries, and of its
growth. -/
def MapCallbacks.listBytes (cb : MapCallbacks K V ε σ) (entries : Nat) : Nat :=
  Table.widerBytes (max Table.counterBytes cb.entryBytes) entries

/-- Hashing and comparing do not fail, and blocks of up to so many bytes are granted. -/
structure MapCallbacks.Calm (cb : MapCallbacks K V ε σ) (bytes : Nat) : Prop where
  hash : ∀ k, Yields (cb.hash k) (fun _ => True) fun _ => False
  equal : ∀ a b, Yields (cb.equal a b) (fun _ => True) fun _ => False
  allocate : ∀ n ≤ bytes, Yields (cb.allocate n) (fun _ => True) fun _ => False

theorem Ends.ask_calm_bind {c : C} {act : EStateM ε σ α} {answers : α → Prop}
    {next : α → Guarded C (MapFailure ε) σ β} {post : β → C → Prop}
    (h : Yields act answers fun _ => False)
    (hnext : ∀ a, answers a → Ends c (next a) post fun _ _ => False) :
    Ends c (Guarded.ask act >>= next) post fun _ _ => False :=
  .call_bind (Yields.adaptExcept h) hnext

section Calm
variable {cb : MapCallbacks K V ε σ} {bytes : Nat} {key : K} (calm : cb.Calm bytes)
include calm

theorem Bucket.yields_scan_calm (before after : Bucket K V) :
    Yields (scan cb key before after) (fun _ => True) fun _ => False := by
  induction after generalizing before with
  | nil => exact .pure trivial
  | cons e after ih =>
    apply (calm.equal e.1 key).bind
    intro same _
    cases same with
    | true => exact .pure trivial
    | false => exact ih (e :: before)

namespace Table

theorem yields_placements_calm (buckets noted : Nat) {entries : List (K × V)}
    (few : cb.listBytes (noted + entries.length) ≤ bytes) :
    Yields (placements cb buckets noted entries) (fun _ => True) fun _ => False := by
  induction entries generalizing noted with
  | nil => exact .pure trivial
  | cons e rest ih =>
    rw [List.length_cons, Nat.add_comm rest.length, ← Nat.add_assoc] at few
    have hnote : widerBytes counterBytes noted ≤ bytes :=
      Nat.le_trans (widerBytes_mono (Nat.le_max_left _ _) (by omega)) few
    apply (calm.hash e.1).bind
    intro _ _
    apply (calm.allocate _ hnote).bind
    exact fun _ _ => (ih (noted + 1) few).bind fun _ _ => .pure trivial

theorem yields_reserve_calm {sizes : List Nat} (few : ∀ n ∈ sizes, cb.entryBytes * n ≤ bytes) :
    Yields (reserve cb sizes) (fun _ => True) fun _ => False := by
  induction sizes with
  | nil => exact .pure trivial
  | cons n sizes ih =>
    obtain ⟨hn, hrest⟩ := List.forall_mem_cons.1 few
    cases n with
    | zero => exact ih hrest
    | succ n => exact (calm.allocate _ hn).bind fun _ _ => ih hrest

/-- A table for which there is memory is built. -/
theorem yields_resized_calm (table : Table K V)
    (granted : bucketBytes * (table.size * 2) ≤ bytes)
    (few : cb.listBytes table.entries.length ≤ bytes) :
    Yields (table.resized cb (table.size * 2)) (fun _ => True) fun _ => False := by
  have hcounters : counterBytes * (table.size * 2) ≤ bytes :=
    Nat.le_trans (Nat.mul_le_mul_right _ (by decide)) granted
  have hnotes : cb.listBytes (0 + table.entries.length) ≤ bytes := by rwa [Nat.zero_add]
  have hplacements := (yields_placements_calm calm (table.size * 2) 0 hnotes).and
    (yields_placements_double_any cb table)
  apply (calm.allocate _ hcounters).bind
  intro _ _
  apply (hplacements.mono (fun _ h => h.2) fun _ h => h.1).bind
  rintro placed ⟨-, hentries⟩
  apply (calm.allocate _ granted).bind
  intro _ _
  refine (yields_reserve_calm calm ?_).bind fun _ _ => .pure trivial
  intro n hn
  obtain ⟨bucket, hbucket, rfl⟩ := List.mem_map.1 hn
  -- no bucket has more entries than the table
  have hlength : bucket.length ≤ table.entries.length := by
    rw [← hentries.length_eq]
    exact (List.sublist_flatten_of_mem hbucket).length_le
  calc cb.entryBytes * bucket.length
    _ ≤ widerBytes cb.entryBytes bucket.length := mul_le_widerBytes ..
    _ ≤ cb.listBytes table.entries.length := widerBytes_mono (Nat.le_max_right _ _) hlength
    _ ≤ bytes := few

end Table

namespace LockedMap
variable {map : LockedMap l K V}

theorem ends_lookup_calm_bind (roomy : 0 < map.table.size) (h : UInt64)
    {next : Nat × Option (Hit K V) → MapSection l K V ε σ β} {post : β → LockedMap l K V → Prop}
    (hnext : ∀ found, Ends map (next found) post fun _ _ => False) :
    Ends map (lookup cb h key >>= next) post fun _ _ => False := by
  rw [lookup, bind_assoc]
  apply Ends.read_bind
  rw [Table.slot, if_neg (by omega), pure_bind, bind_assoc]
  apply Ends.ask_calm_bind (Bucket.yields_scan_calm calm [] _)
  intro found _
  rw [pure_bind]
  exact hnext _

/-- A growth for which there is memory doubles the table. -/
theorem ends_double_calm_bind (granted : Table.bucketBytes * (map.table.size * 2) ≤ bytes)
    (few : cb.listBytes map.table.entries.length ≤ bytes)
    {next : Unit → MapSection l K V ε σ β} {post : β → LockedMap l K V → Prop}
    (hnext : ∀ grown, Doubled map grown → Ends grown (next ()) post fun _ _ => False) :
    Ends map (double cb >>= next) post fun _ _ => False := by
  have hresized := (Table.yields_resized_calm calm map.table granted few).and
    (Table.yields_resized_any cb map.table)
  rw [double, bind_assoc]
  apply Ends.read_bind
  rw [bind_assoc]
  apply Ends.ask_calm_bind (hresized.mono (fun _ h => h.2) fun _ h => h.1)
  rintro table ⟨hsize, hentries⟩
  exact .modify_bind (hnext _ ⟨rfl, rfl, rfl, hsize, hentries⟩)

theorem ends_link_calm_bind (few : cb.listBytes map.table.entries.length ≤ bytes) {slot : Nat}
    {value : V} {next : Unit → MapSection l K V ε σ β} {post : β → LockedMap l K V → Prop}
    (hnext : Ends (map.linked slot key value) (next ()) post fun _ _ => False) :
    Ends map (link cb slot key value >>= next) post fun _ _ => False := by
  have hroom : Table.widerBytes cb.entryBytes (map.table.bucket slot).length ≤ bytes :=
    Nat.le_trans (Table.widerBytes_mono (Nat.le_max_right _ _) (Table.length_bucket_le ..)) few
  rw [link, makeRoom, bind_assoc, bind_assoc]
  apply Ends.read_bind
  exact .ask_calm_bind (calm.allocate _ hroom) fun _ _ => .modify_bind hnext

/-- A look-up also copies the value. -/
theorem ends_get_calm (copies : ∀ v, Yields (cb.copy v) (fun _ => True) fun _ => False)
    (roomy : 0 < map.table.size) : Ends map (get cb key) (fun _ _ => True) fun _ _ => False := by
  apply Ends.ask_calm_bind (calm.hash key)
  intro h _
  apply ends_lookup_calm_bind calm roomy
  rintro ⟨slot, hit⟩
  cases hit with
  | none => exact .pure trivial
  | some hit =>
    apply Ends.map
    rw [← bind_pure (Guarded.ask (cb.copy hit.value))]
    exact .ask_calm_bind (copies hit.value) fun _ _ => .pure trivial

theorem ends_remove_calm (roomy : 0 < map.table.size) :
    Ends map (remove cb key) (fun _ _ => True) fun _ _ => False := by
  apply Ends.ask_calm_bind (calm.hash key)
  intro h _
  apply ends_lookup_calm_bind calm roomy
  rintro ⟨slot, hit⟩
  cases hit with
  | none => exact .pure trivial
  | some hit => exact .modify_bind (.pure trivial)

end LockedMap

/-- A full table has to be doubled once. -/
theorem MonitorMap.ends_put_calm {map : MonitorMap K V} (roomy : 0 < map.table.size)
    (granted : map.isFull → Table.bucketBytes * (map.table.size * 2) ≤ bytes)
    (few : cb.listBytes map.table.entries.length ≤ bytes) (value : V) :
    Ends map (put cb key value) (fun _ _ => True) fun _ _ => False := by
  apply Ends.ask_calm_bind (calm.hash key)
  intro h _
  apply LockedMap.ends_lookup_calm_bind calm roomy
  rintro ⟨slot, hit⟩
  cases hit with
  | some hit => exact .modify_bind (.pure trivial)
  | none =>
    apply Ends.read_bind
    by_cases hfull : map.isFull
    · rw [if_pos hfull]
      apply LockedMap.ends_double_calm_bind calm (granted hfull) few
      intro grown hgrown
      have hroomy : 0 < grown.table.size := by
        rw [hgrown.size]
        omega
      apply Ends.ask_calm_bind (calm.hash key)
      intro h' _
      apply Ends.read_bind
      rw [Table.slot, if_neg (by omega), pure_bind]
      rw [← hgrown.entries.length_eq] at few
      exact LockedMap.ends_link_calm_bind calm few (.pure trivial)
    · rw [if_neg hfull]
      exact LockedMap.ends_link_calm_bind calm few (.pure trivial)

namespace StripedMap
variable {map : StripedMap K V}

theorem ends_attempt_calm (roomy : 0 < map.table.size)
    (few : cb.listBytes map.table.entries.length ≤ bytes) (h : UInt64) (value : V) :
    Ends map (attempt cb h key value) (fun _ _ => True) fun _ _ => False := by
  apply LockedMap.ends_lookup_calm_bind calm roomy
  rintro ⟨slot, hit⟩
  cases hit with
  | some hit => exact .modify_bind (.pure trivial)
  | none =>
    apply Ends.read_bind
    by_cases hfull : map.isFull
    · rw [if_pos hfull]
      exact .pure trivial
    · rw [if_neg hfull]
      exact LockedMap.ends_link_calm_bind calm few (.pure trivial)

theorem ends_grow_calm (granted : Table.bucketBytes * (map.table.size * 2) ≤ bytes)
    (few : cb.listBytes map.table.entries.length ≤ bytes) (seen : Nat) :
    Ends map (grow cb seen) (fun _ _ => True) fun _ _ => False := by
  apply Ends.read_bind
  split
  · rw [← bind_pure (LockedMap.double cb)]
    exact LockedMap.ends_double_calm_bind calm granted few fun _ _ => .pure trivial
  · exact .pure trivial

/-- With attempts enough to grow as far as there is room, a put ends: every attempt that gives up is
followed by a growth. -/
theorem ends_putWithin_calm (h : UInt64) (value : V) {attempts i : Nat}
    (roomy : 0 < map.table.size)
    (room : map.options.exceeds (map.count + 1) (map.table.size * 2 ^ i) = false)
    (granted : 0 < i → Table.bucketBytes * (map.table.size * 2 ^ i) ≤ bytes)
    (few : cb.listBytes map.table.entries.length ≤ bytes) (enough : i < attempts) :
    Ends map (putWithin cb h key value attempts) (fun _ _ => True) fun _ _ => False := by
  induction attempts generalizing map i with
  | zero => exact absurd enough (Nat.not_lt_zero i)
  | succ attempts ih =>
    have hattempt := (ends_attempt_calm calm roomy few h value).and (ends_attempt_any cb map h key value)
    apply (hattempt.mono (fun _ _ hout => hout.2) fun _ _ hf => hf.1).bind
    intro outcome map' hout
    cases outcome with
    | done previous => exact .pure trivial
    | full seen =>
      obtain ⟨rfl, rfl, hfull⟩ := hout
      cases i with
      | zero =>
        -- Without a growth there would have been room.
        rw [Nat.pow_zero, Nat.mul_one] at room
        rw [LockedMap.isFull, room] at hfull
        exact Bool.noConfusion hfull
      | succ i =>
        have hwide : map'.table.size * 2 ^ (i + 1) = map'.table.size * 2 * 2 ^ i := by
          rw [Nat.pow_succ', Nat.mul_assoc]
        rw [hwide] at room granted
        have hgranted := granted (Nat.succ_pos i)
        have honce : Table.bucketBytes * (map'.table.size * 2) ≤ bytes :=
          Nat.le_trans
            (Nat.mul_le_mul_left _ (Nat.le_mul_of_pos_right _ (Nat.two_pow_pos i))) hgranted
        have hgrow := (ends_grow_calm calm honce few map'.table.size).and (ends_grow_any cb map' hfull)
        apply (hgrow.mono (fun _ _ hgrown => hgrown.2) fun _ _ hf => hf.1).bind
        intro _ mid hmid
        rw [← hmid.size, ← hmid.options, ← hmid.count] at room
        rw [← hmid.size] at hgranted
        rw [← hmid.entries.length_eq] at few
        apply ih _ room (fun _ => hgranted) few (by omega)
        rw [hmid.size]
        omega

theorem ends_put_calm (value : V) {i : Nat} (roomy : 0 < map.table.size)
    (room : map.options.exceeds (map.count + 1) (map.table.size * 2 ^ i) = false)
    (granted : 0 < i → Table.bucketBytes * (map.table.size * 2 ^ i) ≤ bytes)
    (few : cb.listBytes map.table.entries.length ≤ bytes) (enough : i < maxAttempts) :
    Ends map (put cb key value) (fun _ _ => True) fun _ _ => False := by
  apply Ends.ask_calm_bind (calm.hash key)
  intro h _
  exact ends_putWithin_calm calm h value roomy room granted few enough

end StripedMap
end Calm
end LockedContainers
