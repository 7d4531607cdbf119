import LockedContainers.Proofs.Map.Callbacks

/-!
# Maps as stores of a dictionary

A map stores a dictionary when its table holds the dictionary's entries, each
at home, and its counter counts them. The changes that operations make of a
map are those of the dictionary; a growth is no change at all.
-/
namespace LockedContainers

variable {l : Locking} {K V ε σ : Type}

/-- Equal keys hash alike, so among entries at home they could only meet in one bucket. -/
theorem Table.Homed.distinctKeys_iff {hash : K → UInt64} {same : K → K → Bool} {table : Table K V}
    (homed : table.Homed hash) (lawful : LawfulKeys hash same) :
    DistinctKeys same table.entries ↔ ∀ slot, DistinctKeys same (table.bucket slot) := by
  have hbucket (i : Nat) (hi : i < table.toList.length) : table.toList[i] = table.bucket i := by
    rw [bucket_eq_getElem (by simpa using hi)]
    simp
  rw [DistinctKeys, entries, List.pairwise_flatten]
  constructor
  · rintro ⟨hinside, -⟩ slot
    by_cases hslot : slot < table.toList.length
    · rw [← hbucket slot hslot]
      exact hinside _ (List.getElem_mem hslot)
    · rw [bucket_of_size_le (by simpa using hslot)]
      exact .nil
  · intro hdistinct
    constructor
    · intro bucket hmem
      obtain ⟨slot, hslot, rfl⟩ := List.mem_iff_getElem.1 hmem
      rw [hbucket slot hslot]
      exact hdistinct slot
    · rw [List.pairwise_iff_getElem]
      intro i j hi hj hij a ha b hb
      rw [hbucket i hi] at ha
      rw [hbucket j hj] at hb
      rw [Bool.eq_false_iff]
      intro hsame
      have hslots := homed i a ha
      rw [lawful.hash_eq a.1 b.1 hsame, homed j b hb] at hslots
      omega

/-- Every entry is at home, no two entries have equal keys, the counter counts the entries, and the
buckets of a striped map come out even among the stripes. -/
structure LockedMap.WellFormed (hash : K → UInt64) (same : K → K → Bool) (map : LockedMap l K V) :
    Prop where
  homed : map.table.Homed hash
  distinct : DistinctKeys same map.table.entries
  counted : map.count = map.table.entries.length
  even : l = .striped → map.options.stripes.toNat ∣ map.table.size

/-- The table holds the entries of the dictionary, each at home, and the counter counts them. -/
structure LockedMap.Stores (hash : K → UInt64) (same : K → K → Bool) (map : LockedMap l K V)
    (dict : Dictionary K V) : Prop where
  roomy : 0 < map.table.size
  homed : map.table.Homed hash
  entries : map.table.entries.Perm dict
  distinct : DistinctKeys same dict
  counted : map.count = dict.length
  /-- The buckets of a striped map come out even among the stripes. -/
  even : l = .striped → map.table.size % map.options.stripes.toNat = 0

namespace LockedMap.Stores

variable {hash : K → UInt64} {same : K → K → Bool} {map : LockedMap l K V} {dict : Dictionary K V}
  {key : K}

theorem slot_lt (h : map.Stores hash same dict) (key : K) :
    (hash key).toNat % map.table.size < map.table.size :=
  Nat.mod_lt _ h.roomy

section Lawful
variable (lawful : LawfulKeys hash same)
include lawful

/-- A key that is not in its bucket is nowhere. -/
theorem absent (h : map.Stores hash same dict)
    (miss : ∀ e ∈ map.table.bucket ((hash key).toNat % map.table.size), same e.1 key = false) :
    ∀ e ∈ dict, same e.1 key = false := by
  intro e he
  rw [Bool.eq_false_iff]
  intro hsame
  have hbucket := h.homed.mem_bucket (h.entries.mem_iff.2 he)
  rw [lawful.hash_eq e.1 key hsame] at hbucket
  rw [miss e hbucket] at hsame
  exact Bool.noConfusion hsame

/-- Around a hit the entries fall into two parts. -/
theorem around (h : map.Stores hash same dict) {hit : Hit K V}
    (hbucket : hit.bucket = map.table.bucket ((hash key).toNat % map.table.size)) : ∃ left right,
      map.table.entries = left ++ (hit.key, hit.value) :: right ∧
      DistinctKeys same (left ++ (hit.key, hit.value) :: right) ∧
      (∀ value, Table.entries (map.table.setIfInBounds ((hash key).toNat % map.table.size)
        (hit.replaced value)) = left ++ (hit.key, value) :: right) ∧
      (Table.entries (map.table.setIfInBounds ((hash key).toNat % map.table.size)
        hit.removed)).Perm (left ++ right) := by
  obtain ⟨front, back, hentries, hset⟩ := Table.entries_setIfInBounds (h.slot_lt key)
  have hsplit : map.table.entries =
      (front ++ hit.before) ++ (hit.key, hit.value) :: (hit.after ++ back) := by
    rw [hentries, ← hbucket, Hit.bucket]
    simp
  refine ⟨front ++ hit.before, hit.after ++ back, hsplit, ?_, fun value => ?_, ?_⟩
  · rw [← hsplit]
    exact h.distinct.perm lawful h.entries.symm
  · rw [hset, Hit.replaced]
    simp
  · rw [hset]
    refine ((hit.removed_perm.append_left front).append_right back).trans ?_
    simp

theorem mem_of_hit (h : map.Stores hash same dict) {hit : Hit K V}
    (hbucket : hit.bucket = map.table.bucket ((hash key).toNat % map.table.size)) :
    (hit.key, hit.value) ∈ dict := by
  obtain ⟨left, right, hentries, -⟩ := h.around lawful hbucket
  rw [← h.entries.mem_iff, hentries]
  simp

theorem get?_hit (h : map.Stores hash same dict) {hit : Hit K V}
    (hbucket : hit.bucket = map.table.bucket ((hash key).toNat % map.table.size))
    (hkey : same hit.key key) : Dictionary.get? same dict key = some hit.value :=
  Dictionary.get?_eq_some lawful h.distinct (h.mem_of_hit lawful hbucket) hkey

/-- What the table maps a key to. -/
theorem get?_entries (h : map.Stores hash same dict) (key : K) :
    Dictionary.get? same map.table.entries key = Dictionary.get? same dict key :=
  Dictionary.get?_perm lawful (h.distinct.perm lawful h.entries.symm) h.entries

theorem overwrite (h : map.Stores hash same dict) {hit : Hit K V}
    (hbucket : hit.bucket = map.table.bucket ((hash key).toNat % map.table.size))
    (hkey : same hit.key key) (value : V) :
    ({ map with
        table := map.table.setIfInBounds ((hash key).toNat % map.table.size) (hit.replaced value) } :
      LockedMap l K V).Stores hash same (Dictionary.put same dict key value) := by
  obtain ⟨left, right, hentries, hdistinct, hreplaced, -⟩ := h.around lawful hbucket
  have hput : Dictionary.put same dict key value = dict.map (Dictionary.updated same key value) :=
    Dictionary.put_eq_map lawful h.distinct (h.mem_of_hit lawful hbucket) hkey
  rw [hput]
  constructor
  · simpa using h.roomy
  · exact h.homed.replaced (h.slot_lt key) hbucket value
  · rw [hreplaced value, ← Dictionary.map_updated lawful hdistinct hkey, ← hentries]
    exact h.entries.map _
  · exact Dictionary.distinct_map_updated h.distinct
  · rw [List.length_map]
    exact h.counted
  · intro hl
    simpa using h.even hl

theorem unlink (h : map.Stores hash same dict) {hit : Hit K V}
    (hbucket : hit.bucket = map.table.bucket ((hash key).toNat % map.table.size))
    (hkey : same hit.key key) :
    ({ map with
        table := map.table.setIfInBounds ((hash key).toNat % map.table.size) hit.removed
        count := map.count - 1 } :
      LockedMap l K V).Stores hash same (Dictionary.erase same dict key) := by
  obtain ⟨left, right, hentries, hdistinct, -, hremoved⟩ := h.around lawful hbucket
  have hperm : (left ++ right).Perm (Dictionary.erase same dict key) := by
    rw [← Dictionary.filter_not_same lawful hdistinct hkey, ← hentries]
    exact h.entries.filter _
  constructor
  · simpa using h.roomy
  · exact h.homed.removed (h.slot_lt key) hbucket
  · exact hremoved.trans hperm
  · exact h.distinct.filter _
  · have hlength := h.entries.length_eq
    rw [hentries] at hlength
    have hlength' := hperm.length_eq
    rw [h.counted, ← hlength', ← hlength]
    simp
  · intro hl
    simpa using h.even hl

omit lawful in
theorem link (h : map.Stores hash same dict) (absent : ∀ e ∈ dict, same e.1 key = false)
    (value : V) :
    ({ map with
        table := map.table.append ((hash key).toNat % map.table.size) (key, value)
        count := map.count + 1 } :
      LockedMap l K V).Stores hash same (Dictionary.put same dict key value) := by
  rw [Dictionary.put_eq_append absent]
  constructor
  · simpa using h.roomy
  · exact h.homed.append (h.slot_lt key) rfl
  · exact (Table.entries_append_perm _ (h.slot_lt key)).trans (h.entries.append_right _)
  · exact Dictionary.distinct_append h.distinct absent
  · rw [List.length_append, h.counted]
    rfl
  · intro hl
    simpa using h.even hl

end Lawful

/-- A growth moves the entries and changes none. -/
theorem double (h : map.Stores hash same dict) :
    ({ map with
        table := Table.rehomed hash (map.table.size * 2) map.table
        growths := map.growths + 1 } : LockedMap l K V).Stores hash same dict := by
  have hpos : 0 < map.table.size * 2 := Nat.mul_pos h.roomy (by decide)
  constructor
  · rw [Table.size_rehomed hpos]
    exact hpos
  · exact Table.rehomed_homed hpos
  · exact (Table.entries_rehomed_perm hpos).trans h.entries
  · exact h.distinct
  · exact h.counted
  · intro hl
    rw [Table.size_rehomed hpos, Nat.mul_mod, h.even hl]
    simp

theorem wellFormed (h : map.Stores hash same dict) (lawful : LawfulKeys hash same) :
    map.WellFormed hash same where
  homed := h.homed
  distinct := h.distinct.perm lawful h.entries.symm
  counted := h.counted.trans h.entries.length_eq.symm
  even hl := Nat.dvd_of_mod_eq_zero (h.even hl)

end LockedMap.Stores

/-- A new table stores nothing. -/
theorem LockedMap.stores_vacant {hash : K → UInt64} {same : K → K → Bool} {options : MapOptions}
    (h : 0 < options.buckets.toNat)
    (even : l = .striped → options.buckets.toNat % options.stripes.toNat = 0) :
    ({ options, table := Table.vacant options.buckets.toNat } :
      LockedMap l K V).Stores hash same [] where
  roomy := by simpa [Table.vacant] using h
  homed := Table.vacant_homed hash _
  entries := by rw [Table.entries_vacant]
  distinct := .nil
  counted := rfl
  even hl := by simpa [Table.vacant] using even hl

/-- Rounding reaches a multiple of the stripe count, also when it wraps. -/
theorem MapOptions.rounded_even (options : MapOptions) :
    options.rounded.buckets.toNat % options.rounded.stripes.toNat = 0 := by
  simp only [MapOptions.rounded, UInt64.toNat_mul, UInt64.toNat_div]
  have hle := Nat.div_mul_le_self (options.buckets + options.stripes - 1).toNat options.stripes.toNat
  have hlt := (options.buckets + options.stripes - 1).toNat_lt
  rw [Nat.mod_eq_of_lt (Nat.lt_of_le_of_lt hle hlt), Nat.mul_mod_left]

end LockedContainers
