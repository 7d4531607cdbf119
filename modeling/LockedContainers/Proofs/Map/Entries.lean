import Mathlib.Data.List.Basic
import LockedContainers.Map.Table

/-!
# The entries of a table

A table is read as the list of its entries, bucket by bucket. Every change of
one bucket shows at one place of that list, and a redistribution keeps the
entries and brings each to its home.
-/
namespace LockedContainers

variable {K V : Type}

/-- Every entry lies in the bucket that its hash selects. -/
def Table.Homed (hash : K → UInt64) (table : Table K V) : Prop :=
  ∀ slot, ∀ e ∈ table.bucket slot, (hash e.1).toNat % table.size = slot

namespace Hit

/-- The hole of a removed entry is filled by the last one. -/
theorem removed_perm (hit : Hit K V) : hit.removed.Perm (hit.before ++ hit.after) := by
  rw [removed]
  rcases List.eq_nil_or_concat hit.after with hnil | ⟨front, last, hafter⟩
  · rw [hnil]
    simp
  · rw [hafter, List.concat_eq_append]
    simp only [List.getLast?_concat, List.dropLast_concat]
    exact (List.perm_append_singleton last front).symm.append_left hit.before

end Hit

namespace Table

variable {table : Table K V} {slot : Nat}

theorem bucket_of_size_le (h : table.size ≤ slot) : table.bucket slot = [] := by
  rw [bucket, Array.getD_eq_getD_getElem?, Array.getElem?_eq_none h]
  rfl

theorem bucket_eq_getElem (h : slot < table.size) : table.bucket slot = table[slot] := by
  rw [bucket, Array.getD_eq_getD_getElem?, Array.getElem?_eq_getElem h]
  rfl

/-- No bucket has more entries than the table. -/
theorem length_bucket_le (table : Table K V) (slot : Nat) :
    (table.bucket slot).length ≤ table.entries.length := by
  by_cases h : slot < table.size
  · rw [bucket_eq_getElem h]
    exact (List.sublist_flatten_of_mem (by simp)).length_le
  · rw [bucket_of_size_le (Nat.not_lt.1 h)]
    exact Nat.zero_le _

theorem mem_entries {e : K × V} : e ∈ table.entries ↔ ∃ slot, e ∈ table.bucket slot := by
  rw [entries, List.mem_flatten]
  constructor
  · rintro ⟨bucket, hbucket, he⟩
    obtain ⟨slot, hslot, rfl⟩ := List.mem_iff_getElem.1 hbucket
    refine ⟨slot, ?_⟩
    rw [bucket_eq_getElem (by simpa using hslot)]
    simpa using he
  · rintro ⟨slot, he⟩
    by_cases h : slot < table.size
    · rw [bucket_eq_getElem h] at he
      exact ⟨table[slot], by simp, he⟩
    · rw [bucket_of_size_le (by omega)] at he
      simp at he

theorem size_pos_of_mem {e : K × V} (he : e ∈ table.entries) : 0 < table.size := by
  obtain ⟨slot, hslot⟩ := mem_entries.1 he
  by_contra hsize
  rw [bucket_of_size_le (by omega)] at hslot
  cases hslot

/-- A change of one bucket shows at one place of the list of entries. -/
theorem entries_setIfInBounds (h : slot < table.size) : ∃ front back,
    table.entries = front ++ table.bucket slot ++ back ∧
      ∀ b : Bucket K V, Table.entries (table.setIfInBounds slot b) = front ++ b ++ back := by
  refine ⟨(table.toList.take slot).flatten, (table.toList.drop (slot + 1)).flatten, ?_, ?_⟩
  · have hlist : slot < table.toList.length := by simpa using h
    have hsplit : table.toList = table.toList.take slot ++
        table.toList[slot] :: table.toList.drop (slot + 1) := by
      rw [List.getElem_cons_drop, List.take_append_drop]
    rw [entries, bucket_eq_getElem h]
    conv_lhs => rw [hsplit]
    simp
  · intro b
    rw [entries, Array.toList_setIfInBounds, List.set_eq_take_append_cons_drop, if_pos (by simpa using h)]
    simp

theorem bucket_setIfInBounds (b : Bucket K V) (i : Nat) (h : slot < table.size) :
    Table.bucket (table.setIfInBounds slot b) i = if i = slot then b else table.bucket i := by
  simp only [bucket, Array.getD_eq_getD_getElem?, Array.getElem?_setIfInBounds]
  by_cases hi : i = slot
  · subst hi
    simp [h]
  · simp [hi, Ne.symm hi]

theorem append_eq_setIfInBounds (e : K × V) (h : slot < table.size) :
    table.append slot e = table.setIfInBounds slot (table.bucket slot ++ [e]) := by
  apply Array.ext
  · simp [append]
  · intro i hi hi'
    have hsize : i < table.size := by simpa [append] using hi
    rw [Array.getElem_setIfInBounds hsize]
    simp only [append, Array.getElem_modify]
    by_cases hslot : slot = i
    · subst hslot
      simp [bucket_eq_getElem h]
    · simp [hslot]

@[simp] theorem size_append (e : K × V) : (table.append slot e).size = table.size := by
  simp [append]

theorem entries_append_perm (e : K × V) (h : slot < table.size) :
    (table.append slot e).entries.Perm (table.entries ++ [e]) := by
  obtain ⟨front, back, hentries, hset⟩ := entries_setIfInBounds h
  rw [append_eq_setIfInBounds e h, hset, hentries]
  simp only [List.append_assoc]
  refine List.Perm.append_left front (List.Perm.append_left _ ?_)
  exact List.perm_append_comm

theorem bucket_append (e : K × V) (i : Nat) (h : slot < table.size) :
    (table.append slot e).bucket i =
      if i = slot then table.bucket slot ++ [e] else table.bucket i := by
  rw [append_eq_setIfInBounds e h, bucket_setIfInBounds _ _ h]

/-- A bucket of homed entries may take the place of another. -/
theorem Homed.setIfInBounds {hash : K → UInt64} (homed : table.Homed hash) (b : Bucket K V)
    (h : slot < table.size) (hb : ∀ e ∈ b, (hash e.1).toNat % table.size = slot) :
    Table.Homed hash (table.setIfInBounds slot b) := by
  intro i e he
  rw [bucket_setIfInBounds _ _ h] at he
  rw [Array.size_setIfInBounds]
  by_cases hi : i = slot
  · rw [if_pos hi] at he
    rw [hi]
    exact hb e he
  · rw [if_neg hi] at he
    exact homed i e he

theorem Homed.append {hash : K → UInt64} (homed : table.Homed hash) {e : K × V}
    (h : slot < table.size) (he : (hash e.1).toNat % table.size = slot) :
    (table.append slot e).Homed hash := by
  rw [append_eq_setIfInBounds e h]
  refine homed.setIfInBounds _ h fun e' he' => ?_
  rcases List.mem_append.1 he' with hold | hnew
  · exact homed slot e' hold
  · rw [List.mem_singleton.1 hnew]
    exact he

/-- An overwritten entry keeps its key, and so its home. -/
theorem Homed.replaced {hash : K → UInt64} (homed : table.Homed hash) {hit : Hit K V}
    (h : slot < table.size) (cut : hit.bucket = table.bucket slot) (value : V) :
    Table.Homed hash (table.setIfInBounds slot (hit.replaced value)) := by
  have hhome := homed slot
  rw [← cut, Hit.bucket] at hhome
  apply homed.setIfInBounds _ h
  intro e he
  rcases List.mem_append.1 he with hb | ha
  · exact hhome e (List.mem_append_left _ hb)
  · rcases List.mem_cons.1 ha with rfl | ha
    · exact hhome (hit.key, hit.value) (List.mem_append_right _ List.mem_cons_self)
    · exact hhome e (List.mem_append_right _ (List.mem_cons_of_mem _ ha))

/-- The other entries of a bucket stay at home when one is removed. -/
theorem Homed.removed {hash : K → UInt64} (homed : table.Homed hash) {hit : Hit K V}
    (h : slot < table.size) (cut : hit.bucket = table.bucket slot) :
    Table.Homed hash (table.setIfInBounds slot hit.removed) := by
  have hhome := homed slot
  rw [← cut, Hit.bucket] at hhome
  apply homed.setIfInBounds _ h
  intro e he
  rcases List.mem_append.1 (hit.removed_perm.mem_iff.1 he) with hb | ha
  · exact hhome e (List.mem_append_left _ hb)
  · exact hhome e (List.mem_append_right _ (List.mem_cons_of_mem _ ha))

/-- An entry of a homed table is found where its hash points. -/
theorem Homed.mem_bucket {hash : K → UInt64} (homed : table.Homed hash) {e : K × V}
    (he : e ∈ table.entries) : e ∈ table.bucket ((hash e.1).toNat % table.size) := by
  obtain ⟨slot, hslot⟩ := mem_entries.1 he
  rw [homed slot e hslot]
  exact hslot

section Distribute

theorem size_vacant (buckets : Nat) : (vacant buckets : Table K V).size = buckets := by
  simp [vacant]

theorem bucket_vacant (buckets slot : Nat) : (vacant buckets : Table K V).bucket slot = [] := by
  by_cases h : slot < buckets
  · rw [bucket_eq_getElem (by simpa [vacant] using h)]
    simp [vacant]
  · exact bucket_of_size_le (by simpa [vacant] using h)

theorem entries_vacant (buckets : Nat) : (vacant buckets : Table K V).entries = [] := by
  simp [entries, vacant]

theorem vacant_homed (hash : K → UInt64) (buckets : Nat) :
    (vacant buckets : Table K V).Homed hash := by
  intro slot e he
  rw [bucket_vacant] at he
  simp at he

/-- Appending placed entries one after another, from any table. -/
theorem foldl_append (table : Table K V) (placed : List (Nat × K × V))
    (h : ∀ p ∈ placed, p.1 < table.size) :
    let result := placed.foldl (fun table (slot, entry) => table.append slot entry) table
    result.size = table.size ∧ result.entries.Perm (table.entries ++ placed.map Prod.snd) ∧
      ∀ i, result.bucket i = table.bucket i ++ (placed.filter (·.1 = i)).map Prod.snd := by
  induction placed generalizing table with
  | nil => simp
  | cons p placed ih =>
    obtain ⟨slot, e⟩ := p
    have hslot : slot < table.size := h (slot, e) List.mem_cons_self
    have hrest : ∀ p ∈ placed, p.1 < (table.append slot e).size := by
      intro p hp
      rw [size_append]
      exact h p (List.mem_cons_of_mem _ hp)
    obtain ⟨hsize, hperm, hbucket⟩ := ih _ hrest
    refine ⟨by rw [List.foldl_cons, hsize, size_append], ?_, fun i => ?_⟩
    · rw [List.foldl_cons]
      refine hperm.trans ?_
      refine ((entries_append_perm e hslot).append_right _).trans ?_
      simp
    · rw [List.foldl_cons, hbucket i, bucket_append e i hslot]
      by_cases hi : i = slot
      · subst hi
        simp
      · rw [if_neg hi, List.filter_cons_of_neg (by simpa using Ne.symm hi)]

variable {buckets : Nat} {placed : List (Nat × K × V)}

theorem size_distribute (h : ∀ p ∈ placed, p.1 < buckets) :
    (distribute buckets placed).size = buckets := by
  have hfold := foldl_append (vacant buckets) placed (by simpa [vacant] using h)
  rw [distribute, hfold.1]
  simp [vacant]

theorem entries_distribute_perm (h : ∀ p ∈ placed, p.1 < buckets) :
    (distribute buckets placed).entries.Perm (placed.map Prod.snd) := by
  have hfold := foldl_append (vacant buckets) placed (by simpa [vacant] using h)
  rw [entries_vacant, List.nil_append] at hfold
  exact hfold.2.1

/-- A bucket receives the entries placed there, in their order. -/
theorem bucket_distribute (h : ∀ p ∈ placed, p.1 < buckets) (slot : Nat) :
    (distribute buckets placed).bucket slot = (placed.filter (·.1 = slot)).map Prod.snd := by
  have hfold := foldl_append (vacant buckets) placed (by simpa [vacant] using h)
  rw [distribute, hfold.2.2, bucket_vacant, List.nil_append]

end Distribute

/-- The table that a growth installs when the hasher answers by `hash`. -/
def rehomed (hash : K → UInt64) (buckets : Nat) (table : Table K V) : Table K V :=
  distribute buckets (table.entries.map fun e => ((hash e.1).toNat % buckets, e))

section Rehomed
variable {hash : K → UInt64} {buckets : Nat}

theorem placed_lt (hash : K → UInt64) (h : 0 < buckets) (entries : List (K × V)) :
    ∀ p ∈ entries.map fun e => ((hash e.1).toNat % buckets, e), p.1 < buckets := by
  intro p hp
  obtain ⟨e, -, rfl⟩ := List.mem_map.1 hp
  exact Nat.mod_lt _ h

theorem size_rehomed (h : 0 < buckets) : (rehomed hash buckets table).size = buckets :=
  size_distribute (placed_lt hash h table.entries)

theorem entries_rehomed_perm (h : 0 < buckets) :
    (rehomed hash buckets table).entries.Perm table.entries := by
  have hperm := entries_distribute_perm (placed_lt hash h table.entries)
  have hentries : (table.entries.map fun e => ((hash e.1).toNat % buckets, e)).map Prod.snd =
      table.entries := by
    rw [List.map_map]
    exact List.map_id _
  rw [hentries] at hperm
  exact hperm

theorem rehomed_homed (h : 0 < buckets) : (rehomed hash buckets table).Homed hash := by
  intro slot e he
  rw [size_rehomed h]
  rw [rehomed, bucket_distribute (placed_lt hash h table.entries)] at he
  obtain ⟨p, hp, rfl⟩ := List.mem_map.1 he
  obtain ⟨hmem, hslot⟩ := List.mem_filter.1 hp
  obtain ⟨e', -, rfl⟩ := List.mem_map.1 hmem
  simpa using hslot

end Rehomed
end Table
end LockedContainers
