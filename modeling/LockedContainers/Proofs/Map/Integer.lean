import Mathlib.Data.Nat.Find
import LockedContainers.Map.Integer
import LockedContainers.Proofs.Map.Calm
import LockedContainers.Proofs.Map.Load
import LockedContainers.Proofs.Map.Sequential

/-!
# Maps of integers

Integers are hashed by their bits and compared as such, so a dictionary of them
is known by the value that it has for each key. Only the growth of a table can
fail, and not where the threshold has no need of a table that memory cannot hold.
-/
namespace LockedContainers

variable {l : Locking} {V σ : Type}

theorem MapCallbacks.integer_follows :
    (integer : MapCallbacks Int Int MemoryFault σ).Follows UInt64.ofInt
      (fun a b => decide (a = b)) where
  hash _ _ _ _ h := by
    cases h
    rfl
  equal _ _ _ _ _ h := by
    cases h
    rfl
  copy _ _ _ _ h := by
    cases h
    rfl

theorem integer_lawful : LawfulKeys UInt64.ofInt (fun a b => decide (a = b)) where
  refl a := by simp
  symm a b h := by simpa [eq_comm] using h
  trans a b c hab hbc := by
    simp only [decide_eq_true_eq] at *
    exact hab.trans hbc
  hash_eq a b h := by
    rw [of_decide_eq_true h]

theorem Dictionary.get?_put_integer (dict : Dictionary Int Int) (key value : Int) :
    get? (fun a b => decide (a = b)) (put (fun a b => decide (a = b)) dict key value) =
      Function.update (get? (fun a b => decide (a = b)) dict) key (some value) := by
  funext k
  rw [get?_put integer_lawful, Function.update_apply]
  simp [eq_comm]

theorem Dictionary.get?_erase_integer (dict : Dictionary Int Int) (key : Int) :
    get? (fun a b => decide (a = b)) (erase (fun a b => decide (a = b)) dict key) =
      Function.update (get? (fun a b => decide (a = b)) dict) key none := by
  funext k
  rw [get?_erase integer_lawful, Function.update_apply]
  simp [eq_comm]

/-- Integers are hashed and compared without failing, and small blocks are granted. -/
theorem MapCallbacks.integer_calm {bytes : Nat} (small : bytes ≤ 2 ^ 47) :
    (integer : MapCallbacks Int V MemoryFault σ).Calm bytes where
  hash _ _ := trivial
  equal _ _ _ := trivial
  allocate n hn := by
    have hblock : ¬ 1 <<< 63 ≤ n := by
      rw [Nat.one_shiftLeft]
      omega
    have hmemory : ¬ 1 <<< 47 < n := by
      rw [Nat.one_shiftLeft]
      omega
    have hgrant : (allocateBlock n : EStateM MemoryFault σ Unit) = pure () := by
      rw [allocateBlock, if_neg hblock, if_neg hmemory]
    intro o
    simp only [integer, hgrant]
    trivial

/-- A table of so many buckets leaves memory for one of twice the size. -/
def Table.doublable : Nat := 2 ^ 41

theorem Table.bucketBytes_mul_le {buckets : Nat} (h : buckets ≤ doublable) :
    bucketBytes * (buckets * 2) ≤ 2 ^ 47 := by
  rw [doublable] at h
  rw [bucketBytes]
  omega

/-- There is memory for the lists of so many entries. -/
theorem MapCallbacks.integer_listBytes_le {entries : Nat} (h : entries ≤ Table.doublable) :
    (integer : MapCallbacks Int V MemoryFault σ).listBytes entries ≤ 2 ^ 47 := by
  have hbytes : (integer : MapCallbacks Int V MemoryFault σ).listBytes entries =
      8 * max 1 (entries * 2) := rfl
  rw [Table.doublable] at h
  rw [hbytes]
  omega

/-- Doubling reaches so many buckets without passing twice as many, unless there are too many to begin
with. -/
theorem Table.exists_doublings {buckets : Nat} (roomy : 0 < buckets) :
    ∃ i < 64, doublable ≤ buckets * 2 ^ i ∧ (0 < i → buckets * 2 ^ i ≤ doublable * 2) := by
  have hreach : ∃ i, doublable ≤ buckets * 2 ^ i :=
    ⟨41, Nat.le_mul_of_pos_left _ roomy⟩
  have hleast := Nat.find_min' hreach (Nat.le_mul_of_pos_left _ roomy : doublable ≤ buckets * 2 ^ 41)
  refine ⟨Nat.find hreach, by omega, Nat.find_spec hreach, fun hpos => ?_⟩
  obtain ⟨i, hi⟩ := Nat.exists_eq_succ_of_ne_zero (Nat.ne_of_gt hpos)
  have hbefore : ¬ doublable ≤ buckets * 2 ^ i := Nat.find_min hreach (by omega)
  rw [hi, Nat.pow_succ, ← Nat.mul_assoc]
  exact Nat.mul_le_mul_right 2 (Nat.le_of_not_le hbefore)

namespace LockedMap

/-- An insertion does not fail where there are few entries and one more would fit in a table that can
be doubled. -/
theorem ends_put_doublable {map : LockedMap l Int V} (positive : map.options.Positive)
    (roomy : 0 < map.table.size)
    (room : map.options.exceeds (map.count + 1) Table.doublable = false)
    (few : map.table.entries.length ≤ Table.doublable) (key : Int) (value : V) :
    Ends map (put (.integer : MapCallbacks Int V MemoryFault σ) key value) (fun _ _ => True)
      fun _ _ => False := by
  have hroom {buckets : Nat} (h : Table.doublable ≤ buckets) :
      map.options.exceeds (map.count + 1) buckets = false :=
    MapOptions.exceeds_mono positive (Nat.le_refl _) h room
  have calm := MapCallbacks.integer_calm (V := V) (σ := σ) (Nat.le_refl (2 ^ 47))
  have hlists := MapCallbacks.integer_listBytes_le (V := V) (σ := σ) few
  cases l with
  | monitor =>
    refine MonitorMap.ends_put_calm calm roomy ?_ hlists value
    intro full
    apply Table.bucketBytes_mul_le
    by_contra hwide
    rw [isFull, hroom (Nat.le_of_not_le hwide)] at full
    exact Bool.noConfusion full
  | striped =>
    obtain ⟨i, hi, hreach, hsmall⟩ := Table.exists_doublings roomy
    refine StripedMap.ends_put_calm calm value roomy (hroom hreach) ?_ hlists hi
    intro hpos
    have hbytes := Table.bucketBytes_mul_le (Nat.le_refl Table.doublable)
    exact Nat.le_trans (Nat.mul_le_mul_left _ (hsmall hpos)) hbytes

section Stores
variable {map : LockedMap l Int Int} {dict : Dictionary Int Int}
  (h : map.Stores UInt64.ofInt (fun a b => decide (a = b)) dict)
include h

theorem ends_put_integer (positive : map.options.Positive)
    (room : map.options.exceeds (dict.length + 1) Table.doublable = false)
    (few : dict.length ≤ Table.doublable) (key value : Int) :
    Ends map (put (.integer : MapCallbacks Int Int MemoryFault σ) key value)
      (fun v map' => v = Dictionary.get? (fun a b => decide (a = b)) dict key ∧
        map'.Stores UInt64.ofInt (fun a b => decide (a = b))
          (Dictionary.put (fun a b => decide (a = b)) dict key value)) fun _ _ => False := by
  rw [← h.counted] at room
  rw [← h.entries.length_eq] at few
  exact (ends_put integer_lawful MapCallbacks.integer_follows h key value).surely
    (ends_put_doublable positive h.roomy room few key value)

theorem ends_get_integer (key : Int) :
    Ends map (get (.integer : MapCallbacks Int Int MemoryFault σ) key)
      (fun v map' => v = Dictionary.get? (fun a b => decide (a = b)) dict key ∧ map' = map)
      fun _ _ => False :=
  (ends_get integer_lawful MapCallbacks.integer_follows h).surely
    (ends_get_calm (MapCallbacks.integer_calm (Nat.zero_le _)) (fun _ => .pure trivial) h.roomy)

theorem ends_remove_integer (key : Int) :
    Ends map (remove (.integer : MapCallbacks Int Int MemoryFault σ) key)
      (fun v map' => v = Dictionary.get? (fun a b => decide (a = b)) dict key ∧
        map'.Stores UInt64.ofInt (fun a b => decide (a = b))
          (Dictionary.erase (fun a b => decide (a = b)) dict key)) fun _ _ => False :=
  (ends_remove integer_lawful MapCallbacks.integer_follows h).surely
    (ends_remove_calm (MapCallbacks.integer_calm (Nat.zero_le _)) h.roomy)

end Stores

theorem make_integer_ofTwo (o : σ) :
    make .integer l { buckets := 2, stripes := 2 } o = .ok (ofTwo : LockedMap l Int Int) o := by
  have hcheck : ({ buckets := 2, stripes := 2 } : MapOptions).check = .ok () := by decide +kernel
  cases l with
  | monitor =>
    rw [make, MonitorMap.make, MapOptions.require, hcheck]
    rfl
  | striped =>
    rw [make, StripedMap.make, MapOptions.require, hcheck]
    rfl

end LockedMap
end LockedContainers
