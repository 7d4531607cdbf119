import Mathlib.Data.List.Nodup
import LockedContainers.Proofs.Map.Sequential
import LockedContainers.Proofs.Set.Integer
import LockedContainers.Showcase

/-!
# The final count of the showcase

The stress draws keys from a range with both ends, and the count after it scans
that range without its last key. So a set with that key has one key more than
the count finds.
-/
namespace LockedContainers

/-- Only insertions bring members in. -/
theorem KeySet.forall_mem_of_explains {T ε : Type} {before : T → T → Bool}
    {excused : ε → Prop} {members members' : KeySet T}
    {log : List (SetRequest T × Except ε (SetAnswer T))} {P : T → Prop}
    (h : (object before).Explains excused members log members')
    (added : ∀ key, .add key ∈ log.map Prod.fst → P key) (start : ∀ key ∈ members, P key) :
    ∀ key ∈ members', P key := by
  induction h with
  | nil => exact start
  | @answer members _ request _ log _ _ ih =>
    refine ih (fun key hkey => added key (List.mem_cons_of_mem _ hkey)) ?_
    intro key hkey
    cases request with
    | add new =>
      simp only [object, effect, insert] at hkey
      split at hkey
      · exact start key hkey
      · rcases List.mem_append.1 hkey with hold | hnew
        · exact start key hold
        · rw [List.mem_singleton.1 hnew]
          exact added new (by simp)
    | remove _ => exact start key (List.mem_filter.1 hkey).1
    | _ => exact start key hkey
  | failure _ _ ih => exact ih (fun key hkey => added key (List.mem_cons_of_mem _ hkey)) start

namespace Showcase

/-- The first key of the range that the stress draws from. -/
def firstDrawn (keys : Nat) : Int := Int.tdiv (-keys) 4

/-- The last key of that range. -/
def lastDrawn (keys : Nat) : Int := Int.tdiv (keys * 5) 4

/-- Drawn from the range, both ends included. -/
def Drawn (keys : Nat) (key : Int) : Prop := firstDrawn keys ≤ key ∧ key ≤ lastDrawn keys

/-- The requests of the stress: whatever is inserted has been drawn. -/
def Stress (keys : Nat) (workload : List (SetRequest Int)) : Prop :=
  ∀ key, .add key ∈ workload → Drawn keys key

/-- The set after the bulk insert in this order and what the stress asks for then. -/
def stressed (order : List Int) (workload : List (SetRequest Int)) : Shared (CoupledSet Int) Unit :=
  (serve (SetRequest.perform (.integer : SetCallbacks Int (MapFailure MemoryFault) Unit))
    (order.map .add ++ workload) ⟨LockedSet.empty, ()⟩).2

theorem firstDrawn_eq (keys : Nat) : firstDrawn keys = -(keys / 4 : Nat) := by
  rw [firstDrawn, Int.neg_tdiv]
  rfl

theorem lastDrawn_eq (keys : Nat) : lastDrawn keys = (keys * 5 / 4 : Nat) := rfl

theorem drawn_of_mem_ascending {keys : Nat} {key : Int} (h : key ∈ ascending keys) :
    Drawn keys key := by
  obtain ⟨i, hi, rfl⟩ := List.mem_map.1 h
  rw [List.mem_range] at hi
  simp only [Drawn, firstDrawn_eq, lastDrawn_eq]
  omega

theorem mem_scanRange {keys : Nat} {key : Int} :
    key ∈ scanRange keys ↔ firstDrawn keys ≤ key ∧ key < lastDrawn keys := by
  simp only [scanRange, List.mem_map, List.mem_range, firstDrawn, lastDrawn]
  constructor
  · rintro ⟨i, hi, rfl⟩
    omega
  · intro h
    exact ⟨(key - Int.tdiv (-keys) 4).toNat, by omega, by omega⟩

theorem nodup_scanRange (keys : Nat) : (scanRange keys).Nodup :=
  List.nodup_range.map fun a b h => by omega

/-- Of drawn keys the scan visits all but the last. -/
theorem countP_scanRange {keys : Nat} {members : List Int} (distinct : members.Nodup)
    (drawn : ∀ key ∈ members, Drawn keys key) :
    (scanRange keys).countP (· ∈ members) = (members.erase (lastDrawn keys)).length := by
  have hsame : ((scanRange keys).filter (· ∈ members)).Perm (members.erase (lastDrawn keys)) := by
    rw [List.perm_ext_iff_of_nodup ((nodup_scanRange keys).filter _) (distinct.erase _)]
    intro key
    rw [List.mem_filter, decide_eq_true_eq, mem_scanRange, distinct.mem_erase_iff]
    constructor
    · rintro ⟨⟨-, hlast⟩, hmem⟩
      exact ⟨Int.ne_of_lt hlast, hmem⟩
    · rintro ⟨hne, hmem⟩
      obtain ⟨hfirst, hlast⟩ := drawn key hmem
      exact ⟨⟨hfirst, Int.lt_iff_le_and_ne.2 ⟨hlast, hne⟩⟩, hmem⟩
  rw [List.countP_eq_length_filter, hsame.length_eq]

theorem isOrdered_set : LockedSet.IsOrdered
    (.integer : SetCallbacks Int (MapFailure MemoryFault) Unit) intBefore
    (CoupledSet.Stores intBefore) :=
  CoupledSet.isOrdered SetCallbacks.integer_follows

section Stage
variable {stage : Stage} {members : KeySet Int}
  (h : stage.set.container.Stores intBefore members)
include h

theorem contains_eq (key : Int) :
    onSet (CoupledSet.contains .integer key) stage = .ok (decide (key ∈ members)) stage := by
  obtain ⟨b, set', _, hrun, rfl, rfl⟩ :=
    (SetCallbacks.ends_integer (isOrdered_set.contains _ _ key h)).answers stage.set.outside
  rw [KeySet.has_intBefore] at hrun
  exact onPart_ok _ _ hrun

theorem size_eq : onSet CoupledSet.size stage = .ok members.length stage := by
  obtain ⟨n, set', _, hrun, rfl, rfl⟩ :=
    (SetCallbacks.ends_integer (isOrdered_set.size _ _ h)).answers stage.set.outside
  exact onPart_ok _ _ hrun

theorem survivors_eq (keys : Nat) :
    survivors keys stage = .ok ((scanRange keys).countP (· ∈ members)) stage := by
  have hscan (scan : List Int) (n : Nat) :
      (scan.foldlM (fun n key => do
        return if ← onSet (CoupledSet.contains .integer key) then n + 1 else n) n : Act Nat) stage =
        .ok (n + scan.countP (· ∈ members)) stage := by
    induction scan generalizing n with
    | nil => rfl
    | cons key rest ih =>
      rw [List.foldlM_cons, List.countP_cons]
      simp only [Bind.bind, EStateM.bind, contains_eq h]
      by_cases hkey : key ∈ members
      · rw [decide_eq_true hkey, if_pos rfl]
        refine (ih (n + 1)).trans ?_
        rw [if_pos rfl, Nat.add_assoc, Nat.add_comm 1]
      · rw [decide_eq_false hkey, if_neg Bool.false_ne_true]
        refine (ih n).trans ?_
        rw [if_neg Bool.false_ne_true, Nat.add_zero]
  rw [survivors, hscan, Nat.zero_add]

end Stage

/-- What is in the set after the stress has been inserted at first or drawn. -/
theorem drawn_of_stressed {keys : Nat} {order : List Int} {workload : List (SetRequest Int)}
    (bulk : order.Perm (ascending keys)) (stress : Stress keys workload) :
    ∃ members : KeySet Int, (stressed order workload).container.Stores intBefore members ∧
      ∀ key ∈ members, Drawn keys key := by
  have vacant : (LockedSet.empty : CoupledSet Int).Stores intBefore [] := KeySet.stored_nil _
  obtain ⟨members, hlog, hset⟩ := serve_explained (KeySet.object intBefore)
    (fun _ _ request h => isOrdered_set.ends_perform h request) vacant ()
    (order.map .add ++ workload)
  refine ⟨members, hset, KeySet.forall_mem_of_explains hlog ?_ nofun⟩
  intro key hkey
  rw [serve_requests] at hkey
  rcases List.mem_append.1 hkey with hbulk | hstress
  · obtain ⟨_, hmem, heq⟩ := List.mem_map.1 hbulk
    obtain rfl := SetRequest.add.inj heq
    exact drawn_of_mem_ascending (bulk.mem_iff.1 hmem)
  · exact stress key hstress

/-- Whatever the stress does to the set after the bulk insert, in whichever order that was, the scan
misses the last key that may be drawn and no other: the count falls short of the size by one just
when that key is in the set. -/
theorem survivors_miss_last_key {keys : Nat} {order : List Int} {workload : List (SetRequest Int)}
    (bulk : order.Perm (ascending keys)) (stress : Stress keys workload) {stage : Stage}
    (reached : stage.set = stressed order workload) :
    ∃ found size, survivors keys stage = .ok found stage ∧
      onSet CoupledSet.size stage = .ok size stage ∧
      size = found + if lastDrawn keys ∈ stage.set.container.keys then 1 else 0 := by
  obtain ⟨members, hset, drawn⟩ := drawn_of_stressed bulk stress
  rw [← reached] at hset
  have distinct : members.Nodup := hset.members.nodup_iff.1
    (hset.ascending.imp fun hab => Int.ne_of_lt (of_decide_eq_true hab))
  refine ⟨_, _, survivors_eq hset keys, size_eq hset, ?_⟩
  rw [countP_scanRange distinct drawn]
  by_cases hlast : lastDrawn keys ∈ members
  · rw [if_pos (hset.members.mem_iff.2 hlast), List.length_erase_add_one hlast]
  · rw [if_neg (mt hset.members.mem_iff.1 hlast), List.erase_of_not_mem hlast, Nat.add_zero]

/-- A stage with this set and a new map. -/
def stageWith (set : Shared (CoupledSet Int) Unit) : Stage where
  set
  map := ⟨LockedMap.ofTwo, ()⟩

theorem set_stageWith (set : Shared (CoupledSet Int) Unit) : (stageWith set).set = set := rfl

/-- From four keys the keys from -1 to 5 are drawn. The first and the last are inserted. -/
theorem survivors_miss_last_key_drawn :
    ∃ stage found, stage.set = stressed (ascending 4) [.remove 2, .add (-1), .add 5] ∧
      survivors 4 stage = .ok found stage ∧
      onSet CoupledSet.size stage = .ok (found + 1) stage := by
  have hstress : Stress 4 [.remove 2, .add (-1), .add 5] := by
    simp [Stress, Drawn, firstDrawn, lastDrawn]
  have hlast : lastDrawn 4 ∈
      (stressed (ascending 4) [.remove 2, .add (-1), .add 5]).container.keys := by decide +kernel
  obtain ⟨found, size, hfound, hsize, hmissed⟩ :=
    survivors_miss_last_key (.refl (ascending 4)) hstress (set_stageWith _)
  rw [set_stageWith, if_pos hlast] at hmissed
  exact ⟨_, found, set_stageWith _, hfound, hmissed ▸ hsize⟩

/-- Of the keys from 0 to 3 and 5 the scan finds all but the last. -/
theorem survivors_raise_false_alarm :
    let stage := stageWith (stressed (ascending 4) [.add 5])
    Stress 4 [.add 5] ∧ survivors 4 stage = .ok 4 stage ∧
      onSet CoupledSet.size stage = .ok 5 stage :=
  ⟨by simp [Stress, Drawn, firstDrawn, lastDrawn], rfl, rfl⟩

end Showcase
end LockedContainers
