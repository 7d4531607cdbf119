import Mathlib.Data.List.Nodup
import LockedContainers.Proofs.Map.Coverage
import LockedContainers.Proofs.Map.Integer
import LockedContainers.Proofs.Race
import LockedContainers.Proofs.Showcase.Survivors

/-!
# The writers of the showcase

The slices of the writers are a partition of the indices, although the last of
them may start behind the end. So every key is inserted once, in whichever order
the writers come to their operations, and the verification finds all keys.
-/
namespace LockedContainers.Showcase

/-- An operation of a writer. -/
inductive Insertion
  | add (key : Int)
  | put (key : Int)
deriving DecidableEq, Repr

namespace Insertion

def perform : Insertion → Act Unit
  | add key => do let _ ← onSet (CoupledSet.add .integer key)
  | put key => do let _ ← onMap (StripedMap.put .integer key key)

def added? : Insertion → Option Int
  | add key => some key
  | put _ => none

/-- The entry that is put into the map. -/
def entry? : Insertion → Option (Int × Int)
  | add _ => none
  | put key => some (key, key)

end Insertion

/-- All keys of a writer, each first for the set and then for the map. -/
def program (order : List Int) (writer : Nat) : List Insertion :=
  (share order writer).flatMap fun key => [.add key, .put key]

def programs (order : List Int) : List (List Insertion) :=
  (List.range writers).map (program order)

/-- The indices that the loop of a writer runs through. -/
def visits (keys writer : Nat) : List Nat :=
  let (first, last) := slice keys writer
  List.range' first (last - first)

/-! ## The slices -/

/-- The work for so many keys is split among the writers without gap or overlap. -/
structure Partition (keys : Nat) : Prop where
  once : ∀ i < keys, ∃! writer, writer < writers ∧ i ∈ visits keys writer
  whole : (List.range writers).flatMap (visits keys) = List.range keys
  /-- A slice may start behind the end. -/
  idle : ∀ writer, keys ≤ (slice keys writer).1 → visits keys writer = []
  share : ∀ order : List Int, order.length = keys → ∀ writer,
    (share order writer).map some = (visits keys writer).map (order[·]?)

/-- The number of keys for one writer, rounded up. -/
def width (keys : Nat) : Nat := (keys + writers - 1) / writers

section Slices
variable {keys writer i : Nat}

theorem slice_eq (keys writer : Nat) :
    slice keys writer = (writer * width keys, min (writer * width keys + width keys) keys) := rfl

theorem visits_eq (keys writer : Nat) :
    visits keys writer = List.range' (writer * width keys)
      (min (writer * width keys + width keys) keys - writer * width keys) := rfl

/-- Rounded up the width is enough. -/
theorem le_mul_width (keys : Nat) : keys ≤ writers * width keys := by
  rw [width, writers]
  omega

theorem mem_visits :
    i ∈ visits keys writer ↔ i < keys ∧ writer * width keys ≤ i ∧
      i < writer * width keys + width keys := by
  rw [visits_eq, List.mem_range'_1]
  omega

/-- The writer of an index is known by division. -/
theorem mem_visits_iff_div (h : i < keys) : i ∈ visits keys writer ↔ i / width keys = writer := by
  have hpos : 0 < width keys := by
    rw [width, writers]
    omega
  rw [mem_visits, Nat.div_eq_iff hpos]
  have hlast : writer * width keys + width keys - 1 < writer * width keys + width keys := by omega
  constructor <;> omega

/-- The slices up to here cover the indices up to here without a gap. -/
theorem flatMap_visits (keys n : Nat) :
    (List.range n).flatMap (visits keys) = List.range (min (n * width keys) keys) := by
  induction n with
  | zero => simp
  | succ n ih =>
    rw [List.range_succ, List.flatMap_append, ih, List.flatMap_singleton, visits_eq, Nat.succ_mul]
    rcases Nat.le_total (n * width keys) keys with hin | hout
    · rw [Nat.min_eq_left hin, List.range_eq_range', List.range_eq_range']
      have happend : List.range' 0 (n * width keys) ++ List.range' (0 + n * width keys)
          (min (n * width keys + width keys) keys - n * width keys) = _ := List.range'_append_1
      rw [Nat.zero_add] at happend
      rw [happend]
      congr 1
      omega
    -- this slice and all after it start behind the end
    · rw [Nat.min_eq_right hout, Nat.min_eq_right (Nat.le_trans hout (Nat.le_add_right ..)),
        Nat.sub_eq_zero_of_le hout]
      exact List.append_nil _

theorem map_share (order : List Int) (writer : Nat) :
    (share order writer).map some = (visits order.length writer).map (order[·]?) := by
  have hlast : (slice order.length writer).2 ≤ order.length := Nat.min_le_right ..
  rw [share, visits]
  generalize slice order.length writer = bounds at hlast ⊢
  obtain ⟨first, last⟩ := bounds
  apply List.ext_getElem
  · simp only [List.length_map, List.length_take, List.length_drop, List.length_range']
    omega
  · intro j hj _
    simp only [List.length_map, List.length_take, List.length_drop] at hj
    simp only [List.getElem_map, List.getElem_take, List.getElem_drop, List.getElem_range',
      Nat.one_mul]
    rw [List.getElem?_eq_getElem]

end Slices

theorem partition (keys : Nat) : Partition keys where
  once i hi := by
    refine ⟨i / width keys, ⟨?_, (mem_visits_iff_div hi).2 rfl⟩, fun writer h => ?_⟩
    · exact Nat.div_lt_of_lt_mul (Nat.mul_comm .. ▸ Nat.lt_of_lt_of_le hi (le_mul_width keys))
    · exact ((mem_visits_iff_div hi).1 h.2).symm
  whole := by rw [flatMap_visits, Nat.min_eq_right (le_mul_width keys)]
  idle writer h := by
    rw [slice_eq] at h
    rw [visits_eq, Nat.sub_eq_zero_of_le (Nat.le_trans (Nat.min_le_right ..) h), List.range'_zero]
  share order h writer := by
    subst h
    exact map_share order writer

/-- Together the writers have every key once, in the given order. -/
theorem flatMap_share (order : List Int) : (List.range writers).flatMap (share order) = order := by
  have hsome : ((List.range writers).flatMap (share order)).map some = order.map some := by
    rw [List.map_flatMap]
    simp only [map_share]
    rw [← List.map_flatMap, (partition order.length).whole]
    apply List.ext_getElem
    · simp
    · simp
  exact List.map_injective_iff.2 (Option.some_injective Int) hsome

theorem filterMap_flatten_programs {α : Type} (order : List Int) (f : Insertion → Option α) :
    (programs order).flatten.filterMap f =
      order.flatMap fun key => [Insertion.add key, .put key].filterMap f := by
  conv_rhs => rw [← flatMap_share order]
  rw [programs, ← List.flatMap_def, List.filterMap_flatMap, List.flatMap_assoc]
  simp only [program, List.filterMap_flatMap]

/-! ## The operations -/

/-- So many keys fit in a table that can still be doubled. -/
def fitting : Nat := 3 * 2 ^ 39

theorem positive_rounded : options.rounded.Positive :=
  MapOptions.positive_of_check (by decide +kernel)

theorem exceeds_fitting {keys : Nat} (h : keys ≤ fitting) :
    options.rounded.exceeds keys Table.doublable = false :=
  MapOptions.exceeds_mono positive_rounded h (Nat.le_refl _) (by decide +kernel)

/-- Only memory can refuse an insertion, and not one of so few keys. -/
def Refused (keys : Nat) (f : MapFailure MemoryFault) : Prop :=
  fitting < keys ∧ ∃ fault, f = .callback fault

/-- Set and map have what was inserted so far, and with what is left they will have all keys. -/
structure Underway (order : List Int) (left : List Insertion) (members : KeySet Int)
    (dict : Dictionary Int Int) (stage : Stage) : Prop where
  set : stage.set.container.Stores intBefore members
  map : stage.map.container.Stores UInt64.ofInt (fun a b => decide (a = b)) dict
  options : stage.map.container.options = options.rounded
  added : (members ++ left.filterMap Insertion.added?).Perm order
  stored : (dict ++ left.filterMap Insertion.entry?).Perm (order.map fun key => (key, key))

namespace Underway

variable {order : List Int} {left left' : List Insertion} {members : KeySet Int}
  {dict : Dictionary Int Int} {stage : Stage} {key : Int}

theorem perm (h : Underway order left members dict stage) (same : left.Perm left') :
    Underway order left' members dict stage :=
  { h with
    added := ((same.filterMap _).append_left members).symm.trans h.added
    stored := ((same.filterMap _).append_left dict).symm.trans h.stored }

/-- What is left to be added is not in the set. -/
theorem not_mem (h : Underway order (.add key :: left) members dict stage)
    (distinct : order.Nodup) : key ∉ members := by
  have hnodup := h.added.nodup_iff.2 distinct
  rw [List.filterMap_cons_some (rfl : Insertion.added? (.add key) = some key)] at hnodup
  exact fun hmem => (List.nodup_append.1 hnodup).2.2 key hmem key List.mem_cons_self rfl

theorem add (h : Underway order (.add key :: left) members dict stage) (distinct : order.Nodup) :
    TurnsOut stage (Insertion.add key).perform
      (fun _ stage' => ∃ members', Underway order left members' dict stage') fun _ _ => False := by
  have hinsert : KeySet.insert intBefore members key = members ++ [key] := by
    rw [KeySet.insert, KeySet.has_intBefore, decide_eq_false (h.not_mem distinct),
      if_neg Bool.false_ne_true]
  refine .bind ?_ fun _ _ h' => .pure h'
  apply TurnsOut.onPart (SetCallbacks.ends_integer (isOrdered_set.add _ _ key h.set)) _
    fun _ _ hf => hf
  rintro _ set' ⟨-, hset⟩
  rw [hinsert] at hset
  refine ⟨members ++ [key], { h with set := hset, added := ?_ }⟩
  rw [List.append_assoc]
  exact h.added

/-- What is left to be put has no entry yet, and there are fewer entries than keys. -/
theorem vacant (h : Underway order (.put key :: left) members dict stage)
    (distinct : order.Nodup) :
    (∀ e ∈ dict, decide (e.1 = key) = false) ∧ dict.length < order.length := by
  have hstored := h.stored
  rw [List.filterMap_cons_some (rfl : Insertion.entry? (.put key) = some (key, key))] at hstored
  constructor
  · intro e he
    have hkeys : ((dict ++ (key, key) :: left.filterMap Insertion.entry?).map Prod.fst).Perm
        order := by
      refine (hstored.map Prod.fst).trans ?_
      rw [List.map_map]
      exact .of_eq (List.map_id _)
    have hnodup := hkeys.nodup_iff.2 distinct
    rw [List.map_append, List.map_cons] at hnodup
    exact decide_eq_false
      ((List.nodup_append.1 hnodup).2.2 e.1 (List.mem_map_of_mem he) key List.mem_cons_self)
  · have hlength := hstored.length_eq
    rw [List.length_append, List.length_cons, List.length_map] at hlength
    omega

/-- An insertion answers with a map of the same options, unless memory is refused. -/
theorem ends_put (h : Underway order (.put key :: left) members dict stage)
    (distinct : order.Nodup) :
    Ends stage.map.container
      (StripedMap.put (.integer : MapCallbacks Int Int MemoryFault Unit) key key)
      (fun _ map' => map'.Stores UInt64.ofInt (fun a b => decide (a = b)) (dict ++ [(key, key)]) ∧
        map'.options = Showcase.options.rounded)
      fun f _ => Refused order.length f := by
  obtain ⟨hvacant, hfewer⟩ := h.vacant distinct
  have hoptions := LockedMap.ends_put_any (.integer : MapCallbacks Int Int MemoryFault Unit)
    stage.map.container key key
  have hput : Ends stage.map.container
      (StripedMap.put (.integer : MapCallbacks Int Int MemoryFault Unit) key key)
      (fun _ map' => map'.Stores UInt64.ofInt (fun a b => decide (a = b)) (dict ++ [(key, key)]))
      fun f _ => Refused order.length f := by
    have happend : Dictionary.put (fun a b => decide (a = b)) dict key key = dict ++ [(key, key)] :=
      Dictionary.put_eq_append hvacant
    rw [← happend]
    -- beyond that only the answers are known, and that memory is all that can fail
    by_cases hfits : order.length ≤ fitting
    · have room := MapOptions.exceeds_mono positive_rounded hfewer (Nat.le_refl _)
        (exceeds_fitting hfits)
      rw [← h.options] at room
      have few : dict.length ≤ Table.doublable :=
        Nat.le_trans (Nat.le_of_lt hfewer) (Nat.le_trans hfits (by decide))
      exact (LockedMap.ends_put_integer h.map (h.options ▸ positive_rounded) room few key key).mono
        (fun _ _ hv => hv.2) fun _ _ hf => hf.elim
    · exact (LockedMap.ends_put integer_lawful MapCallbacks.integer_follows h.map key key).mono
        (fun _ _ hv => hv.2)
        fun _ _ hf => ⟨Nat.not_le.1 hfits, MapCallbacks.callback_of_excuses hf.1⟩
  apply (hput.and hoptions).mono
  · rintro v map' ⟨hstores, n, grown, hgrown, hplaced⟩
    exact ⟨hstores, (hgrown.widened.trans hplaced.widened).options.trans h.options⟩
  · exact fun _ _ hf => hf.1

theorem put (h : Underway order (.put key :: left) members dict stage) (distinct : order.Nodup) :
    TurnsOut stage (Insertion.put key).perform
      (fun _ stage' => ∃ dict', Underway order left members dict' stage')
      fun f _ => Refused order.length f := by
  refine .bind ?_ fun _ _ h' => .pure h'
  apply TurnsOut.onPart (h.ends_put distinct) _ fun _ _ hf => hf
  rintro _ map' ⟨hmap, hoptions⟩
  refine ⟨dict ++ [(key, key)], { h with map := hmap, options := hoptions, stored := ?_ }⟩
  rw [List.append_assoc]
  exact h.stored

end Underway

/-- Whichever operation comes next, set and map stay on the way to all keys. -/
theorem upheld_underway {order : List Int} (distinct : order.Nodup) :
    Race.Upheld Insertion.perform
      (fun left stage => ∃ members dict, Underway order left members dict stage)
      fun f _ => Refused order.length f where
  perm left left' stage same := by
    rintro ⟨members, dict, h⟩
    exact ⟨members, dict, h.perm same⟩
  perform insertion rest stage := by
    rintro ⟨members, dict, h⟩
    cases insertion with
    | add key =>
      apply (h.add distinct).mono _ fun _ _ hf => hf.elim
      rintro _ stage' ⟨members', h'⟩
      exact ⟨members', dict, h'⟩
    | put key =>
      apply (h.put distinct).mono _ fun _ _ hf => hf
      rintro _ stage' ⟨dict', h'⟩
      exact ⟨members, dict', h'⟩

/-! ## The verification -/

/-- Set and map have the keys from zero on and no other, and the verification says so. -/
structure Complete (keys : Nat) (order : List Int) (stage : Stage) : Prop where
  setSize : onSet CoupledSet.size stage = .ok keys stage
  mapSize : onMap LockedMap.size stage = .ok keys stage
  inSet : ∀ key ∈ ascending keys,
    onSet (CoupledSet.contains .integer key) stage = .ok true stage
  inMap : ∀ key ∈ ascending keys,
    onMap (LockedMap.get .integer key) stage = .ok (some key) stage
  verified : allPresent order stage = .ok true stage

theorem foldlM_verifyKey {stage : Stage} {order : List Int}
    (inSet : ∀ key ∈ order, onSet (CoupledSet.contains .integer key) stage = .ok true stage)
    (inMap : ∀ key ∈ order, onMap (LockedMap.get .integer key) stage = .ok (some key) stage) :
    (order.foldlM verifyKey true : Act Bool) stage = .ok true stage := by
  induction order with
  | nil => rfl
  | cons key rest ih =>
    obtain ⟨hset, hsets⟩ := List.forall_mem_cons.1 inSet
    obtain ⟨hmap, hmaps⟩ := List.forall_mem_cons.1 inMap
    have hone : verifyKey true key stage = .ok true stage := by
      rw [verifyKey, bind_of_ok _ hmap, if_pos rfl, bind_of_ok _ hset, decide_eq_true rfl]
      rfl
    rw [List.foldlM_cons, bind_of_ok _ hone]
    exact ih hsets hmaps

section Complete
variable {keys : Nat} {order : List Int} (bulk : order.Perm (ascending keys))
include bulk

theorem length_order : order.length = keys := by
  rw [bulk.length_eq, ascending, List.length_map, List.length_range]

theorem nodup_order : order.Nodup :=
  bulk.nodup_iff.2 (List.nodup_range.map fun _ _ h => Int.ofNat.inj h)

/-- When nothing is left to be inserted. -/
theorem Underway.complete {members : KeySet Int} {dict : Dictionary Int Int} {stage : Stage}
    (h : Underway order [] members dict stage) : Complete keys order stage := by
  have hadded : List.Perm members order := by simpa using h.added
  have hstored : dict.Perm (order.map fun key => (key, key)) := by simpa using h.stored
  have setSize : onSet CoupledSet.size stage = .ok keys stage := by
    rw [size_eq h.set, hadded.length_eq, length_order bulk]
  have mapSize : onMap LockedMap.size stage = .ok keys stage := by
    have hcount : stage.map.container.count = keys := by
      rw [h.map.counted, hstored.length_eq, List.length_map, length_order bulk]
    rw [← hcount]
    rfl
  have inSet : ∀ key ∈ order, onSet (CoupledSet.contains .integer key) stage = .ok true stage := by
    intro key hkey
    rw [contains_eq h.set, decide_eq_true (hadded.mem_iff.2 hkey)]
  have inMap : ∀ key ∈ order,
      onMap (LockedMap.get .integer key) stage = .ok (some key) stage := by
    intro key hkey
    have hentry : (key, key) ∈ dict := hstored.mem_iff.2 (List.mem_map.2 ⟨key, hkey, rfl⟩)
    obtain ⟨v, map', _, hrun, rfl, rfl⟩ :=
      (LockedMap.ends_get_integer h.map key).answers stage.map.outside
    rw [Dictionary.get?_eq_some integer_lawful h.map.distinct hentry (by simp)] at hrun
    exact onPart_ok _ _ hrun
  refine ⟨setSize, mapSize, fun key hkey => inSet key (bulk.mem_iff.2 hkey),
    fun key hkey => inMap key (bulk.mem_iff.2 hkey), ?_⟩
  rw [allPresent, bind_of_ok _ setSize, bind_of_ok _ mapSize, length_order bulk, decide_eq_true rfl]
  exact foldlM_verifyKey inSet inMap

end Complete

/-! ## Every interleaving -/

/-- The stage with a new set and this map. -/
def opening (map : StripedMap Int Int) : Stage where
  map := ⟨map, ()⟩

/-- The writers run through their programs. -/
def bulkInsertion (order : List Int) (schedule : List Nat) : Act (Race Insertion Unit) :=
  Race.run Insertion.perform (Race.assemble (programs order)) schedule

theorem forM_flatMap_insertKey (keys : List Int) :
    forM keys insertKey =
      forM (keys.flatMap fun key => [Insertion.add key, .put key]) Insertion.perform := by
  induction keys with
  | nil => rfl
  | cons key rest ih =>
    rw [List.forM_cons, ih, List.flatMap_cons, List.forM_append]
    simp [insertKey, Insertion.perform]

/-- The bulk insertion of the showcase is the one in which the writers take turns only when one has
come to its end. -/
theorem insertAll_eq (order : List Int) :
    insertAll order = (fun _ => ()) <$> bulkInsertion order (Race.inTurn (programs order)) := by
  rw [bulkInsertion, Race.discard_run_inTurn, programs, ← List.flatMap_def]
  refine (forM_flatMap_insertKey _).trans ?_
  rw [List.flatMap_assoc]
  rfl

/-- Nothing has been inserted yet. -/
theorem underway_opening {order : List Int} {map : StripedMap Int Int}
    (made : StripedMap.make .integer options () = .ok map ()) :
    Underway order (programs order).flatten [] [] (opening map) := by
  have hmade := StripedMap.yields_make_vacant (.integer : MapCallbacks Int Int MemoryFault Unit)
    options ()
  rw [made] at hmade
  obtain ⟨-, -, -, hmap⟩ := hmade
  have roomy : 0 < map.table.size := by
    rw [hmap]
    decide +kernel
  exact {
    set := KeySet.stored_nil _
    map := LockedMap.stores_made (l := .striped) made roomy
    options := by
      rw [opening, hmap]
    added := by
      rw [filterMap_flatten_programs, List.nil_append]
      exact .of_eq (List.flatMap_singleton' order)
    stored := by
      rw [filterMap_flatten_programs, List.nil_append]
      exact .of_eq (List.map_eq_flatMap ..).symm }

/-- Where a schedule has led to. -/
structure Proceeds (keys : Nat) (order : List Int) (race : Race Insertion Unit) (stage : Stage) :
    Prop where
  finished : race.IsOver → Complete keys order stage
  /-- The writers do not get stuck. -/
  onward : ∃ more, TurnsOut stage (Race.run Insertion.perform race more)
    (fun race' stage' => race'.IsOver ∧ Complete keys order stage') fun f _ => Refused keys f

section Interleavings
variable {keys : Nat} {order : List Int} (bulk : order.Perm (ascending keys))
  {map : StripedMap Int Int} (made : StripedMap.make .integer options () = .ok map ())
include bulk made

theorem turnsOut_bulkInsertion (schedule : List Nat) :
    TurnsOut (opening map) (bulkInsertion order schedule) (Proceeds keys order)
      fun f _ => Refused keys f := by
  have upheld := upheld_underway (nodup_order bulk)
  rw [length_order bulk] at upheld
  have hstart : ∃ members dict, Underway order
      (Race.assemble (programs order) : Race Insertion Unit).pending members dict
      (opening map) := by
    rw [Race.pending_assemble]
    exact ⟨[], [], underway_opening made⟩
  apply (upheld.run hstart schedule).mono _ fun _ _ hf => hf
  rintro race stage ⟨h, hlatch⟩
  have opened : race.latch.isOpen = true := by rw [hlatch, Race.isOpen_assemble]
  obtain ⟨more, hmore⟩ := upheld.exists_schedule h opened
  refine ⟨fun hover => ?_, more, hmore.mono ?_ fun _ _ hf => hf⟩
  · rw [Race.isOver_iff.1 hover] at h
    obtain ⟨members, dict, h⟩ := h
    exact h.complete bulk
  · rintro race' stage' ⟨hover, members, dict, h'⟩
    exact ⟨hover, h'.complete bulk⟩

theorem turnsOut_insertAll :
    TurnsOut (opening map) (insertAll order) (fun _ stage => Complete keys order stage)
      fun f _ => Refused keys f := by
  have hturns := turnsOut_bulkInsertion bulk made (Race.inTurn (programs order))
  rw [insertAll_eq]
  apply TurnsOut.map
  exact ⟨fun race stage hrun => (hturns.ok race stage hrun).finished (Race.isOver_inTurn hrun),
    hturns.error⟩

end Interleavings

/-- The indices are shared out without gap or overlap. So the writers insert all keys and no other,
in whichever order the keys are and whichever writer comes next, and the verification finds them.
Only memory for more than three quarters of 2⁴¹ keys can be refused. -/
theorem writers_insert_every_key {keys : Nat} {order : List Int}
    (bulk : order.Perm (ascending keys)) {map : StripedMap Int Int}
    (made : StripedMap.make .integer options () = .ok map ()) :
    Partition keys ∧
      (∀ schedule, TurnsOut (opening map) (bulkInsertion order schedule) (Proceeds keys order)
        fun f _ => Refused keys f) ∧
      TurnsOut (opening map) (insertAll order) (fun _ stage => Complete keys order stage)
        fun f _ => Refused keys f :=
  ⟨partition keys, turnsOut_bulkInsertion bulk made, turnsOut_insertAll bulk made⟩

/-- The map of the showcase before the first insertion. -/
def newMap : StripedMap Int Int where
  options := options
  table := Table.vacant 16

theorem make_newMap : StripedMap.make .integer options () = .ok newMap () := by
  have hcheck : options.check = .ok () := by decide +kernel
  rw [StripedMap.make, MapOptions.require, hcheck]
  rfl

/-- A schedule in which the last of the writers takes precedence. -/
def backwards : List Nat := (List.range 6).flatMap fun _ => [7, 6, 5, 4, 3, 2, 1, 0]

/-- Twenty keys from the last to the first. One slice starts behind the end, and the table grows. -/
theorem writers_insert_every_key_backwards :
    slice 20 7 = (21, 20) ∧ (ascending 20).reverse.Perm (ascending 20) ∧
      StripedMap.make .integer options () = .ok newMap () ∧
      ∃ race stage,
        bulkInsertion (ascending 20).reverse backwards (opening newMap) = .ok race stage ∧
          race.IsOver ∧ stage.map.container.growths = 1 ∧
            Complete 20 (ascending 20).reverse stage := by
  have bulk : (ascending 20).reverse.Perm (ascending 20) := List.reverse_perm _
  refine ⟨by decide, bulk, make_newMap, ?_⟩
  obtain ⟨-, hall, -⟩ := writers_insert_every_key bulk make_newMap
  have hrace := hall backwards
  have hend : (match bulkInsertion (ascending 20).reverse backwards (opening newMap) with
    | .ok race stage => (race.pending, stage.map.container.growths)
    | .error _ _ => ([], 0)) = ([], 1) := by decide +kernel
  cases hrun : bulkInsertion (ascending 20).reverse backwards (opening newMap) with
  | ok race stage =>
    rw [hrun] at hend
    obtain ⟨hleft, hgrowths⟩ := Prod.mk.inj hend
    have hover : race.IsOver := Race.isOver_iff.2 hleft
    exact ⟨race, stage, rfl, hover, hgrowths, (hrace.ok race stage hrun).finished hover⟩
  | error f stage => exact absurd (hrace.error f stage hrun).1 (by decide)

end LockedContainers.Showcase
