import LockedContainers.Proofs.Guarded
import LockedContainers.Proofs.Map.Entries

/-!
# A growth in two passes

The first pass asks for the hash of every key. It notes the slot of each entry
and counts how many each new bucket is to receive. Storage for so many is asked
for before the second pass moves the entries into it, and an index that runs along with it finds the slot
of the next entry in the notes. Together they share the entries out among the
new buckets, each bucket in the order of the old table.
-/
namespace LockedContainers

variable {K V ε σ : Type}

/-- The slots of the entries in their order, and how many entries each slot is to receive. -/
structure Plan where
  slots : Array Nat := #[]
  sizes : Array Nat
deriving DecidableEq, Repr

namespace Plan

def vacant (buckets : Nat) : Plan where
  sizes := Array.replicate buckets 0

def note (plan : Plan) (slot : Nat) : Plan where
  slots := plan.slots.push slot
  sizes := plan.sizes.modify slot (· + 1)

end Plan

/-- A bucket with storage for so many entries. -/
structure Storage (K V : Type) where
  entries : Bucket K V := []
  capacity : Nat
deriving DecidableEq, Repr

/-- Appends an entry where storage is left. -/
def Storage.push? (storage : Storage K V) (entry : K × V) : Option (Storage K V) :=
  if storage.entries.length < storage.capacity then
    some { storage with entries := storage.entries ++ [entry] }
  else none

/-- The second pass under way. -/
structure Transfer (K V : Type) where
  fresh : Array (Storage K V)
  /-- Where the plan has the slot of the next entry. -/
  next : Nat := 0
deriving DecidableEq, Repr

/-- Before the first move, with storage for so many entries in every bucket. -/
def Transfer.reserved (sizes : Array Nat) : Transfer K V where
  fresh := sizes.map fun n => { capacity := n }

/-- Moves the next entry and answers what is left in its place, unless the plan has no slot for it,
there is no such bucket or the bucket has no storage left. -/
def Transfer.move? (husk : K × V → K × V) (slots : Array Nat) (entry : K × V) :
    StateT (Transfer K V) Option (K × V) := fun transfer => do
  let slot ← slots[transfer.next]?
  let storage ← transfer.fresh[slot]?
  let storage ← storage.push? entry
  return (husk entry, ⟨transfer.fresh.setIfInBounds slot storage, transfer.next + 1⟩)

namespace Table

/-- The first pass. -/
def plan (cb : MapCallbacks K V ε σ) (buckets : Nat) (table : Table K V) : EStateM ε σ Plan :=
  table.toList.foldlM (fun plan bucket => bucket.foldlM (fun plan entry => do
    let h ← cb.hash entry.1
    cb.allocate (widerBytes counterBytes plan.slots.size)
    return plan.note (h.toNat % buckets)) plan) (.vacant buckets)

/-- The second pass; answers what it leaves of the table. -/
def transfer (husk : K × V → K × V) (slots : Array Nat) (table : Table K V) :
    StateT (Transfer K V) Option (Table K V) :=
  List.toArray <$> table.toList.mapM fun bucket => bucket.mapM (Transfer.move? husk slots)

/-- Both passes over the table in its place. A move makes a husk of an entry; nothing is answered
when one cannot be made. -/
def rehash (husk : K × V → K × V) (cb : MapCallbacks K V ε σ) (buckets : Nat) :
    Guarded (Table K V) ε σ (Option (Array (Storage K V))) := do
  let table ← Guarded.read
  Guarded.call (cb.allocate (counterBytes * buckets))
  let plan ← Guarded.call (table.plan cb buckets)
  Guarded.call (cb.allocate (bucketBytes * buckets))
  Guarded.call (reserve cb plan.sizes.toList)
  match (table.transfer husk plan.slots).run (.reserved plan.sizes) with
  | some (rest, transfer) =>
    Guarded.modify fun _ => rest
    return some transfer.fresh
  | none => return none

end Table

/-! ## The first pass -/

namespace Plan

/-- The plan for entries that go to these slots. -/
def ofSlots (buckets : Nat) (slots : List Nat) : Plan := slots.foldl note (vacant buckets)

theorem slots_foldl_note (plan : Plan) (slots : List Nat) :
    (slots.foldl note plan).slots = plan.slots ++ slots.toArray := by
  induction slots generalizing plan with
  | nil => simp
  | cons slot slots ih =>
    rw [List.foldl_cons, ih]
    simp [note]

theorem sizes_foldl_note (plan : Plan) (slots : List Nat) (j : Nat) :
    (slots.foldl note plan).sizes[j]? = plan.sizes[j]?.map (· + slots.count j) := by
  induction slots generalizing plan with
  | nil => simp
  | cons slot slots ih =>
    rw [List.foldl_cons, ih, note, Array.getElem?_modify]
    -- the slot that was noted first counts one more
    by_cases hj : slot = j
    · rw [if_pos hj, Option.map_map, hj, List.count_cons_self]
      congr 1
      funext n
      simp only [Function.comp_apply]
      omega
    · rw [if_neg hj, List.count_cons_of_ne hj]

theorem slots_ofSlots (buckets : Nat) (slots : List Nat) :
    (ofSlots buckets slots).slots = slots.toArray := by
  rw [ofSlots, slots_foldl_note]
  simp [vacant]

/-- A slot is to receive as many entries as go there. -/
theorem sizes_ofSlots (buckets : Nat) (slots : List Nat) :
    (ofSlots buckets slots).sizes = (Array.range buckets).map (slots.count ·) := by
  apply Array.ext_getElem?
  intro j
  rw [ofSlots, sizes_foldl_note, vacant]
  by_cases hj : j < buckets <;> simp [hj]

end Plan

namespace Table
variable (cb : MapCallbacks K V ε σ) (buckets : Nat)

/-- The hashes of keys, each noted in a list that has `noted` before. -/
def notedHashes (noted : Nat) : List K → EStateM ε σ (List UInt64)
  | [] => return []
  | key :: rest => do
    let h ← cb.hash key
    cb.allocate (widerBytes counterBytes noted)
    return h :: (← notedHashes (noted + 1) rest)

/-- The calls of a growth: memory for the counters, every key in table order with memory for its
note, memory for the buckets and for what they are to receive. -/
def inquire (table : Table K V) : EStateM ε σ (List UInt64) := do
  cb.allocate (counterBytes * buckets)
  let hashes ← notedHashes cb 0 (table.entries.map Prod.fst)
  cb.allocate (bucketBytes * buckets)
  reserve cb (Plan.ofSlots buckets (hashes.map (·.toNat % buckets))).sizes.toList
  return hashes

/-- The entries with the slots that the hashes of their keys select. -/
def placed (entries : List (K × V)) (hashes : List UInt64) : List (Nat × K × V) :=
  (entries.zip hashes).map fun (e, h) => (h.toNat % buckets, e)

theorem foldlM_flatten {m : Type → Type} [Monad m] [LawfulMonad m] {α β : Type} (f : β → α → m β)
    (lists : List (List α)) (b : β) :
    lists.foldlM (fun b list => list.foldlM f b) b = lists.flatten.foldlM f b := by
  induction lists generalizing b with
  | nil => rfl
  | cons list lists ih =>
    rw [List.foldlM_cons, List.flatten_cons, List.foldlM_append]
    exact bind_congr ih

theorem yields_notedHashes_length (noted : Nat) (keys : List K) :
    Yields (notedHashes cb noted keys) (·.length = keys.length) fun _ => True := by
  induction keys generalizing noted with
  | nil => exact .pure rfl
  | cons key rest ih =>
    apply (Yields.any _).bind
    intro h _
    apply (Yields.any _).bind
    intro _ _
    apply (ih (noted + 1)).bind
    intro hashes hlength
    exact .pure (congrArg Nat.succ hlength)

theorem foldlM_note (entries : List (K × V)) (plan : Plan) :
    entries.foldlM (fun plan entry => do
      let h ← cb.hash entry.1
      cb.allocate (widerBytes counterBytes plan.slots.size)
      return Plan.note plan (h.toNat % buckets)) plan =
      (fun hashes => (hashes.map (·.toNat % buckets)).foldl Plan.note plan) <$>
        notedHashes cb plan.slots.size (entries.map Prod.fst) := by
  induction entries generalizing plan with
  | nil => simp [notedHashes]
  | cons e rest ih =>
    have hsize (h : UInt64) : (plan.note (h.toNat % buckets)).slots.size = plan.slots.size + 1 := by
      simp [Plan.note]
    rw [List.foldlM_cons, List.map_cons, notedHashes]
    simp only [bind_assoc, map_bind, pure_bind, map_pure]
    congr 1
    funext h
    congr 1
    funext _
    rw [ih, hsize, map_eq_pure_bind]
    rfl

theorem plan_eq (table : Table K V) :
    table.plan cb buckets =
      (fun hashes => Plan.ofSlots buckets (hashes.map (·.toNat % buckets))) <$>
        notedHashes cb 0 (table.entries.map Prod.fst) := by
  rw [plan, foldlM_flatten, ← entries, foldlM_note]
  rfl

theorem placements_eq (noted : Nat) (entries : List (K × V)) :
    placements cb buckets noted entries =
      placed buckets entries <$> notedHashes cb noted (entries.map Prod.fst) := by
  induction entries generalizing noted with
  | nil => simp [placements, notedHashes, placed]
  | cons e rest ih =>
    rw [placements, List.map_cons, notedHashes, map_bind]
    congr 1
    funext h
    rw [map_bind]
    congr 1
    funext _
    rw [ih, map_bind, bind_map_left]
    simp only [map_pure, placed, List.zip_cons_cons, List.map_cons]

variable {buckets}

theorem placed_bound (positive : 0 < buckets) (entries : List (K × V)) (hashes : List UInt64) :
    ∀ p ∈ placed buckets entries hashes, p.1 < buckets := by
  intro p hp
  obtain ⟨_, -, rfl⟩ := List.mem_map.1 hp
  exact Nat.mod_lt _ positive

theorem map_snd_placed {entries : List (K × V)} {hashes : List UInt64}
    (answered : hashes.length = entries.length) :
    (placed buckets entries hashes).map Prod.snd = entries := by
  rw [placed, List.map_map]
  exact List.map_fst_zip (Nat.le_of_eq answered.symm)

theorem map_fst_placed {entries : List (K × V)} {hashes : List UInt64}
    (answered : hashes.length = entries.length) :
    (placed buckets entries hashes).map Prod.fst = hashes.map (·.toNat % buckets) := by
  rw [placed, List.map_map]
  conv_rhs => rw [← List.map_snd_zip (Nat.le_of_eq answered), List.map_map]
  rfl

theorem map_length_append (table : Table K V) (slot : Nat) (e : K × V) :
    (table.append slot e).map List.length = (table.map List.length).modify slot (· + 1) := by
  apply Array.ext_getElem?
  intro j
  rw [append, Array.getElem?_map, Array.getElem?_modify, Array.getElem?_modify, Array.getElem?_map]
  split
  · rw [Option.map_map, Option.map_map]
    congr 1
    funext bucket
    exact List.length_append
  · rfl

/-- The buckets are as long as the notes have counted. -/
theorem map_length_distribute (buckets : Nat) (placed : List (Nat × K × V)) :
    (distribute buckets placed).map List.length =
      (Plan.ofSlots buckets (placed.map Prod.fst)).sizes := by
  have hfold (table : Table K V) (plan : Plan) (h : table.map List.length = plan.sizes) :
      (placed.foldl (fun table p => table.append p.1 p.2) table).map List.length =
        ((placed.map Prod.fst).foldl Plan.note plan).sizes := by
    induction placed generalizing table plan with
    | nil => exact h
    | cons p rest ih =>
      apply ih
      rw [map_length_append, h]
      rfl
  apply hfold
  simp [vacant, Plan.vacant]

/-- The storage that is asked for is that of the plan. -/
theorem resized_eq (table : Table K V) :
    table.resized cb buckets =
      (fun hashes => distribute buckets (placed buckets table.entries hashes)) <$>
        inquire cb buckets table := by
  rw [resized, inquire, placements_eq, map_bind]
  congr 1
  funext _
  rw [bind_map_left, map_bind]
  apply (yields_notedHashes_length cb 0 _).bind_congr
  intro hashes hlength
  have hslots : (placed buckets table.entries hashes).map Prod.fst =
      hashes.map (·.toNat % buckets) := map_fst_placed (by simpa using hlength)
  simp only [map_bind, map_pure]
  rw [← hslots, ← map_length_distribute, Array.toList_map]

end Table

/-! ## The second pass -/

namespace Transfer

variable {buckets : Nat} {all done rest : List (Nat × K × V)}

/-- The second pass when it has moved the entries `done` of all that are placed. -/
def after (buckets : Nat) (all done : List (Nat × K × V)) : Transfer K V where
  fresh := (Array.range buckets).map fun j =>
    ⟨(done.filter (·.1 = j)).map Prod.snd, (all.map Prod.fst).count j⟩
  next := done.length

theorem getElem?_fresh_after (j : Nat) : (after buckets all done).fresh[j]? =
    if j < buckets then
      some ⟨(done.filter (·.1 = j)).map Prod.snd, (all.map Prod.fst).count j⟩
    else none := by
  by_cases hj : j < buckets <;> simp [after, hj]

theorem length_filter_slot (placed : List (Nat × K × V)) (slot : Nat) :
    ((placed.filter (·.1 = slot)).map Prod.snd).length = (placed.map Prod.fst).count slot := by
  rw [List.length_map, ← List.countP_eq_length_filter, List.count_eq_countP, List.countP_map]
  rfl

section Move
variable {slot : Nat} {entry : K × V} (hall : all = done ++ (slot, entry) :: rest)

include hall in
/-- As long as an entry is still to come there is storage left for it. -/
theorem length_lt_count :
    ((done.filter (·.1 = slot)).map Prod.snd).length < (all.map Prod.fst).count slot := by
  rw [length_filter_slot, hall, List.map_append, List.map_cons, List.count_append,
    List.count_cons_self]
  omega

theorem setIfInBounds_fresh_after (bound : slot < buckets) :
    (after buckets all done).fresh.setIfInBounds slot
        ⟨(done.filter (·.1 = slot)).map Prod.snd ++ [entry], (all.map Prod.fst).count slot⟩ =
      (after buckets all (done ++ [(slot, entry)])).fresh := by
  apply Array.ext_getElem?
  intro j
  rw [Array.getElem?_setIfInBounds, getElem?_fresh_after, getElem?_fresh_after]
  by_cases hj : slot = j
  · subst hj
    simp [bound, after]
  · simp [hj]

include hall in
/-- The next entry finds its slot in the plan and storage in its bucket. -/
theorem move?_after (husk : K × V → K × V) (bound : slot < buckets) :
    move? husk (all.map Prod.fst).toArray entry (after buckets all done) =
      some (husk entry, after buckets all (done ++ [(slot, entry)])) := by
  have hslot : (all.map Prod.fst).toArray[done.length]? = some slot := by
    rw [hall]
    simp
  have hnext : (after buckets all (done ++ [(slot, entry)])).next = done.length + 1 := by
    simp [after]
  rw [move?, show (after buckets all done).next = done.length from rfl, hslot]
  simp only [Option.bind_eq_bind, Option.bind_some, getElem?_fresh_after, if_pos bound,
    Storage.push?, if_pos (length_lt_count hall), setIfInBounds_fresh_after bound, ← hnext]
  rfl

end Move

/-- One entry after another, each in its turn. -/
theorem mapM_move?_after (husk : K × V → K × V) (bound : ∀ p ∈ all, p.1 < buckets)
    {more : List (Nat × K × V)} (hall : all = done ++ more ++ rest) :
    ((more.map Prod.snd).mapM (move? husk (all.map Prod.fst).toArray)).run
        (after buckets all done) =
      some ((more.map Prod.snd).map husk, after buckets all (done ++ more)) := by
  induction more generalizing done with
  | nil => simp
  | cons p more ih =>
    have hnext : all = done ++ p :: (more ++ rest) := by simpa using hall
    have hfirst := move?_after hnext husk (bound p (by simp [hnext]))
    have hrest : all = (done ++ [p]) ++ more ++ rest := by simpa using hall
    rw [List.map_cons, List.mapM_cons, StateT.run_bind, StateT.run, hfirst]
    simp only [Option.bind_eq_bind, Option.bind_some, StateT.run_bind]
    rw [ih hrest]
    simp

/-- Bucket after bucket. -/
theorem mapM_mapM_move?_after (husk : K × V → K × V) (bound : ∀ p ∈ all, p.1 < buckets)
    {more : List (Nat × K × V)} (hall : all = done ++ more ++ rest) {table : List (Bucket K V)}
    (hmore : more.map Prod.snd = table.flatten) :
    (table.mapM fun bucket : Bucket K V => bucket.mapM (move? husk (all.map Prod.fst).toArray)).run
        (after buckets all done) =
      some (table.map (List.map husk), after buckets all (done ++ more)) := by
  induction table generalizing done more with
  | nil => simp_all
  | cons bucket table ih =>
    rw [List.flatten_cons, List.map_eq_append_iff] at hmore
    obtain ⟨first, others, rfl, rfl, hothers⟩ := hmore
    have hfirst : all = done ++ first ++ (others ++ rest) := by simpa using hall
    have hrest : all = (done ++ first) ++ others ++ rest := by simpa using hall
    rw [List.mapM_cons, StateT.run_bind, mapM_move?_after husk bound hfirst]
    simp only [Option.bind_eq_bind, Option.bind_some, StateT.run_bind]
    rw [ih hrest hothers]
    simp

end Transfer

namespace Table
variable {buckets : Nat}

/-- The second pass carries out the plan of the first. -/
theorem transfer_ofSlots (husk : K × V → K × V) (positive : 0 < buckets) (table : Table K V)
    {hashes : List UInt64} (answered : hashes.length = table.entries.length) :
    let plan := Plan.ofSlots buckets (hashes.map (·.toNat % buckets))
    let all := placed buckets table.entries hashes
    (table.transfer husk plan.slots).run (.reserved plan.sizes) =
      some (table.map (List.map husk), Transfer.after buckets all all) := by
  intro plan all
  have hslots : plan.slots = (all.map Prod.fst).toArray := by
    rw [map_fst_placed answered]
    exact Plan.slots_ofSlots _ _
  have hstart : Transfer.reserved plan.sizes = Transfer.after buckets all [] := by
    rw [Transfer.reserved, Transfer.after, Plan.sizes_ofSlots, Array.map_map,
      map_fst_placed answered]
    rfl
  have hall : all = [] ++ all ++ [] := by simp
  have hmoves := Transfer.mapM_mapM_move?_after husk (placed_bound positive table.entries hashes)
    hall (map_snd_placed answered)
  rw [hstart, hslots, transfer, StateT.run_map, hmoves, List.nil_append]
  rw [← Array.toList_map]
  rfl

/-- What the second pass comes to, by the hashes that the first was answered. -/
def carriedOut (husk : K × V → K × V) (buckets : Nat) (table : Table K V) (hashes : List UInt64) :
    Option (Array (Storage K V)) × Table K V :=
  let plan := Plan.ofSlots buckets (hashes.map (·.toNat % buckets))
  match (table.transfer husk plan.slots).run (.reserved plan.sizes) with
  | some (rest, transfer) => (some transfer.fresh, rest)
  | none => (none, table)

/-- All calls come before the first move. -/
theorem commits_rehash (husk : K × V → K × V) (cb : MapCallbacks K V ε σ) (buckets : Nat)
    (table : Table K V) :
    Commits table (rehash husk cb buckets)
      (table.carriedOut husk buckets <$> table.inquire cb buckets) := by
  apply Commits.read_bind
  rw [inquire, map_bind]
  apply Commits.call_bind
  intro _
  rw [plan_eq, Guarded.call_map, bind_map_left, map_bind]
  apply Commits.call_bind
  intro hashes
  rw [map_bind]
  apply Commits.call_bind
  intro _
  rw [map_bind]
  apply Commits.call_bind
  intro _
  rw [map_pure, carriedOut]
  split
  · exact .modify
  · exact .pure

/-- The buckets that the second pass fills. -/
def filled (buckets : Nat) (table : Table K V) (hashes : List UInt64) : Array (Storage K V) :=
  let all := placed buckets table.entries hashes
  (Transfer.after buckets all all).fresh

section Run
variable {cb : MapCallbacks K V ε σ} {table : Table K V} {hashes : List UInt64} {o o' : σ}

theorem rehash_of_ok (husk : K × V → K × V) (positive : 0 < buckets)
    (answered : hashes.length = table.entries.length)
    (h : table.inquire cb buckets o = .ok hashes o') :
    rehash husk cb buckets ⟨table, o⟩ =
      .ok (some (filled buckets table hashes)) ⟨table.map (List.map husk), o'⟩ := by
  apply (commits_rehash husk cb buckets table).run_ok
  rw [map_eq_pure_bind, bind_of_ok _ h, carriedOut]
  rw [transfer_ofSlots husk positive table answered]
  rfl

theorem rehash_of_error (husk : K × V → K × V) {e : ε}
    (h : table.inquire cb buckets o = .error e o') :
    rehash husk cb buckets ⟨table, o⟩ = .error e ⟨table, o'⟩ := by
  apply (commits_rehash husk cb buckets table).run_error
  rw [map_eq_pure_bind, bind_of_error _ h]

end Run

/-! ## What has become of the entries -/

/-- The entries are where the running definition of a growth appends them. -/
theorem map_entries_filled (positive : 0 < buckets) (table : Table K V) (hashes : List UInt64) :
    (filled buckets table hashes).map Storage.entries =
      distribute buckets (placed buckets table.entries hashes) := by
  have hbound := placed_bound positive table.entries hashes
  have hsize := size_distribute hbound
  apply Array.ext
  · rw [hsize]
    simp [filled, Transfer.after]
  · intro j _ hj
    rw [← bucket_eq_getElem hj, bucket_distribute hbound]
    simp [filled, Transfer.after]

theorem bucket_distribute_placed (positive : 0 < buckets) (entries : List (K × V))
    (hashes : List UInt64) (j : Nat) :
    (distribute buckets (placed buckets entries hashes)).bucket j =
      ((entries.zip hashes).filter fun (_, h) => h.toNat % buckets = j).map Prod.fst := by
  rw [bucket_distribute (placed_bound positive entries hashes), placed, List.filter_map,
    List.map_map]
  rfl

/-- Every bucket has storage for the entries that it has, and for no more. -/
theorem capacity_filled {table : Table K V} {hashes : List UInt64}
    (answered : hashes.length = table.entries.length) {j : Nat}
    (hj : j < (filled buckets table hashes).size) :
    (filled buckets table hashes)[j].capacity = hashes.countP (·.toNat % buckets = j) ∧
      (filled buckets table hashes)[j].entries.length =
        (filled buckets table hashes)[j].capacity := by
  constructor
  · have hcapacity : (filled buckets table hashes)[j].capacity =
        (hashes.map (·.toNat % buckets)).count j := by
      simp [filled, Transfer.after, map_fst_placed answered]
    rw [hcapacity, List.count_eq_countP, List.countP_map]
    rfl
  · simp only [filled, Transfer.after, Array.getElem_map, Array.getElem_range]
    exact Transfer.length_filter_slot _ j

/-- In a table of homed entries a bucket has all that belongs there, in table order. -/
theorem Homed.filter_entries {table : Table K V} {hash : K → UInt64} (homed : table.Homed hash)
    {slot : Nat} (h : slot < table.size) :
    (table.entries.filter fun e => (hash e.1).toNat % table.size = slot) = table.bucket slot := by
  obtain ⟨front, back, hentries, hset⟩ := entries_setIfInBounds h
  -- with this bucket emptied the table is still homed, so nothing else belongs here
  have hvacated : Homed hash (table.setIfInBounds slot []) := homed.setIfInBounds [] h (by simp)
  have hother : ∀ e ∈ front ++ back, ¬ (hash e.1).toNat % table.size = slot := by
    intro e he hslot
    have hmem := hvacated.mem_bucket (e := e) (by simpa [hset []] using he)
    rw [Array.size_setIfInBounds, hslot, bucket_setIfInBounds _ _ h, if_pos rfl] at hmem
    cases hmem
  have hfront := List.filter_eq_nil_iff.2 fun e (he : e ∈ front) =>
    mt of_decide_eq_true (hother e (List.mem_append_left _ he))
  have hback := List.filter_eq_nil_iff.2 fun e (he : e ∈ back) =>
    mt of_decide_eq_true (hother e (List.mem_append_right _ he))
  have hown := List.filter_eq_self.2 fun e he => decide_eq_true (homed slot e he)
  rw [hentries, List.filter_append, List.filter_append, hfront, hback, hown, List.nil_append,
    List.append_nil]

end Table

end LockedContainers
