import Mathlib.Data.Int.Interval
import LockedContainers.Proofs.Map.Construction
import LockedContainers.Proofs.Map.Coverage
import LockedContainers.Proofs.Set.Integer
import LockedContainers.Proofs.Stress.Reference

/-!
# The containers against a reference

Both sets and both maps, in every state that requests lead them to, are
compared exactly, and writers whose answers the reference foretells are never
contradicted. Nothing but memory can stop a writer at a map with a bucket, and
not at a map with a common threshold.
-/
namespace LockedContainers.Stress

variable {l : Locking} {C ε σ : Type}

/-- The keys are those of the reference. -/
def SameKeys (keys : List Int) (reference : Reference) : Prop :=
  ∀ key, key ∈ keys ↔ (reference.lookup key).isSome

/-- The entries map each key as the reference does. -/
def SameEntries (entries : List (Int × Int)) (reference : Reference) : Prop :=
  ∀ key, entries.lookup key = reference.lookup key

/-- The comparison with a reference answers, changes nothing and finds a mismatch unless the two
agree. From agreement on, any steps of writers are endorsed. -/
structure ChecksExactly (adapter : Adapter ε (Shared C σ)) (c : C) (agrees : Reference → Prop)
    (refused : Reference → List WriterStep → ε → Prop) : Prop where
  compares : ∀ reference : Reference, reference.KeysOnce → Ends c (reference.mismatch? adapter)
    (fun verdict c' => (verdict = none ↔ agrees reference) ∧ c' = c) fun _ _ => False
  endorses : ∀ reference : Reference, reference.KeysOnce → agrees reference →
    ∀ (steps : List WriterStep) (o : σ),
      Endorsed adapter (refused reference steps) steps ⟨⟨c, o⟩, reference⟩

/-! ## The sets -/

section Sets
variable {S : Type → Type} [LockedSet S] {stores : S Int → KeySet Int → Prop} {set : S Int}
  {members : KeySet Int} {reference : Reference}

theorem keys_insert (reference : Reference) (key value : Int) :
    (reference.insert key value).entries.map Prod.fst =
      KeySet.insert intBefore (reference.entries.map Prod.fst) key := by
  have hcontains : reference.contains key =
      KeySet.has intBefore (reference.entries.map Prod.fst) key := by
    rw [KeySet.has_intBefore, Bool.eq_iff_iff, decide_eq_true_eq]
    exact isSome_lookup_iff
  rw [KeySet.insert, Reference.insert, hcontains]
  split
  · rw [List.map_map]
    apply List.map_congr_left
    intro e _
    simp only [Function.comp_apply]
    split <;> rfl
  · rw [List.map_append]
    rfl

theorem keys_erase (reference : Reference) (key : Int) :
    (reference.erase key).entries.map Prod.fst =
      KeySet.erase intBefore (reference.entries.map Prod.fst) key := by
  simp only [Reference.erase, KeySet.erase, equivalent_intBefore, List.filter_map, ne_eq,
    decide_not]
  rfl

/-- A set of integers whose members are stored in ascending order and counted. -/
structure Sorted (S : Type → Type) [LockedSet S] (ε σ : Type) (stores : S Int → KeySet Int → Prop)
    (count : S Int → Nat) : Prop where
  ordered : LockedSet.IsOrdered (.integer : SetCallbacks Int ε σ) intBefore stores
  stored : ∀ set members,
    stores set members ↔ KeySet.Stored intBefore (LockedSet.keys set) (count set) members
  vacant : stores LockedSet.empty []

theorem sorted_monitor : Sorted MonitorSet ε σ (MonitorSet.Stores intBefore) MonitorSet.count where
  ordered := MonitorSet.isOrdered SetCallbacks.integer_follows
  stored _ _ := .rfl
  vacant := KeySet.stored_nil _

theorem sorted_coupled : Sorted CoupledSet ε σ (CoupledSet.Stores intBefore) CoupledSet.count where
  ordered := CoupledSet.isOrdered SetCallbacks.integer_follows
  stored _ _ := .rfl
  vacant := KeySet.stored_nil _

namespace Sorted
variable {count : S Int → Nat} (sorted : Sorted S ε σ stores count)
include sorted

theorem nodup_keys (h : stores set members) : (LockedSet.keys set).Nodup :=
  ((sorted.stored set members).1 h).ascending.imp fun hab => Int.ne_of_lt (of_decide_eq_true hab)

theorem shows (h : stores set members) :
    (Adapter.ofSet S ε σ).Shows set Prod.fst (LockedSet.keys set) where
  size := by
    apply (SetCallbacks.ends_integer (sorted.ordered.size set members h)).mono _ fun _ _ hf => hf
    rintro n set' ⟨rfl, hset⟩
    exact ⟨((sorted.stored set members).1 h).members.length_eq.symm, hset⟩
  holds key _ _ := by
    apply (SetCallbacks.ends_integer (sorted.ordered.contains set members key h)).mono _
      fun _ _ hf => hf
    rintro b set' ⟨rfl, hset⟩
    refine ⟨?_, hset⟩
    rw [KeySet.has_intBefore]
    exact decide_eq_decide.2 ((sorted.stored set members).1 h).members.mem_iff.symm

theorem perm_keys_iff (h : stores set members) (once : reference.KeysOnce) :
    (reference.entries.map Prod.fst).Perm (LockedSet.keys set) ↔
      SameKeys (LockedSet.keys set) reference := by
  rw [List.perm_ext_iff_of_nodup once (sorted.nodup_keys h)]
  simp only [SameKeys, Reference.lookup, isSome_lookup_iff]
  exact forall_congr' fun _ => Iff.comm

/-- A set is asked for keys only, and no question to it fails. -/
theorem upholds : (Adapter.ofSet S ε σ).Upholds
    (fun set reference => stores set (reference.entries.map Prod.fst)) (fun _ => True)
    fun _ => False where
  compares set reference h := by
    have hstored := (sorted.stored set _).1 h
    have honce : reference.KeysOnce := hstored.members.nodup_iff.1 (sorted.nodup_keys h)
    apply (ends_mismatch (sorted.shows h) honce).mono _ fun _ _ hf => hf
    rintro verdict set' ⟨hverdict, hset⟩
    exact ⟨hverdict.2 hstored.members.symm, hset⟩
  asks set reference step h _ := by
    have hlookup (key : Int) : KeySet.has intBefore (reference.entries.map Prod.fst) key =
        (reference.lookup key).isSome := by
      rw [KeySet.has_intBefore, Bool.eq_iff_iff, decide_eq_true_eq]
      exact isSome_lookup_iff.symm
    cases step with
    | insert key value =>
      apply (SetCallbacks.ends_integer (sorted.ordered.add set _ key h)).bind
      rintro added set' ⟨rfl, hset⟩
      refine .pure ⟨?_, ?_⟩
      · simp [hlookup, WriterStep.key]
      · rw [WriterStep.follow, keys_insert]
        exact hset
    | erase key =>
      apply (SetCallbacks.ends_integer (sorted.ordered.remove set _ key h)).bind
      rintro removed set' ⟨rfl, hset⟩
      refine .pure ⟨?_, ?_⟩
      · simp [hlookup, WriterStep.key]
      · rw [WriterStep.follow, keys_erase]
        exact hset

theorem checksExactly (h : stores set members) :
    ChecksExactly (Adapter.ofSet S ε σ) set (SameKeys (LockedSet.keys set)) fun _ _ _ => False where
  compares reference once := by
    apply (ends_mismatch (sorted.shows h) once).mono _ fun _ _ hf => hf
    rintro verdict set' ⟨hverdict, hset⟩
    exact ⟨hverdict.trans (sorted.perm_keys_iff h once), hset⟩
  endorses reference once agrees steps o := by
    have hstored := (sorted.stored set members).1 h
    have hperm := ((sorted.perm_keys_iff h once).2 agrees).symm
    have hstart : stores set (reference.entries.map Prod.fst) :=
      (sorted.stored set _).2 ⟨⟨hstored.ascending, hperm⟩, hstored.counted⟩
    exact sorted.upholds.endorsed hstart o fun _ _ => trivial

end Sorted
end Sets

/-! ## The maps -/

/-- A 32-bit integer. -/
def IsInt32 (key : Int) : Prop := -2 ^ 31 ≤ key ∧ key < 2 ^ 31

theorem length_le_of_isInt32 {keys : List Int} (once : keys.Nodup)
    (range : ∀ key ∈ keys, IsInt32 key) :
    keys.length ≤ 2 ^ 32 := by
  have hsubset : keys.toFinset ⊆ Finset.Ico (-2 ^ 31) (2 ^ 31) := fun key hkey =>
    Finset.mem_Ico.2 (range key (List.mem_toFinset.1 hkey))
  have hcard := Finset.card_le_card hsubset
  rw [List.toFinset_card_of_nodup once, Int.card_Ico] at hcard
  exact hcard

/-- The threshold allows more entries than there are 32-bit integers in a table that can still be
doubled. -/
def Spacious (options : MapOptions) : Prop :=
  options.exceeds (2 ^ 32 + 1) Table.doublable = false

/-- All keys of the reference and of the steps are 32-bit integers. -/
structure InRange (reference : Reference) (steps : List WriterStep) : Prop where
  reference : ∀ key ∈ reference.entries.map Prod.fst, IsInt32 key
  steps : ∀ step ∈ steps, IsInt32 step.key

/-- How a writer can be stopped at a map. -/
inductive Refusal (map : LockedMap l Int Int) (reference : Reference) (steps : List WriterStep) :
    MapFailure MemoryFault → Prop
  /-- There is no bucket to look into. -/
  | bare (empty : map.table.size = 0) : Refusal map reference steps .noBucket
  /-- Memory for a growth is refused. -/
  | memory (fault : MemoryFault) (large : ¬ (Spacious map.options ∧ InRange reference steps)) :
    Refusal map reference steps (.callback fault)

section Maps
variable {map : LockedMap l Int Int} {reference : Reference}

/-- A map that is asked for its entries answers by them, and no key has two. -/
structure ShowsEntries (σ : Type) (map : LockedMap l Int Int) : Prop where
  shows : (Adapter.ofMap l σ).Shows map id map.table.entries
  once : (map.table.entries.map Prod.fst).Nodup

/-- The comparison looks at nothing but the entries. -/
theorem ShowsEntries.ends_mismatch (h : ShowsEntries σ map) (once : reference.KeysOnce) :
    Ends map (reference.mismatch? (Adapter.ofMap l σ))
      (fun verdict map' => (verdict = none ↔ SameEntries map.table.entries reference) ∧ map' = map)
      fun _ _ => False := by
  have honce : (reference.entries.map id).Nodup := by
    rw [List.map_id]
    exact once.of_map _
  apply (Stress.ends_mismatch h.shows honce).mono _ fun _ _ hf => hf
  rintro verdict map' ⟨hverdict, hmap⟩
  rw [List.map_id, perm_iff_lookup once h.once] at hverdict
  exact ⟨hverdict, hmap⟩

theorem showsEntries_of_stores {dict : Dictionary Int Int}
    (h : map.Stores UInt64.ofInt (fun a b => decide (a = b)) dict) : ShowsEntries σ map := by
  have once : (map.table.entries.map Prod.fst).Nodup :=
    (distinctKeys_iff _).1 (h.distinct.perm integer_lawful h.entries.symm)
  refine ⟨⟨?_, fun key value _ => ?_⟩, once⟩
  · exact .read_bind (.pure ⟨h.counted.trans h.entries.length_eq.symm, rfl⟩)
  · apply (LockedMap.ends_get_integer h key).bind
    rintro v map' ⟨rfl, rfl⟩
    refine .pure ⟨decide_eq_decide.2 ?_, rfl⟩
    rw [← h.get?_entries integer_lawful, ← lookup_eq_get?]
    exact lookup_eq_some_iff once

/-- The map stores the entries of the reference. -/
def Mirrors (map : LockedMap l Int Int) (reference : Reference) : Prop :=
  map.Stores UInt64.ofInt (fun a b => decide (a = b)) reference.entries

theorem Mirrors.keysOnce (h : Mirrors map reference) : reference.KeysOnce :=
  (distinctKeys_iff _).1 h.distinct

/-- What agrees with the entries of a map is what the map stores. -/
theorem mirrors_of_sameEntries {dict : Dictionary Int Int}
    (h : map.Stores UInt64.ofInt (fun a b => decide (a = b)) dict) (once : reference.KeysOnce)
    (agrees : SameEntries map.table.entries reference) : Mirrors map reference := by
  have hshown : ShowsEntries Unit map := showsEntries_of_stores h
  have hperm : map.table.entries.Perm reference.entries :=
    ((perm_iff_lookup once hshown.once).2 agrees).symm
  exact { h with
    entries := hperm
    distinct := (distinctKeys_iff _).2 once
    counted := (h.counted.trans h.entries.length_eq.symm).trans hperm.length_eq }

theorem Mirrors.ends_mismatch (h : Mirrors map reference) :
    Ends map (reference.mismatch? (Adapter.ofMap l σ))
      (fun verdict map' => verdict = none ∧ map' = map) fun _ _ => False := by
  have hshown : ShowsEntries σ map := showsEntries_of_stores h
  apply (hshown.ends_mismatch h.keysOnce).mono _ fun _ _ hf => hf
  rintro verdict map' ⟨hverdict, hmap⟩
  exact ⟨hverdict.2 ((perm_iff_lookup h.keysOnce hshown.once).1 h.entries.symm), hmap⟩

/-- What is put into the map is put into the reference, and so with what is taken out. -/
theorem Mirrors.ends_ask {failed : MapFailure MemoryFault → LockedMap l Int Int → Prop}
    (h : Mirrors map reference) (step : WriterStep)
    (hput : ∀ key value, Ends map
      (LockedMap.put (.integer : MapCallbacks Int Int MemoryFault σ) key value)
      (fun v map' => v = Dictionary.get? (fun a b => decide (a = b)) reference.entries key ∧
        map'.Stores UInt64.ofInt (fun a b => decide (a = b))
          (Dictionary.put (fun a b => decide (a = b)) reference.entries key value)) failed) :
    Ends map (step.ask (Adapter.ofMap l σ) (reference.lookup step.key))
      (fun agreed map' => agreed = true ∧ Mirrors map' (step.follow reference)) failed := by
  cases step with
  | insert key value =>
    apply (hput key value).bind
    rintro v map' ⟨rfl, hmap⟩
    refine .pure ⟨?_, ?_⟩
    · rw [WriterStep.key, Reference.lookup, lookup_eq_get?, decide_eq_true rfl]
    · rw [Mirrors, WriterStep.follow, Reference.entries_insert]
      exact hmap
  | erase key =>
    apply ((LockedMap.ends_remove_integer h key).mono (fun _ _ hv => hv) fun _ _ hf => hf.elim).bind
    rintro v map' ⟨rfl, hmap⟩
    refine .pure ⟨?_, ?_⟩
    · rw [WriterStep.key, Reference.lookup, lookup_eq_get?, decide_eq_true rfl]
    · rw [Mirrors, WriterStep.follow, Reference.entries_erase]
      exact hmap

theorem upholds_mirrors : (Adapter.ofMap l σ).Upholds Mirrors (fun _ => True)
    fun f => ∃ fault, f = .callback fault where
  compares _ _ h := h.ends_mismatch
  asks map reference step h _ := by
    apply h.ends_ask step
    intro key value
    apply (LockedMap.ends_put integer_lawful MapCallbacks.integer_follows h key value).mono
      (fun _ _ hv => hv)
    exact fun _ _ hf => MapCallbacks.callback_of_excuses hf.1

theorem ends_ask_options (map : LockedMap l Int Int) (step : WriterStep) (expected : Option Int) :
    Ends map (step.ask (Adapter.ofMap l σ) expected) (fun _ map' => map'.options = map.options)
      fun _ _ => True := by
  cases step with
  | insert key value =>
    apply ((LockedMap.ends_put_any .integer map key value).mono (fun _ _ hv => hv)
      fun _ _ _ => trivial).bind
    rintro v map' ⟨n, grown, hgrown, hplaced⟩
    exact .pure (hgrown.widened.trans hplaced.widened).options
  | erase key =>
    apply ((LockedMap.ends_remove_any .integer).mono (fun _ _ hv => hv) fun _ _ _ => trivial).bind
    exact fun v map' htaken => .pure htaken.options

theorem isInt32_follow {step : WriterStep} (hstep : IsInt32 step.key)
    (range : ∀ key ∈ reference.entries.map Prod.fst, IsInt32 key) :
    ∀ key ∈ (step.follow reference).entries.map Prod.fst, IsInt32 key := by
  intro k hk
  cases step with
  | insert key value =>
    rw [WriterStep.follow, keys_insert, KeySet.insert] at hk
    split at hk
    · exact range k hk
    · rcases List.mem_append.1 hk with hold | hnew
      · exact range k hold
      · rw [List.mem_singleton.1 hnew]
        exact hstep
  | erase key =>
    rw [WriterStep.follow, keys_erase] at hk
    exact range k (List.mem_filter.1 hk).1

/-- There are too few 32-bit integers to fill a table beyond memory. -/
theorem upholds_spacious {options : MapOptions} (positive : options.Positive)
    (spacious : Spacious options) : (Adapter.ofMap l σ).Upholds
      (fun map reference => Mirrors map reference ∧ map.options = options ∧
        ∀ key ∈ reference.entries.map Prod.fst, IsInt32 key)
      (fun step => IsInt32 step.key) fun _ => False where
  compares _ _ h := h.1.ends_mismatch
  asks map reference step := by
    rintro ⟨h, rfl, hrange⟩ hstep
    have hlength := length_le_of_isInt32 h.keysOnce hrange
    rw [List.length_map] at hlength
    have hroom : map.options.exceeds (reference.entries.length + 1) Table.doublable = false :=
      MapOptions.exceeds_mono positive (by omega) (Nat.le_refl _) spacious
    have hfew : reference.entries.length ≤ Table.doublable :=
      Nat.le_trans hlength (by decide)
    have hask := h.ends_ask (σ := σ) step fun key value =>
      LockedMap.ends_put_integer h positive hroom hfew key value
    apply (hask.and (ends_ask_options map step (reference.lookup step.key))).mono
    · rintro agreed map' ⟨⟨hagreed, hmirrors⟩, hoptions⟩
      exact ⟨hagreed, hmirrors, hoptions, isInt32_follow hstep hrange⟩
    · exact fun _ _ hf => hf.1

theorem checksExactly_of_stores {dict : Dictionary Int Int} (positive : map.options.Positive)
    (h : map.Stores UInt64.ofInt (fun a b => decide (a = b)) dict) :
    ChecksExactly (Adapter.ofMap l σ) map (SameEntries map.table.entries) (Refusal map) where
  compares _ once := (showsEntries_of_stores h).ends_mismatch once
  endorses reference once agrees steps o := by
    have hmirrors := mirrors_of_sameEntries h once agrees
    by_cases hfits : Spacious map.options ∧ InRange reference steps
    · have hrun := (upholds_spacious positive hfits.1).endorsed
        ⟨hmirrors, rfl, hfits.2.reference⟩ o hfits.2.steps
      exact hrun.mono fun _ hf => hf.elim
    · apply (upholds_mirrors.endorsed hmirrors o fun _ _ => trivial).mono
      rintro _ ⟨fault, rfl⟩
      exact .memory fault hfits

/-- A map without buckets, which is empty for good. -/
structure Bare (map : LockedMap l Int Int) : Prop where
  size : map.table.size = 0
  count : map.count = 0

/-- An integer is hashed without further ado. -/
theorem ends_hash_bind {β : Type} {key : Int} {next : UInt64 → MapSection l Int Int MemoryFault σ β}
    {post : β → LockedMap l Int Int → Prop}
    {failed : MapFailure MemoryFault → LockedMap l Int Int → Prop}
    (hnext : Ends map (next (.ofInt key)) post failed) :
    Ends map
      (Guarded.ask ((MapCallbacks.integer : MapCallbacks Int Int MemoryFault σ).hash key) >>= next)
      post failed :=
  hnext

namespace Bare
variable (h : Bare map)
include h

theorem entries_eq : map.table.entries = [] := by
  rw [Array.eq_empty_of_size_eq_zero h.size]
  rfl

theorem showsEntries : ShowsEntries σ map := by
  refine ⟨⟨?_, fun _ _ hne => absurd h.entries_eq hne⟩, ?_⟩
  · rw [h.entries_eq]
    exact .read_bind (.pure ⟨h.count, rfl⟩)
  · rw [h.entries_eq]
    exact .nil

theorem ends_lookup (x : UInt64) (key : Int) :
    Ends map (LockedMap.lookup (.integer : MapCallbacks Int Int MemoryFault σ) x key)
      (fun _ _ => False) fun f _ => f = .noBucket := by
  apply Ends.read_bind
  rw [Table.slot, if_pos h.size]
  exact Ends.bind (.throw rfl) fun _ _ hf => hf

theorem ends_put (key value : Int) :
    Ends map (LockedMap.put (.integer : MapCallbacks Int Int MemoryFault σ) key value)
      (fun _ _ => False) fun f _ => f = .noBucket := by
  have hlookup := h.ends_lookup (σ := σ) (UInt64.ofInt key) key
  cases l with
  | monitor => exact ends_hash_bind (hlookup.bind fun _ _ hf => hf.elim)
  | striped => exact ends_hash_bind ((hlookup.bind fun _ _ hf => hf.elim).bind fun _ _ hf => hf)

theorem ends_remove (key : Int) :
    Ends map (LockedMap.remove (.integer : MapCallbacks Int Int MemoryFault σ) key)
      (fun _ _ => False) fun f _ => f = .noBucket :=
  ends_hash_bind ((h.ends_lookup (UInt64.ofInt key) key).bind fun _ _ hf => hf.elim)

theorem ends_ask (step : WriterStep) (expected : Option Int)
    {post : Bool → LockedMap l Int Int → Prop} :
    Ends map (step.ask (Adapter.ofMap l σ) expected) post fun f _ => f = .noBucket := by
  cases step with
  | insert key value => exact (h.ends_put key value).bind fun _ _ hf => hf.elim
  | erase key => exact (h.ends_remove key).bind fun _ _ hf => hf.elim

/-- Only an empty reference agrees. -/
theorem sameEntries_iff (once : reference.KeysOnce) :
    SameEntries map.table.entries reference ↔ reference.entries = [] := by
  rw [SameEntries, ← List.perm_nil, ← h.entries_eq]
  exact (perm_iff_lookup once (h.showsEntries (σ := Unit)).once).symm

end Bare

theorem upholds_bare : (Adapter.ofMap l σ).Upholds
    (fun map reference => Bare map ∧ reference.entries = []) (fun _ => True)
    fun f => f = .noBucket where
  compares map reference := by
    rintro ⟨h, hreference⟩
    have honce : reference.KeysOnce := by
      rw [Reference.KeysOnce, hreference]
      exact .nil
    apply (h.showsEntries.ends_mismatch honce).mono _ fun _ _ hf => hf
    rintro verdict map' ⟨hverdict, hmap⟩
    exact ⟨hverdict.2 ((h.sameEntries_iff honce).2 hreference), hmap⟩
  asks _ _ step h _ := h.1.ends_ask step _

theorem Bare.checksExactly (h : Bare map) :
    ChecksExactly (Adapter.ofMap l σ) map (SameEntries map.table.entries) (Refusal map) where
  compares _ once := h.showsEntries.ends_mismatch once
  endorses reference once agrees steps o := by
    have hempty := (h.sameEntries_iff once).1 agrees
    apply (upholds_bare.endorsed ⟨h, hempty⟩ o fun _ _ => trivial).mono
    rintro _ rfl
    exact .bare h.size

end Maps

/-! ## Every state -/

section Reached
variable {map : LockedMap l Int Int}

theorem positive_of_made {options : MapOptions} {o o' : σ}
    (made : LockedMap.make .integer l options o = .ok map o') :
    map.options.Positive ∧ map.count = 0 := by
  cases l with
  | monitor =>
    have hmade := MonitorMap.yields_make_vacant (V := Int) .integer options o
    rw [LockedMap.make] at made
    rw [made] at hmade
    obtain ⟨hcheck, rfl⟩ := hmade
    exact ⟨MapOptions.positive_of_check hcheck, rfl⟩
  | striped =>
    have hmade := StripedMap.yields_make_vacant (V := Int) .integer options o
    rw [LockedMap.make] at made
    rw [made] at hmade
    obtain ⟨hcheck, -, -, rfl⟩ := hmade
    have hpositive := MapOptions.positive_of_check hcheck
    exact ⟨hpositive, rfl⟩

/-- No request brings a bucket to a map that has none. -/
theorem Bare.ends_perform (h : Bare map) (request : MapRequest Int Int) :
    Ends map (request.perform (.integer : MapCallbacks Int Int MemoryFault σ))
      (fun _ map' => Bare map') fun _ map' => Bare map' := by
  have hgrown {n : Nat} {grown : LockedMap l Int Int} (hg : LockedMap.Grown n map grown) :
      Bare grown := by
    refine ⟨?_, hg.count.trans h.count⟩
    rw [hg.size, h.size, Nat.zero_mul]
  apply (LockedMap.ends_perform_any .integer map request).mono
  · intro answer map' heffect
    cases request with
    | put key value =>
      obtain ⟨n, grown, previous, hg, hplaced, -⟩ := heffect
      have hempty := (hgrown hg).size
      cases hplaced with
      | overwrite bound cut => omega
      | link bound => omega
    | remove key =>
      obtain ⟨previous, htaken, -⟩ := heffect
      have hempty := h.size
      cases htaken with
      | unlink bound cut => omega
      | absent => exact h
    | _ =>
      cases heffect
      exact h
  · intro f map' hleft
    cases request with
    | put key value =>
      obtain ⟨⟨n, hg, -⟩, -⟩ := hleft
      exact hgrown hg
    | _ =>
      obtain ⟨rfl, -⟩ := hleft
      exact h

/-- Requests keep the options. -/
theorem options_reached (map : LockedMap l Int Int) (o : σ) (requests : List (MapRequest Int Int)) :
    (serve (MapRequest.perform .integer) requests ⟨map, o⟩).2.container.options = map.options := by
  refine (serve_invariant (fun map' : LockedMap l Int Int => map'.options = map.options)
    (fun _ _ => True) ?_ rfl o requests).2
  intro map' request h
  apply (LockedMap.ends_perform_widened .integer map' request).mono
  · rintro _ map'' ⟨n, hwidened⟩
    exact ⟨trivial, hwidened.options.trans h⟩
  · rintro _ map'' ⟨n, hwidened⟩
    exact ⟨trivial, hwidened.options.trans h⟩

/-- The states of a new map, with buckets or without. -/
theorem checksExactly_reached {options : MapOptions} {o o' : σ}
    (made : LockedMap.make .integer l options o = .ok map o') (outside : σ)
    (requests : List (MapRequest Int Int)) :
    let reached := (serve (MapRequest.perform .integer) requests ⟨map, outside⟩).2.container
    ChecksExactly (Adapter.ofMap l σ) reached (SameEntries reached.table.entries)
      (Refusal reached) := by
  intro reached
  obtain ⟨hpositive, hcount⟩ := positive_of_made made
  rcases Nat.eq_zero_or_pos map.table.size with hbare | hroomy
  · have hreached : Bare reached :=
      (serve_invariant Bare (fun _ _ => True)
        (fun _ request h => (h.ends_perform request).mono (fun _ _ h => ⟨trivial, h⟩)
          fun _ _ h => ⟨trivial, h⟩) ⟨hbare, hcount⟩ outside requests).2
    exact hreached.checksExactly
  · have hstart : map.Stores UInt64.ofInt (fun a b => decide (a = b)) [] :=
      LockedMap.stores_made made hroomy
    obtain ⟨dict, -, hstores⟩ := serve_explained (Dictionary.object fun a b => decide (a = b))
      (fun _ _ request h =>
        LockedMap.ends_perform integer_lawful MapCallbacks.integer_follows h request)
      hstart outside requests
    have hkept : reached.options.Positive := by
      rw [options_reached map outside requests]
      exact hpositive
    exact checksExactly_of_stores hkept hstores

end Reached

theorem Sorted.checksExactly_reached {S : Type → Type} [LockedSet S]
    {stores : S Int → KeySet Int → Prop} {count : S Int → Nat} (sorted : Sorted S ε σ stores count)
    (o : σ) (requests : List (SetRequest Int)) :
    let reached := (serve (SetRequest.perform (.integer : SetCallbacks Int ε σ)) requests
      ⟨(LockedSet.empty : S Int), o⟩).2.container
    ChecksExactly (Adapter.ofSet S ε σ) reached (SameKeys (LockedSet.keys reached))
      fun _ _ _ => False := by
  obtain ⟨members, -, hset⟩ := serve_explained (KeySet.object intBefore)
    (fun _ _ request h => sorted.ordered.ends_perform h request) sorted.vacant o requests
  exact sorted.checksExactly hset

/-- In every state of every container the comparison is exact, although it asks for the keys of the
reference only, and a writer whose answers the reference foretells is never contradicted. Sets answer
always. Maps do, unless they have no bucket, or memory is refused to a small threshold. -/
theorem reference_checks_exactly (ε σ : Type) :
    (∀ (o : σ) (requests : List (SetRequest Int)),
      let set := (serve (SetRequest.perform (.integer : SetCallbacks Int ε σ)) requests
        ⟨(LockedSet.empty : MonitorSet Int), o⟩).2.container
      ChecksExactly (Adapter.ofSet MonitorSet ε σ) set (SameKeys set.keys) fun _ _ _ => False) ∧
    (∀ (o : σ) (requests : List (SetRequest Int)),
      let set := (serve (SetRequest.perform (.integer : SetCallbacks Int ε σ)) requests
        ⟨(LockedSet.empty : CoupledSet Int), o⟩).2.container
      ChecksExactly (Adapter.ofSet CoupledSet ε σ) set (SameKeys set.keys) fun _ _ _ => False) ∧
    ∀ (l : Locking) (options : MapOptions) (o o' : σ) (new : LockedMap l Int Int),
      LockedMap.make .integer l options o = .ok new o' →
      ∀ (outside : σ) (requests : List (MapRequest Int Int)),
        let map := (serve (MapRequest.perform .integer) requests ⟨new, outside⟩).2.container
        ChecksExactly (Adapter.ofMap l σ) map (SameEntries map.table.entries) (Refusal map) :=
  ⟨sorted_monitor.checksExactly_reached, sorted_coupled.checksExactly_reached,
    fun _ _ _ _ _ made => checksExactly_reached made⟩

/-- With the threshold of three quarters no writer is refused memory. -/
theorem spacious_of_default {options : MapOptions}
    (default : options.threshold = ({} : MapOptions).threshold) : Spacious options := by
  rw [Spacious, MapOptions.exceeds, default]
  decide +kernel

/-- One entry is left. A reference with another one is told apart although the sizes are equal, and
with the right one writers are endorsed and never refused. -/
theorem reference_checks_exactly_ofTwo :
    let map := (serve (MapRequest.perform (.integer : MapCallbacks Int Int MemoryFault Unit))
      [.put 1 10, .put 2 20, .remove 1] ⟨(LockedMap.ofTwo : StripedMap Int Int), ()⟩).2.container
    Ends map ((⟨[(1, 10)]⟩ : Reference).mismatch? (Adapter.ofMap .striped Unit))
        (fun verdict _ => verdict ≠ none) (fun _ _ => False) ∧
      Endorsed (Adapter.ofMap .striped Unit) (fun _ => False)
        [.insert 3 30, .insert 4 40, .erase 2, .insert 3 31] ⟨⟨map, ()⟩, ⟨[(2, 20)]⟩⟩ := by
  intro map
  have hentries : map.table.entries = [(2, 20)] := by decide +kernel
  have hsize : map.table.size = 4 := by decide +kernel
  have hthreshold : map.options.threshold = ({} : MapOptions).threshold := by decide +kernel
  have hmap : ChecksExactly (Adapter.ofMap .striped Unit) map (SameEntries map.table.entries)
      (Refusal map) :=
    (reference_checks_exactly Unit Unit).2.2 .striped _ () () _ (LockedMap.make_integer_ofTwo ()) ()
      [.put 1 10, .put 2 20, .remove 1]
  clear_value map
  rw [hentries] at hmap
  constructor
  · apply (hmap.compares ⟨[(1, 10)]⟩ (by simp [Reference.KeysOnce])).mono _ fun _ _ hf => hf
    rintro verdict _ ⟨hverdict, -⟩ hnone
    have hsame := hverdict.1 hnone 1
    exact absurd hsame (by decide)
  · apply (hmap.endorses ⟨[(2, 20)]⟩ (by simp [Reference.KeysOnce]) (fun _ => rfl) _ ()).mono
    rintro _ (hempty | ⟨_, hlarge⟩)
    · omega
    · exact hlarge ⟨spacious_of_default hthreshold, by simp [IsInt32],
        by simp [IsInt32, WriterStep.key]⟩

end LockedContainers.Stress
