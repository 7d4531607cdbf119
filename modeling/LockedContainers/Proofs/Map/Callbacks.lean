import LockedContainers.Proofs.Map.Dictionary
import LockedContainers.Proofs.Map.Entries

/-!
# What the loops over a table answer

Hashing and comparing may fail at any call. When they return they answer by a
function, and then a search, a growth and an audit do what the functions say.
-/
namespace LockedContainers

variable {K V ε σ : Type}

namespace MapCallbacks

variable (cb : MapCallbacks K V ε σ)

/-- Some call fails with this error. -/
def Raises (e : ε) : Prop :=
  (∃ k o o', cb.hash k o = .error e o') ∨ (∃ a b o o', cb.equal a b o = .error e o') ∨
    (∃ v o o', cb.copy v o = .error e o') ∨ ∃ bytes o o', cb.allocate bytes o = .error e o'

/-- A block of so many bytes was granted once. -/
def Grants (bytes : Nat) : Prop := ∃ o o', cb.allocate bytes o = .ok () o'

/-- A map may fail because a call of a callback failed. It may call a table too large only when
memory has granted more than the machine can address. -/
def Excuses : MapFailure ε → Prop
  | .callback e => cb.Raises e
  | .tooLarge => ∃ bytes, UInt64.size ≤ bytes ∧ cb.Grants bytes
  | _ => False

/-- Calls that return answer by the functions, and a copy is equal to its original. -/
structure Follows (hash : K → UInt64) (same : K → K → Bool) : Prop where
  hash : ∀ k o x o', cb.hash k o = .ok x o' → x = hash k
  equal : ∀ a b o x o', cb.equal a b o = .ok x o' → x = same a b
  copy : ∀ v o x o', cb.copy v o = .ok x o' → x = v

variable {cb} {hash : K → UInt64} {same : K → K → Bool}

theorem Follows.yields_hash (follows : cb.Follows hash same) (k : K) :
    Yields (cb.hash k) (· = hash k) cb.Raises := by
  intro o
  cases h : cb.hash k o with
  | ok x o' => exact follows.hash k o x o' h
  | error e o' => exact .inl ⟨k, o, o', h⟩

theorem Follows.yields_equal (follows : cb.Follows hash same) (a b : K) :
    Yields (cb.equal a b) (· = same a b) cb.Raises := by
  intro o
  cases h : cb.equal a b o with
  | ok x o' => exact follows.equal a b o x o' h
  | error e o' => exact .inr (.inl ⟨a, b, o, o', h⟩)

theorem Follows.yields_copy (follows : cb.Follows hash same) (v : V) :
    Yields (cb.copy v) (· = v) cb.Raises := by
  intro o
  cases h : cb.copy v o with
  | ok x o' => exact follows.copy v o x o' h
  | error e o' => exact .inr (.inr (.inl ⟨v, o, o', h⟩))

theorem yields_allocate (cb : MapCallbacks K V ε σ) (bytes : Nat) :
    Yields (cb.allocate bytes) (fun _ => cb.Grants bytes) cb.Raises := by
  intro o
  cases h : cb.allocate bytes o with
  | ok x o' => exact ⟨o, o', h⟩
  | error e o' => exact .inr (.inr (.inr ⟨bytes, o, o', h⟩))

end MapCallbacks

/-- The outcome of a search: the first entry with the key, or that there is none. -/
def Bucket.Finds (same : K → K → Bool) (key : K) (bucket : Bucket K V) : Option (Hit K V) → Prop
  | none => ∀ e ∈ bucket, same e.1 key = false
  | some hit => hit.bucket = bucket ∧ same hit.key key ∧ ∀ e ∈ hit.before, same e.1 key = false

section Loops
variable {cb : MapCallbacks K V ε σ} {hash : K → UInt64} {same : K → K → Bool}
  (follows : cb.Follows hash same)
include follows

namespace Bucket

theorem yields_scan (key : K) (before after : Bucket K V)
    (passed : ∀ e ∈ before, same e.1 key = false) :
    Yields (scan cb key before after) (Finds same key (before.reverse ++ after)) cb.Raises := by
  induction after generalizing before with
  | nil =>
    refine .pure fun e he => ?_
    rw [List.append_nil] at he
    exact passed e (List.mem_reverse.1 he)
  | cons e after ih =>
    obtain ⟨k, v⟩ := e
    refine (follows.yields_equal k key).bind fun x hx => ?_
    cases x with
    | true =>
      refine .pure ⟨?_, hx.symm, fun e he => passed e (List.mem_reverse.1 he)⟩
      rw [Hit.bucket]
    | false =>
      have hpassed : ∀ e ∈ (k, v) :: before, same e.1 key = false := by
        intro e he
        rcases List.mem_cons.1 he with rfl | he
        · exact hx.symm
        · exact passed e he
      have hrest := ih ((k, v) :: before) hpassed
      rw [List.reverse_cons, List.append_assoc] at hrest
      exact hrest

theorem yields_find (key : K) (bucket : Bucket K V) :
    Yields (bucket.find cb key) (Finds same key bucket) cb.Raises :=
  yields_scan follows key [] bucket (by simp)

theorem yields_repeats (key : K) (bucket : Bucket K V) :
    Yields (repeats cb key bucket) (· = bucket.any fun e => same key e.1) cb.Raises := by
  induction bucket with
  | nil => exact .pure rfl
  | cons e rest ih =>
    obtain ⟨k, v⟩ := e
    refine (follows.yields_equal key k).bind fun x hx => ?_
    rw [List.any_cons, ← hx]
    cases x with
    | true => exact .pure rfl
    | false => exact ih

/-- The audit of a bucket decides that its entries are at home and differ in their keys. -/
theorem yields_homed (size slot : Nat) (bucket : Bucket K V) :
    Yields (bucket.homed cb size slot)
      (fun b => b = true ↔
        (∀ e ∈ bucket, (hash e.1).toNat % size = slot) ∧ DistinctKeys same bucket) cb.Raises := by
  induction bucket with
  | nil => exact .pure (by simp [DistinctKeys])
  | cons e rest ih =>
    obtain ⟨k, v⟩ := e
    refine (follows.yields_hash k).bind fun h hh => ?_
    rw [hh]
    by_cases hslot : (hash k).toNat % size = slot
    · rw [if_pos hslot]
      refine (yields_repeats follows k rest).bind fun x hx => ?_
      cases x with
      | true =>
        obtain ⟨e, he, hsame⟩ := List.any_eq_true.1 hx.symm
        refine .pure ⟨fun hfalse => Bool.noConfusion hfalse, fun hgood => ?_⟩
        have hdiff : same k e.1 = false := (List.pairwise_cons.1 hgood.2).1 e he
        rw [hdiff] at hsame
        exact hsame
      | false =>
        have hdiff : ∀ e ∈ rest, same k e.1 = false := by
          simpa using List.any_eq_false.1 hx.symm
        refine ih.mono (fun b hb => hb.trans ?_) fun _ he => he
        rw [List.forall_mem_cons, DistinctKeys, DistinctKeys, List.pairwise_cons]
        exact ⟨fun hgood => ⟨⟨hslot, hgood.1⟩, hdiff, hgood.2⟩,
          fun hgood => ⟨hgood.1.2, hgood.2.2⟩⟩
    · rw [if_neg hslot]
      refine .pure ⟨fun hfalse => Bool.noConfusion hfalse, fun hgood => ?_⟩
      exact absurd (hgood.1 (k, v) List.mem_cons_self) hslot

end Bucket

namespace Table

theorem yields_placements (buckets noted : Nat) (entries : List (K × V)) :
    Yields (placements cb buckets noted entries)
      (· = entries.map fun e => ((hash e.1).toNat % buckets, e)) cb.Raises := by
  induction entries generalizing noted with
  | nil => exact .pure rfl
  | cons e rest ih =>
    refine (follows.yields_hash e.1).bind fun h hh => (cb.yields_allocate _).bind fun _ _ => ?_
    refine (ih (noted + 1)).bind fun placed hplaced => .pure ?_
    rw [hh, hplaced, List.map_cons]

omit follows in
theorem yields_reserve (cb : MapCallbacks K V ε σ) (sizes : List Nat) :
    Yields (reserve cb sizes) (fun _ => True) cb.Raises := by
  induction sizes with
  | nil => exact .pure trivial
  | cons n sizes ih =>
    cases n with
    | zero => exact ih
    | succ n => exact (cb.yields_allocate _).bind fun _ _ => ih

/-- A growth that succeeds has been granted the new table. -/
theorem yields_resized (table : Table K V) (buckets : Nat) :
    Yields (table.resized cb buckets)
      (fun t => t = rehomed hash buckets table ∧ cb.Grants (bucketBytes * buckets)) cb.Raises := by
  refine (cb.yields_allocate _).bind fun _ _ => ?_
  refine (yields_placements follows buckets 0 table.entries).bind fun placed hplaced => ?_
  refine (cb.yields_allocate _).bind fun _ hgrant => ?_
  refine (yields_reserve cb _).bind fun _ _ => .pure ⟨?_, hgrant⟩
  rw [hplaced]
  rfl

/-- The buckets from `slot` on are at home and repeat no key. -/
def AreHomed (hash : K → UInt64) (same : K → K → Bool) (size slot : Nat)
    (buckets : List (Bucket K V)) : Prop :=
  ∀ i (h : i < buckets.length),
    (∀ e ∈ buckets[i], (hash e.1).toNat % size = slot + i) ∧ DistinctKeys same buckets[i]

omit follows in
theorem areHomed_cons {size slot : Nat} {bucket : Bucket K V} {rest : List (Bucket K V)} :
    AreHomed hash same size slot (bucket :: rest) ↔
      ((∀ e ∈ bucket, (hash e.1).toNat % size = slot) ∧ DistinctKeys same bucket) ∧
        AreHomed hash same size (slot + 1) rest := by
  constructor
  · intro h
    refine ⟨h 0 (by simp), fun i hi => ?_⟩
    have hnext := h (i + 1) (by simpa using hi)
    rw [Nat.add_right_comm]
    exact hnext
  · rintro ⟨hbucket, hrest⟩ i hi
    cases i with
    | zero => exact hbucket
    | succ i =>
      have hnext := hrest i (by simpa using hi)
      rw [Nat.add_right_comm] at hnext
      exact hnext

theorem yields_countHomed (size slot seen : Nat) (buckets : List (Bucket K V)) :
    Yields (countHomed cb size slot seen buckets)
      (fun n => ∀ total, n = some total ↔
        AreHomed hash same size slot buckets ∧ total = seen + buckets.flatten.length)
      cb.Raises := by
  induction buckets generalizing slot seen with
  | nil => exact .pure fun total => by simp [AreHomed, eq_comm]
  | cons bucket rest ih =>
    refine (Bucket.yields_homed follows size slot bucket).bind fun b hb => ?_
    cases b with
    | true =>
      have hgood := hb.1 rfl
      refine (ih (slot + 1) (seen + bucket.length)).mono (fun n hn total => (hn total).trans ?_)
        fun _ he => he
      rw [areHomed_cons, List.flatten_cons, List.length_append, Nat.add_assoc]
      exact ⟨fun h => ⟨⟨hgood, h.1⟩, h.2⟩, fun h => ⟨h.1.2, h.2⟩⟩
    | false =>
      refine .pure fun total => ⟨fun h => by simp at h, fun h => ?_⟩
      exact absurd (hb.2 (areHomed_cons.1 h.1).1) (by simp)

/-- The audit of a table counts its entries when all are at home and no bucket repeats a key. -/
theorem yields_homed (table : Table K V) :
    Yields (table.homed cb)
      (fun n => ∀ total, n = some total ↔ (table.Homed hash ∧
        ∀ slot, DistinctKeys same (table.bucket slot)) ∧ total = table.entries.length)
      cb.Raises := by
  have hbucket (i : Nat) (hi : i < table.toList.length) : table.toList[i] = table.bucket i := by
    rw [bucket_eq_getElem (by simpa using hi)]
    simp
  have hall : AreHomed hash same table.size 0 table.toList ↔
      table.Homed hash ∧ ∀ slot, DistinctKeys same (table.bucket slot) := by
    constructor
    · intro h
      have hslot (slot : Nat) : (∀ e ∈ table.bucket slot, (hash e.1).toNat % table.size = slot) ∧
          DistinctKeys same (table.bucket slot) := by
        by_cases hlt : slot < table.toList.length
        · have hgood := h slot hlt
          rw [hbucket slot hlt, Nat.zero_add] at hgood
          exact hgood
        · rw [bucket_of_size_le (by simpa using hlt)]
          simp [DistinctKeys]
      exact ⟨fun slot => (hslot slot).1, fun slot => (hslot slot).2⟩
    · rintro ⟨hhomed, hdistinct⟩ i hi
      rw [hbucket i hi, Nat.zero_add]
      exact ⟨hhomed i, hdistinct i⟩
  refine (yields_countHomed follows table.size 0 0 table.toList).mono
    (fun n hn total => (hn total).trans ?_) fun _ he => he
  rw [hall, Nat.zero_add]
  rfl

end Table
end Loops
end LockedContainers
