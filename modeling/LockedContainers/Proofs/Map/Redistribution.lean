import LockedContainers.Proofs.Map.Callbacks
import LockedContainers.Proofs.Map.Effects
import LockedContainers.Proofs.Map.Passes

/-!
# A growth redistributes the entries

Every key is hashed once, in table order, and the entries keep that order in
their new buckets, also when the hashes of a key differ from call to call. A
call that fails comes before the first move. With a pure hasher and twice the
buckets, each old bucket is split between two new ones.
-/
namespace LockedContainers

variable {K V ε σ : Type}

/-! ## The calls -/

/-- The same callbacks, with every hash noted beside their own state, and also a failure. -/
def MapCallbacks.noted (cb : MapCallbacks K V ε σ) :
    MapCallbacks K V ε (σ × List (K × Except ε UInt64)) where
  hash k s :=
    match cb.hash k s.1 with
    | .ok h o => .ok h (o, s.2 ++ [(k, .ok h)])
    | .error e o => .error e (o, s.2 ++ [(k, .error e)])
  equal a b := onPart Prod.fst (fun s o => (o, s.2)) (cb.equal a b)
  copy v := onPart Prod.fst (fun s o => (o, s.2)) (cb.copy v)
  entryBytes := cb.entryBytes
  allocate bytes := onPart Prod.fst (fun s o => (o, s.2)) (cb.allocate bytes)

/-- Noted or not the callback answers and fails alike. What it notes is in `post` with the answer,
or in `failed` with the failure. -/
def Notes {α κ : Type} (act : EStateM ε σ α) (noted : EStateM ε (σ × List κ) α)
    (post : α → List κ → Prop) (failed : ε → List κ → Prop) : Prop :=
  ∀ o made, match act o with
    | .ok a o' => ∃ calls, post a calls ∧ noted (o, made) = .ok a (o', made ++ calls)
    | .error e o' => ∃ calls, failed e calls ∧ noted (o, made) = .error e (o', made ++ calls)

namespace Notes

variable {α β κ : Type} {act : EStateM ε σ α} {noted : EStateM ε (σ × List κ) α}
  {post : α → List κ → Prop} {failed : ε → List κ → Prop}

theorem pure {a : α} (h : post a []) :
    Notes (Pure.pure a : EStateM ε σ α) (Pure.pure a) post failed :=
  fun o made => ⟨[], h, by rw [List.append_nil]; rfl⟩

theorem bind {mid : α → List κ → Prop} {post : β → List κ → Prop} {f : α → EStateM ε σ β}
    {f' : α → EStateM ε (σ × List κ) β} (h : Notes act noted mid failed)
    (hf : ∀ a calls, mid a calls → Notes (f a) (f' a) (fun b more => post b (calls ++ more))
      fun e more => failed e (calls ++ more)) :
    Notes (act >>= f) (noted >>= f') post failed := by
  intro o made
  have ho := h o made
  cases hact : act o with
  | error e o' =>
    rw [hact] at ho
    obtain ⟨calls, hfailed, hnoted⟩ := ho
    rw [bind_of_error _ hact]
    exact ⟨calls, hfailed, bind_of_error _ hnoted⟩
  | ok a o' =>
    rw [hact] at ho
    obtain ⟨calls, hmid, hnoted⟩ := ho
    have hnext := hf a calls hmid o' (made ++ calls)
    rw [bind_of_ok _ hact, bind_of_ok _ hnoted]
    cases hrun : f a o' with
    | ok b o₁ =>
      rw [hrun] at hnext
      obtain ⟨more, hpost, hmore⟩ := hnext
      exact ⟨calls ++ more, hpost, by rw [hmore, List.append_assoc]⟩
    | error e o₁ =>
      rw [hrun] at hnext
      obtain ⟨more, hfailed, hmore⟩ := hnext
      exact ⟨calls ++ more, hfailed, by rw [hmore, List.append_assoc]⟩

theorem mono {failed' : ε → List κ → Prop} (h : Notes act noted post failed)
    (hf : ∀ e calls, failed e calls → failed' e calls) : Notes act noted post failed' := by
  intro o made
  have ho := h o made
  cases hact : act o with
  | ok a o' =>
    rw [hact] at ho
    exact ho
  | error e o' =>
    rw [hact] at ho
    obtain ⟨calls, hfailed, hnoted⟩ := ho
    exact ⟨calls, hf e calls hfailed, hnoted⟩

end Notes

section Calls
variable (cb : MapCallbacks K V ε σ)

theorem MapCallbacks.notes_hash (k : K) : Notes (cb.hash k) (cb.noted.hash k)
    (fun h calls => calls = [(k, .ok h)]) fun e calls => calls = [(k, .error e)] ∧ cb.Raises e := by
  intro o made
  cases h : cb.hash k o with
  | ok x o' => exact ⟨_, rfl, by simp only [noted, h]⟩
  | error e o' => exact ⟨_, ⟨rfl, .inl ⟨k, o, o', h⟩⟩, by simp only [noted, h]⟩

/-- Memory is asked for beside the notes. -/
theorem MapCallbacks.notes_allocate (bytes : Nat) :
    Notes (cb.allocate bytes) (cb.noted.allocate bytes) (fun _ calls => calls = [])
      fun e calls => calls = [] ∧ cb.Raises e := by
  intro o made
  cases h : cb.allocate bytes o with
  | ok u o' =>
    refine ⟨[], rfl, ?_⟩
    rw [List.append_nil]
    exact onPart_ok (s := (o, made)) Prod.fst (fun s o => (o, s.2)) h
  | error e o' =>
    refine ⟨[], ⟨rfl, .inr (.inr (.inr ⟨bytes, o, o', h⟩))⟩, ?_⟩
    rw [List.append_nil]
    exact onPart_error (s := (o, made)) Prod.fst (fun s o => (o, s.2)) h

/-- All keys are hashed in their order, up to one after which there is no going on. -/
theorem Table.notes_notedHashes (noted : Nat) (keys : List K) :
    Notes (notedHashes cb noted keys) (notedHashes cb.noted noted keys)
      (fun hashes calls => hashes.length = keys.length ∧ calls = keys.zip (hashes.map .ok))
      fun e calls => calls.map Prod.fst <+: keys ∧ cb.Raises e := by
  induction keys generalizing noted with
  | nil => exact .pure ⟨rfl, rfl⟩
  | cons k rest ih =>
    refine .bind ((cb.notes_hash k).mono ?_) ?_
    · rintro e _ ⟨rfl, raised⟩
      exact ⟨by simp, raised⟩
    rintro h _ rfl
    refine .bind ((cb.notes_allocate _).mono ?_) ?_
    · rintro e _ ⟨rfl, raised⟩
      exact ⟨by simp, raised⟩
    rintro _ _ rfl
    refine .bind ((ih (noted + 1)).mono ?_) ?_
    · exact fun e calls he => ⟨by simpa using he.1, he.2⟩
    · rintro hashes _ ⟨hlength, rfl⟩
      exact .pure ⟨by simpa using hlength, by simp⟩

theorem Table.notes_reserve (sizes : List Nat) :
    Notes (reserve cb sizes) (reserve cb.noted sizes) (fun _ calls => calls = [])
      fun e calls => calls = [] ∧ cb.Raises e := by
  induction sizes with
  | nil => exact .pure rfl
  | cons n sizes ih =>
    cases n with
    | zero => exact ih
    | succ n =>
      refine .bind (cb.notes_allocate _) ?_
      rintro _ _ rfl
      exact ih

theorem Table.notes_inquire (buckets : Nat) (table : Table K V) :
    Notes (table.inquire cb buckets) (table.inquire cb.noted buckets)
      (fun hashes calls => hashes.length = table.entries.length ∧
        calls = (table.entries.map Prod.fst).zip (hashes.map .ok))
      fun e calls => calls.map Prod.fst <+: table.entries.map Prod.fst ∧ cb.Raises e := by
  refine .bind ((cb.notes_allocate _).mono ?_) ?_
  · rintro e _ ⟨rfl, raised⟩
    exact ⟨by simp, raised⟩
  rintro _ _ rfl
  refine .bind (notes_notedHashes cb 0 _) ?_
  rintro hashes _ ⟨hlength, rfl⟩
  have hall : ((table.entries.map Prod.fst).zip
      (hashes.map (Except.ok : UInt64 → Except ε UInt64))).map Prod.fst =
        table.entries.map Prod.fst := List.map_fst_zip (by simp [hlength])
  refine .bind ((cb.notes_allocate _).mono ?_) ?_
  · rintro e _ ⟨rfl, raised⟩
    rw [List.nil_append, List.append_nil, hall]
    exact ⟨List.prefix_refl _, raised⟩
  rintro _ _ rfl
  refine .bind ((notes_reserve cb _).mono ?_) ?_
  · rintro e _ ⟨rfl, raised⟩
    rw [List.nil_append, List.nil_append, List.append_nil, hall]
    exact ⟨List.prefix_refl _, raised⟩
  rintro _ _ rfl
  exact .pure ⟨by simpa using hlength, by simp⟩

end Calls

/-- With twice the buckets the residue is as before or greater by the old number of buckets. -/
theorem mod_mul_two_eq_iff {h buckets i : Nat} (hi : i < buckets) :
    (h % (buckets * 2) = i ↔ h % (buckets * 2) < buckets ∧ h % buckets = i) ∧
      (h % (buckets * 2) = i + buckets ↔ ¬ h % (buckets * 2) < buckets ∧ h % buckets = i) := by
  have hlt : h % buckets < buckets := Nat.mod_lt _ (by omega)
  have hmod : h % (buckets * 2) = h % buckets + buckets * (h / buckets % 2) := Nat.mod_mul
  rcases Nat.mod_two_eq_zero_or_one (h / buckets) with hbit | hbit
  · rw [hbit, Nat.mul_zero] at hmod
    omega
  · rw [hbit, Nat.mul_one] at hmod
    omega

/-! ## The redistribution -/

/-- The first new buckets have what stays of the old ones and the others what leaves them, each part
in its old order, and every entry is at home. -/
structure Table.Halved (hash : K → UInt64) (table fresh : Table K V) : Prop where
  homed : fresh.Homed hash
  lower : ∀ i < table.size, fresh.bucket i =
    (table.bucket i).filter fun e => (hash e.1).toNat % (table.size * 2) < table.size
  upper : ∀ i < table.size, fresh.bucket (i + table.size) =
    (table.bucket i).filter fun e => ¬ (hash e.1).toNat % (table.size * 2) < table.size

/-- Both passes have come to their end: every key was hashed once, in table order, and the bucket at
a slot has the entries whose hashes select it, in table order. -/
structure Redistributed (husk : K × V → K × V) (cb : MapCallbacks K V ε σ) (table : Table K V)
    (buckets : Nat) (o : σ) (hashes : List UInt64) (fresh : Array (Storage K V)) (o' : σ) :
    Prop where
  run : Table.rehash husk cb buckets ⟨table, o⟩ = .ok (some fresh) ⟨table.map (List.map husk), o'⟩
  noted : Table.rehash husk cb.noted buckets ⟨table, (o, [])⟩ =
    .ok (some fresh) ⟨table.map (List.map husk),
      (o', (table.entries.map Prod.fst).zip (hashes.map .ok))⟩
  answered : hashes.length = table.entries.length
  size : fresh.size = buckets
  stable : ∀ j, Table.bucket (fresh.map Storage.entries) j =
    ((table.entries.zip hashes).filter fun (_, h) => h.toNat % buckets = j).map Prod.fst
  /-- The first pass has counted what the second moves. -/
  reserved : ∀ j (hj : j < fresh.size),
    fresh[j].capacity = hashes.countP (·.toNat % buckets = j) ∧
      fresh[j].entries.length = fresh[j].capacity
  resized : table.resized cb buckets o = .ok (fresh.map Storage.entries) o'
  /-- A map that grows so installs these buckets. -/
  installed : ∀ (l : Locking) (map : LockedMap l K V), map.table = table →
    buckets = table.size * 2 → LockedMap.double cb ⟨map, o⟩ =
      .ok () ⟨{ map with table := fresh.map Storage.entries, growths := map.growths + 1 }, o'⟩
  halved : ∀ hash : K → UInt64, (∀ k o h o', cb.hash k o = .ok h o' → h = hash k) →
    table.Homed hash → buckets = table.size * 2 → table.Halved hash (fresh.map Storage.entries)

/-- A call has failed: the table is as it was, and each key was hashed at most once, in table
order. -/
structure Foiled (husk : K × V → K × V) (cb : MapCallbacks K V ε σ) (table : Table K V)
    (buckets : Nat) (o : σ) (e : ε) (calls : List (K × Except ε UInt64)) (o' : σ) : Prop where
  run : Table.rehash husk cb buckets ⟨table, o⟩ = .error e ⟨table, o'⟩
  noted : Table.rehash husk cb.noted buckets ⟨table, (o, [])⟩ = .error e ⟨table, (o', calls)⟩
  once : calls.map Prod.fst <+: table.entries.map Prod.fst
  raised : cb.Raises e
  resized : table.resized cb buckets o = .error e o'
  /-- A map that grows so is left alone. -/
  kept : ∀ (l : Locking) (map : LockedMap l K V), map.table = table →
    buckets = table.size * 2 → LockedMap.double cb ⟨map, o⟩ = .error (.callback e) ⟨map, o'⟩

namespace Table
variable {cb : MapCallbacks K V ε σ} {table : Table K V} {buckets : Nat} {hashes : List UInt64}
  {o o' : σ}

/-- A pure hasher answers for every key alike. -/
theorem eq_map_hash {hash : K → UInt64} (pure : ∀ k o h o', cb.hash k o = .ok h o' → h = hash k)
    (h : table.inquire cb buckets o = .ok hashes o') :
    hashes = table.entries.map fun e => hash e.1 := by
  have hkeys (noted : Nat) (keys : List K) :
      Yields (notedHashes cb noted keys) (· = keys.map hash) fun _ => True := by
    induction keys generalizing noted with
    | nil => exact .pure rfl
    | cons k rest ih =>
      have hk : Yields (cb.hash k) (· = hash k) fun _ => True := by
        intro o
        cases hrun : cb.hash k o with
        | ok x o' => exact pure k o x o' hrun
        | error e o' => trivial
      apply hk.bind
      rintro _ rfl
      apply (Yields.any _).bind
      intro _ _
      apply (ih (noted + 1)).bind
      rintro _ rfl
      exact .pure rfl
  have hcalls : Yields (table.inquire cb buckets) (· = table.entries.map fun e => hash e.1)
      fun _ => True := by
    apply (Yields.any _).bind
    intro _ _
    apply (hkeys 0 _).bind
    rintro _ rfl
    apply (Yields.any _).bind
    intro _ _
    exact (Yields.any _).bind fun _ _ => .pure (List.map_map ..)
  have ho := hcalls o
  rw [h] at ho
  exact ho

theorem placed_map_hash (hash : K → UInt64) (buckets : Nat) (entries : List (K × V)) :
    placed buckets entries (entries.map fun e => hash e.1) =
      entries.map fun e => ((hash e.1).toNat % buckets, e) := by
  induction entries with
  | nil => rfl
  | cons e rest ih => rw [List.map_cons, List.map_cons, ← ih, placed, placed, List.zip_cons_cons,
      List.map_cons]

/-- Every old bucket is split between the two new ones that its slot leads to. -/
theorem halved_rehomed {hash : K → UInt64} (roomy : 0 < table.size) (homed : table.Homed hash) :
    table.Halved hash (rehomed hash (table.size * 2) table) := by
  have hpos : 0 < table.size * 2 := Nat.mul_pos roomy (by decide)
  have hbucket (j : Nat) : (rehomed hash (table.size * 2) table).bucket j =
      table.entries.filter fun e => (hash e.1).toNat % (table.size * 2) = j := by
    rw [rehomed, bucket_distribute (placed_lt hash hpos table.entries), List.filter_map,
      List.map_map]
    exact List.map_id _
  refine ⟨rehomed_homed hpos, fun i hi => ?_, fun i hi => ?_⟩
  · rw [hbucket, ← homed.filter_entries hi, List.filter_filter]
    apply List.filter_congr
    intro e _
    rw [← Bool.decide_and]
    exact decide_eq_decide.2 (mod_mul_two_eq_iff hi).1
  · rw [hbucket, ← homed.filter_entries hi, List.filter_filter]
    apply List.filter_congr
    intro e _
    rw [← Bool.decide_and]
    exact decide_eq_decide.2 (mod_mul_two_eq_iff hi).2

theorem double_eq {l : Locking} (cb : MapCallbacks K V ε σ) (map : LockedMap l K V) (o : σ) :
    LockedMap.double cb ⟨map, o⟩ = match map.table.inquire cb (map.table.size * 2) o with
      | .ok hashes o' => .ok () ⟨{ map with
          table := distribute (map.table.size * 2)
            (placed (map.table.size * 2) map.table.entries hashes)
          growths := map.growths + 1 }, o'⟩
      | .error e o' => .error (.callback e) ⟨map, o'⟩ := by
  simp only [LockedMap.double, Guarded.read, bind, EStateM.bind, Guarded.ask_eq, resized_eq,
    Functor.map, EStateM.map]
  cases map.table.inquire cb (map.table.size * 2) o <;> rfl

end Table

/-- A growth shares the entries out among the new buckets and keeps their order, or it fails before
the first move. -/
theorem rehash_redistributes (husk : K × V → K × V) (cb : MapCallbacks K V ε σ) (table : Table K V)
    {buckets : Nat} (positive : 0 < buckets) (o : σ) :
    (∃ hashes fresh o', Redistributed husk cb table buckets o hashes fresh o') ∨
      ∃ e calls o', Foiled husk cb table buckets o e calls o' := by
  have hnotes := Table.notes_inquire cb buckets table o []
  cases hinquire : table.inquire cb buckets o with
  | error e o' =>
    rw [hinquire] at hnotes
    obtain ⟨calls, ⟨once, raised⟩, hnoted⟩ := hnotes
    refine .inr ⟨e, calls, o', Table.rehash_of_error husk hinquire,
      Table.rehash_of_error husk hnoted, once, raised, ?_, ?_⟩
    · rw [Table.resized_eq, map_eq_pure_bind, bind_of_error _ hinquire]
    · rintro l map rfl rfl
      rw [Table.double_eq, hinquire]
  | ok hashes o' =>
    rw [hinquire] at hnotes
    obtain ⟨_, ⟨answered, rfl⟩, hnoted⟩ := hnotes
    refine .inl ⟨hashes, Table.filled buckets table hashes, o', ?_⟩
    constructor
    · exact Table.rehash_of_ok husk positive answered hinquire
    · exact Table.rehash_of_ok husk positive answered hnoted
    · exact answered
    · simp [Table.filled, Transfer.after]
    · intro j
      rw [Table.map_entries_filled positive]
      exact Table.bucket_distribute_placed positive _ _ j
    · exact fun j hj => Table.capacity_filled answered hj
    · rw [Table.resized_eq, map_eq_pure_bind, bind_of_ok _ hinquire,
        Table.map_entries_filled positive]
      rfl
    · rintro l map rfl rfl
      rw [Table.double_eq, hinquire, Table.map_entries_filled positive]
    · rintro hash pure homed rfl
      rw [Table.map_entries_filled positive, Table.eq_map_hash pure hinquire, Table.placed_map_hash]
      exact Table.halved_rehomed (by omega) homed

/-- Answers a call for a hash with the number of the calls before it, but fails after so many. -/
def MapCallbacks.counting (limit : Nat) : MapCallbacks Nat Nat Unit Nat where
  hash _ calls := if calls < limit then .ok (.ofNat calls) (calls + 1) else .error () calls
  equal a b := pure (a == b)
  copy v := pure v
  entryBytes := 8
  allocate _ := pure ()

/-- Two buckets, with one key in both. -/
def Table.ofFour : Table Nat Nat := #[[(5, 0), (6, 1)], [(5, 2), (8, 3)]]

/-- An entry whose value has been moved away. -/
def Table.cleared (e : Nat × Nat) : Nat × Nat := (e.1, 0)

/-- The slots go round, and a hasher that fails leaves the table as it is. -/
theorem rehash_redistributes_counting :
    0 < 3 ∧
      (∃ hashes fresh o', Redistributed Table.cleared (.counting 4) .ofFour 3 0 hashes fresh o' ∧
        fresh = #[⟨[(5, 0), (8, 3)], 2⟩, ⟨[(6, 1)], 1⟩, ⟨[(5, 2)], 1⟩]) ∧
      ∃ e calls o', Foiled Table.cleared (.counting 2) .ofFour 3 0 e calls o' ∧
        calls = [(5, .ok 0), (6, .ok 1), (5, .error ())] := by
  have hcarried : (match Table.rehash Table.cleared (.counting 4) 3 ⟨.ofFour, 0⟩ with
      | .ok fresh _ => fresh
      | .error _ _ => none) =
      some #[⟨[(5, 0), (8, 3)], 2⟩, ⟨[(6, 1)], 1⟩, ⟨[(5, 2)], 1⟩] := by decide +kernel
  have hfailed : Table.rehash Table.cleared (MapCallbacks.counting 2).noted 3 ⟨.ofFour, (0, [])⟩ =
      .error () ⟨.ofFour, (2, [(5, .ok 0), (6, .ok 1), (5, .error ())])⟩ := rfl
  refine ⟨by decide, ?_, ?_⟩
  · rcases rehash_redistributes Table.cleared (.counting 4) .ofFour
        (by decide : 0 < 3) 0 with ⟨hashes, fresh, o', h⟩ | ⟨e, calls, o', h⟩
    · rw [h.run] at hcarried
      exact ⟨hashes, fresh, o', h, Option.some.inj hcarried⟩
    · rw [h.run] at hcarried
      cases hcarried
  · rcases rehash_redistributes Table.cleared (.counting 2) .ofFour
        (by decide : 0 < 3) 0 with ⟨hashes, fresh, o', h⟩ | ⟨e, calls, o', h⟩
    · cases h.noted.symm.trans hfailed
    · cases h.noted.symm.trans hfailed
      exact ⟨_, _, _, h, rfl⟩

end LockedContainers
