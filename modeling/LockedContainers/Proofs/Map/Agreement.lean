import LockedContainers.Proofs.Map.Load

/-!
# The two maps, request by request

While no callback fails and memory is granted, one function says what a request
does to a map, and it is the same for both ways of locking. An insertion that
gives its stripe up, grows the table and starts over finds no more of its key
than before and room for one entry, so it ends where one growth and an append
end.
-/
namespace LockedContainers

variable {l : Locking} {K V C ε σ α β : Type}

/-- A callback failed, or memory was refused. -/
def MapFailure.IsCallback : MapFailure ε → Prop
  | callback _ => True
  | _ => False

namespace Bucket

variable {same : K → K → Bool}

/-- The first entry with an equal key. -/
def hit? (same : K → K → Bool) (key : K) : Bucket K V → Option (Hit K V)
  | [] => none
  | (k, v) :: after =>
    if same k key then some ⟨[], k, v, after⟩
    else (hit? same key after).map fun hit => { hit with before := (k, v) :: hit.before }

theorem hit?_eq_none {key : K} {bucket : Bucket K V} :
    bucket.hit? same key = none ↔ ∀ e ∈ bucket, same e.1 key = false := by
  induction bucket with
  | nil => simp [hit?]
  | cons e after ih =>
    obtain ⟨k, v⟩ := e
    rw [hit?, List.forall_mem_cons]
    cases hk : same k key with
    | true => simp
    | false => simp [ih]

/-- A hit is a cut of the bucket. -/
theorem bucket_of_hit? {key : K} {bucket : Bucket K V} {hit : Hit K V}
    (h : bucket.hit? same key = some hit) : hit.bucket = bucket := by
  induction bucket generalizing hit with
  | nil => cases h
  | cons e after ih =>
    obtain ⟨k, v⟩ := e
    rw [hit?] at h
    cases hk : same k key with
    | true =>
      rw [hk] at h
      cases h
      rfl
    | false =>
      rw [hk, if_neg Bool.false_ne_true, Option.map_eq_some_iff] at h
      obtain ⟨rest, hrest, rfl⟩ := h
      exact congrArg ((k, v) :: ·) (ih hrest)

theorem yields_scan_hit? {cb : MapCallbacks K V ε σ} {hash : K → UInt64}
    (follows : cb.Follows hash same) (key : K) (before after : Bucket K V) :
    Yields (scan cb key before after)
      (· = (after.hit? same key).map fun hit => { hit with before := before.reverse ++ hit.before })
      cb.Raises := by
  induction after generalizing before with
  | nil => exact .pure rfl
  | cons e after ih =>
    obtain ⟨k, v⟩ := e
    apply (follows.yields_equal k key).bind
    intro x hx
    rw [hit?, ← hx]
    cases x with
    | true => exact .pure (by simp)
    | false =>
      apply (ih ((k, v) :: before)).mono _ fun _ he => he
      intro found hfound
      rw [hfound]
      simp [Function.comp_def]

theorem yields_find_hit? {cb : MapCallbacks K V ε σ} {hash : K → UInt64}
    (follows : cb.Follows hash same) (key : K) (bucket : Bucket K V) :
    Yields (bucket.find cb key) (· = bucket.hit? same key) cb.Raises := by
  apply (yields_scan_hit? follows key [] bucket).mono _ fun _ he => he
  intro found hfound
  rw [hfound]
  simp

end Bucket

/-- A key that is missing from its bucket is missing from the half of it where it goes when the
table is doubled, whether or not equal keys have equal hashes. -/
theorem Table.Homed.missing {hash : K → UInt64} {same : K → K → Bool} {table : Table K V} {key : K}
    (homed : table.Homed hash) (roomy : 0 < table.size)
    (missing : ∀ e ∈ table.bucket ((hash key).toNat % table.size), same e.1 key = false) :
    ∀ e ∈ (table.rehomed hash (table.size * 2)).bucket ((hash key).toNat % (table.size * 2)),
      same e.1 key = false := by
  intro e he
  have hpos : 0 < table.size * 2 := by omega
  have hmem : e ∈ table.entries :=
    (Table.entries_rehomed_perm hpos).mem_iff.1 (Table.mem_entries.2 ⟨_, he⟩)
  have hhome := Table.rehomed_homed hpos _ e he
  rw [Table.size_rehomed hpos] at hhome
  have hold : (hash e.1).toNat % table.size = (hash key).toNat % table.size := by
    rw [← Nat.mod_mul_right_mod _ table.size 2, hhome, Nat.mod_mul_right_mod]
  apply missing
  rw [← hold]
  exact homed.mem_bucket hmem

namespace LockedMap

section Foreseen
variable (hash : K → UInt64) (same : K → K → Bool) (map : LockedMap l K V) (key : K)

def home : Nat := (hash key).toNat % map.table.size

/-- The entry that a look-up finds. -/
def found : Option (Hit K V) := (map.table.bucket (map.home hash key)).hit? same key

def doubled : LockedMap l K V :=
  { map with
    table := map.table.rehomed hash (map.table.size * 2)
    growths := map.growths + 1 }

/-- Doubled if one entry more is too many. -/
def enlarged : LockedMap l K V := if map.isFull then map.doubled hash else map

/-- What a put makes of the map. -/
def afterPut (value : V) : LockedMap l K V :=
  match map.found hash same key with
  | some hit => map.overwritten (map.home hash key) hit value
  | none => (map.enlarged hash).linked ((map.enlarged hash).home hash key) key value

/-- What a remove makes of the map. -/
def afterRemove : LockedMap l K V :=
  match map.found hash same key with
  | some hit => map.unlinked (map.home hash key) hit
  | none => map

/-- What an audit asks of a table and its counter. -/
def Orderly : Prop :=
  (map.table.Homed hash ∧ ∀ slot, DistinctKeys same (map.table.bucket slot)) ∧
    map.count = map.table.entries.length

open Classical in
/-- The answer to a request and the map after it, for either way of locking. -/
noncomputable def foreseen : MapRequest K V → MapAnswer V × LockedMap l K V
  | .put key value => (.value ((map.found hash same key).map Hit.value), map.afterPut hash same key value)
  | .get key => (.value ((map.found hash same key).map Hit.value), map)
  | .remove key => (.value ((map.found hash same key).map Hit.value), map.afterRemove hash same key)
  | .contains key => (.flag (map.found hash same key).isSome, map)
  | .size => (.count map.count, map)
  | .isEmpty => (.flag (map.count = 0), map)
  | .bucketCount => (.count map.table.size, map)
  | .growthCount => (.count map.growths, map)
  | .loadFactor => (.factor ((Binary64.ofNat map.count).div (.ofNat map.table.size)), map)
  | .options => (.options map.options, map)
  | .audit => (.flag (map.Orderly hash same), map)

end Foreseen

/-- A map that has buckets enough for its entries and its stripes, and every entry at home. -/
structure Settled (hash : K → UInt64) (options : MapOptions) (map : LockedMap l K V) : Prop where
  roomy : 0 < map.table.size
  homed : map.table.Homed hash
  fits : Fits options map
  even : map.table.size % options.stripes.toNat = 0

section Settled
variable {hash : K → UInt64} {same : K → K → Bool} {options : MapOptions} {map : LockedMap l K V}
  {key : K}

theorem doubled_doubled (roomy : 0 < map.table.size) : Doubled map (map.doubled hash) :=
  ⟨rfl, rfl, rfl, Table.size_rehomed (by omega), Table.entries_rehomed_perm (by omega)⟩

namespace Settled

theorem home_lt (h : map.Settled hash options) : map.home hash key < map.table.size :=
  Nat.mod_lt _ h.roomy

theorem doubled (h : map.Settled hash options) (positive : options.Positive) :
    (map.doubled hash).Settled hash options := by
  have hdoubled : Doubled map (map.doubled hash) := doubled_doubled h.roomy
  have hsize := hdoubled.size
  constructor
  · rw [hsize]
    exact Nat.mul_pos h.roomy (by decide)
  · exact Table.rehomed_homed (Nat.mul_pos h.roomy (by decide))
  · exact h.fits.relaxed positive rfl (Nat.le_refl _) (by omega)
  · rw [hsize, Nat.mul_mod, h.even]
    simp

theorem enlarged (h : map.Settled hash options) (positive : options.Positive) :
    (map.enlarged hash).Settled hash options := by
  rw [LockedMap.enlarged]
  split
  · exact h.doubled positive
  · exact h

/-- A map that was full is not full when it is doubled. -/
theorem not_isFull_enlarged (h : map.Settled hash options) (ample : options.Ample .monitor) :
    ¬ (map.enlarged hash).isFull := by
  rw [LockedMap.enlarged]
  split
  · exact h.fits.not_isFull_of_doubled ample (doubled_doubled h.roomy)
  · assumption

theorem found_doubled (h : map.Settled hash options) (missing : map.found hash same key = none) :
    (map.doubled hash).found hash same key = none := by
  rw [found, Bucket.hit?_eq_none] at missing ⊢
  rw [home, (doubled_doubled h.roomy).size]
  exact h.homed.missing h.roomy missing

theorem afterPut (h : map.Settled hash options) (ample : options.Ample .monitor) (key : K)
    (value : V) : (map.afterPut hash same key value).Settled hash options := by
  rw [LockedMap.afterPut]
  cases hfound : map.found hash same key with
  | some hit =>
    have cut := Bucket.bucket_of_hit? hfound
    constructor
    · simpa using h.roomy
    · exact h.homed.replaced h.home_lt cut value
    · exact h.fits.relaxed ample.positive rfl (Nat.le_refl _) (by simp)
    · simpa using h.even
  | none =>
    have henlarged := h.enlarged ample.positive
    constructor
    · simpa using henlarged.roomy
    · exact henlarged.homed.append henlarged.home_lt rfl
    · exact henlarged.fits.placed ample.positive (.link henlarged.home_lt)
        fun _ => h.not_isFull_enlarged ample
    · simpa using henlarged.even

theorem afterRemove (h : map.Settled hash options) (positive : options.Positive) (key : K) :
    (map.afterRemove hash same key).Settled hash options := by
  rw [LockedMap.afterRemove]
  cases hfound : map.found hash same key with
  | some hit =>
    have cut := Bucket.bucket_of_hit? hfound
    constructor
    · simpa using h.roomy
    · exact h.homed.removed h.home_lt cut
    · exact h.fits.taken positive (.unlink h.home_lt cut)
    · simpa using h.even
  | none => exact h

theorem foreseen (h : map.Settled hash options) (ample : options.Ample .monitor)
    (request : MapRequest K V) : (map.foreseen hash same request).2.Settled hash options := by
  cases request with
  | put key value => exact h.afterPut ample key value
  | remove key => exact h.afterRemove ample.positive key
  | _ => exact h

end Settled
end Settled

/-! ## Operations that do what is foreseen -/

/-- The operation gives this answer and this map, unless a callback fails. -/
def ComesTo (map : LockedMap l K V) (op : MapSection l K V ε σ α) (next : α × LockedMap l K V) :
    Prop :=
  Ends map op (fun a map' => (a, map') = next) fun f _ => f.IsCallback

namespace ComesTo

variable {c c' : LockedMap l K V}

theorem pure {a : α} : ComesTo c (Pure.pure a : MapSection l K V ε σ α) (a, c) :=
  Ends.pure rfl

theorem map {op : MapSection l K V ε σ α} {a : α} (f : α → β) (h : ComesTo c op (a, c')) :
    ComesTo c (f <$> op) (f a, c') := by
  apply Ends.map
  apply h.mono _ fun _ _ hf => hf
  rintro b c'' ⟨rfl, rfl⟩
  rfl

theorem bind {op : MapSection l K V ε σ α} {a : α} {f : α → MapSection l K V ε σ β}
    {next : β × LockedMap l K V} (h : ComesTo c op (a, c')) (hf : ComesTo c' (f a) next) :
    ComesTo c (op >>= f) next := by
  apply Ends.bind h
  rintro b c'' ⟨rfl, rfl⟩
  exact hf

theorem read_bind {f : LockedMap l K V → MapSection l K V ε σ β} {next : β × LockedMap l K V}
    (h : ComesTo c (f c) next) : ComesTo c (Guarded.read >>= f) next :=
  Ends.read_bind h

theorem modify {f : LockedMap l K V → LockedMap l K V} :
    ComesTo c (Guarded.modify f : MapSection l K V ε σ Unit) ((), f c) :=
  fun _ => rfl

/-- A callback that answers by a function. -/
theorem ask {cb : MapCallbacks K V ε σ} {act : EStateM ε σ α} {a : α}
    (h : Yields act (· = a) cb.Raises) :
    ComesTo c (Guarded.ask act : MapSection l K V ε σ α) (a, c) := by
  apply (Ends.ask h fun _ _ => trivial).mono _ fun _ _ hf => hf
  rintro b c' ⟨rfl, rfl⟩
  rfl

end ComesTo

section Operations
variable {cb : MapCallbacks K V ε σ} {hash : K → UInt64} {same : K → K → Bool}
  (follows : cb.Follows hash same) {options : MapOptions} {map : LockedMap l K V}
include follows

theorem comesTo_lookup (roomy : 0 < map.table.size) (key : K) :
    ComesTo map (lookup cb (hash key) key) ((map.home hash key, map.found hash same key), map) := by
  apply ComesTo.read_bind
  rw [Table.slot_eq roomy, pure_bind]
  exact (ComesTo.ask (Bucket.yields_find_hit? follows key _)).bind .pure

/-- What follows the look-up of a key sees the entry that is found. -/
theorem comesTo_locate (roomy : 0 < map.table.size) (key : K)
    {next : Nat × Option (Hit K V) → MapSection l K V ε σ β} {last : β × LockedMap l K V}
    (h : ComesTo map (next (map.home hash key, map.found hash same key)) last) :
    ComesTo map (Guarded.ask (cb.hash key) >>= fun x => lookup cb x key >>= next) last :=
  (ComesTo.ask (follows.yields_hash key)).bind ((comesTo_lookup follows roomy key).bind h)

theorem comesTo_get (roomy : 0 < map.table.size) (key : K) :
    ComesTo map (get cb key) ((map.found hash same key).map Hit.value, map) := by
  apply comesTo_locate follows roomy key
  cases map.found hash same key with
  | some hit => exact (ComesTo.ask (follows.yields_copy hit.value)).map some
  | none => exact .pure

theorem comesTo_contains (roomy : 0 < map.table.size) (key : K) :
    ComesTo map (contains cb key) ((map.found hash same key).isSome, map) :=
  comesTo_locate follows roomy key .pure

theorem comesTo_remove (roomy : 0 < map.table.size) (key : K) :
    ComesTo map (remove cb key)
      ((map.found hash same key).map Hit.value, map.afterRemove hash same key) := by
  apply comesTo_locate follows roomy key
  rw [afterRemove]
  cases map.found hash same key with
  | some hit => exact ComesTo.modify.bind .pure
  | none => exact .pure

theorem comesTo_double : ComesTo map (double cb) ((), map.doubled hash) := by
  apply ComesTo.read_bind
  have hresized := (Table.yields_resized follows map.table (map.table.size * 2)).mono
    (fun _ h => h.1) fun _ he => he
  exact (ComesTo.ask hresized).bind ComesTo.modify

omit follows in
theorem comesTo_link (cb : MapCallbacks K V ε σ) (slot : Nat) (key : K) (value : V) :
    ComesTo map (link cb slot key value) ((), map.linked slot key value) := by
  rw [link, makeRoom, bind_assoc]
  apply ComesTo.read_bind
  have hgrant (bytes : Nat) : Yields (cb.allocate bytes) (· = ()) cb.Raises :=
    (cb.yields_allocate bytes).mono (fun _ _ => rfl) fun _ he => he
  exact (ComesTo.ask (hgrant _)).bind ComesTo.modify

open Classical in
theorem comesTo_auditTable :
    ComesTo map (auditTable cb) (decide (map.Orderly hash same), map) := by
  apply ComesTo.read_bind
  apply Ends.bind (Ends.ask (Table.yields_homed follows map.table) fun _ _ => trivial)
  rintro n map' ⟨hn, rfl⟩
  exact Ends.pure (Prod.ext (decide_eq_decide.2 (hn map'.count)) rfl)

end Operations
end LockedMap

section Puts
variable {cb : MapCallbacks K V ε σ} {hash : K → UInt64} {same : K → K → Bool}
  (follows : cb.Follows hash same) {options : MapOptions}
include follows

theorem MonitorMap.comesTo_put {map : MonitorMap K V} (h : map.Settled hash options)
    (positive : options.Positive) (key : K) (value : V) :
    map.ComesTo (MonitorMap.put cb key value)
      ((map.found hash same key).map Hit.value, map.afterPut hash same key value) := by
  apply LockedMap.comesTo_locate follows h.roomy key
  rw [LockedMap.afterPut]
  cases map.found hash same key with
  | some hit => exact LockedMap.ComesTo.modify.bind .pure
  | none =>
    apply LockedMap.ComesTo.read_bind
    rw [LockedMap.enlarged]
    by_cases hfull : map.isFull
    · have hroomy := (h.doubled positive).roomy
      rw [if_pos hfull, if_pos hfull]
      apply (LockedMap.comesTo_double follows).bind
      apply (LockedMap.ComesTo.ask (follows.yields_hash key)).bind
      apply LockedMap.ComesTo.read_bind
      rw [Table.slot_eq hroomy, pure_bind]
      exact (LockedMap.comesTo_link cb _ key value).bind .pure
    · rw [if_neg hfull, if_neg hfull]
      exact (LockedMap.comesTo_link cb _ key value).bind .pure

namespace StripedMap
variable {map : StripedMap K V}

/-- An attempt overwrites an entry that is found; another one it links, if there is room. -/
theorem comesTo_attempt (roomy : 0 < map.table.size) (key : K) (value : V) :
    map.ComesTo (attempt cb (hash key) key value)
      (match map.found hash same key with
        | some hit => (.done (some hit.value), map.overwritten (map.home hash key) hit value)
        | none =>
          if map.isFull then (.full map.table.size, map)
          else (.done none, map.linked (map.home hash key) key value)) := by
  apply (LockedMap.comesTo_lookup follows roomy key).bind
  cases map.found hash same key with
  | some hit => exact LockedMap.ComesTo.modify.bind .pure
  | none =>
    apply LockedMap.ComesTo.read_bind
    by_cases hfull : map.isFull
    · simp only [if_pos hfull]
      exact .pure
    · simp only [if_neg hfull]
      exact (LockedMap.comesTo_link cb _ key value).bind .pure

theorem comesTo_grow (full : map.isFull) :
    map.ComesTo (grow cb map.table.size) ((), map.doubled hash) := by
  apply LockedMap.ComesTo.read_bind
  rw [full, if_pos (by simp)]
  exact LockedMap.comesTo_double follows

/-- Two attempts are enough: the second one finds room, and no entry that the first one missed. -/
theorem comesTo_put (h : map.Settled hash options) (ample : options.Ample .monitor) (key : K)
    (value : V) :
    map.ComesTo (put cb key value)
      ((map.found hash same key).map Hit.value, map.afterPut hash same key value) := by
  apply (LockedMap.ComesTo.ask (follows.yields_hash key)).bind
  have hattempt := comesTo_attempt follows h.roomy key value
  rw [LockedMap.afterPut]
  cases hfound : map.found hash same key with
  | some hit =>
    rw [hfound] at hattempt
    exact hattempt.bind .pure
  | none =>
    have hroom := h.not_isFull_enlarged ample
    rw [hfound] at hattempt
    rw [LockedMap.enlarged] at hroom ⊢
    by_cases hfull : map.isFull
    · rw [if_pos hfull] at hroom ⊢
      simp only [if_pos hfull] at hattempt
      have hagain := comesTo_attempt follows (h.doubled ample.positive).roomy key value
      rw [h.found_doubled hfound] at hagain
      simp only [if_neg hroom] at hagain
      exact hattempt.bind ((comesTo_grow follows hfull).bind (hagain.bind .pure))
    · rw [if_neg hfull] at hroom ⊢
      simp only [if_neg hfull] at hattempt
      exact hattempt.bind .pure

end StripedMap

namespace LockedMap
variable {map : LockedMap l K V}

theorem comesTo_put (h : map.Settled hash options) (ample : options.Ample .monitor) (key : K)
    (value : V) :
    ComesTo map (put cb key value)
      ((map.found hash same key).map Hit.value, map.afterPut hash same key value) := by
  cases l with
  | monitor => exact MonitorMap.comesTo_put follows h ample.positive key value
  | striped => exact StripedMap.comesTo_put follows h ample key value

open Classical in
theorem comesTo_audit (h : map.Settled hash options) :
    ComesTo map (audit cb) (decide (map.Orderly hash same), map) := by
  cases l with
  | monitor => exact comesTo_auditTable follows
  | striped =>
    apply ComesTo.read_bind
    rw [StripedMap.stripes, h.fits.kept, if_pos h.even]
    exact comesTo_auditTable follows

/-- Every request does what is foreseen. -/
theorem comesTo_perform (h : map.Settled hash options) (ample : options.Ample .monitor)
    (request : MapRequest K V) :
    ComesTo map (request.perform cb) (map.foreseen hash same request) := by
  cases request with
  | put key value => exact (comesTo_put follows h ample key value).map MapAnswer.value
  | get key => exact (comesTo_get follows h.roomy key).map MapAnswer.value
  | remove key => exact (comesTo_remove follows h.roomy key).map MapAnswer.value
  | contains key => exact (comesTo_contains follows h.roomy key).map MapAnswer.flag
  | audit => exact (comesTo_audit follows h).map MapAnswer.flag
  | _ => exact fun _ => rfl

end LockedMap
end Puts

/-! ## Runs -/

section Runs
variable {foreseen : C → α → β × C} {excused : ε → Prop} {operation : α → Guarded C ε σ β}

/-- The answers in a run where everything comes as foreseen, and the state after it. -/
def forecast (foreseen : C → α → β × C) : C → List α → List (α × β) × C
  | c, [] => ([], c)
  | c, r :: rest =>
    ((r, (foreseen c r).1) :: (forecast foreseen (foreseen c r).2 rest).1,
      (forecast foreseen (foreseen c r).2 rest).2)

/-- A run without an excused failure is as foreseen. -/
theorem serve_eq_forecast (I : C → Prop)
    (step : ∀ c r, I c → I (foreseen c r).2 ∧
      Ends c (operation r) (fun a c' => (a, c') = foreseen c r) fun e _ => excused e)
    {c : C} (start : I c) (o : σ) (requests : List α)
    (unharmed : ∀ entry ∈ (serve operation requests ⟨c, o⟩).1, ∀ e, excused e → entry.2 ≠ .error e) :
    (serve operation requests ⟨c, o⟩).1 =
        (forecast foreseen c requests).1.map (fun entry => (entry.1, .ok entry.2)) ∧
      (serve operation requests ⟨c, o⟩).2.container = (forecast foreseen c requests).2 := by
  induction requests generalizing c o with
  | nil => exact ⟨rfl, rfl⟩
  | cons r rest ih =>
    obtain ⟨hI, hends⟩ := step c r start
    rw [serve] at unharmed ⊢
    cases hrun : operation r ⟨c, o⟩ with
    | ok a s =>
      rw [hrun] at unharmed
      have hnext := hends.of_ok hrun
      rw [forecast, ← hnext]
      rw [← hnext] at hI
      obtain ⟨hlog, hend⟩ := ih hI s.outside fun entry hentry =>
        unharmed entry (List.mem_cons_of_mem _ hentry)
      exact ⟨congrArg ((r, .ok a) :: ·) hlog, hend⟩
    | error e s =>
      rw [hrun] at unharmed
      exact absurd rfl (unharmed _ List.mem_cons_self e (hends.of_error hrun))

end Runs

namespace LockedMap

/-- The same map under another kind of lock. -/
def under (map : LockedMap l K V) (l' : Locking) : LockedMap l' K V :=
  ⟨map.options, map.table, map.count, map.growths⟩

section Under
variable {hash : K → UInt64} {same : K → K → Bool} (map : LockedMap l K V) (l' : Locking)

theorem enlarged_under : (map.under l').enlarged hash = (map.enlarged hash).under l' := by
  have hfull : (map.under l').isFull = map.isFull := rfl
  rw [enlarged, enlarged, hfull]
  by_cases h : map.isFull
  · rw [if_pos h, if_pos h]
    rfl
  · rw [if_neg h, if_neg h]

theorem afterPut_under (key : K) (value : V) :
    (map.under l').afterPut hash same key value = (map.afterPut hash same key value).under l' := by
  have hfound : (map.under l').found hash same key = map.found hash same key := rfl
  rw [afterPut, afterPut, hfound, enlarged_under]
  cases map.found hash same key <;> rfl

theorem afterRemove_under (key : K) :
    (map.under l').afterRemove hash same key = (map.afterRemove hash same key).under l' := by
  have hfound : (map.under l').found hash same key = map.found hash same key := rfl
  rw [afterRemove, afterRemove, hfound]
  cases map.found hash same key <;> rfl

theorem foreseen_under (request : MapRequest K V) :
    (map.under l').foreseen hash same request =
      ((map.foreseen hash same request).1, (map.foreseen hash same request).2.under l') := by
  cases request with
  | put key value => exact Prod.ext rfl (afterPut_under map l' key value)
  | remove key => exact Prod.ext rfl (afterRemove_under map l' key)
  | _ => rfl

theorem forecast_under (requests : List (MapRequest K V)) :
    forecast (foreseen hash same) (map.under l') requests =
      ((forecast (foreseen hash same) map requests).1,
        (forecast (foreseen hash same) map requests).2.under l') := by
  induction requests generalizing map with
  | nil => rfl
  | cons r rest ih => rw [forecast, foreseen_under, ih, forecast]

end Under
/-- Unless a callback fails in one of the runs, both maps answer every request, the answers are the
same and so are the maps, bucket by bucket, when they are done. -/
def AgreeThroughout (cb : MapCallbacks K V ε σ) (m : MonitorMap K V) (s : StripedMap K V) : Prop :=
  ∀ (requests : List (MapRequest K V)) (o o' : σ),
    let run := serve (MapRequest.perform cb) requests ⟨m, o⟩
    let run' := serve (MapRequest.perform cb) requests ⟨s, o'⟩
    (∀ entry ∈ run.1 ++ run'.1, ∀ e, entry.2 ≠ .error (.callback e)) →
      (∀ entry ∈ run.1, ∃ answer, entry.2 = .ok answer) ∧
        run'.1 = run.1 ∧ run'.2.container = run.2.container.under .striped

variable {cb : MapCallbacks K V ε σ} {hash : K → UInt64} {same : K → K → Bool}
  {options : MapOptions}

theorem settled_vacant (positive : options.Positive) (hbuckets : 0 < options.buckets.toNat)
    (multiple : options.stripes.toNat ∣ options.buckets.toNat) :
    Settled hash options
      ({ options, table := Table.vacant options.buckets.toNat } : LockedMap l K V) where
  roomy := by simpa [Table.vacant] using hbuckets
  homed := Table.vacant_homed hash _
  fits := fits_vacant positive
  even := by simpa [Table.vacant] using Nat.mod_eq_zero_of_dvd multiple

theorem Settled.agreeThroughout {m : MonitorMap K V} (follows : cb.Follows hash same)
    (h : m.Settled hash options) (h' : (m.under .striped).Settled hash options)
    (ample : options.Ample .monitor) : AgreeThroughout cb m (m.under .striped) := by
  intro requests o o' run run' unharmed
  have step (l : Locking) (map : LockedMap l K V) (r : MapRequest K V)
      (h : map.Settled hash options) : (map.foreseen hash same r).2.Settled hash options ∧
        ComesTo map (r.perform cb) (map.foreseen hash same r) :=
    ⟨h.foreseen ample r, comesTo_perform follows h ample r⟩
  have unharmedBy {log : List (MapRequest K V × Except (MapFailure ε) (MapAnswer V))}
      (hlog : ∀ entry ∈ log, ∀ e, entry.2 ≠ .error (.callback e)) :
      ∀ entry ∈ log, ∀ f, MapFailure.IsCallback f → entry.2 ≠ .error f := by
    intro entry hentry f hf
    cases f with
    | callback e => exact hlog entry hentry e
    | _ => exact hf.elim
  obtain ⟨hlog, hend⟩ := serve_eq_forecast _ (step .monitor) h o requests
    (unharmedBy fun entry hentry => unharmed entry (List.mem_append_left _ hentry))
  obtain ⟨hlog', hend'⟩ := serve_eq_forecast _ (step .striped) h' o' requests
    (unharmedBy fun entry hentry => unharmed entry (List.mem_append_right _ hentry))
  rw [forecast_under] at hlog' hend'
  refine ⟨?_, hlog'.trans hlog.symm, ?_⟩
  · intro entry hentry
    rw [hlog] at hentry
    obtain ⟨answered, -, rfl⟩ := List.mem_map.1 hentry
    exact ⟨_, rfl⟩
  · rw [hend', hend]

theorem yields_make_usable (cb : MapCallbacks K V ε σ) (usable : options.check = .ok ())
    (settled : options.rounded = options) :
    Yields (make cb l options : EStateM (MapFailure ε) σ (LockedMap l K V))
      (· = { options, table := Table.vacant options.buckets.toNat }) MapFailure.IsCallback := by
  have hrequire : Yields (options.require : EStateM (MapFailure ε) σ Unit) (fun _ => True)
      MapFailure.IsCallback := by
    rw [MapOptions.require, usable]
    exact .pure trivial
  have hgrant (bytes : Nat) : Yields ((cb.allocate bytes).adaptExcept MapFailure.callback)
      (fun _ => True) MapFailure.IsCallback :=
    Yields.adaptExcept ((Yields.any _).mono (fun _ h => h) fun _ h => h)
  have hbuild : Yields (build cb options : EStateM (MapFailure ε) σ (LockedMap l K V))
      (· = { options, table := Table.vacant options.buckets.toNat }) MapFailure.IsCallback :=
    (hgrant _).bind fun _ _ => .pure rfl
  cases l with
  | monitor => exact hrequire.bind fun _ _ => hbuild
  | striped =>
    rw [make, StripedMap.make, settled]
    exact hrequire.bind fun _ _ => (hgrant _).bind fun _ _ => hbuild

end LockedMap

/-- With any equality and any hash, maps made with as many buckets as come out even among the
stripes, and enough for one entry, agree in everything. -/
theorem maps_agree {cb : MapCallbacks K V ε σ} {hash : K → UInt64} {same : K → K → Bool}
    (follows : cb.Follows hash same) {options : MapOptions} (usable : options.check = .ok ())
    (multiple : options.stripes.toNat ∣ options.buckets.toNat)
    (hbuckets : options.buckets.toNat < 2 ^ 63) (hstripes : options.stripes.toNat < 2 ^ 63)
    (room : options.exceeds 1 options.buckets.toNat = false) :
    Yields (LockedMap.make cb .monitor options)
      (fun m => Yields (LockedMap.make cb .striped options) (LockedMap.AgreeThroughout cb m)
        MapFailure.IsCallback) MapFailure.IsCallback := by
  have hpositive := MapOptions.positive_of_check usable
  have hpos := MapOptions.buckets_pos usable
  have hrounded : options.rounded = options :=
    MapOptions.rounded_of_dvd (MapOptions.stripes_pos usable) (by omega) multiple
  have hample : options.Ample .monitor :=
    ⟨hpositive, fun _ => ⟨hpos, MapOptions.exceeds_mono hpositive (Nat.le_refl 1) (by omega) room⟩⟩
  apply (LockedMap.yields_make_usable cb usable hrounded).mono _ fun _ hf => hf
  rintro m rfl
  apply (LockedMap.yields_make_usable cb usable hrounded).mono _ fun _ hf => hf
  rintro s rfl
  exact (LockedMap.settled_vacant hpositive hpos multiple).agreeThroughout follows
    (LockedMap.settled_vacant hpositive hpos multiple) hample

/-- A key counts as equal to a greater one, whatever their hashes; the second put grows the table. -/
theorem maps_agree_unlawful :
    LockedMap.AgreeThroughout (.fused tensHash fun a b => decide (a < b))
        (LockedMap.ofTwo : MonitorMap Nat Nat) LockedMap.ofTwo ∧
      (serve (MapRequest.perform (.fused tensHash fun a b => decide (a < b)))
        [.put 30 1, .put 20 2, .put 10 3, .put 15 4, .put 35 5, .growthCount, .get 25, .audit]
        ⟨(LockedMap.ofTwo : StripedMap Nat Nat), none⟩).1.map Prod.snd =
        [.ok (.value none), .ok (.value none), .ok (.value none), .ok (.value (some 3)),
          .ok (.value (some 1)), .ok (.count 1), .ok (.value (some 2)), .ok (.flag true)] := by
  have hcheck : ({ buckets := 2, stripes := 2 } : MapOptions).check = .ok () := by decide +kernel
  have made (l : Locking) := LockedMap.make_ofTwo (K := Nat) (V := Nat) (l := l) tensHash
    fun a b => decide (a < b)
  have hmonitor := maps_agree (V := Nat) (MapCallbacks.fused_follows tensHash fun a b => decide (a < b))
    hcheck (by decide) (by decide) (by decide) (by decide +kernel) none
  rw [made] at hmonitor
  have hstriped := hmonitor none
  rw [made] at hstriped
  exact ⟨hstriped, by decide +kernel⟩

end LockedContainers
