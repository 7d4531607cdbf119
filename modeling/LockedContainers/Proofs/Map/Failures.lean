import LockedContainers.Proofs.Map.Redistribution
import LockedContainers.Proofs.Map.Sequential

/-!
# What a failed request leaves behind

A request that fails leaves the map as it was, bucket by bucket, with one
exception: a put whose key was missed in a full map, when a growth has been
completed and installed for it and a later call fails. This leaves the grown
map as the growth installed it.
-/
namespace LockedContainers

variable {l : Locking} {K V ε σ : Type}

namespace LockedMap

/-- A growth was installed: these hashes were answered, and each bucket has the entries whose hashes
select it in the order of the old table. -/
structure Regrown (map : LockedMap l K V) (hashes : List UInt64) (grown : LockedMap l K V) : Prop
    extends Doubled map grown where
  answered : hashes.length = map.table.entries.length
  buckets : ∀ j, grown.table.bucket j = ((map.table.entries.zip hashes).filter
    fun (_, h) => h.toNat % (map.table.size * 2) = j).map Prod.fst

/-- A put with this hash, begun in the state `o`, misses its key in a full map and has it grown: the
growth is completed and installed in the state `o'`. -/
structure GrowsFor (cb : MapCallbacks K V ε σ) (h : UInt64) (key : K) (map : LockedMap l K V) (o : σ)
    (grown : LockedMap l K V) (o' : σ) : Prop where
  full : map.isFull
  missed : ∃ slot mid, lookup cb h key ⟨map, o⟩ = .ok (slot, none) ⟨map, mid⟩ ∧
    double cb ⟨map, mid⟩ = .ok () ⟨grown, o'⟩
  regrown : ∃ hashes, map.Regrown hashes grown

/-- One such growth or more, one after the other. -/
inductive GrowsTimes (cb : MapCallbacks K V ε σ) (h : UInt64) (key : K) :
    Nat → LockedMap l K V → σ → LockedMap l K V → σ → Prop
  | once {map grown : LockedMap l K V} {o o' : σ} (grows : GrowsFor cb h key map o grown o') :
      GrowsTimes cb h key 1 map o grown o'
  | next {n : Nat} {map mid grown : LockedMap l K V} {o o₁ o' : σ}
      (grows : GrowsFor cb h key map o mid o₁) (rest : GrowsTimes cb h key n mid o₁ grown o') :
      GrowsTimes cb h key (n + 1) map o grown o'

/-- What a put has left to do after so many growths. -/
def afterGrowths (cb : MapCallbacks K V ε σ) (h : UInt64) (key : K) (value : V) (n : Nat) :
    MapSection l K V ε σ (Option V) :=
  match l with
  | .monitor => do
    let h ← Guarded.ask (cb.hash key)
    link cb (← (← Guarded.read).table.slot h) key value
    return none
  | .striped => StripedMap.putWithin cb h key value (StripedMap.maxAttempts - n)

/-- What a request leaves that was begun in the state `o` and failed: the map, or what it was grown
to by a put that failed after that. -/
inductive Aftermath (cb : MapCallbacks K V ε σ) (map : LockedMap l K V) (o : σ) :
    MapRequest K V → MapFailure ε → Shared (LockedMap l K V) σ → Prop
  | same {request : MapRequest K V} {f : MapFailure ε} (o' : σ) :
      Aftermath cb map o request f ⟨map, o'⟩
  | grown {key : K} {value : V} {f : MapFailure ε} {h : UInt64} {n : Nat} {o₁ o₂ o' : σ}
      {grown : LockedMap l K V} (hashed : cb.hash key o = .ok h o₁)
      (grows : GrowsTimes cb h key n map o₁ grown o₂) (single : l = .monitor → n = 1)
      (failed : afterGrowths cb h key value n ⟨grown, o₂⟩ = .error f ⟨grown, o'⟩) :
      Aftermath cb map o (.put key value) f ⟨grown, o'⟩

section Runs
variable {cb : MapCallbacks K V ε σ} {map : LockedMap l K V} {o : σ} {key : K}
  {s : Shared (LockedMap l K V) σ}

theorem Aftermath.of_container {request : MapRequest K V} {f : MapFailure ε}
    (h : s.container = map) : Aftermath cb map o request f s := by
  obtain ⟨map', o'⟩ := s
  cases h
  exact .same o'

/-- A hash that was answered leaves the map alone. -/
theorem ask_hash_of_ok {h : UInt64} (hrun : Guarded.ask (cb.hash key) ⟨map, o⟩ = .ok h s) :
    ∃ o', cb.hash key o = .ok h o' ∧ s = ⟨map, o'⟩ := by
  rw [Guarded.ask_eq] at hrun
  cases hhash : cb.hash key o with
  | ok x o' =>
    rw [hhash] at hrun
    cases hrun
    exact ⟨o', rfl, rfl⟩
  | error e o' =>
    rw [hhash] at hrun
    cases hrun

theorem ask_hash_of_error {f : MapFailure ε}
    (hrun : Guarded.ask (cb.hash key) ⟨map, o⟩ = .error f s) : s.container = map := by
  rw [Guarded.ask_eq] at hrun
  cases hhash : cb.hash key o with
  | ok x o' =>
    rw [hhash] at hrun
    cases hrun
  | error e o' =>
    rw [hhash] at hrun
    cases hrun
    rfl

/-- A growth that came to its end has shared the entries out. -/
theorem regrown_of_double (roomy : 0 < map.table.size)
    (hrun : double cb ⟨map, o⟩ = .ok () s) : ∃ hashes, map.Regrown hashes s.container := by
  have hgrown : Doubled map s.container := (ends_double_any cb).of_ok hrun
  rw [Table.double_eq] at hrun
  cases hinquire : map.table.inquire cb (map.table.size * 2) o with
  | error e o' =>
    rw [hinquire] at hrun
    cases hrun
  | ok hashes o' =>
    have hnotes := Table.notes_inquire cb (map.table.size * 2) map.table o []
    rw [hinquire] at hnotes
    obtain ⟨_, ⟨answered, -⟩, -⟩ := hnotes
    rw [hinquire] at hrun
    cases hrun
    refine ⟨hashes, { hgrown with answered, buckets := fun j => ?_ }⟩
    exact Table.bucket_distribute_placed (Nat.mul_pos roomy (by decide)) _ _ j

/-- A key was missed in a full map, and a growth completed after that. -/
theorem growsFor_of_runs {h : UInt64} {slot : Nat} {s' : Shared (LockedMap l K V) σ}
    (full : map.isFull) (hlookup : lookup cb h key ⟨map, o⟩ = .ok (slot, none) s)
    (hdouble : double cb s = .ok () s') : GrowsFor cb h key map o s'.container s'.outside := by
  obtain ⟨hmap, -, hbound, -⟩ := (ends_lookup_any cb h).of_ok hlookup
  obtain ⟨map', mid⟩ := s
  obtain rfl : map' = map := hmap
  have hroomy : 0 < map'.table.size := Nat.lt_of_le_of_lt (Nat.zero_le slot) hbound
  exact ⟨full, ⟨slot, mid, hlookup, hdouble⟩, regrown_of_double hroomy hdouble⟩

end Runs
end LockedMap

/-- What is left to do after a growth behind one lock fails before it changes the map. -/
theorem MonitorMap.ends_afterGrowths (cb : MapCallbacks K V ε σ) (map : MonitorMap K V) (h : UInt64)
    (key : K) (value : V) (n : Nat) :
    Ends map (LockedMap.afterGrowths cb h key value n) (fun _ _ => True)
      (LockedMap.Untouched map) := by
  apply LockedMap.ends_hash_any_bind cb (fun _ hf => hf)
  intro h'
  apply Ends.read_bind
  by_cases hzero : map.table.size = 0
  · rw [Table.slot, if_pos hzero]
    exact Ends.throw ⟨rfl, fun _ => hzero⟩
  · rw [Table.slot, if_neg hzero, pure_bind]
    exact LockedMap.ends_link_any_bind cb (fun _ hf => hf) (.pure trivial)

/-- Behind one lock a put grows the map once at most. -/
theorem MonitorMap.aftermath_put {cb : MapCallbacks K V ε σ} {map : MonitorMap K V} {o : σ} {key : K}
    {value : V} {f : MapFailure ε} {s : Shared (MonitorMap K V) σ}
    (hrun : MonitorMap.put cb key value ⟨map, o⟩ = .error f s) :
    LockedMap.Aftermath cb map o (.put key value) f s := by
  rcases error_of_bind hrun with hask | ⟨h, s₁, hask, hrun⟩
  · exact .of_container (LockedMap.ask_hash_of_error hask)
  obtain ⟨o₁, hhash, rfl⟩ := LockedMap.ask_hash_of_ok hask
  rcases error_of_bind hrun with hlookup | ⟨⟨slot, hit⟩, s₂, hlookup, hrun⟩
  · exact .of_container ((LockedMap.ends_lookup_any cb h).of_error hlookup).1
  obtain ⟨map', o₂⟩ := s₂
  obtain rfl : map' = map := ((LockedMap.ends_lookup_any cb h).of_ok hlookup).1
  cases hit with
  | some hit => cases hrun
  | none =>
    have hrun : (if map'.isFull then
        LockedMap.double cb >>= fun _ => LockedMap.afterGrowths cb h key value 1
      else LockedMap.link cb slot key value >>= fun _ => pure none) ⟨map', o₂⟩ = .error f s := hrun
    by_cases hfull : map'.isFull
    · rw [if_pos hfull] at hrun
      rcases error_of_bind hrun with hdouble | ⟨_, s₃, hdouble, hrun⟩
      · exact .of_container ((LockedMap.ends_double_any cb).of_error hdouble).1
      · have hgrows := LockedMap.growsFor_of_runs hfull hlookup hdouble
        obtain ⟨grown, o₃⟩ := s₃
        obtain ⟨map'', o'⟩ := s
        obtain rfl : map'' = grown :=
          ((MonitorMap.ends_afterGrowths cb grown h key value 1).of_error hrun).1
        exact .grown hhash (.once hgrows) (fun _ => rfl) hrun
    · rw [if_neg hfull] at hrun
      have hkept : Ends map' (LockedMap.link cb slot key value >>= fun _ => pure none)
          (fun (_ : Option V) _ => True) (LockedMap.Untouched map') :=
        LockedMap.ends_link_any_bind cb (fun _ hf => hf) (.pure trivial)
      exact .of_container (hkept.of_error hrun).1

namespace StripedMap
variable {cb : MapCallbacks K V ε σ} {map : StripedMap K V} {o : σ} {h : UInt64} {key : K}
  {value : V} {s : Shared (StripedMap K V) σ}

/-- An attempt gives up where the look-up has missed in a full map. -/
theorem lookup_of_attempt_full {seen : Nat}
    (hrun : attempt cb h key value ⟨map, o⟩ = .ok (.full seen) s) :
    s.container = map ∧ seen = map.table.size ∧ map.isFull ∧
      ∃ slot, LockedMap.lookup cb h key ⟨map, o⟩ = .ok (slot, none) s := by
  obtain ⟨hmap, hseen, hfull⟩ := (ends_attempt_any cb map h key value).of_ok hrun
  obtain ⟨⟨slot, hit⟩, s₁, hlookup, hrun⟩ := ok_of_bind hrun
  obtain ⟨map', o₁⟩ := s₁
  obtain rfl : map' = map := ((LockedMap.ends_lookup_any cb h).of_ok hlookup).1
  refine ⟨hmap, hseen, hfull, slot, ?_⟩
  cases hit with
  | some hit => cases hrun
  | none =>
    have hrun : (if map'.isFull then pure (.full map'.table.size)
      else LockedMap.link cb slot key value >>= fun _ => pure (.done none) :
        MapSection .striped K V ε σ (Attempt V)) ⟨map', o₁⟩ = .ok (.full seen) s := hrun
    rw [if_pos hfull] at hrun
    cases hrun
    exact hlookup

/-- Every attempt but the last to give up is followed by a growth; what fails, fails in an attempt or
in a growth that is not installed. -/
theorem grows_of_putWithin {attempts : Nat} {f : MapFailure ε}
    (hrun : putWithin cb h key value attempts ⟨map, o⟩ = .error f s) :
    s.container = map ∨ ∃ n o₂, LockedMap.GrowsTimes cb h key n map o s.container o₂ ∧
      putWithin cb h key value (attempts - n) ⟨s.container, o₂⟩ = .error f s := by
  induction attempts generalizing map o with
  | zero =>
    cases hrun
    exact .inl rfl
  | succ attempts ih =>
    rcases error_of_bind hrun with hattempt | ⟨outcome, s₁, hattempt, hrest⟩
    · exact .inl ((ends_attempt_any cb map h key value).of_error hattempt).1
    cases outcome with
    | done previous => cases hrest
    | full seen =>
      obtain ⟨hmap, rfl, hfull, slot, hlookup⟩ := lookup_of_attempt_full hattempt
      obtain ⟨map', o₁⟩ := s₁
      obtain rfl : map' = map := hmap
      have hgrow : grow cb map'.table.size ⟨map', o₁⟩ = LockedMap.double cb ⟨map', o₁⟩ := by
        have hif : grow cb map'.table.size ⟨map', o₁⟩ =
            (if map'.table.size = map'.table.size && map'.isFull then LockedMap.double cb
              else pure ()) ⟨map', o₁⟩ := rfl
        rw [hif, if_pos (by simp [hfull])]
      rcases error_of_bind hrest with hdouble | ⟨_, s₂, hdouble, hrest⟩
      · rw [hgrow] at hdouble
        exact .inl ((LockedMap.ends_double_any cb).of_error hdouble).1
      rw [hgrow] at hdouble
      have hgrows := LockedMap.growsFor_of_runs hfull hlookup hdouble
      rcases ih hrest with hsame | ⟨n, o₃, htimes, hfailed⟩
      · refine .inr ⟨1, s₂.outside, hsame ▸ .once hgrows, ?_⟩
        rw [hsame]
        exact hrest
      · refine .inr ⟨n + 1, o₃, .next hgrows htimes, ?_⟩
        rw [Nat.add_sub_add_right]
        exact hfailed

theorem aftermath_put {f : MapFailure ε} (hrun : put cb key value ⟨map, o⟩ = .error f s) :
    LockedMap.Aftermath cb map o (.put key value) f s := by
  rcases error_of_bind hrun with hask | ⟨h, s₁, hask, hrun⟩
  · exact .of_container (LockedMap.ask_hash_of_error hask)
  obtain ⟨o₁, hhash, rfl⟩ := LockedMap.ask_hash_of_ok hask
  rcases grows_of_putWithin hrun with hsame | ⟨n, o₂, htimes, hfailed⟩
  · exact .of_container hsame
  · exact .grown hhash htimes nofun hfailed

end StripedMap

namespace LockedMap

/-- Every call that fails does so before the map changes, but for those that a put makes after a
growth for its missing key was installed: these leave the map as it was grown. -/
theorem failed_request_spares_entries (cb : MapCallbacks K V ε σ) (map : LockedMap l K V)
    (request : MapRequest K V) (o : σ) :
    match request.perform cb ⟨map, o⟩ with
    | .ok _ _ => True
    | .error f s => Aftermath cb map o request f s := by
  cases hrun : request.perform cb ⟨map, o⟩ with
  | ok answer s => trivial
  | error f s =>
    have hleft := (ends_perform_any cb map request).of_error hrun
    cases request with
    | put key value =>
      have hput : put cb key value ⟨map, o⟩ = .error f s := error_of_map hrun
      cases l with
      | monitor => exact MonitorMap.aftermath_put hput
      | striped => exact StripedMap.aftermath_put hput
    | _ => exact .of_container hleft.1

/-- Two buckets of which one has an entry: another insertion makes the table grow. -/
def ofOneEntry : LockedMap l Nat Nat :=
  (serve (MapRequest.perform (.fused tensHash sameTens)) [.put 11 1] ⟨ofTwo, none⟩).2.container

/-- Behind one lock the key is hashed again for the new table; in a striped map it is compared again
with the keys there. When that call fails the map is not what it was. -/
theorem failed_put_leaves_growth :
    ¬ (∀ request : MapRequest Nat Nat,
        Ends (ofOneEntry : MonitorMap Nat Nat) (request.perform (.fused tensHash sameTens))
          (fun _ _ => True) fun _ map' => map' = ofOneEntry) ∧
      ¬ ∀ request : MapRequest Nat Nat,
        Ends (ofOneEntry : StripedMap Nat Nat) (request.perform (.fused tensHash sameTens))
          (fun _ _ => True) fun _ map' => map' = ofOneEntry := by
  constructor
  · intro h
    have hrun : (serve (MapRequest.perform (.fused tensHash sameTens)) [.put 25 2]
        ⟨(ofOneEntry : MonitorMap Nat Nat), some 6⟩).1 =
          [(.put 25 2, .error (.callback ()))] := by decide +kernel
    have hsame := (h (.put 25 2)).of_error (run_of_serve_error hrun)
    exact absurd hsame (by decide +kernel)
  · intro h
    have hrun : (serve (MapRequest.perform (.fused tensHash sameTens)) [.put 41 2]
        ⟨(ofOneEntry : StripedMap Nat Nat), some 7⟩).1 =
          [(.put 41 2, .error (.callback ()))] := by decide +kernel
    have hsame := (h (.put 41 2)).of_error (run_of_serve_error hrun)
    exact absurd hsame (by decide +kernel)

end LockedMap
end LockedContainers
