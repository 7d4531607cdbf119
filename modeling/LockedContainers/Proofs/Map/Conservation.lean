import Mathlib.Algebra.BigOperators.Group.Multiset.Basic
import Mathlib.Tactic.Abel
import LockedContainers.Proofs.Map.Construction
import LockedContainers.Proofs.Map.Sequential

/-!
# No entry is lost or made up

With callbacks that answer anything, change from one request to the next and
fail at any call, entries may lie anywhere in the table. Still a put adds one
entry or gives one a new value, a removal takes one out, and nothing else
changes what is stored.
-/
namespace LockedContainers

variable {l : Locking} {K V ε σ : Type}

/-- The stored entries, wherever they lie. -/
def Table.contents (table : Table K V) : Multiset (K × V) := table.entries

/-- The stored entries before a request and after it, by its outcome. -/
def Conserved (stored : Multiset (K × V)) :
    MapRequest K V → Except (MapFailure ε) (MapAnswer V) → Multiset (K × V) → Prop
  | .put key value, .ok (.value none), stored' => stored' = (key, value) ::ₘ stored
  | .put _ value, .ok (.value (some v)), stored' => ∃ k others,
      stored = (k, v) ::ₘ others ∧ stored' = (k, value) ::ₘ others
  | .put _ _, .ok _, _ => False
  | .remove _, .ok (.value (some v)), stored' => ∃ k, stored = (k, v) ::ₘ stored'
  | _, _, stored' => stored' = stored

/-- The value that a put which was answered brought in. -/
def givenValue : MapRequest K V → Except (MapFailure ε) (MapAnswer V) → Multiset V
  | .put _ value, .ok _ => {value}
  | _, _ => 0

/-- The value that a put or a removal handed back. -/
def returnedValue : MapRequest K V → Except (MapFailure ε) (MapAnswer V) → Multiset V
  | .put _ _, .ok (.value (some v)) => {v}
  | .remove _, .ok (.value (some v)) => {v}
  | _, _ => 0

namespace LockedMap

variable {map map' : LockedMap l K V} {key : K} {value : V} {previous : Option V}

/-- Around a cut of one bucket the other entries stay. -/
theorem contents_of_cut (value : V) {slot : Nat} {hit : Hit K V} (bound : slot < map.table.size)
    (cut : hit.bucket = map.table.bucket slot) : ∃ others : Multiset (K × V),
      map.table.contents = (hit.key, hit.value) ::ₘ others ∧
      (map.overwritten slot hit value).table.contents = (hit.key, value) ::ₘ others ∧
      (map.unlinked slot hit).table.contents = others := by
  obtain ⟨front, back, hentries, hset⟩ := Table.entries_setIfInBounds bound
  refine ⟨(front ++ hit.before ++ (hit.after ++ back) : List (K × V)), ?_, ?_, ?_⟩
  · rw [Table.contents, hentries, ← cut, Hit.bucket, Multiset.cons_coe, Multiset.coe_eq_coe]
    refine .trans (.of_eq ?_) List.perm_middle
    simp
  · rw [Table.contents, overwritten, hset, Hit.replaced, Multiset.cons_coe, Multiset.coe_eq_coe]
    refine .trans (.of_eq ?_) List.perm_middle
    simp
  · rw [Table.contents, unlinked, hset, Multiset.coe_eq_coe]
    refine ((hit.removed_perm.append_left front).append_right back).trans (.of_eq ?_)
    simp

theorem contents_linked {slot : Nat} (bound : slot < map.table.size) :
    (map.linked slot key value).table.contents = (key, value) ::ₘ map.table.contents := by
  rw [Table.contents, Table.contents, linked, Multiset.cons_coe, Multiset.coe_eq_coe]
  exact (Table.entries_append_perm (key, value) bound).trans (List.perm_append_singleton _ _)

theorem Grown.contents {n : Nat} {grown : LockedMap l K V} (h : Grown n map grown) :
    grown.table.contents = map.table.contents :=
  Multiset.coe_eq_coe.2 h.entries

theorem Placed.conserved (h : Placed map key value previous map') :
    Conserved (ε := ε) map.table.contents (.put key value) (.ok (.value previous))
      map'.table.contents := by
  cases h with
  | overwrite bound cut =>
    obtain ⟨others, hstored, hstored', -⟩ := contents_of_cut value bound cut
    exact ⟨_, others, hstored, hstored'⟩
  | link bound => exact contents_linked bound

theorem Taken.conserved (h : Taken map previous map') :
    Conserved (ε := ε) map.table.contents (.remove key) (.ok (.value previous))
      map'.table.contents := by
  cases h with
  | @unlink slot hit bound cut =>
    obtain ⟨others, hstored, -, hstored'⟩ := contents_of_cut hit.value bound cut
    exact ⟨hit.key, by rw [hstored, hstored']⟩
  | absent => rfl

/-- Whatever the callbacks answer, a request conserves what is stored. -/
theorem ends_perform_conserved (cb : MapCallbacks K V ε σ) (map : LockedMap l K V)
    (request : MapRequest K V) :
    Ends map (request.perform cb)
      (fun answer map' =>
        Conserved (ε := ε) map.table.contents request (.ok answer) map'.table.contents)
      fun f map' => Conserved map.table.contents request (.error f) map'.table.contents := by
  apply (ends_perform_any cb map request).mono
  · intro answer map' h
    cases request with
    | put key value =>
      obtain ⟨n, grown, previous, hgrown, hplaced, rfl⟩ := h
      rw [← hgrown.contents]
      exact hplaced.conserved
    | remove key =>
      obtain ⟨previous, htaken, rfl⟩ := h
      exact htaken.conserved
    | _ => exact congrArg (fun map : LockedMap l K V => map.table.contents) h
  · intro f map' h
    cases request with
    | put key value =>
      obtain ⟨⟨n, hgrown, -⟩, -⟩ := h
      exact hgrown.contents
    | _ => exact congrArg (fun map : LockedMap l K V => map.table.contents) h.1

/-- The counter counts the stored entries, and the table has been doubled with every growth. -/
structure Accounted (buckets : Nat) (map : LockedMap l K V) : Prop where
  counted : map.count = map.table.contents.card
  doubled : map.table.size = buckets * 2 ^ map.growths

namespace Accounted
variable {buckets : Nat} (h : Accounted buckets map)
include h

theorem grown {n : Nat} (hgrown : Grown n map map') : Accounted buckets map' where
  counted := by rw [hgrown.count, hgrown.contents, h.counted]
  doubled := by rw [hgrown.size, hgrown.growths, h.doubled, Nat.pow_add, Nat.mul_assoc]

theorem placed (hplaced : Placed map key value previous map') : Accounted buckets map' := by
  cases hplaced with
  | @overwrite slot hit bound cut =>
    obtain ⟨others, hstored, hstored', -⟩ := contents_of_cut value bound cut
    refine ⟨?_, size_overwritten.trans h.doubled⟩
    rw [hstored', count_overwritten, h.counted, hstored, Multiset.card_cons, Multiset.card_cons]
  | link bound =>
    refine ⟨?_, size_linked.trans h.doubled⟩
    rw [contents_linked bound, count_linked, h.counted, Multiset.card_cons]

theorem taken (htaken : Taken map previous map') : Accounted buckets map' := by
  cases htaken with
  | @unlink slot hit bound cut =>
    obtain ⟨others, hstored, -, hstored'⟩ := contents_of_cut hit.value bound cut
    refine ⟨?_, size_unlinked.trans h.doubled⟩
    rw [hstored', count_unlinked, h.counted, hstored, Multiset.card_cons, Nat.add_sub_cancel]
  | absent => exact h

theorem ends_perform (cb : MapCallbacks K V ε σ) (request : MapRequest K V) :
    Ends map (request.perform cb) (fun _ => Accounted buckets) fun _ => Accounted buckets := by
  apply (ends_perform_any cb map request).mono
  · intro answer map' heffect
    cases request with
    | put key value =>
      obtain ⟨n, grown, previous, hgrown, hplaced, -⟩ := heffect
      exact (h.grown hgrown).placed hplaced
    | remove key =>
      obtain ⟨previous, htaken, -⟩ := heffect
      exact h.taken htaken
    | _ =>
      cases heffect
      exact h
  · intro f map' hleft
    cases request with
    | put key value =>
      obtain ⟨⟨n, hgrown, -⟩, -⟩ := hleft
      exact h.grown hgrown
    | _ =>
      obtain ⟨rfl, -⟩ := hleft
      exact h

end Accounted

/-- A request with the callbacks that are in force while it is carried out. -/
abbrev Called (K V ε σ : Type) := MapCallbacks K V ε σ × MapRequest K V

abbrev Called.perform (r : Called K V ε σ) : MapSection l K V ε σ (MapAnswer V) :=
  r.2.perform r.1

end LockedMap

/-- What comes in is stored or goes out. -/
theorem Conserved.balance {stored stored' : Multiset (K × V)} {request : MapRequest K V}
    {outcome : Except (MapFailure ε) (MapAnswer V)} (h : Conserved stored request outcome stored') :
    stored.map Prod.snd + givenValue request outcome =
      stored'.map Prod.snd + returnedValue request outcome := by
  cases request with
  | put key value =>
    cases outcome with
    | error f =>
      cases h
      rfl
    | ok answer =>
      cases answer with
      | value previous =>
        cases previous with
        | none =>
          cases h
          simp [givenValue, returnedValue, add_comm]
        | some v =>
          obtain ⟨k, others, rfl, rfl⟩ := h
          rw [Multiset.map_cons, Multiset.map_cons, givenValue, returnedValue,
            ← Multiset.singleton_add, ← Multiset.singleton_add]
          abel
      | _ => exact h.elim
  | remove key =>
    cases outcome with
    | error f =>
      cases h
      rfl
    | ok answer =>
      cases answer with
      | value previous =>
        cases previous with
        | none =>
          cases h
          rfl
        | some v =>
          obtain ⟨k, rfl⟩ := h
          simp [givenValue, returnedValue, add_comm]
      | _ =>
        cases h
        rfl
  | _ =>
    cases h
    rfl

namespace LockedMap

/-- Over a run, the values that came in are those still stored and those handed back. -/
theorem serve_balance (requests : List (Called K V ε σ)) (s : Shared (LockedMap l K V) σ) :
    let run := serve Called.perform requests s
    s.container.table.contents.map Prod.snd + (run.1.map fun e => givenValue e.1.2 e.2).sum =
      run.2.container.table.contents.map Prod.snd +
        (run.1.map fun e => returnedValue e.1.2 e.2).sum := by
  induction requests generalizing s with
  | nil => rfl
  | cons r rest ih =>
    obtain ⟨map, o⟩ := s
    have hone := ends_perform_conserved r.1 map r.2
    have hserve (outcome : Except (MapFailure ε) (MapAnswer V)) {s' : Shared (LockedMap l K V) σ}
        (hrun : Called.perform r ⟨map, o⟩ = resultOf outcome s')
        (h : Conserved map.table.contents r.2 outcome s'.container.table.contents) :
        let run := serve Called.perform (r :: rest) ⟨map, o⟩
        map.table.contents.map Prod.snd + (run.1.map fun e => givenValue e.1.2 e.2).sum =
          run.2.container.table.contents.map Prod.snd +
            (run.1.map fun e => returnedValue e.1.2 e.2).sum := by
      rw [serve_cons hrun]
      simp only [List.map_cons, List.sum_cons]
      rw [← add_assoc, h.balance, add_right_comm, ih s']
      abel
    cases hrun : Called.perform r ⟨map, o⟩ with
    | ok answer s' => exact hserve (.ok answer) hrun (hone.of_ok hrun)
    | error f s' => exact hserve (.error f) hrun (hone.of_error hrun)

/-- What a run that ended here has conserved, and what any further request conserves: the values of
the puts that were answered are stored or were handed back, each as often as it came in. -/
structure Conserves (buckets : Nat)
    (log : List (Called K V ε σ × Except (MapFailure ε) (MapAnswer V)))
    (s : Shared (LockedMap l K V) σ) : Prop where
  values : (log.map fun e => givenValue e.1.2 e.2).sum =
    s.container.table.contents.map Prod.snd + (log.map fun e => returnedValue e.1.2 e.2).sum
  size : (size : MapSection l K V ε σ Nat) s = .ok s.container.table.contents.card s
  buckets : ∃ n, (growthCount : MapSection l K V ε σ Nat) s = .ok n s ∧
    (bucketCount : MapSection l K V ε σ Nat) s = .ok (buckets * 2 ^ n) s
  next : ∀ (cb : MapCallbacks K V ε σ) (request : MapRequest K V)
    (outcome : Except (MapFailure ε) (MapAnswer V)) (s' : Shared (LockedMap l K V) σ),
    request.perform cb s = resultOf outcome s' →
      Conserved s.container.table.contents request outcome s'.container.table.contents

/-- A new map is empty. -/
theorem vacant_of_made {cb : MapCallbacks K V ε σ} {options : MapOptions} {o o' : σ}
    {map : LockedMap l K V} (made : make cb l options o = .ok map o') :
    map.count = 0 ∧ map.growths = 0 ∧ map.table.contents = 0 := by
  have hvacant (buckets : Nat) : (Table.vacant buckets : Table K V).contents = 0 := by
    rw [Table.contents, Table.entries_vacant]
    rfl
  cases l with
  | monitor =>
    have hmade := MonitorMap.yields_make_vacant cb options o
    rw [show MonitorMap.make cb options o = .ok map o' from made] at hmade
    obtain ⟨-, rfl⟩ := hmade
    exact ⟨rfl, rfl, hvacant _⟩
  | striped =>
    have hmade := StripedMap.yields_make_vacant cb options o
    rw [show StripedMap.make cb options o = .ok map o' from made] at hmade
    obtain ⟨-, -, -, rfl⟩ := hmade
    exact ⟨rfl, rfl, hvacant _⟩

end LockedMap

/-- Whatever hashing and comparing answer, also when they change between requests and fail at any
call, both maps conserve their entries. -/
theorem maps_conserve_entries {cb : MapCallbacks K V ε σ} {options : MapOptions} {o o' : σ}
    {map : LockedMap l K V} (made : LockedMap.make cb l options o = .ok map o') (outside : σ)
    (requests : List (LockedMap.Called K V ε σ)) :
    let run := serve LockedMap.Called.perform requests ⟨map, outside⟩
    LockedMap.Conserves map.table.size run.1 run.2 := by
  intro run
  obtain ⟨hcount, hgrowths, hcontents⟩ := LockedMap.vacant_of_made made
  have hstart : LockedMap.Accounted map.table.size map := by
    refine ⟨by rw [hcount, hcontents]; rfl, ?_⟩
    rw [hgrowths, Nat.pow_zero, Nat.mul_one]
  have hend : LockedMap.Accounted map.table.size run.2.container :=
    (serve_invariant (LockedMap.Accounted map.table.size) (fun _ _ => True)
      (fun _ r h => (h.ends_perform r.1 r.2).mono (fun _ _ h => ⟨trivial, h⟩)
        fun _ _ h => ⟨trivial, h⟩) hstart outside requests).2
  have hbalance := LockedMap.serve_balance requests ⟨map, outside⟩
  dsimp only at hbalance
  rw [hcontents, Multiset.map_zero, zero_add] at hbalance
  refine ⟨hbalance, ?_, ⟨run.2.container.growths, rfl, ?_⟩, fun cb request outcome s' hrun => ?_⟩
  · rw [← hend.counted]
    rfl
  · rw [← hend.doubled]
    rfl
  · have hone := LockedMap.ends_perform_conserved cb run.2.container request
    cases outcome with
    | ok answer => exact hone.of_ok hrun
    | error f => exact hone.of_error hrun

/-- Comparing finds no key equal, then hashing and comparing take all keys for one. -/
def switchedRequests : List (LockedMap.Called Nat Nat Unit (Option Nat)) :=
  [(.fused tensHash sameTens, .put 11 1), (.fused tensHash fun _ _ => false, .put 11 2),
    (.fused tensHash fun _ _ => false, .put 35 3), (.fused (fun _ => 0) fun _ _ => true, .put 70 4),
    (.fused (fun _ => 0) fun _ _ => true, .remove 11), (.fused tensHash sameTens, .put 11 5),
    (.fused tensHash sameTens, .remove 12), (.fused tensHash sameTens, .size)]

/-- A put and a removal find an entry under another key, and the last removal fails. -/
theorem maps_conserve_entries_switched :
    let run := serve LockedMap.Called.perform switchedRequests
      ⟨(LockedMap.ofTwo : StripedMap Nat Nat), some 19⟩
    LockedMap.Conserves 2 run.1 run.2 ∧
      run.1.map Prod.snd = [.ok (.value none), .ok (.value none), .ok (.value none),
        .ok (.value (some 3)), .ok (.value (some 4)), .ok (.value (some 1)), .error (.callback ()),
        .ok (.count 2)] ∧
      run.2.container.table.entries = [(11, 5), (11, 2)] :=
  ⟨maps_conserve_entries (LockedMap.make_ofTwo (l := .striped) tensHash sameTens) (some 19)
    switchedRequests, by decide +kernel⟩

end LockedContainers
