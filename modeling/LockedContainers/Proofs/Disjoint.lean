import LockedContainers.Proofs.Map.Interleaved
import LockedContainers.Proofs.Map.Stripes
import LockedContainers.Proofs.Separation
import LockedContainers.Proofs.Set.Interleaved

/-!
# Threads that work on different keys of one container

Other threads make the table grow, move entries into holes and change which
nodes a search passes. With lawful callbacks none of this shows to a thread
whose keys are its own, in any of the four containers.
-/
namespace LockedContainers

variable {l : Locking} {T K V ε σ : Type}

/-- A search of a set for a key. -/
structure KeySearch (T : Type) where
  kind : SearchKind
  key : T
deriving DecidableEq, Repr

def KeySearch.request (r : KeySearch T) : SetRequest T := (Errand.search r.kind r.key).request

namespace KeySet

variable {before : T → T → Bool}

variable (order : IsStrictWeakOrder T (before · ·))
include order

theorem equivalence : Equivalence (equivalent before · ·) where
  refl := equivalent_refl
  symm := equivalent_symm
  trans := equivalent_trans

/-- What an insertion makes of membership. -/
theorem has_insert_eq (set : KeySet T) (key' key : T) :
    has before (insert before set key') key =
      if equivalent before key' key then true else has before set key := by
  cases hsame : equivalent before key' key with
  | true =>
    rw [if_pos rfl, ← has_congr hsame]
    exact has_insert_self
  | false =>
    have hother : equivalent before key key' = false := by
      rw [Bool.eq_false_iff] at hsame ⊢
      exact fun h => hsame (equivalent_symm h)
    rw [if_neg Bool.false_ne_true, insert]
    split
    · rfl
    · rw [has, has, List.any_append, List.any_cons, List.any_nil, hother, Bool.or_self,
        Bool.or_false]

/-- What an erasure makes of membership. -/
theorem has_erase_eq (set : KeySet T) (key' key : T) :
    has before (erase before set key') key =
      if equivalent before key' key then false else has before set key := by
  cases hsame : equivalent before key' key with
  | true =>
    rw [if_pos rfl, ← has_congr hsame, has, erase, List.any_filter]
    simp
  | false =>
    rw [if_neg Bool.false_ne_true, Bool.eq_iff_iff]
    refine ⟨fun h => ?_, fun h => has_erase h hsame⟩
    obtain ⟨k, hk, hkey⟩ := List.any_eq_true.1 h
    exact List.any_eq_true.2 ⟨k, (List.mem_filter.1 hk).1, hkey⟩

end KeySet

namespace KeySearch

/-- The answer to a search for a key that is in the set or not. -/
def answer : KeySearch T → Bool → SetAnswer T
  | ⟨.add, _⟩, has => .flag !has
  | ⟨_, _⟩, has => .flag has

/-- Whether the key is in the set afterwards. -/
def after : KeySearch T → Bool → Bool
  | ⟨.add, _⟩, _ => true
  | ⟨.remove, _⟩, _ => false
  | ⟨.contains, _⟩, has => has

/-- A search is about the membership of its key. -/
theorem keyed {before : T → T → Bool} (order : IsStrictWeakOrder T (before · ·)) :
    ((KeySet.object before).restrict request).Keyed (equivalent before) key (KeySet.has before)
      answer after where
  accepts d r a := by
    obtain ⟨kind, key⟩ := r
    cases kind with
    | _ => exact .rfl
  effect d r k := by
    obtain ⟨kind, key⟩ := r
    cases kind with
    | add => exact KeySet.has_insert_eq order d key k
    | remove => exact KeySet.has_erase_eq order d key k
    | contains => exact (ite_self _).symm

end KeySearch

namespace KeyRequest

/-- The answer to a request about a key that is mapped to this. -/
def answer : KeyRequest K V → Option V → MapAnswer V
  | contains _, v => .flag v.isSome
  | _, v => .value v

/-- What the key is mapped to afterwards. -/
def after : KeyRequest K V → Option V → Option V
  | put _ value, _ => some value
  | remove _, _ => none
  | _, v => v

/-- A request is about what its key is mapped to. -/
theorem keyed {hash : K → UInt64} {same : K → K → Bool} (lawful : LawfulKeys hash same) :
    ((Dictionary.object (V := V) same).restrict request).Keyed same key (Dictionary.get? same)
      answer after where
  accepts d r a := by
    cases r with
    | _ => exact .rfl
  effect d r k := by
    cases r with
    | put key value => exact Dictionary.get?_put lawful d key k value
    | remove key => exact Dictionary.get?_erase lawful d key k
    | _ => exact (ite_self _).symm

end KeyRequest

/-- Whatever was asked of the set before, threads with searches for keys of their own are
independent. -/
def LockedSet.SeparatesKeys (S : Type → Type) [LockedSet S] (cb : SetCallbacks T ε σ)
    (before : T → T → Bool) : Prop :=
  ∀ {Thread : Type} [DecidableEq Thread] (content : List (SetRequest T)) (o : σ)
    (program : Thread → List (KeySearch T)), Apart (equivalent before) KeySearch.key program →
    Independent (fun r => r.request.perform cb) cb.Raises
      (fun set => KeySet.has before (LockedSet.keys set)) program
      (serve (SetRequest.perform cb) content ⟨(LockedSet.empty : S T), o⟩).2.container

/-- Whatever was asked of the map before, threads with requests about keys of their own are
independent. -/
def LockedMap.SeparatesKeys (cb : MapCallbacks K V ε σ) (same : K → K → Bool)
    (map : LockedMap l K V) : Prop :=
  ∀ {Thread : Type} [DecidableEq Thread] (content : List (MapRequest K V)) (o : σ)
    (program : Thread → List (KeyRequest K V)), Apart same KeyRequest.key program →
    Independent (fun r => r.request.perform cb) cb.Excuses
      (fun map => Dictionary.get? same map.table.entries) program
      (serve (MapRequest.perform cb) content ⟨map, o⟩).2.container

theorem LockedSet.IsOrdered.separatesKeys {S : Type → Type} [LockedSet S] {cb : SetCallbacks T ε σ}
    {before : T → T → Bool} {stores : S T → KeySet T → Prop}
    (ordered : LockedSet.IsOrdered cb before stores) (order : IsStrictWeakOrder T (before · ·))
    (start : stores LockedSet.empty [])
    (shown : ∀ set members, stores set members → KeySet.Shown before (LockedSet.keys set) members) :
    LockedSet.SeparatesKeys S cb before := by
  intro Thread _ content o program apart
  obtain ⟨members, -, hset⟩ := serve_explained (KeySet.object before)
    (fun _ _ request h => ordered.ends_perform h request) start o content
  refine independent_of_keyed (KeySearch.keyed order)
    (fun _ _ r h => ordered.ends_perform h r.request) hset apart (KeySet.equivalence order) ?_
  intro set members key h
  exact (shown set members h).members.any_eq

theorem LockedMap.Stores.separatesKeys {hash : K → UInt64} {same : K → K → Bool}
    {cb : MapCallbacks K V ε σ} {map : LockedMap l K V} (lawful : LawfulKeys hash same)
    (follows : cb.Follows hash same) (start : map.Stores hash same []) :
    map.SeparatesKeys cb same := by
  intro Thread _ content o program apart
  obtain ⟨dict, -, hmap⟩ := serve_explained (Dictionary.object same)
    (fun _ _ request h => LockedMap.ends_perform lawful follows h request) start o content
  refine independent_of_keyed (KeyRequest.keyed lawful)
    (fun _ _ r h => LockedMap.ends_perform lawful follows h r.request) hmap apart
    ⟨lawful.refl, fun h => lawful.symm _ _ h, fun h h' => lawful.trans _ _ _ h h'⟩ ?_
  intro map dict key h
  exact h.get?_entries lawful key

/-- Two threads whose keys have different tens. -/
def twoKeepers : Bool → List (KeyRequest Nat Nat)
  | false => [.put 11 1, .put 33 3, .remove 12]
  | true => [.put 63 2, .get 66, .contains 27]

def twoSearchers : Bool → List (KeySearch Nat)
  | false => [⟨.add, 11⟩, ⟨.contains, 12⟩]
  | true => [⟨.remove, 25⟩, ⟨.add, 26⟩]

end LockedContainers
