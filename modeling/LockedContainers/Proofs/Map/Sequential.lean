import LockedContainers.Proofs.Map.Operations

/-!
# One caller of a hash map

Either map, with lawful keys and with callbacks that may fail at any call,
answers as a dictionary modulo key equality, through any number of growths.
-/
namespace LockedContainers

variable {l : Locking} {K V ε σ : Type} {hash : K → UInt64} {same : K → K → Bool}

namespace LockedMap

/-- A map that is built with a bucket at least stores nothing. -/
theorem yields_build (cb : MapCallbacks K V ε σ) (hash : K → UInt64) (same : K → K → Bool)
    {options : MapOptions} (even : l = .striped → options.buckets.toNat % options.stripes.toNat = 0) :
    Yields (build cb options : EStateM _ _ (LockedMap l K V))
      (fun map => 0 < map.table.size → map.Stores hash same []) (fun _ => True) := by
  have hgrant : Yields ((cb.allocate (Table.bucketBytes * options.buckets.toNat)).adaptExcept
      MapFailure.callback) (fun _ => True) (fun _ => True) :=
    Yields.adaptExcept ((cb.yields_allocate _).mono (fun _ _ => trivial) fun _ _ => trivial)
  refine hgrant.bind fun _ _ => .pure fun roomy => stores_vacant ?_ even
  simpa [Table.vacant] using roomy

theorem yields_make (cb : MapCallbacks K V ε σ) (hash : K → UInt64) (same : K → K → Bool)
    (options : MapOptions) :
    Yields (make cb l options) (fun map => 0 < map.table.size → map.Stores hash same [])
      (fun _ => True) := by
  have hrequire : Yields (options.require : EStateM (MapFailure ε) σ Unit) (fun _ => True)
      (fun _ => True) := by
    intro o
    rw [MapOptions.require]
    cases options.check <;> trivial
  cases l with
  | monitor =>
    refine hrequire.bind fun _ _ => yields_build cb hash same ?_
    intro hl
    cases hl
  | striped =>
    have hbank : Yields ((cb.allocate (Table.lockBytes * options.stripes.toNat)).adaptExcept
        MapFailure.callback) (fun _ => True) (fun _ => True) :=
      Yields.adaptExcept ((cb.yields_allocate _).mono (fun _ _ => trivial) fun _ _ => trivial)
    exact hrequire.bind fun _ _ => hbank.bind fun _ _ =>
      yields_build cb hash same fun _ => options.rounded_even

/-- A map that was made with a bucket at least stores nothing. -/
theorem stores_made {cb : MapCallbacks K V ε σ} {options : MapOptions} {o o' : σ}
    {map : LockedMap l K V} (made : make cb l options o = .ok map o')
    (roomy : 0 < map.table.size) : map.Stores hash same [] := by
  have h := yields_make (l := l) cb hash same options o
  rw [made] at h
  exact h roomy

/-- Whatever a caller asks of the map, and whichever calls fail, the log is one of a dictionary that
starts empty, and the table holds the entries of that dictionary. An audit whose calls do not fail
then finds no fault. -/
def AnswersAsDictionary (cb : MapCallbacks K V ε σ) (hash : K → UInt64) (same : K → K → Bool)
    (map : LockedMap l K V) : Prop :=
  ∀ (o : σ) (requests : List (MapRequest K V)), ∃ dict : Dictionary K V,
    let run := serve (MapRequest.perform cb) requests ⟨map, o⟩
    run.1.map Prod.fst = requests ∧
      (Dictionary.object same).Explains cb.Excuses [] run.1 dict ∧
      run.2.container.table.entries.Perm dict ∧
      ∀ (ε' σ' : Type) (calm : MapCallbacks K V ε' σ') (o' : σ'), calm.Follows hash same →
        (∀ e, ¬ calm.Raises e) →
        ∃ o'', audit calm ⟨run.2.container, o'⟩ = .ok true ⟨run.2.container, o''⟩

theorem Stores.answersAsDictionary {cb : MapCallbacks K V ε σ} {map : LockedMap l K V}
    (lawful : LawfulKeys hash same) (follows : cb.Follows hash same)
    (start : map.Stores hash same []) : map.AnswersAsDictionary cb hash same := by
  intro o requests
  obtain ⟨dict, hlog, hmap⟩ := serve_explained (Dictionary.object same)
    (fun _ _ request h => ends_perform lawful follows h request) start o requests
  refine ⟨dict, serve_requests _ requests _, hlog, hmap.entries, ?_⟩
  intro ε' σ' calm o' calmly safe
  have haudit := ends_audit lawful calmly (serve (MapRequest.perform cb) requests ⟨map, o⟩).2.container
  cases hrun : audit calm ⟨_, o'⟩ with
  | ok b s =>
    obtain ⟨hb, hmap'⟩ := haudit.of_ok hrun
    obtain rfl : b = true := hb.2 (hmap.wellFormed lawful)
    exact ⟨s.outside, by rw [← hmap']⟩
  | error f s =>
    obtain ⟨⟨e, -, he⟩, -⟩ := haudit.of_error hrun
    exact absurd he (safe e)

end LockedMap

/-- Callbacks that answer by the functions and fail once, when a fuse has burnt down. -/
def MapCallbacks.fused (hash : K → UInt64) (same : K → K → Bool) :
    MapCallbacks K V Unit (Option Nat) where
  hash k := burn (hash k)
  equal a b := burn (same a b)
  copy v := burn v
  entryBytes := 8
  allocate _ := burn ()

theorem MapCallbacks.fused_follows (hash : K → UInt64) (same : K → K → Bool) :
    (fused hash same : MapCallbacks K V Unit (Option Nat)).Follows hash same where
  hash _ _ _ _ h := eq_of_burn h
  equal _ _ _ _ _ h := eq_of_burn h
  copy _ _ _ _ h := eq_of_burn h

/-- Keys with the same tens are equal, and three hashes are enough for them. -/
def tensHash (a : Nat) : UInt64 := .ofNat (a / 10 % 3)

def sameTens (a b : Nat) : Bool := a / 10 = b / 10

theorem tens_lawful : LawfulKeys tensHash sameTens where
  refl a := by simp [sameTens]
  symm a b h := by
    simp only [sameTens, decide_eq_true_eq] at *
    exact h.symm
  trans a b c hab hbc := by
    simp only [sameTens, decide_eq_true_eq] at *
    exact hab.trans hbc
  hash_eq a b h := by
    simp only [sameTens, decide_eq_true_eq] at h
    rw [tensHash, h, tensHash]

/-- A new map with two buckets. -/
def LockedMap.ofTwo : LockedMap l K V where
  options := { buckets := 2, stripes := 2 }
  table := Table.vacant 2

theorem LockedMap.make_ofTwo (hash : K → UInt64) (same : K → K → Bool) :
    make (.fused hash same) l { buckets := 2, stripes := 2 } none =
      .ok (ofTwo : LockedMap l K V) none := by
  have hcheck : ({ buckets := 2, stripes := 2 } : MapOptions).check = .ok () := by decide +kernel
  cases l with
  | monitor =>
    rw [make, MonitorMap.make, MapOptions.require, hcheck]
    rfl
  | striped =>
    rw [make, StripedMap.make, MapOptions.require, hcheck]
    rfl

end LockedContainers
