import Mathlib.Data.List.Nodup
import Mathlib.Data.List.Perm.Subperm
import LockedContainers.Proofs.Map.Integer
import LockedContainers.Stress.Reference

/-!
# Comparing with a reference

A comparison asks a container for its size and then only for the entries of the
reference. The reference has no key twice, so as many entries as the container
has, all of them found there, are all that it has. Writers that foresee every
answer keep the two alike.
-/
namespace LockedContainers.Stress

variable {C α ε σ : Type}

/-! ## The reference as a dictionary -/

theorem lookup_eq_get? (entries : List (Int × Int)) (key : Int) :
    entries.lookup key = Dictionary.get? (fun a b => decide (a = b)) entries key := by
  induction entries with
  | nil => rfl
  | cons e rest ih =>
    rw [Dictionary.get?] at ih ⊢
    rw [List.lookup_cons, List.find?_cons]
    by_cases hkey : e.1 = key
    · simp [hkey]
    · rw [beq_eq_false_iff_ne.2 (Ne.symm hkey), decide_eq_false hkey]
      exact ih

theorem distinctKeys_iff (entries : List (Int × Int)) :
    DistinctKeys (fun a b => decide (a = b)) entries ↔ (entries.map Prod.fst).Nodup := by
  simp only [DistinctKeys, List.Nodup, List.pairwise_map, decide_eq_false_iff_not, ne_eq]

theorem isSome_lookup_iff {entries : List (Int × Int)} {key : Int} :
    (entries.lookup key).isSome ↔ key ∈ entries.map Prod.fst := by
  rw [List.lookup_isSome_iff, List.mem_map]
  apply exists_congr
  intro e
  rw [beq_iff_eq, eq_comm]

/-- Where no key is there twice, a look-up finds what is there. -/
theorem lookup_eq_some_iff {entries : List (Int × Int)} (once : (entries.map Prod.fst).Nodup)
    {key value : Int} : entries.lookup key = some value ↔ (key, value) ∈ entries := by
  rw [lookup_eq_get?]
  constructor
  · intro h
    obtain ⟨e, hfind, rfl⟩ := Option.map_eq_some_iff.1 h
    have hkey : e.1 = key := by simpa using List.find?_some hfind
    rw [← hkey]
    exact List.mem_of_find?_eq_some hfind
  · intro h
    exact Dictionary.get?_eq_some integer_lawful ((distinctKeys_iff entries).2 once) h (by simp)

theorem perm_iff_lookup {entries entries' : List (Int × Int)} (once : (entries.map Prod.fst).Nodup)
    (once' : (entries'.map Prod.fst).Nodup) :
    entries.Perm entries' ↔ ∀ key, entries'.lookup key = entries.lookup key := by
  rw [List.perm_ext_iff_of_nodup (once.of_map _) (once'.of_map _)]
  constructor
  · intro hmem key
    apply Option.ext
    intro value
    rw [lookup_eq_some_iff once, lookup_eq_some_iff once', hmem]
  · rintro hlookup ⟨key, value⟩
    rw [← lookup_eq_some_iff once, ← lookup_eq_some_iff once', hlookup]

namespace Reference
variable {reference : Reference}

/-- No key has two entries. -/
def KeysOnce (reference : Reference) : Prop := (reference.entries.map Prod.fst).Nodup

theorem entries_insert (reference : Reference) (key value : Int) :
    (reference.insert key value).entries =
      Dictionary.put (fun a b => decide (a = b)) reference.entries key value := by
  have hupdated : (fun e : Int × Int => if e.1 = key then (e.1, value) else (e.1, e.2)) =
      Dictionary.updated (fun a b => decide (a = b)) key value := by
    funext e
    simp only [Dictionary.updated, decide_eq_true_eq]
  rw [insert, contains, lookup, lookup_eq_get?, Dictionary.put, ← hupdated]
  split <;> rfl

theorem entries_erase (reference : Reference) (key : Int) :
    (reference.erase key).entries =
      Dictionary.erase (fun a b => decide (a = b)) reference.entries key := by
  simp only [erase, Dictionary.erase, ne_eq, decide_not]

end Reference

/-! ## The comparison -/

/-- The container shows so many things, and an entry holds when its image is one of them. -/
structure Adapter.Shows (adapter : Adapter ε (Shared C σ)) (c : C) [DecidableEq α]
    (image : Int × Int → α) (shown : List α) : Prop where
  size : Ends c adapter.size (fun n c' => n = shown.length ∧ c' = c) fun _ _ => False
  holds : ∀ key value, shown ≠ [] → Ends c (adapter.holds key value)
    (fun b c' => b = decide (image (key, value) ∈ shown) ∧ c' = c) fun _ _ => False

section Comparison
variable {adapter : Adapter ε (Shared C σ)} {c : C} [DecidableEq α] {image : Int × Int → α}
  {shown : List α} (h : adapter.Shows c image shown)
include h

theorem ends_firstMismatch (entries : List (Int × Int)) (any : entries ≠ [] → shown ≠ []) :
    Ends c (firstMismatch adapter entries)
      (fun verdict c' => (verdict = none ↔ ∀ e ∈ entries, image e ∈ shown) ∧ c' = c)
      fun _ _ => False := by
  induction entries with
  | nil => exact .pure ⟨by simp, rfl⟩
  | cons e rest ih =>
    obtain ⟨key, value⟩ := e
    have hshown := any (List.cons_ne_nil _ _)
    apply (h.holds key value hshown).bind
    rintro b c' ⟨rfl, rfl⟩
    rw [List.forall_mem_cons]
    by_cases hmem : image (key, value) ∈ shown
    · rw [if_pos (decide_eq_true hmem)]
      apply (ih fun _ => hshown).mono _ fun _ _ hf => hf
      rintro verdict c' ⟨hverdict, hc⟩
      exact ⟨hverdict.trans (and_iff_right hmem).symm, hc⟩
    · rw [if_neg (by simp [hmem])]
      exact .pure ⟨by simp [hmem], rfl⟩

/-- Nothing is missing, and by the count nothing is left over. -/
theorem ends_mismatch {reference : Reference} (once : (reference.entries.map image).Nodup) :
    Ends c (reference.mismatch? adapter)
      (fun verdict c' => (verdict = none ↔ (reference.entries.map image).Perm shown) ∧ c' = c)
      fun _ _ => False := by
  apply h.size.bind
  rintro n c' ⟨rfl, rfl⟩
  by_cases hsize : shown.length = reference.size
  · rw [if_neg (not_not.2 hsize)]
    rw [Reference.size] at hsize
    have hany : reference.entries ≠ [] → shown ≠ [] := by
      rintro hne rfl
      exact hne (List.length_eq_zero_iff.1 hsize.symm)
    apply (ends_firstMismatch h reference.entries hany).mono _ fun _ _ hf => hf
    rintro verdict c' ⟨hverdict, hc⟩
    refine ⟨hverdict.trans ⟨fun hall => ?_, fun hperm e he => ?_⟩, hc⟩
    · have hsubset : reference.entries.map image ⊆ shown := by
        intro a ha
        obtain ⟨e, he, rfl⟩ := List.mem_map.1 ha
        exact hall e he
      apply (once.subperm hsubset).perm_of_length_le
      rw [List.length_map]
      exact Nat.le_of_eq hsize
    · exact hperm.mem_iff.1 (List.mem_map_of_mem he)
  · rw [if_pos hsize]
    refine .pure ⟨⟨nofun, fun hperm => absurd ?_ hsize⟩, rfl⟩
    rw [← hperm.length_eq, List.length_map, Reference.size]

end Comparison

/-! ## The writers -/

/-- What a writer does next. -/
inductive WriterStep
  | insert (key value : Int)
  | erase (key : Int)
deriving DecidableEq, Repr

namespace WriterStep

def key : WriterStep → Int
  | insert key _ | erase key => key

/-- The question to the container, with the value that the reference has for the key. -/
def ask (adapter : Adapter ε (Shared C σ)) (expected : Option Int) :
    WriterStep → EStateM ε (Shared C σ) Bool
  | insert key value => adapter.insert key value expected
  | erase key => adapter.erase key expected

def follow (reference : Reference) : WriterStep → Reference
  | insert key value => reference.insert key value
  | erase key => reference.erase key

def perform (adapter : Adapter ε (Shared C σ)) : WriterStep → EStateM ε (Checked (Shared C σ)) Bool
  | insert key value => Checked.insert adapter key value
  | erase key => Checked.erase adapter key

variable {adapter : Adapter ε (Shared C σ)} {s s' : Shared C σ} {reference : Reference}

theorem perform_eq (step : WriterStep) (s : Shared C σ) (reference : Reference) :
    step.perform adapter ⟨s, reference⟩ =
      match step.ask adapter (reference.lookup step.key) s with
      | .ok agreed s' => .ok agreed ⟨s', step.follow reference⟩
      | .error e s' => .error e ⟨s', reference⟩ := by
  have hget (t : Checked (Shared C σ)) :
      (get : EStateM ε (Checked (Shared C σ)) (Checked (Shared C σ))) t = .ok t t := rfl
  cases step with
  | insert key value =>
    simp only [perform, Checked.insert, ask, WriterStep.key]
    simp only [Bind.bind, EStateM.bind, hget, Checked.onSubject, onPart]
    cases adapter.insert key value (reference.lookup key) s <;> rfl
  | erase key =>
    simp only [perform, Checked.erase, ask, WriterStep.key]
    simp only [Bind.bind, EStateM.bind, hget, Checked.onSubject, onPart]
    cases adapter.erase key (reference.lookup key) s <;> rfl

end WriterStep

/-- Every answer is the one foreseen, the reference ends where the steps lead, and the comparison
finds no mismatch then. Or a question was refused. -/
def Endorsed (adapter : Adapter ε (Shared C σ)) (refused : ε → Prop) (steps : List WriterStep)
    (start : Checked (Shared C σ)) : Prop :=
  match steps.mapM (WriterStep.perform adapter) start with
  | .ok flags after => flags = List.replicate steps.length true ∧
    after.reference = steps.foldl WriterStep.follow start.reference ∧
    Ends after.subject.container (after.reference.mismatch? adapter)
      (fun verdict c' => verdict = none ∧ c' = after.subject.container) fun _ _ => False
  | .error e _ => refused e

theorem Endorsed.mono {adapter : Adapter ε (Shared C σ)} {refused refused' : ε → Prop}
    {steps : List WriterStep} {start : Checked (Shared C σ)}
    (h : Endorsed adapter refused steps start) (weaker : ∀ e, refused e → refused' e) :
    Endorsed adapter refused' steps start := by
  rw [Endorsed] at h ⊢
  split at h
  · exact h
  · exact weaker _ h

/-- Where the two agree the comparison finds it, and a step that is allowed keeps them so. -/
structure Adapter.Upholds (adapter : Adapter ε (Shared C σ)) (agree : C → Reference → Prop)
    (allowed : WriterStep → Prop) (refused : ε → Prop) : Prop where
  compares : ∀ c reference, agree c reference → Ends c (reference.mismatch? adapter)
    (fun verdict c' => verdict = none ∧ c' = c) fun _ _ => False
  asks : ∀ c reference step, agree c reference → allowed step →
    Ends c (step.ask adapter (reference.lookup step.key))
      (fun agreed c' => agreed = true ∧ agree c' (step.follow reference)) fun e _ => refused e

/-- What one step upholds a run of steps upholds. -/
theorem Adapter.Upholds.endorsed {adapter : Adapter ε (Shared C σ)} {agree : C → Reference → Prop}
    {allowed : WriterStep → Prop} {refused : ε → Prop}
    (upholds : adapter.Upholds agree allowed refused) {c : C} {reference : Reference}
    (start : agree c reference) (o : σ) {steps : List WriterStep}
    (all : ∀ step ∈ steps, allowed step) :
    Endorsed adapter refused steps ⟨⟨c, o⟩, reference⟩ := by
  induction steps generalizing c reference o with
  | nil => exact ⟨rfl, rfl, upholds.compares c reference start⟩
  | cons step rest ih =>
    obtain ⟨hstep, hrest⟩ := List.forall_mem_cons.1 all
    have hasks := upholds.asks c reference step start hstep
    rw [Endorsed, List.mapM_cons]
    simp only [Bind.bind, EStateM.bind, WriterStep.perform_eq]
    cases hask : step.ask adapter (reference.lookup step.key) ⟨c, o⟩ with
    | error e s => exact hasks.of_error hask
    | ok agreed s =>
      obtain ⟨rfl, hagree⟩ := hasks.of_ok hask
      have hlater := ih hagree s.outside hrest
      rw [Endorsed] at hlater
      dsimp only
      generalize rest.mapM (WriterStep.perform adapter) ⟨s, step.follow reference⟩ = result
        at hlater ⊢
      cases result with
      | error e after => exact hlater
      | ok flags after =>
        obtain ⟨hflags, hreference, hcompares⟩ := hlater
        refine ⟨?_, hreference, hcompares⟩
        rw [hflags]
        rfl

end LockedContainers.Stress
