import LockedContainers.Set.Request
import LockedContainers.Proofs.Sequential

/-!
# Two sets that a caller cannot tell apart

Nothing is asked of the callbacks here: they may follow no order, answer by
what was asked before, fail at any call and be others for every operation.
Both sets put the same questions in the same order, so they end alike.
-/
namespace LockedContainers

section Alike
variable {C C' ε σ α β : Type}

/-- Whatever state the callbacks keep, both operations come to the same outcome, leave the callbacks
in the same state and the containers related. -/
def EndAlike (R : C → C' → Prop) (c : C) (m : Guarded C ε σ α) (c' : C')
    (m' : Guarded C' ε σ α) : Prop :=
  ∀ o, ∃ outcome d d' o', R d d' ∧ m ⟨c, o⟩ = resultOf outcome ⟨d, o'⟩ ∧
    m' ⟨c', o⟩ = resultOf outcome ⟨d', o'⟩

namespace EndAlike

variable {R : C → C' → Prop} {c : C} {c' : C'}

theorem pure {a : α} (h : R c c') :
    EndAlike R c (Pure.pure a : Guarded C ε σ α) c' (Pure.pure a) :=
  fun o => ⟨.ok a, c, c', o, h, rfl, rfl⟩

theorem map {m : Guarded C ε σ α} {m' : Guarded C' ε σ α} (f : α → β)
    (h : EndAlike R c m c' m') : EndAlike R c (f <$> m) c' (f <$> m') := by
  intro o
  obtain ⟨outcome, d, d', o', hR, hm, hm'⟩ := h o
  refine ⟨f <$> outcome, d, d', o', hR, ?_, ?_⟩
  · simp only [Functor.map, EStateM.map, hm]
    cases outcome <;> rfl
  · simp only [Functor.map, EStateM.map, hm']
    cases outcome <;> rfl

theorem read_bind {f : C → Guarded C ε σ β} {f' : C' → Guarded C' ε σ β}
    (h : EndAlike R c (f c) c' (f' c')) :
    EndAlike R c (Guarded.read >>= f) c' (Guarded.read >>= f') :=
  h

theorem modify_bind {f : C → C} {f' : C' → C'} {next : Unit → Guarded C ε σ β}
    {next' : Unit → Guarded C' ε σ β}
    (h : EndAlike R (f c) (next ()) (f' c') (next' ())) :
    EndAlike R c (Guarded.modify f >>= next) c' (Guarded.modify f' >>= next') :=
  h

/-- After the same callback both go on with its answer. -/
theorem call_bind {act : EStateM ε σ α} {answers : α → Prop} {f : α → Guarded C ε σ β}
    {f' : α → Guarded C' ε σ β} (hact : Yields act answers fun _ => True) (hc : R c c')
    (h : ∀ a, answers a → EndAlike R c (f a) c' (f' a)) :
    EndAlike R c (Guarded.call act >>= f) c' (Guarded.call act >>= f') := by
  intro o
  have ho := hact o
  simp only [Bind.bind, EStateM.bind]
  cases hrun : act o with
  | ok a o' =>
    rw [hrun] at ho
    rw [Guarded.call, Guarded.call, onPart_ok _ _ hrun, onPart_ok _ _ hrun]
    exact h a ho o'
  | error e o' =>
    rw [Guarded.call, Guarded.call, onPart_error _ _ hrun, onPart_error _ _ hrun]
    exact ⟨.error e, c, c', o', hc, rfl, rfl⟩

theorem call {act : EStateM ε σ α} (hc : R c c') :
    EndAlike R c (Guarded.call act) c' (Guarded.call act) := by
  have h : EndAlike R c (Guarded.call act >>= Pure.pure) c' (Guarded.call act >>= Pure.pure) := by
    apply call_bind (Yields.any act) hc
    intro a _
    exact pure hc
  rwa [bind_pure, bind_pure] at h

end EndAlike

/-- Two runs with the same log that leave the callbacks in the same state. -/
theorem serve_alike {R : C → C' → Prop} {operation : α → Guarded C ε σ β}
    {operation' : α → Guarded C' ε σ β}
    (step : ∀ c c' r, R c c' → EndAlike R c (operation r) c' (operation' r))
    {c : C} {c' : C'} (start : R c c') (o : σ) (requests : List α) :
    ∃ log d d' o', R d d' ∧ serve operation requests ⟨c, o⟩ = (log, ⟨d, o'⟩) ∧
      serve operation' requests ⟨c', o⟩ = (log, ⟨d', o'⟩) := by
  induction requests generalizing c c' o with
  | nil => exact ⟨[], c, c', o, start, rfl, rfl⟩
  | cons r rest ih =>
    obtain ⟨outcome, d, d', o', hR, hrun, hrun'⟩ := step c c' r start o
    obtain ⟨log, d₁, d₁', o₁, hR₁, hrest, hrest'⟩ := ih hR o'
    refine ⟨(r, outcome) :: log, d₁, d₁', o₁, hR₁, ?_, ?_⟩
    · rw [serve_cons hrun, hrest]
    · rw [serve_cons hrun', hrest']

end Alike

variable {T ε σ : Type} (cb : SetCallbacks T ε σ)

/-! ## The searches -/

/-- A cursor goes as far as the search for a position. -/
theorem Cursor.seek_eq (key : T) (behind keys : List T) :
    Cursor.seek cb key behind keys =
      (fun i => ⟨(keys.take i).reverse ++ behind, keys.drop i⟩) <$>
        MonitorSet.position cb key keys := by
  induction keys generalizing behind with
  | nil => rfl
  | cons k rest ih =>
    rw [Cursor.seek, MonitorSet.position, map_bind]
    congr 1
    funext earlier
    cases earlier with
    | false => rfl
    | true =>
      simp only [if_true]
      rw [ih]
      simp [Functor.map_map]

theorem MonitorSet.yields_position_le (key : T) (keys : List T) :
    Yields (MonitorSet.position cb key keys) (· ≤ keys.length) fun _ => True := by
  induction keys with
  | nil => exact .pure (Nat.le_refl 0)
  | cons k rest ih =>
    apply (Yields.any ((Place.at k).isBefore cb key)).bind
    intro earlier _
    cases earlier with
    | false => exact .pure (Nat.zero_le _)
    | true => exact ih.bind fun i hi => .pure (Nat.succ_le_succ hi)

/-- Only a key that is there can be the same. -/
theorem MonitorSet.yields_sameAt_lt (key : T) (keys : List T) (i : Nat) :
    Yields (MonitorSet.sameAt cb keys i key) (fun same => same = true → i < keys.length)
      fun _ => True := by
  by_cases hi : i < keys.length
  · exact (Yields.any _).mono (fun _ _ _ => hi) fun _ he => he
  · rw [MonitorSet.sameAt, List.drop_eq_nil_of_le (Nat.le_of_not_lt hi)]
    exact .pure fun h => nomatch h

/-- Visiting node after node asks what comparing neighbours asks. -/
theorem CoupledSet.traverse_auditNode (last : T) (seen : Nat) (keys : List T) :
    MonitorSet.ascending cb (last :: keys) =
      Prod.snd <$> CoupledSet.traverse (CoupledSet.auditNode cb) (some last, seen) keys := by
  induction keys generalizing last seen with
  | nil => rfl
  | cons k rest ih =>
    simp only [MonitorSet.ascending, CoupledSet.traverse, CoupledSet.auditNode, bind_assoc, map_bind]
    congr 1
    funext earlier
    cases earlier with
    | false => rfl
    | true =>
      simp only [if_true, pure_bind]
      exact ih k (seen + 1)

theorem CoupledSet.ascending_eq (keys : List T) :
    MonitorSet.ascending cb keys =
      Prod.snd <$> CoupledSet.traverse (CoupledSet.auditNode cb) (none, 0) keys := by
  cases keys with
  | nil => rfl
  | cons k rest => exact CoupledSet.traverse_auditNode cb k 1 rest

/-- A traversal that reaches the tail has counted every node. -/
theorem CoupledSet.yields_traverse_auditNode (last : Option T) (seen : Nat) (keys : List T) :
    Yields (CoupledSet.traverse (CoupledSet.auditNode cb) (last, seen) keys)
      (fun visited => visited.2 = true → visited.1.2 = seen + keys.length) fun _ => True := by
  induction keys generalizing last seen with
  | nil => exact .pure fun _ => rfl
  | cons k rest ih =>
    have hvisit : Yields (CoupledSet.auditNode cb (last, seen) k)
        (fun visited => visited.2 = true → visited.1.2 = seen + 1) fun _ => True := by
      cases last with
      | none => exact .pure fun _ => rfl
      | some last =>
        apply (Yields.any _).bind
        intro earlier _
        cases earlier with
        | false => exact .pure fun h => nomatch h
        | true => exact .pure fun _ => rfl
    apply hvisit.bind
    rintro ⟨⟨last', seen'⟩, reached⟩ h
    cases reached with
    | false => exact .pure fun h => nomatch h
    | true =>
      have hseen : seen' = seen + 1 := h rfl
      apply (ih last' seen').mono _ fun _ he => he
      intro visited hv hreached
      rw [hv hreached, hseen, List.length_cons]
      omega

/-- A traversal copies the keys one after the other. -/
theorem CoupledSet.traverse_copyNode (copied : Array T) (keys : List T) :
    (fun visited => visited.1.toList) <$>
        CoupledSet.traverse (CoupledSet.copyNode cb) copied keys =
      (copied.toList ++ ·) <$> keys.mapM cb.copy := by
  induction keys generalizing copied with
  | nil => simp [CoupledSet.traverse]
  | cons k rest ih =>
    simp [CoupledSet.traverse, CoupledSet.copyNode, ih]

/-! ## The operations -/

theorem insertIdx_eq_take_cons_drop {keys : List T} {i : Nat} (key : T) (hi : i ≤ keys.length) :
    keys.insertIdx i key = keys.take i ++ key :: keys.drop i := by
  have hadd := List.modifyTailIdx_add (List.cons key) 0 (keys.take i) (keys.drop i)
  rwa [List.take_append_drop, List.length_take_of_le hi] at hadd

/-- The same keys, and a counter that is right in both. -/
structure SameKeys (m : MonitorSet T) (c : CoupledSet T) : Prop where
  keys : c.keys = m.keys
  count : c.count = m.count
  counted : m.count = m.keys.length

namespace SameKeys

variable {m : MonitorSet T} {c : CoupledSet T}

/-- What follows the searches may rely on a position within the keys. -/
theorem endAlike_search {β : Type} (h : SameKeys m c) (key : T)
    {f : Nat → Guarded (MonitorSet T) ε σ β} {f' : Cursor T → Guarded (CoupledSet T) ε σ β}
    (hf : ∀ i, i ≤ m.keys.length →
      EndAlike SameKeys m (f i) c (f' ⟨(m.keys.take i).reverse, m.keys.drop i⟩)) :
    EndAlike SameKeys m (Guarded.call (MonitorSet.position cb key m.keys) >>= f)
      c (Guarded.call (Cursor.seek cb key [] c.keys) >>= f') := by
  rw [h.keys, Cursor.seek_eq, Guarded.call_map, bind_map_left]
  apply EndAlike.call_bind (MonitorSet.yields_position_le cb key m.keys) h
  intro i hi
  rw [List.append_nil]
  exact hf i hi

theorem endAlike_add (h : SameKeys m c) (key : T) :
    EndAlike SameKeys m (MonitorSet.add cb key) c (CoupledSet.add cb key) := by
  apply EndAlike.read_bind
  apply h.endAlike_search
  intro i hi
  apply EndAlike.call_bind (Yields.any _) h
  intro same _
  cases same with
  | true => exact .pure h
  | false =>
    apply EndAlike.modify_bind
    apply EndAlike.pure
    constructor
    · simp [insertIdx_eq_take_cons_drop key hi]
    · simp [h.count]
    · simp [h.counted, List.length_insertIdx, hi]

theorem endAlike_remove (h : SameKeys m c) (key : T) :
    EndAlike SameKeys m (MonitorSet.remove cb key) c (CoupledSet.remove cb key) := by
  apply EndAlike.read_bind
  apply h.endAlike_search
  intro i hi
  apply EndAlike.call_bind (MonitorSet.yields_sameAt_lt cb key m.keys i) h
  intro same hsame
  cases same with
  | false => exact .pure h
  | true =>
    apply EndAlike.modify_bind
    apply EndAlike.pure
    constructor
    · simp [List.eraseIdx_eq_take_drop_succ]
    · simp [h.count]
    · simp [h.counted, List.length_eraseIdx, hsame rfl]

theorem endAlike_contains (h : SameKeys m c) (key : T) :
    EndAlike SameKeys m (MonitorSet.contains cb key) c (CoupledSet.contains cb key) := by
  apply EndAlike.read_bind
  apply h.endAlike_search
  intro i _
  exact .call h

theorem endAlike_size (h : SameKeys m c) :
    EndAlike SameKeys m (MonitorSet.size : Guarded (MonitorSet T) ε σ Nat) c CoupledSet.size := by
  apply EndAlike.read_bind
  rw [h.count]
  exact .pure h

theorem endAlike_snapshot (h : SameKeys m c) :
    EndAlike SameKeys m (MonitorSet.snapshot cb) c (CoupledSet.snapshot cb) := by
  have hcopy : (CoupledSet.snapshot cb : Guarded (CoupledSet T) ε σ (List T)) =
      Guarded.read >>= fun set => Guarded.call (set.keys.mapM cb.copy) := by
    simp only [CoupledSet.snapshot]
    congr 1
    funext set
    have h := CoupledSet.traverse_copyNode cb #[] set.keys
    simp only [List.nil_append, id_map'] at h
    rw [← h, Guarded.call_map]
    rfl
  rw [hcopy]
  apply EndAlike.read_bind
  rw [h.keys]
  exact .call h

theorem endAlike_audit (h : SameKeys m c) (atRest : Bool) :
    EndAlike SameKeys m (MonitorSet.audit cb) c (CoupledSet.audit cb atRest) := by
  apply EndAlike.read_bind
  rw [CoupledSet.ascending_eq, Guarded.call_map, bind_map_left, h.keys]
  apply EndAlike.call_bind (CoupledSet.yields_traverse_auditNode cb none 0 m.keys) h
  rintro ⟨⟨last, seen⟩, reached⟩ hseen
  cases reached with
  | false => exact .pure h
  | true =>
    have hlength : seen = m.keys.length := by simpa using hseen rfl
    simp only [hlength, h.count, h.counted, if_true]
    simpa using EndAlike.pure h

theorem endAlike_perform (h : SameKeys m c) (r : SetRequest T) :
    EndAlike SameKeys m (r.perform cb) c (r.perform cb) := by
  cases r with
  | add key => exact (h.endAlike_add cb key).map SetAnswer.flag
  | remove key => exact (h.endAlike_remove cb key).map SetAnswer.flag
  | contains key => exact (h.endAlike_contains cb key).map SetAnswer.flag
  | size => exact h.endAlike_size.map SetAnswer.count
  | isEmpty => exact h.endAlike_size.map fun n => SetAnswer.flag (n = 0)
  | snapshot => exact (h.endAlike_snapshot cb).map SetAnswer.keys
  | audit => exact (h.endAlike_audit cb true).map SetAnswer.flag
  | auditLive => exact (h.endAlike_audit cb false).map SetAnswer.flag

end SameKeys

/-! ## The calls that a caller can see -/

/-- A call to one of the callbacks, with its arguments. -/
inductive SetCall (T : Type)
  | compare (a b : T)
  | copy (key : T)
deriving DecidableEq, Repr

/-- Notes the call before it is made, so that one that fails is noted too. -/
def noting {α : Type} (call : SetCall T) (act : EStateM ε σ α) :
    EStateM ε (σ × List (SetCall T)) α := fun s =>
  onPart Prod.fst (fun s o => (o, s.2)) act (s.1, s.2 ++ [call])

/-- The same callbacks, with every call noted beside their own state. -/
def SetCallbacks.noted : SetCallbacks T ε (σ × List (SetCall T)) where
  compare a b := noting (.compare a b) (cb.compare a b)
  copy k := noting (.copy k) (cb.copy k)

/-- A request with the callbacks that are installed when it is made. -/
structure SetStep (T ε σ : Type) where
  callbacks : SetCallbacks T ε σ
  request : SetRequest T

namespace SetStep

def perform {S : Type → Type} [LockedSet S] (step : SetStep T ε σ) :
    Guarded (S T) ε σ (SetAnswer T) :=
  step.request.perform step.callbacks

def noted (step : SetStep T ε σ) : SetStep T ε (σ × List (SetCall T)) :=
  ⟨step.callbacks.noted, step.request⟩

/-- The requests on a new set of either kind. -/
def outcome (S : Type → Type) [LockedSet S] (steps : List (SetStep T ε σ)) (o : σ) :
    List (SetStep T ε σ × Except ε (SetAnswer T)) × Shared (S T) σ :=
  serve perform steps ⟨LockedSet.empty, o⟩

end SetStep

/-- Two runs in which a caller sees the same. -/
structure Indistinguishable
    (m : List (SetStep T ε σ × Except ε (SetAnswer T)) × Shared (MonitorSet T) σ)
    (c : List (SetStep T ε σ × Except ε (SetAnswer T)) × Shared (CoupledSet T) σ) : Prop where
  outcomes : c.1 = m.1
  callbacks : c.2.outside = m.2.outside
  keys : c.2.container.keys = m.2.container.keys
  count : c.2.container.count = m.2.container.count

theorem SetStep.outcome_alike (steps : List (SetStep T ε σ)) (o : σ) :
    Indistinguishable (SetStep.outcome MonitorSet steps o) (SetStep.outcome CoupledSet steps o) := by
  have start : SameKeys (LockedSet.empty : MonitorSet T) LockedSet.empty := ⟨rfl, rfl, rfl⟩
  have perform (m : MonitorSet T) (c : CoupledSet T) (step : SetStep T ε σ) (h : SameKeys m c) :
      EndAlike SameKeys m step.perform c step.perform :=
    h.endAlike_perform step.callbacks step.request
  obtain ⟨log, m, c, o', h, hm, hc⟩ := serve_alike perform start o steps
  rw [SetStep.outcome, SetStep.outcome, hm, hc]
  exact ⟨rfl, rfl, h.keys, h.count⟩

/-- New sets that were asked the same, with any callbacks and any number of times: the same answers
and failures, the same calls in the same order, the same keys and the same size. -/
theorem sets_interchangeable (steps : List (SetStep T ε σ)) (o : σ) :
    Indistinguishable (SetStep.outcome MonitorSet steps o) (SetStep.outcome CoupledSet steps o) ∧
      Indistinguishable (SetStep.outcome MonitorSet (steps.map SetStep.noted) (o, []))
        (SetStep.outcome CoupledSet (steps.map SetStep.noted) (o, [])) :=
  ⟨SetStep.outcome_alike steps o, SetStep.outcome_alike (steps.map SetStep.noted) (o, [])⟩

/-- Under a comparison that always holds, keys stand as they came. -/
example :
    let callbacks : SetCallbacks Nat Unit Unit := ⟨fun _ _ => pure true, pure⟩
    let steps := [SetStep.mk callbacks (.add 1), ⟨callbacks, .add 2⟩, ⟨callbacks, .add 0⟩]
    let run := SetStep.outcome CoupledSet (steps.map SetStep.noted) ((), [])
    run.2.container.keys = [1, 2, 0] ∧
      run.2.outside.2 = [.compare 1 2, .compare 1 0, .compare 2 0] :=
  ⟨rfl, rfl⟩

end LockedContainers
