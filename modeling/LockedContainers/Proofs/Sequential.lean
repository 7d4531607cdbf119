import LockedContainers.Proofs.Guarded

/-!
# Sequential objects and the logs they explain

A sequential object says which answers are right and what a request changes.
It explains a log of requests with their outcomes when, taken in the order of
the log, every answer is right and every failed request does nothing.
-/
namespace LockedContainers

structure SequentialObject (D α β : Type) where
  /-- Whether the answer is right in the state. -/
  accepts : D → α → β → Prop
  /-- The state after a request that was answered. -/
  effect : D → α → D

namespace SequentialObject

variable {D α β ε : Type}

/-- The log leads from one state to the other, and all its failures are excused. -/
inductive Explains (obj : SequentialObject D α β) (excused : ε → Prop) :
    D → List (α × Except ε β) → D → Prop
  | nil {d : D} : Explains obj excused d [] d
  | answer {d d' : D} {r : α} {a : β} {log : List (α × Except ε β)} :
    obj.accepts d r a → Explains obj excused (obj.effect d r) log d' →
      Explains obj excused d ((r, .ok a) :: log) d'
  | failure {d d' : D} {r : α} {e : ε} {log : List (α × Except ε β)} :
    excused e → Explains obj excused d log d' → Explains obj excused d ((r, .error e) :: log) d'

namespace Explains

variable {obj : SequentialObject D α β} {excused : ε → Prop} {d d₁ d₂ : D}
  {log log' : List (α × Except ε β)}

theorem append (h : obj.Explains excused d log d₁) (h' : obj.Explains excused d₁ log' d₂) :
    obj.Explains excused d (log ++ log') d₂ := by
  induction h with
  | nil => exact h'
  | answer ha _ ih => exact .answer ha (ih h')
  | failure he _ ih => exact .failure he (ih h')

/-- One right answer that changes nothing. -/
theorem unchanged {r : α} {a : β} (ha : obj.accepts d r a) (same : obj.effect d r = d) :
    obj.Explains excused d [(r, .ok a)] d := by
  have h : obj.Explains excused d [(r, .ok a)] (obj.effect d r) := .answer ha .nil
  rwa [same] at h

theorem split (h : obj.Explains excused d (log ++ log') d₂) :
    ∃ d₁, obj.Explains excused d log d₁ ∧ obj.Explains excused d₁ log' d₂ := by
  induction log generalizing d with
  | nil => exact ⟨d, .nil, h⟩
  | cons entry log ih =>
    cases h with
    | answer ha h =>
      obtain ⟨d₁, hlog, hlog'⟩ := ih h
      exact ⟨d₁, .answer ha hlog, hlog'⟩
    | failure he h =>
      obtain ⟨d₁, hlog, hlog'⟩ := ih h
      exact ⟨d₁, .failure he hlog, hlog'⟩

/-- Every entry was answered rightly in some state, or failed with an excuse. -/
theorem of_mem {r : α} {outcome : Except ε β} (h : obj.Explains excused d log d₁)
    (hmem : (r, outcome) ∈ log) :
    (∃ d' a, outcome = .ok a ∧ obj.accepts d' r a) ∨ ∃ e, outcome = .error e ∧ excused e := by
  obtain ⟨earlier, later, rfl⟩ := List.append_of_mem hmem
  obtain ⟨d', -, hlater⟩ := h.split
  cases hlater with
  | answer ha _ => exact .inl ⟨d', _, rfl, ha⟩
  | failure he _ => exact .inr ⟨_, rfl, he⟩

theorem excuse {r : α} {e : ε} (h : obj.Explains excused d log d₁) (hmem : (r, .error e) ∈ log) :
    excused e := by
  obtain ⟨_, _, hok, -⟩ | ⟨e', herror, hexcused⟩ := h.of_mem hmem
  · cases hok
  · cases herror
    exact hexcused

end Explains
end SequentialObject

section
variable {C D ε σ α β : Type}

/-- An operation that came to the outcome in this state. -/
def resultOf {S : Type} : Except ε α → S → EStateM.Result ε S α
  | .ok a, s => .ok a s
  | .error e, s => .error e s

/-- Carries out request after request; a failure ends its own request only. -/
def serve (operation : α → Guarded C ε σ β) :
    List α → Shared C σ → List (α × Except ε β) × Shared C σ
  | [], s => ([], s)
  | r :: rest, s =>
    match operation r s with
    | .ok a s => ((r, .ok a) :: (serve operation rest s).1, (serve operation rest s).2)
    | .error e s => ((r, .error e) :: (serve operation rest s).1, (serve operation rest s).2)

theorem serve_cons {operation : α → Guarded C ε σ β} {r : α} {rest : List α}
    {s s' : Shared C σ} {outcome : Except ε β} (h : operation r s = resultOf outcome s') :
    serve operation (r :: rest) s =
      ((r, outcome) :: (serve operation rest s').1, (serve operation rest s').2) := by
  cases outcome with
  | ok a => rw [serve, h, resultOf]
  | error e => rw [serve, h, resultOf]

/-- The log of one request tells how its operation failed. -/
theorem run_of_serve_error {operation : α → Guarded C ε σ β} {r : α} {s : Shared C σ} {e : ε}
    (h : (serve operation [r] s).1 = [(r, .error e)]) :
    operation r s = .error e (serve operation [r] s).2 := by
  rw [serve] at h ⊢
  cases hrun : operation r s with
  | ok a s' =>
    rw [hrun] at h
    simp at h
  | error e' s' =>
    rw [hrun] at h
    simp only [List.cons.injEq, Prod.mk.injEq, Except.error.injEq, true_and] at h
    rw [h.1]
    rfl

theorem serve_requests (operation : α → Guarded C ε σ β) (requests : List α) (s : Shared C σ) :
    (serve operation requests s).1.map Prod.fst = requests := by
  induction requests generalizing s with
  | nil => rfl
  | cons r rest ih =>
    rw [serve]
    cases operation r s with
    | ok a s => simp [ih]
    | error e s => simp [ih]

/-- What every operation maintains holds after every run, and what every operation makes sure of its
outcome holds of every entry of the log. -/
theorem serve_invariant (I : C → Prop) (expected : α → Except ε β → Prop)
    {operation : α → Guarded C ε σ β}
    (step : ∀ c r, I c → Ends c (operation r) (fun a c' => expected r (.ok a) ∧ I c')
      (fun e c' => expected r (.error e) ∧ I c'))
    {c : C} (start : I c) (o : σ) (requests : List α) :
    (∀ entry ∈ (serve operation requests ⟨c, o⟩).1, expected entry.1 entry.2) ∧
      I (serve operation requests ⟨c, o⟩).2.container := by
  induction requests generalizing c o with
  | nil => exact ⟨by simp [serve], start⟩
  | cons r rest ih =>
    rw [serve]
    cases hrun : operation r ⟨c, o⟩ with
    | ok a s =>
      obtain ⟨ha, hs⟩ := (step c r start).of_ok hrun
      obtain ⟨hlog, hend⟩ := ih hs s.outside
      exact ⟨List.forall_mem_cons.2 ⟨ha, hlog⟩, hend⟩
    | error e s =>
      obtain ⟨he, hs⟩ := (step c r start).of_error hrun
      obtain ⟨hlog, hend⟩ := ih hs s.outside
      exact ⟨List.forall_mem_cons.2 ⟨he, hlog⟩, hend⟩

/-- A relation to the states of an object that every operation maintains explains every run. -/
theorem serve_explained (obj : SequentialObject D α β) {excused : ε → Prop} {R : C → D → Prop}
    {operation : α → Guarded C ε σ β}
    (step : ∀ c d r, R c d → Ends c (operation r)
      (fun a c' => obj.accepts d r a ∧ R c' (obj.effect d r))
      (fun e c' => excused e ∧ R c' d))
    {c : C} {d : D} (start : R c d) (o : σ) (requests : List α) :
    ∃ d', obj.Explains excused d (serve operation requests ⟨c, o⟩).1 d' ∧
      R (serve operation requests ⟨c, o⟩).2.container d' := by
  induction requests generalizing c d o with
  | nil => exact ⟨d, .nil, start⟩
  | cons r rest ih =>
    rw [serve]
    cases hrun : operation r ⟨c, o⟩ with
    | ok a s =>
      obtain ⟨ha, hs⟩ := (step c d r start).of_ok hrun
      obtain ⟨d', hlog, hR⟩ := ih hs s.outside
      exact ⟨d', .answer ha hlog, hR⟩
    | error e s =>
      obtain ⟨he, hs⟩ := (step c d r start).of_error hrun
      obtain ⟨d', hlog, hR⟩ := ih hs s.outside
      exact ⟨d', .failure he hlog, hR⟩

end
end LockedContainers
