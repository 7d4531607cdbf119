import LockedContainers.Guarded

/-!
# How operations end

A callback is known by the answers and the failures it may give, whatever
state it keeps. An operation is known by what it makes of the container: the
rules below follow it statement by statement, failures included.
-/
namespace LockedContainers

variable {C ε ε' σ α β : Type}

theorem bind_of_ok {act : EStateM ε σ α} (f : α → EStateM ε σ β) {o o' : σ} {a : α}
    (h : act o = .ok a o') : (act >>= f) o = f a o' := by
  simp only [bind, EStateM.bind, h]

theorem bind_of_error {act : EStateM ε σ α} (f : α → EStateM ε σ β) {o o' : σ}
    {e : ε} (h : act o = .error e o') : (act >>= f) o = .error e o' := by
  simp only [bind, EStateM.bind, h]

/-- Of two actions that answered one after the other, the first one answered. -/
theorem ok_of_bind {act : EStateM ε σ α} {f : α → EStateM ε σ β} {o o' : σ} {b : β}
    (h : (act >>= f) o = .ok b o') : ∃ a o₁, act o = .ok a o₁ ∧ f a o₁ = .ok b o' := by
  simp only [bind, EStateM.bind] at h
  cases hact : act o with
  | ok a o₁ =>
    rw [hact] at h
    exact ⟨a, o₁, rfl, h⟩
  | error e o₁ =>
    rw [hact] at h
    cases h

/-- Of two actions one after the other, the first one failed, or the second one after it. -/
theorem error_of_bind {act : EStateM ε σ α} {f : α → EStateM ε σ β} {o o' : σ} {e : ε}
    (h : (act >>= f) o = .error e o') :
    act o = .error e o' ∨ ∃ a o₁, act o = .ok a o₁ ∧ f a o₁ = .error e o' := by
  simp only [bind, EStateM.bind] at h
  cases hact : act o with
  | ok a o₁ =>
    rw [hact] at h
    exact .inr ⟨a, o₁, rfl, h⟩
  | error e₁ o₁ =>
    rw [hact] at h
    cases h
    exact .inl rfl

theorem ok_of_map {act : EStateM ε σ α} {f : α → β} {o o' : σ} {b : β}
    (h : (f <$> act) o = .ok b o') : ∃ a, act o = .ok a o' ∧ f a = b := by
  rw [map_eq_pure_bind] at h
  obtain ⟨a, o₁, hact, h⟩ := ok_of_bind h
  cases h
  exact ⟨a, hact, rfl⟩

theorem error_of_map {act : EStateM ε σ α} {f : α → β} {o o' : σ} {e : ε}
    (h : (f <$> act) o = .error e o') : act o = .error e o' := by
  rw [map_eq_pure_bind] at h
  rcases error_of_bind h with hact | ⟨a, o₁, -, h⟩
  · exact hact
  · cases h

theorem Guarded.call_map (f : α → β) (act : EStateM ε σ α) :
    (Guarded.call (f <$> act) : Guarded C ε σ β) = f <$> Guarded.call act := by
  funext s
  simp only [Guarded.call, onPart, Functor.map, EStateM.map]
  cases act s.outside <;> rfl

/-- In any state the callback answers in `post` or fails in `failed`. -/
def Yields (act : EStateM ε σ α) (post : α → Prop) (failed : ε → Prop) : Prop :=
  ∀ o, match act o with
    | .ok a _ => post a
    | .error e _ => failed e

namespace Yields

variable {act : EStateM ε σ α} {post : α → Prop} {failed : ε → Prop}

/-- Nothing is known of the callback. -/
theorem any (act : EStateM ε σ α) : Yields act (fun _ => True) fun _ => True := by
  intro o
  cases act o <;> trivial

theorem pure {a : α} (h : post a) : Yields (Pure.pure a : EStateM ε σ α) post failed :=
  fun _ => h

theorem bind {f : α → EStateM ε σ β} {mid : α → Prop} {post : β → Prop}
    (hm : Yields act mid failed) (hf : ∀ a, mid a → Yields (f a) post failed) :
    Yields (act >>= f) post failed := by
  intro o
  have h := hm o
  simp only [Bind.bind, EStateM.bind]
  cases hact : act o with
  | ok a o' =>
    rw [hact] at h
    exact hf a h o'
  | error e o' =>
    rw [hact] at h
    exact h

theorem mono {post' : α → Prop} {failed' : ε → Prop} (h : Yields act post failed)
    (hp : ∀ a, post a → post' a) (hf : ∀ e, failed e → failed' e) : Yields act post' failed' := by
  intro o
  have ho := h o
  cases hact : act o with
  | ok a o' =>
    rw [hact] at ho
    exact hp a ho
  | error e o' =>
    rw [hact] at ho
    exact hf e ho

theorem and {post' : α → Prop} {failed' : ε → Prop} (h : Yields act post failed)
    (h' : Yields act post' failed') :
    Yields act (fun a => post a ∧ post' a) fun e => failed e ∧ failed' e := by
  intro o
  have ho := h o
  have ho' := h' o
  cases hact : act o with
  | ok a o' =>
    rw [hact] at ho ho'
    exact ⟨ho, ho'⟩
  | error e o' =>
    rw [hact] at ho ho'
    exact ⟨ho, ho'⟩

/-- What follows need only agree on the answers. -/
theorem bind_congr {f g : α → EStateM ε σ β} (h : Yields act post failed)
    (hfg : ∀ a, post a → f a = g a) : act >>= f = act >>= g := by
  funext o
  have ho := h o
  simp only [Bind.bind, EStateM.bind]
  cases hact : act o with
  | ok a o' =>
    rw [hact] at ho
    exact congrFun (hfg a ho) o'
  | error e o' => rfl

theorem adaptExcept {f : ε → ε'} {failed : ε' → Prop}
    (h : Yields act post fun e => failed (f e)) : Yields (act.adaptExcept f) post failed := by
  intro o
  have ho := h o
  simp only [EStateM.adaptExcept]
  cases hact : act o with
  | ok a o' =>
    rw [hact] at ho
    exact ho
  | error e o' =>
    rw [hact] at ho
    exact ho

end Yields

/-- Answers, but fails once when a fuse has burnt down. -/
def burn (a : α) : EStateM Unit (Option Nat) α
  | none => .ok a none
  | some 0 => .error () none
  | some (n + 1) => .ok a (some n)

theorem eq_of_burn {a x : α} {o o' : Option Nat} (h : burn a o = .ok x o') : x = a := by
  rcases o with _ | _ | n <;> cases h <;> rfl

/-- From container `c`, whatever state the callbacks keep, the operation answers with answer and
container in `post`, or fails with error and container in `failed`. -/
def Ends (c : C) (m : Guarded C ε σ α) (post : α → C → Prop) (failed : ε → C → Prop) : Prop :=
  ∀ o, match m ⟨c, o⟩ with
    | .ok a s => post a s.container
    | .error e s => failed e s.container

namespace Ends

variable {c : C} {m : Guarded C ε σ α} {post : α → C → Prop} {failed : ε → C → Prop}

theorem pure {a : α} (h : post a c) : Ends c (Pure.pure a : Guarded C ε σ α) post failed :=
  fun _ => h

theorem throw {e : ε} (h : failed e c) :
    Ends c (MonadExcept.throw e : Guarded C ε σ α) post failed :=
  fun _ => h

theorem bind {f : α → Guarded C ε σ β} {mid : α → C → Prop} {post : β → C → Prop}
    (hm : Ends c m mid failed) (hf : ∀ a c', mid a c' → Ends c' (f a) post failed) :
    Ends c (m >>= f) post failed := by
  intro o
  have h := hm o
  simp only [Bind.bind, EStateM.bind]
  cases hrun : m ⟨c, o⟩ with
  | ok a s =>
    rw [hrun] at h
    exact hf a s.container h s.outside
  | error e s =>
    rw [hrun] at h
    exact h

theorem map {f : α → β} {post : β → C → Prop}
    (h : Ends c m (fun a c' => post (f a) c') failed) : Ends c (f <$> m) post failed := by
  intro o
  have ho := h o
  simp only [Functor.map, EStateM.map]
  cases hrun : m ⟨c, o⟩ with
  | ok a s =>
    rw [hrun] at ho
    exact ho
  | error e s =>
    rw [hrun] at ho
    exact ho

theorem mono {post' : α → C → Prop} {failed' : ε → C → Prop} (h : Ends c m post failed)
    (hp : ∀ a c', post a c' → post' a c') (hf : ∀ e c', failed e c' → failed' e c') :
    Ends c m post' failed' := by
  intro o
  have ho := h o
  cases hrun : m ⟨c, o⟩ with
  | ok a s =>
    rw [hrun] at ho
    exact hp a _ ho
  | error e s =>
    rw [hrun] at ho
    exact hf e _ ho

theorem and {post' : α → C → Prop} {failed' : ε → C → Prop} (h : Ends c m post failed)
    (h' : Ends c m post' failed') :
    Ends c m (fun a c' => post a c' ∧ post' a c') fun e c' => failed e c' ∧ failed' e c' := by
  intro o
  have ho := h o
  have ho' := h' o
  cases hrun : m ⟨c, o⟩ with
  | ok a s =>
    rw [hrun] at ho ho'
    exact ⟨ho, ho'⟩
  | error e s =>
    rw [hrun] at ho ho'
    exact ⟨ho, ho'⟩

/-- What is known of an operation, and that it cannot fail. -/
theorem surely (h : Ends c m post failed) (calm : Ends c m (fun _ _ => True) fun _ _ => False) :
    Ends c m post fun _ _ => False :=
  (h.and calm).mono (fun _ _ ha => ha.1) fun _ _ he => he.2

/-- Reading hands the container on. -/
theorem read_bind {f : C → Guarded C ε σ β} {post : β → C → Prop}
    (h : Ends c (f c) post failed) : Ends c (Guarded.read >>= f) post failed := h

theorem read {post : C → C → Prop} (h : post c c) :
    Ends c (Guarded.read : Guarded C ε σ C) post failed :=
  fun _ => h

theorem modify_bind {f : C → C} {next : Unit → Guarded C ε σ β} {post : β → C → Prop}
    (h : Ends (f c) (next ()) post failed) : Ends c (Guarded.modify f >>= next) post failed := h

/-- A callback sees its own state only, so the container stays. -/
theorem call {act : EStateM ε σ α} {answers : α → Prop} {errors : ε → Prop}
    (h : Yields act answers errors) :
    Ends c (Guarded.call act : Guarded C ε σ α) (fun a c' => answers a ∧ c' = c)
      (fun e c' => errors e ∧ c' = c) := by
  intro o
  have ho := h o
  cases hact : act o with
  | ok a o' =>
    rw [hact] at ho
    rw [Guarded.call, onPart_ok _ _ hact]
    exact ⟨ho, rfl⟩
  | error e o' =>
    rw [hact] at ho
    rw [Guarded.call, onPart_error _ _ hact]
    exact ⟨ho, rfl⟩

theorem call_bind {act : EStateM ε σ α} {answers : α → Prop} {f : α → Guarded C ε σ β}
    {post : β → C → Prop} (h : Yields act answers fun e => failed e c)
    (hf : ∀ a, answers a → Ends c (f a) post failed) :
    Ends c (Guarded.call act >>= f) post failed := by
  have hcall : Ends c (Guarded.call act) (fun a c' => answers a ∧ c' = c) failed :=
    (call h).mono (fun _ _ ha => ha) fun e c' he => by
      rw [he.2]
      exact he.1
  refine hcall.bind fun a c' ha => ?_
  rw [ha.2]
  exact hf a ha.1

/-- What is known of a run that answered. -/
theorem of_ok {o : σ} {a : α} {s : Shared C σ} (h : Ends c m post failed)
    (hrun : m ⟨c, o⟩ = .ok a s) : post a s.container := by
  have ho := h o
  rw [hrun] at ho
  exact ho

/-- What is known of a run that failed. -/
theorem of_error {o : σ} {e : ε} {s : Shared C σ} (h : Ends c m post failed)
    (hrun : m ⟨c, o⟩ = .error e s) : failed e s.container := by
  have ho := h o
  rw [hrun] at ho
  exact ho

/-- An operation that cannot fail answers. -/
theorem answers (h : Ends c m post fun _ _ => False) (o : σ) :
    ∃ a c' o', m ⟨c, o⟩ = .ok a ⟨c', o'⟩ ∧ post a c' := by
  cases hrun : m ⟨c, o⟩ with
  | ok a s => exact ⟨a, s.container, s.outside, rfl, h.of_ok hrun⟩
  | error e s => exact (h.of_error hrun).elim

/-- An operation that leaves the container alone. -/
theorem cases_beside (h : Ends c m (fun _ c' => c' = c) fun _ c' => c' = c) (o : σ) :
    (∃ a o', m ⟨c, o⟩ = .ok a ⟨c, o'⟩) ∨ ∃ e o', m ⟨c, o⟩ = .error e ⟨c, o'⟩ := by
  cases hrun : m ⟨c, o⟩ with
  | ok a s =>
    obtain ⟨c', o'⟩ := s
    obtain rfl : c' = c := h.of_ok hrun
    exact .inl ⟨a, o', rfl⟩
  | error e s =>
    obtain ⟨c', o'⟩ := s
    obtain rfl : c' = c := h.of_error hrun
    exact .inr ⟨e, o', rfl⟩

end Ends

/-- From container `c` the operation runs the callbacks, and only when they have answered installs
the container that they lead to. -/
def Commits (c : C) (m : Guarded C ε σ α) (act : EStateM ε σ (α × C)) : Prop :=
  ∀ o, m ⟨c, o⟩ = match act o with
    | .ok (a, c') o' => .ok a ⟨c', o'⟩
    | .error e o' => .error e ⟨c, o'⟩

namespace Commits

variable {c : C}

theorem pure {a : α} : Commits c (Pure.pure a : Guarded C ε σ α) (Pure.pure (a, c)) :=
  fun _ => rfl

/-- The change is the last thing. -/
theorem modify {f : C → C} {a : α} :
    Commits c (Guarded.modify f >>= fun _ => Pure.pure a : Guarded C ε σ α) (Pure.pure (a, f c)) :=
  fun _ => rfl

theorem read_bind {f : C → Guarded C ε σ α} {act : EStateM ε σ (α × C)} (h : Commits c (f c) act) :
    Commits c (Guarded.read >>= f) act :=
  h

theorem map {m : Guarded C ε σ α} {act : EStateM ε σ (α × C)} (f : α → β) (h : Commits c m act) :
    Commits c (f <$> m) (Prod.map f id <$> act) := by
  intro o
  have ho := h o
  simp only [Functor.map, EStateM.map, ho]
  cases act o <;> rfl

theorem call_bind {act : EStateM ε σ β} {f : β → Guarded C ε σ α}
    {g : β → EStateM ε σ (α × C)} (h : ∀ b, Commits c (f b) (g b)) :
    Commits c (Guarded.call act >>= f) (act >>= g) := by
  intro o
  simp only [Bind.bind, EStateM.bind]
  cases hrun : act o with
  | ok b o' =>
    rw [Guarded.call, onPart_ok _ _ hrun]
    exact h b o'
  | error e o' =>
    rw [Guarded.call, onPart_error _ _ hrun]

theorem call {act : EStateM ε σ α} :
    Commits c (Guarded.call act) (act >>= fun a => Pure.pure (a, c)) := by
  have h : Commits c (Guarded.call act >>= Pure.pure) (act >>= fun a => Pure.pure (a, c)) :=
    call_bind fun _ => pure
  rwa [bind_pure] at h

/-- An operation that answers has committed what the callbacks led it to. -/
theorem run_ok {c' : C} {m : Guarded C ε σ α} {act : EStateM ε σ (α × C)} (h : Commits c m act)
    {o o' : σ} {a : α} (hact : act o = .ok (a, c') o') : m ⟨c, o⟩ = .ok a ⟨c', o'⟩ := by
  rw [h o, hact]

theorem run_error {m : Guarded C ε σ α} {act : EStateM ε σ (α × C)} (h : Commits c m act)
    {o o' : σ} {e : ε} (hact : act o = .error e o') : m ⟨c, o⟩ = .error e ⟨c, o'⟩ := by
  rw [h o, hact]

end Commits

end LockedContainers
