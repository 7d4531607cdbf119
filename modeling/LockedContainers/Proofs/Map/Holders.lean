import LockedContainers.Proofs.Map.Moves

/-!
# Who holds which stripe

Whatever order the steps of the threads come in, a stripe is locked exactly
when some thread holds it, and no two threads hold one stripe. What a thread
knows of the map stays true until its own next step.
-/
namespace LockedContainers

variable {Thread K V ε σ : Type}

/-- Threads that share a striped map. -/
abbrev StripeRun (Thread K V ε σ : Type) :=
  Interleaving Thread (StripeBank K V) (MapFailure ε) σ (MapRequest K V) (MapAnswer V)
    (StripeBank.Task K V ε)

namespace StripeBank

/-- What a task knows is about its own stripes. -/
theorem Task.Knows.frame {S : Nat} {map map' : StripedMap K V} {task : Task K V ε}
    (h : task.Knows S map) (positive : 0 < S)
    (alike : ∀ i < S, Holds S (some task) i → Alike S i map map')
    (all : (∀ i < S, Holds S (some task) i) → map' = map) : task.Knows S map' := by
  have hone : ∀ x : UInt64, task.span S = (x.toNat % S, 1) → Alike S (x.toNat % S) map map' :=
    fun x hspan => alike _ (Nat.mod_lt _ positive) ((holdsOnly_of_span hspan _).2 rfl)
  cases task with
  | found r x slot hit =>
    obtain ⟨⟨hbound, hstripe⟩, hcut⟩ := h
    obtain ⟨hsize, hbucket⟩ := hone x rfl
    refine ⟨⟨hsize ▸ hbound, hstripe⟩, fun hit hhit => ?_⟩
    rw [hbucket slot hstripe]
    exact hcut hit hhit
  | weighing put slot => exact ⟨(hone put.hash rfl).1 ▸ h.1, h.2⟩
  | linking put slot => exact ⟨(hone put.hash rfl).1 ▸ h.1, h.2⟩
  | tallying put =>
    obtain ⟨slot, hstripe, hfull⟩ := h
    refine ⟨slot, hstripe, ?_⟩
    rw [(hone put.hash rfl).2 slot hstripe]
    exact hfull
  | doubling put =>
    rw [all fun i hi => by rw [holds_some, span]; omega]
    exact h
  | barring purpose taken => exact h
  | leaving first left ending => exact h
  | _ => trivial

/-- After a step there is again one holder for every locked stripe. -/
theorem Regrip.keeper [DecidableEq Thread] {locked locked' : Nat → Bool} {held held' : Nat → Prop}
    {keeper : Nat → Option Thread} {t : Thread} (h : Regrip locked held held' locked')
    (hlocked : ∀ i, locked i = (keeper i).isSome) (hheld : ∀ i, keeper i = some t ↔ held i) :
    ∃ keeper' : Nat → Option Thread, (∀ i, locked' i = (keeper' i).isSome) ∧
      (∀ i, keeper' i = some t ↔ held' i) ∧
      ∀ t' ≠ t, ∀ i, keeper' i = some t' ↔ keeper i = some t' := by
  cases h with
  | same h => exact ⟨keeper, hlocked, fun i => (hheld i).trans (h i).symm, fun _ _ _ => Iff.rfl⟩
  | take i free h =>
    have hnone : keeper i = none := by
      rw [hlocked] at free
      simpa using free
    refine ⟨Function.update keeper i (some t), fun j => ?_, fun j => ?_, fun t' ht j => ?_⟩ <;>
      by_cases hj : j = i
    · simp [hj]
    · simp [hj, hlocked]
    · simp [hj, h]
    · simp [hj, h, hheld]
    · simp [hj, hnone, Ne.symm ht]
    · simp [hj]
  | give i mine h =>
    have hsome : keeper i = some t := (hheld i).2 mine
    refine ⟨Function.update keeper i none, fun j => ?_, fun j => ?_, fun t' ht j => ?_⟩ <;>
      by_cases hj : j = i
    · simp [hj]
    · simp [hj, hlocked]
    · simp [hj, h]
    · simp [hj, h, hheld]
    · simp [hj, hsome, Ne.symm ht]
    · simp [hj]

/-- Every stripe has its keeper, and what the threads know is true of the map. -/
structure Kept (options : MapOptions) (keeper : Nat → Option Thread)
    (s : StripeRun Thread K V ε σ) : Prop where
  fixed : s.shared.container.map.options = options
  positive : 0 < options.stripes.toNat
  even : options.stripes.toNat ∣ s.shared.container.map.table.size
  locked : ∀ i, s.shared.container.locked i = (keeper i).isSome
  held : ∀ t i, keeper i = some t ↔ Holds options.stripes.toNat (s.clients t).task i
  knows : ∀ t, ∀ task ∈ (s.clients t).task,
    task.Knows options.stripes.toNat s.shared.container.map

section Upcoming
variable {client : Client (MapRequest K V) (Task K V ε)} {task : Task K V ε}
  {pending : List (MapRequest K V)}

/-- A task that comes up is the one that the thread is in, or it begins a request. -/
theorem task_of_upcoming (h : client.upcoming Task.asked = some (task, pending)) :
    client.task = some task ∨ client.task = none ∧ ∃ request, task = .asked request := by
  obtain ⟨current, requests⟩ := client
  cases current with
  | some task' =>
    cases h
    exact .inl rfl
  | none =>
    cases requests with
    | nil => cases h
    | cons request rest =>
      cases h
      exact .inr ⟨rfl, request, rfl⟩

theorem holds_upcoming (h : client.upcoming Task.asked = some (task, pending)) (S i : Nat) :
    Holds S client.task i ↔ Holds S (some task) i := by
  obtain htask | ⟨htask, request, rfl⟩ := task_of_upcoming h
  · rw [htask]
  · rw [htask, holds_some]
    simp [Holds, Task.span]

theorem stageOf_upcoming (h : client.upcoming Task.asked = some (task, pending)) :
    stageOf client.task = task.stage := by
  obtain htask | ⟨htask, request, rfl⟩ := task_of_upcoming h <;> rw [htask] <;> rfl

end Upcoming

section Steps
variable {options : MapOptions} {keeper : Nat → Option Thread} {s : StripeRun Thread K V ε σ}
  {t : Thread} {task : Task K V ε} {pending : List (MapRequest K V)}

/-- The task that comes up finds what it relies on. -/
theorem Kept.situated (h : Kept options keeper s)
    (up : (s.clients t).upcoming Task.asked = some (task, pending)) :
    task.Situated options.stripes.toNat s.shared.container where
  stripes := by rw [StripedMap.stripes, h.fixed]
  positive := h.positive
  even := h.even
  knows := by
    obtain htask | ⟨-, request, rfl⟩ := task_of_upcoming up
    · exact h.knows t task htask
    · trivial

/-- No two threads hold one stripe. -/
theorem Kept.exclusive (h : Kept options keeper s) {t' : Thread} {i : Nat}
    (held : Holds options.stripes.toNat (s.clients t).task i)
    (held' : Holds options.stripes.toNat (s.clients t').task i) : t = t' := by
  rw [← h.held] at held held'
  exact Option.some.inj (held.symm.trans held')

variable [DecidableEq Thread] {shared : Shared (StripeBank K V) σ} {out : Option (Task K V ε)}
  (done : List (MapRequest K V × Except (MapFailure ε) (MapAnswer V)))

/-- A move keeps it so. -/
theorem Kept.turn (h : Kept options keeper s)
    (up : (s.clients t).upcoming Task.asked = some (task, pending))
    (move : Move options.stripes.toNat s.shared.container task shared.container out) :
    ∃ keeper', Kept options keeper' (s.turn t shared { task := out, pending } done) := by
  have hmine : ∀ i, keeper i = some t ↔ Holds options.stripes.toNat (some task) i :=
    fun i => (h.held t i).trans (holds_upcoming up _ i)
  obtain ⟨keeper', hlocked, hheld, hothers⟩ := move.regrip.keeper h.locked hmine
  refine ⟨keeper', ⟨move.options.trans h.fixed, h.positive, ?_, hlocked, fun t' i => ?_, ?_⟩⟩
  · rcases move.grows with ⟨hsize, -⟩ | ⟨-, hdoubled⟩
    · exact hsize ▸ h.even
    · rw [Interleaving.turn, hdoubled.size]
      exact Nat.dvd_mul_right_of_dvd h.even 2
  · by_cases ht : t' = t
    · subst ht
      simpa [Interleaving.turn] using hheld i
    · rw [hothers t' ht, h.held t' i]
      simp only [Interleaving.turn, Function.update_of_ne ht]
  · refine (Function.forall_update_iff s.clients fun _ c => ∀ task ∈ c.task,
      task.Knows options.stripes.toNat shared.container.map).2
        ⟨move.knows, fun t' ht task' htask => ?_⟩
    have hother : ∀ i, Holds options.stripes.toNat (some task') i →
        ¬ Holds options.stripes.toNat (some task) i := by
      intro i hi hi'
      rw [← Option.mem_def.1 htask] at hi
      exact ht (h.exclusive hi ((holds_upcoming up _ i).2 hi'))
    apply (h.knows t' task' htask).frame h.positive
    · exact fun i hi hheld' => move.spares i hi (hother i hheld')
    · exact fun hall => move.idle fun i hi => hother i (hall i hi)

end Steps
end StripeBank
end LockedContainers
