import LockedContainers.Proofs.Map.Overshoot

/-!
# Threads of a striped map never wait for each other in a circle

A thread that holds a stripe waits for none below it: under the stripe of a key
it waits for nothing, and whoever takes all stripes takes them in order. So the
holder of the highest locked stripe does not wait, whatever the callbacks
answer.
-/
namespace LockedContainers

variable {Thread K V C ε σ α β : Type}

/-- Nothing is known of the operation. -/
theorem Ends.any (c : C) (m : Guarded C ε σ α) : Ends c m (fun _ _ => True) fun _ _ => True := by
  intro o
  cases m ⟨c, o⟩ <;> trivial

namespace StripeBank
namespace Task

/-- The stripe that the task waits for, of so many. -/
def awaited (S : Nat) : Task K V ε → Option Nat
  | knocking _ h => some (h.toNat % S)
  | peeking _ => some 0
  | barring _ taken => if taken < S then some taken else none
  | _ => none

variable {S i : Nat} {bank bank' : StripeBank K V} {task task' : Task K V ε}

/-- A task that waits for a stripe holds nothing or all the stripes below. -/
theorem holds_of_awaited (h : i ∈ task.awaited S) :
    (∀ j, ¬ Holds S (some task) j) ∨ ∀ j, Holds S (some task) j ↔ j < i := by
  cases task with
  | knocking r x =>
    left
    simp [holds_some, span]
  | peeking g =>
    left
    simp [holds_some, span]
  | barring purpose taken =>
    right
    rw [Option.mem_def, awaited] at h
    split at h
    · cases h
      simp [holds_some, span]
    · cases h
  | _ => cases h

theorem awaited_lt (h : i ∈ task.awaited S) (positive : 0 < S) : i < S := by
  cases task with
  | knocking r x =>
    cases h
    exact Nat.mod_lt _ positive
  | peeking g =>
    cases h
    exact positive
  | barring purpose taken =>
    rw [Option.mem_def, awaited] at h
    split at h
    · cases h
      assumption
    · cases h
  | _ => cases h

/-- A task does nothing while the stripe that it waits for is locked. -/
theorem next_of_locked (cb : MapCallbacks K V ε σ) {o : σ}
    (stripes : StripedMap.stripes bank.map = S) (h : i ∈ task.awaited S)
    (locked : bank.locked i = true) : next cb task ⟨bank, o⟩ = .ok (.inr task) ⟨bank, o⟩ := by
  have hacquire (there : Task K V ε) :
      (acquire i task there : Section K V ε σ (Progress K V ε)) ⟨bank, o⟩ =
        .ok (.inr task) ⟨bank, o⟩ := by
    show (if bank.locked i then return .inr task else _ :
      Section K V ε σ (Progress K V ε)) ⟨bank, o⟩ = _
    rw [if_pos locked]
    rfl
  cases task with
  | knocking r x =>
    cases h
    subst stripes
    exact hacquire _
  | peeking g =>
    cases h
    exact hacquire _
  | barring purpose taken =>
    rw [Option.mem_def, awaited] at h
    split at h
    · rename_i hless
      cases h
      show (if i < StripedMap.stripes bank.map then acquire i _ _ else _ :
        Section K V ε σ (Progress K V ε)) ⟨bank, o⟩ = _
      rw [stripes, if_pos hless]
      exact hacquire _
    · cases h
  | _ => cases h

/-- The section answers, fails or leaves another task than this. -/
def Leaves (task : Task K V ε) (bank : StripeBank K V)
    (act : Section K V ε σ (Progress K V ε)) : Prop :=
  Ends bank act (fun out _ => out.getRight? ≠ some task) fun _ _ => True

theorem leaves_on (h : task' ≠ task) :
    task.Leaves bank (return .inr task' : Section K V ε σ (Progress K V ε)) :=
  .pure (by simpa using h)

theorem leaves_part {h : UInt64} {ending : Ending K V ε}
    (away : ∀ first, .leaving first 1 ending ≠ task) :
    task.Leaves bank (part h ending : Section K V ε σ (Progress K V ε)) :=
  .read_bind (leaves_on (away _))

theorem leaves_unbar {ending : Ending K V ε} (away : ∀ left, .leaving 0 left ending ≠ task) :
    task.Leaves bank (unbar ending : Section K V ε σ (Progress K V ε)) :=
  .read_bind (leaves_on (away _))

theorem leaves_acquire (free : bank.locked i = false) (away : task' ≠ task) :
    task.Leaves bank (acquire i task task' : Section K V ε σ (Progress K V ε)) := by
  apply Ends.read_bind
  rw [if_neg (by simp [free])]
  exact .modify_bind (leaves_on away)

/-- What follows a section on the map leaves the task, whatever comes of the section. -/
theorem leaves_onMap {act : MapSection .striped K V ε σ α}
    {next : Except (MapFailure ε) α → Section K V ε σ (Progress K V ε)}
    (h : ∀ result bank', task.Leaves bank' (next result)) :
    task.Leaves bank (onMap act >>= next) :=
  ends_onMap_bind (Ends.any _ _) (fun _ _ _ => h _ _) fun _ _ _ => h _ _

variable (cb : MapCallbacks K V ε σ)

theorem leaves_asked (request : MapRequest K V) :
    (asked request : Task K V ε).Leaves bank (next cb (.asked request)) := by
  have hkey (r : KeyRequest K V) :
      (asked request : Task K V ε).Leaves bank (approach cb r) :=
    .ask_any_bind (Yields.any _) (fun _ => trivial) fun _ _ => leaves_on (by simp)
  cases request with
  | put key value => exact hkey _
  | get key => exact hkey _
  | remove key => exact hkey _
  | contains key => exact hkey _
  | size | isEmpty | options => exact .read_bind (.pure (by simp))
  | _ => exact leaves_on (by simp)

theorem leaves_found (r : KeyRequest K V) (h : UInt64) (slot : Nat) (hit : Option (Hit K V)) :
    (found r h slot hit : Task K V ε).Leaves bank (next cb (.found r h slot hit)) := by
  cases hit with
  | none =>
    cases r with
    | put key value => exact leaves_on (by simp)
    | _ => exact leaves_part (by simp)
  | some hit =>
    cases r with
    | put key value => exact ends_modifyMap_bind (leaves_part (by simp))
    | get key => exact leaves_onMap fun _ _ => leaves_part (by simp)
    | remove key => exact ends_modifyMap_bind (leaves_on (by simp))
    | contains key => exact leaves_part (by simp)

theorem leaves_leaving (first left : Nat) (ending : Ending K V ε) :
    (leaving first left ending).Leaves bank (next cb (.leaving first left ending)) := by
  cases left with
  | succ left => exact .modify_bind (leaves_on (by simp))
  | zero =>
    cases ending with
    | settled request outcome =>
      cases outcome with
      | ok a => exact .pure (by simp)
      | error f => exact .throw trivial
    | _ => exact leaves_on (by simp)

/-- A task comes to another place, unless the stripe that it waits for is locked. -/
theorem leaves_next (stripes : StripedMap.stripes bank.map = S)
    (free : ∀ i ∈ task.awaited S, bank.locked i = false) : task.Leaves bank (next cb task) := by
  cases task with
  | asked request => exact leaves_asked cb request
  | knocking r h =>
    apply Ends.read_bind
    rw [StripedMap.stripeOf, stripes]
    exact leaves_acquire (free _ rfl) (by simp)
  | searching r h =>
    refine leaves_onMap fun result bank' => ?_
    cases result with
    | ok out => exact leaves_on (by simp)
    | error f => exact leaves_part (by simp)
  | found r h slot hit => exact leaves_found cb r h slot hit
  | weighing put slot =>
    apply Ends.read_bind
    dsimp only
    split
    · exact leaves_part (by simp)
    · exact leaves_on (by simp)
  | linking put slot =>
    refine leaves_onMap fun result bank' => ?_
    cases result with
    | ok out => exact ends_modifyMap_bind (leaves_on (by simp))
    | error f => exact leaves_part (by simp)
  | tallying put => exact ends_modifyMap_bind (leaves_part (by simp))
  | discounting h key value => exact ends_modifyMap_bind (leaves_part (by simp))
  | peeking g => exact leaves_acquire (free _ rfl) (by simp)
  | reading g => exact leaves_onMap fun _ _ => leaves_on (by simp)
  | barring purpose taken =>
    apply Ends.read_bind
    rw [stripes]
    split
    · rename_i hless
      exact leaves_acquire (free _ (if_pos hless)) (by simp)
    · exact leaves_on (by simp)
  | barred purpose =>
    cases purpose with
    | growth put seen =>
      apply Ends.read_bind
      dsimp only
      split
      · exact leaves_on (by simp)
      · exact leaves_unbar (by simp)
    | audit => exact leaves_onMap fun _ _ => leaves_unbar (by simp)
  | doubling put =>
    refine leaves_onMap fun result bank' => ?_
    cases result with
    | ok out => exact leaves_unbar (by simp)
    | error f => exact leaves_unbar (by simp)
  | leaving first left ending => exact leaves_leaving cb first left ending

end Task

section Runs
variable [DecidableEq Thread] (cb : MapCallbacks K V ε σ) {options : MapOptions}
  {keeper : Nat → Option Thread} {s : StripeRun Thread K V ε σ} {t : Thread} {i : Nat}

/-- A section that leaves its task changes the state. -/
theorem step_ne_of_leaves {task : Task K V ε} (htask : task ∈ (s.clients t).task)
    (leaves : task.Leaves s.shared.container (Task.next cb task)) :
    s.step (sections cb) t ≠ s := by
  obtain ⟨pending, hclient⟩ := Client.eq_of_task htask
  intro hsame
  cases hrun : Task.next cb task s.shared with
  | ok out shared =>
    have hout := leaves.of_ok hrun
    cases out with
    | inl a =>
      have hlog := congrArg Interleaving.log hsame
      simp [Interleaving.step, hclient, Client.upcoming, sections, hrun, Interleaving.turn] at hlog
    | inr task' =>
      have hclients := congrFun (congrArg Interleaving.clients hsame) t
      simp only [Interleaving.step, hclient, Client.upcoming, sections, hrun, Interleaving.turn,
        Function.update_self, Client.mk.injEq, Option.some.injEq, and_true] at hclients
      exact hout (congrArg some hclients)
  | error f shared =>
    have hlog := congrArg Interleaving.log hsame
    simp [Interleaving.step, hclient, Client.upcoming, sections, hrun, Interleaving.turn] at hlog

/-- A thread whose stripe is locked does nothing. -/
theorem step_of_locked {task : Task K V ε} (htask : task ∈ (s.clients t).task) {S : Nat}
    (stripes : StripedMap.stripes s.shared.container.map = S) (h : i ∈ task.awaited S)
    (locked : s.shared.container.locked i = true) : s.step (sections cb) t = s := by
  obtain ⟨pending, hclient⟩ := Client.eq_of_task htask
  have hrun : Task.next cb task s.shared = .ok (.inr task) s.shared :=
    Task.next_of_locked cb stripes h locked
  simp only [Interleaving.step, hclient, Client.upcoming, sections, hrun, Interleaving.turn]
  rw [← hclient, Function.update_eq_self]
  simp

omit [DecidableEq Thread] in
theorem Kept.stripes (h : Kept options keeper s) :
    StripedMap.stripes s.shared.container.map = options.stripes.toNat := by
  rw [StripedMap.stripes, h.fixed]

omit [DecidableEq Thread] in
/-- A locked stripe is in some thread's hands. -/
theorem Kept.locked_iff (h : Kept options keeper s) :
    s.shared.container.locked i = true ↔
      ∃ t, Holds options.stripes.toNat (s.clients t).task i := by
  rw [h.locked, Option.isSome_iff_exists]
  exact exists_congr fun t => h.held t i

/-- A thread inside an operation takes its next step, unless it waits for a stripe in another's
hands. -/
theorem Kept.blocked_iff (h : Kept options keeper s) (inside : (s.clients t).task ≠ none) :
    s.step (sections cb) t = s ↔
      ∃ task ∈ (s.clients t).task, ∃ i ∈ task.awaited options.stripes.toNat, ∃ t' ≠ t,
        Holds options.stripes.toNat (s.clients t').task i := by
  constructor
  · intro stuck
    obtain ⟨task, htask⟩ := Option.ne_none_iff_exists'.1 inside
    by_contra hfree
    refine step_ne_of_leaves cb htask (Task.leaves_next cb h.stripes fun i hi => ?_) stuck
    rw [Bool.eq_false_iff, Ne, h.locked_iff]
    rintro ⟨t', ht'⟩
    refine hfree ⟨task, htask, i, hi, t', ?_, ht'⟩
    rintro rfl
    rw [htask] at ht'
    rcases Task.holds_of_awaited hi with hnone | hbelow
    · exact hnone i ht'
    · exact Nat.lt_irrefl i ((hbelow i).1 ht')
  · rintro ⟨task, htask, i, hi, t', -, hholds⟩
    exact step_of_locked cb htask h.stripes hi (h.locked_iff.2 ⟨t', hholds⟩)

/-- From the holder of a stripe on there is a thread that can go on. -/
theorem Kept.advances_above (h : Kept options keeper s)
    (held : Holds options.stripes.toNat (s.clients t).task i) :
    ∃ t', (s.clients t').task ≠ none ∧ s.step (sections cb) t' ≠ s := by
  -- The induction is on the stripes above: a holder that waits, waits for one of those.
  induction hn : options.stripes.toNat - i using Nat.strong_induction_on generalizing i t with
  | h n ih =>
    obtain ⟨task, htask, hspan⟩ := held
    have hinside : (s.clients t).task ≠ none := Option.ne_none_iff_exists'.2 ⟨task, htask⟩
    by_cases stuck : s.step (sections cb) t = s
    · obtain ⟨task', htask', j, hj, t', -, hholds⟩ := (h.blocked_iff cb hinside).1 stuck
      obtain rfl : task' = task := Option.some.inj (htask'.symm.trans htask)
      rcases Task.holds_of_awaited hj with hnone | hbelow
      · exact absurd (holds_some.2 hspan) (hnone i)
      · have hless : i < j := (hbelow i).1 (holds_some.2 hspan)
        have hbound := Task.awaited_lt hj h.positive
        exact ih _ (by omega) hholds rfl
    · exact ⟨t, hinside, stuck⟩

/-- While a thread is inside an operation, some thread that is inside one can take a step. -/
theorem Kept.advances (h : Kept options keeper s) (inside : (s.clients t).task ≠ none) :
    ∃ t', (s.clients t').task ≠ none ∧ s.step (sections cb) t' ≠ s := by
  by_cases stuck : s.step (sections cb) t = s
  · obtain ⟨-, -, i, -, t', -, hholds⟩ := (h.blocked_iff cb inside).1 stuck
    exact h.advances_above cb hholds
  · exact ⟨t, inside, stuck⟩

/-- How the stripes of a map are used. A thread that waits for one holds nothing, or all those
below. -/
structure Orderly (cb : MapCallbacks K V ε σ) (S : Nat) (s : StripeRun Thread K V ε σ) : Prop where
  locked : ∀ i, s.shared.container.locked i = true ↔ ∃ t, Holds S (s.clients t).task i
  exclusive : ∀ t t' i, Holds S (s.clients t).task i → Holds S (s.clients t').task i → t = t'
  awaits : ∀ t, ∀ task ∈ (s.clients t).task, ∀ i ∈ task.awaited S,
    (∀ j, ¬ Holds S (s.clients t).task j) ∨ ∀ j, Holds S (s.clients t).task j ↔ j < i
  /-- Only a stripe in another's hands keeps a thread from its next step. -/
  blocked : ∀ t, (s.clients t).task ≠ none →
    (s.step (sections cb) t = s ↔ ∃ task ∈ (s.clients t).task, ∃ i ∈ task.awaited S, ∃ t' ≠ t,
      Holds S (s.clients t').task i)
  advances : ∀ t, (s.clients t).task ≠ none →
    ∃ t', (s.clients t').task ≠ none ∧ s.step (sections cb) t' ≠ s

theorem Kept.orderly (h : Kept options keeper s) : Orderly cb options.stripes.toNat s where
  locked _ := h.locked_iff
  exclusive _ _ _ held held' := h.exclusive held held'
  awaits t task htask i hi := by
    rw [Option.mem_def.1 htask]
    exact Task.holds_of_awaited hi
  blocked _ inside := h.blocked_iff cb inside
  advances _ inside := h.advances cb inside

end Runs
end StripeBank
end LockedContainers
