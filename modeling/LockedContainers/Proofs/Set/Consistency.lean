import LockedContainers.Proofs.Set.Inquiry

/-!
# Sets that stay consistent under any comparison

The counter follows the list whatever the callbacks answer. When one of their
calls fails, the operation has made the calls up to that one, of those that
it makes without the failure, and nothing else has happened.
-/
namespace LockedContainers

variable {T ε σ α β : Type}

/-! ## Calls that fail -/

/-- A failure of one call, and what it makes of the state that the callbacks keep. -/
structure Interruption (ε σ : Type) where
  /-- Its number, from one on. -/
  call : Nat
  error : ε
  spoil : σ → σ

/-- Notes the call, and fails instead of making it when it is the one to be interrupted. -/
def Interruption.strike (i : Interruption ε σ) (call : SetCall T) (act : EStateM ε σ α) :
    EStateM ε (σ × List (SetCall T)) α := fun s =>
  if s.2.length + 1 = i.call then .error i.error (i.spoil s.1, s.2 ++ [call])
  else noting call act s

/-- The same callbacks, with every call noted and one of them failing. -/
def SetCallbacks.interrupted (cb : SetCallbacks T ε σ) (i : Interruption ε σ) :
    SetCallbacks T ε (σ × List (SetCall T)) where
  compare a b := i.strike (.compare a b) (cb.compare a b)
  copy k := i.strike (.copy k) (cb.copy k)

def SetStep.interrupted (step : SetStep T ε σ) (i : Interruption ε σ) :
    SetStep T ε (σ × List (SetCall T)) :=
  ⟨step.callbacks.interrupted i, step.request⟩

/-- `calm` does what `plain` does and notes the calls. When these reach the one to be interrupted,
`broken` makes them up to that one and fails; else it does what `calm` does. -/
def BreaksOff (plain : EStateM ε σ α) (calm : EStateM ε (σ × List (SetCall T)) α)
    (broken : Interruption ε σ → EStateM ε (σ × List (SetCall T)) α) : Prop :=
  ∀ o calls, ∃ outcome o' made, plain o = resultOf outcome o' ∧
    calm (o, calls) = resultOf outcome (o', calls ++ made) ∧ ∀ i : Interruption ε σ,
      (calls.length < i.call → i.call ≤ (calls ++ made).length →
        ∃ o'', broken i (o, calls) = .error i.error (o'', (calls ++ made).take i.call)) ∧
      ((calls ++ made).length < i.call → broken i (o, calls) = calm (o, calls))

namespace BreaksOff

variable {plain : EStateM ε σ α} {calm : EStateM ε (σ × List (SetCall T)) α}
  {broken : Interruption ε σ → EStateM ε (σ × List (SetCall T)) α}

theorem pure {a : α} :
    BreaksOff (Pure.pure a : EStateM ε σ α)
      (Pure.pure a : EStateM ε (σ × List (SetCall T)) α) fun _ => Pure.pure a := by
  intro o calls
  refine ⟨.ok a, o, [], rfl, ?_, fun i => ⟨fun hlt hle => ?_, fun _ => rfl⟩⟩
  · rw [List.append_nil]
    rfl
  · rw [List.append_nil] at hle
    omega

theorem call (call : SetCall T) (act : EStateM ε σ α) :
    BreaksOff act (noting call act) fun i => i.strike call act := by
  intro o calls
  have hlength : (calls ++ [call]).length = calls.length + 1 := by simp
  have hstruck : ∀ i : Interruption ε σ,
      (calls.length < i.call → i.call ≤ (calls ++ [call]).length →
        ∃ o'', i.strike call act (o, calls) = .error i.error (o'', (calls ++ [call]).take i.call)) ∧
      ((calls ++ [call]).length < i.call →
        i.strike call act (o, calls) = noting call act (o, calls)) := by
    intro i
    constructor
    · intro hlt hle
      have hlast : calls.length + 1 = i.call := by omega
      rw [List.take_of_length_le (by omega), Interruption.strike, if_pos hlast]
      exact ⟨i.spoil o, rfl⟩
    · intro hlt
      have hlater : ¬ calls.length + 1 = i.call := by omega
      rw [Interruption.strike, if_neg hlater]
  cases hact : act o with
  | ok a o' => exact ⟨.ok a, o', [call], rfl, onPart_ok _ _ hact, hstruck⟩
  | error e o' => exact ⟨.error e, o', [call], rfl, onPart_error _ _ hact, hstruck⟩

theorem bind {next : α → EStateM ε σ β} {next' : α → EStateM ε (σ × List (SetCall T)) β}
    {next'' : Interruption ε σ → α → EStateM ε (σ × List (SetCall T)) β}
    (h : BreaksOff plain calm broken)
    (hnext : ∀ a, BreaksOff (next a) (next' a) fun i => next'' i a) :
    BreaksOff (plain >>= next) (calm >>= next') fun i => broken i >>= next'' i := by
  intro o calls
  obtain ⟨outcome, o₁, made, hplain, hcalm, hbroken⟩ := h o calls
  -- When a call of the first part fails nothing comes after it.
  have hfirst : ∀ (i : Interruption ε σ) later, calls.length < i.call →
      i.call ≤ (calls ++ made).length → ∃ o'',
        (broken i >>= next'' i) (o, calls) =
          .error i.error (o'', (calls ++ made ++ later).take i.call) := by
    intro i later hlt hle
    obtain ⟨o'', hfail⟩ := (hbroken i).1 hlt hle
    rw [List.take_append_of_le_length hle]
    exact ⟨o'', bind_of_error _ hfail⟩
  cases outcome with
  | error e =>
    have hrun := bind_of_error next' hcalm
    refine ⟨.error e, o₁, made, bind_of_error next hplain, hrun, fun i =>
      ⟨fun hlt hle => ?_, fun hlt => ?_⟩⟩
    · have hfail := hfirst i [] hlt hle
      rwa [List.append_nil] at hfail
    · rw [hrun]
      exact bind_of_error _ (((hbroken i).2 hlt).trans hcalm)
  | ok a =>
    obtain ⟨outcome, o₂, later, hplain', hcalm', hbroken'⟩ := hnext a o₁ (calls ++ made)
    have hrun := bind_of_ok next' hcalm
    have hon : ∀ i : Interruption ε σ, (calls ++ made).length < i.call →
        (broken i >>= next'' i) (o, calls) = next'' i a (o₁, calls ++ made) :=
      fun i hlt => bind_of_ok _ (((hbroken i).2 hlt).trans hcalm)
    refine ⟨outcome, o₂, made ++ later, (bind_of_ok next hplain).trans hplain', ?_, fun i =>
      ⟨fun hlt hle => ?_, fun hlt => ?_⟩⟩
    · rw [hrun, hcalm', List.append_assoc]
    · rw [← List.append_assoc] at hle ⊢
      by_cases hmade : i.call ≤ (calls ++ made).length
      · exact hfirst i later hlt hmade
      · obtain ⟨o'', hfail⟩ := (hbroken' i).1 (by omega) hle
        exact ⟨o'', (hon i (by omega)).trans hfail⟩
    · rw [← List.append_assoc] at hlt
      have hmade : (calls ++ made).length < i.call := by
        rw [List.length_append] at hlt
        omega
      exact (hon i hmade).trans (((hbroken' i).2 hlt).trans hrun.symm)

theorem map (f : α → β) (h : BreaksOff plain calm broken) :
    BreaksOff (f <$> plain) (f <$> calm) fun i => f <$> broken i := by
  simp only [map_eq_pure_bind]
  exact h.bind fun _ => pure

end BreaksOff

section Searches
variable (cb : SetCallbacks T ε σ)

theorem breaksOff_position (key : T) (keys : List T) :
    BreaksOff (MonitorSet.position cb key keys) (MonitorSet.position cb.noted key keys)
      fun i => MonitorSet.position (cb.interrupted i) key keys := by
  induction keys with
  | nil => exact .pure
  | cons k rest ih =>
    apply (BreaksOff.call (.compare k key) (cb.compare k key)).bind
    intro earlier
    cases earlier with
    | false => exact .pure
    | true => exact ih.bind fun _ => .pure

theorem breaksOff_sameAt (keys : List T) (i : Nat) (key : T) :
    BreaksOff (MonitorSet.sameAt cb keys i key) (MonitorSet.sameAt cb.noted keys i key)
      fun j => MonitorSet.sameAt (cb.interrupted j) keys i key := by
  simp only [MonitorSet.sameAt]
  cases keys.drop i with
  | nil => exact .pure
  | cons k rest => exact (BreaksOff.call (.compare key k) (cb.compare key k)).bind fun _ => .pure

theorem breaksOff_ascending (keys : List T) :
    BreaksOff (MonitorSet.ascending cb keys) (MonitorSet.ascending cb.noted keys)
      fun i => MonitorSet.ascending (cb.interrupted i) keys := by
  induction keys with
  | nil => exact .pure
  | cons k rest ih =>
    cases rest with
    | nil => exact .pure
    | cons next rest =>
      apply (BreaksOff.call (.compare k next) (cb.compare k next)).bind
      intro earlier
      cases earlier with
      | false => exact .pure
      | true => exact ih

theorem breaksOff_copies (keys : List T) :
    BreaksOff (keys.mapM cb.copy) (keys.mapM cb.noted.copy)
      fun i => keys.mapM (cb.interrupted i).copy := by
  induction keys with
  | nil => exact .pure
  | cons k rest ih =>
    simp only [List.mapM_cons]
    apply (BreaksOff.call (.copy k) (cb.copy k)).bind
    intro copied
    exact ih.bind fun _ => .pure

/-- A request breaks off at the call that fails. -/
theorem breaksOff_inquire (set : MonitorSet T) (request : SetRequest T) :
    BreaksOff (MonitorSet.inquire cb set request) (MonitorSet.inquire cb.noted set request)
      fun i => MonitorSet.inquire (cb.interrupted i) set request := by
  have haudit : BreaksOff (MonitorSet.inquire.audited cb set)
      (MonitorSet.inquire.audited cb.noted set)
      fun i => MonitorSet.inquire.audited (cb.interrupted i) set := by
    apply BreaksOff.map
    apply (breaksOff_ascending cb set.keys).bind
    intro ascends
    cases ascends <;> exact .pure
  cases request with
  | add key =>
    apply BreaksOff.map
    apply (breaksOff_position cb key set.keys).bind
    intro i
    apply (breaksOff_sameAt cb set.keys i key).bind
    intro same
    cases same <;> exact .pure
  | remove key =>
    apply BreaksOff.map
    apply (breaksOff_position cb key set.keys).bind
    intro i
    apply (breaksOff_sameAt cb set.keys i key).bind
    intro same
    cases same <;> exact .pure
  | contains key =>
    apply BreaksOff.map
    apply (breaksOff_position cb key set.keys).bind
    intro i
    exact (breaksOff_sameAt cb set.keys i key).bind fun _ => .pure
  | size => exact .pure
  | isEmpty => exact .pure
  | snapshot =>
    apply BreaksOff.map
    exact (breaksOff_copies cb set.keys).bind fun _ => .pure
  | audit => exact haudit
  | auditLive => exact haudit

end Searches

/-! ## Requests, failing or not -/

/-- The outcome of a request and what it makes of the set, with the calls that it makes. When one of
them is made to fail it is the last one, the request fails with it, and the set is as it was; a
failure of a later call has no effect. -/
structure SetStep.Accounts {S : Type → Type} [LockedSet S] (step : SetStep T ε σ) (set : S T)
    (o : σ) (outcome : Except ε (SetAnswer T)) (set' : S T) (o' : σ) (calls : List (SetCall T)) :
    Prop where
  run : step.perform ⟨set, o⟩ = resultOf outcome ⟨set', o'⟩
  noted : step.noted.perform ⟨set, (o, [])⟩ = resultOf outcome ⟨set', (o', calls)⟩
  effect : step.Effect o (LockedSet.keys set) outcome (LockedSet.keys set')
  failed : ∀ e, outcome = .error e → set' = set
  broken : ∀ i : Interruption ε σ, 0 < i.call → i.call ≤ calls.length →
    ∃ o'', (step.interrupted i).perform ⟨set, (o, [])⟩ =
      .error i.error ⟨set, (o'', calls.take i.call)⟩
  unbroken : ∀ i : Interruption ε σ, calls.length < i.call →
    (step.interrupted i).perform ⟨set, (o, [])⟩ = resultOf outcome ⟨set', (o', calls)⟩

theorem MonitorSet.accounts (step : SetStep T ε σ) (set : MonitorSet T) (o : σ) :
    ∃ outcome set' o' calls, step.Accounts set o outcome set' o' calls ∧
      (set.count = set.keys.length → set'.count = set'.keys.length) := by
  obtain ⟨cb, request⟩ := step
  have hcommits := commits_perform cb set request
  have hnoted := commits_perform cb.noted set request
  obtain ⟨outcome, o', calls, hplain, hcalm, hbroken⟩ := breaksOff_inquire cb set request o []
  rw [List.nil_append] at hcalm
  have hfails : ∀ i : Interruption ε σ, 0 < i.call → i.call ≤ calls.length → ∃ o'',
      (request.perform (cb.interrupted i) : Guarded (MonitorSet T) ε _ _) ⟨set, (o, [])⟩ =
        .error i.error ⟨set, (o'', calls.take i.call)⟩ := by
    intro i hpos hle
    obtain ⟨o'', hfail⟩ := (hbroken i).1 hpos hle
    exact ⟨o'', (commits_perform (cb.interrupted i) set request).run_error hfail⟩
  cases outcome with
  | ok x =>
    obtain ⟨a, set'⟩ := x
    have heffect := effect_inquire hplain
    refine ⟨.ok a, set', o', calls, ⟨hcommits.run_ok hplain, hnoted.run_ok hcalm, heffect.1, nofun,
      hfails, fun i hlt => ?_⟩, heffect.2⟩
    exact (commits_perform (cb.interrupted i) set request).run_ok (((hbroken i).2 hlt).trans hcalm)
  | error e =>
    have hkept : SetStep.Effect ⟨cb, request⟩ o set.keys (.error e) set.keys := by
      cases request <;> rfl
    refine ⟨.error e, set, o', calls, ⟨hcommits.run_error hplain, hnoted.run_error hcalm, hkept,
      fun _ _ => rfl, hfails, fun i hlt => ?_⟩, id⟩
    exact (commits_perform (cb.interrupted i) set request).run_error
      (((hbroken i).2 hlt).trans hcalm)

/-- The nodes of the other set for the same keys. -/
def MonitorSet.coupled (set : MonitorSet T) : CoupledSet T := ⟨set.keys, set.count⟩

theorem resultOf_inj {S : Type} {outcome outcome' : Except ε α} {s s' : S}
    (h : resultOf outcome s = resultOf outcome' s') : outcome = outcome' ∧ s = s' := by
  cases outcome <;> cases outcome' <;> cases h <;> exact ⟨rfl, rfl⟩

theorem SameKeys.eq_coupled {m : MonitorSet T} {c : CoupledSet T} (h : SameKeys m c) :
    c = m.coupled := by
  obtain ⟨keys, count⟩ := c
  rw [MonitorSet.coupled, ← h.keys, ← h.count]

/-- What one set makes of its keys the other one makes of the same keys. -/
theorem MonitorSet.run_coupled (cb : SetCallbacks T ε σ) (request : SetRequest T)
    {set set' : MonitorSet T} (counted : set.count = set.keys.length) {o o' : σ}
    {outcome : Except ε (SetAnswer T)}
    (h : request.perform cb ⟨set, o⟩ = resultOf outcome ⟨set', o'⟩) :
    request.perform cb ⟨set.coupled, o⟩ = resultOf outcome ⟨set'.coupled, o'⟩ := by
  have hsame : SameKeys set set.coupled := ⟨rfl, rfl, counted⟩
  obtain ⟨outcome', d, d', o₁, hd, hm, hc⟩ := hsame.endAlike_perform cb request o
  rw [h] at hm
  obtain ⟨rfl, hs⟩ := resultOf_inj hm
  cases hs
  rw [hc, hd.eq_coupled]

theorem SetStep.Accounts.coupled {step : SetStep T ε σ} {set set' : MonitorSet T} {o o' : σ}
    {outcome : Except ε (SetAnswer T)} {calls : List (SetCall T)}
    (h : step.Accounts set o outcome set' o' calls) (counted : set.count = set.keys.length) :
    step.Accounts set.coupled o outcome set'.coupled o' calls where
  run := MonitorSet.run_coupled _ _ counted h.run
  noted := MonitorSet.run_coupled _ _ counted h.noted
  effect := h.effect
  failed e he := congrArg MonitorSet.coupled (h.failed e he)
  broken i hpos hle := by
    obtain ⟨o'', hfail⟩ := h.broken i hpos hle
    have hrun : (step.interrupted i).perform ⟨set, (o, [])⟩ =
        resultOf (.error i.error) ⟨set, (o'', calls.take i.call)⟩ := hfail
    exact ⟨o'', MonitorSet.run_coupled _ _ counted hrun⟩
  unbroken i hlt := MonitorSet.run_coupled _ _ counted (h.unbroken i hlt)

/-! ## The size of a set -/

/-- An entry of a log that added a key. -/
def SetStep.isAddition : SetStep T ε σ × Except ε (SetAnswer T) → Bool
  | (⟨_, .add _⟩, .ok (.flag true)) => true
  | _ => false

/-- An entry of a log that removed a key. -/
def SetStep.isRemoval : SetStep T ε σ × Except ε (SetAnswer T) → Bool
  | (⟨_, .remove _⟩, .ok (.flag true)) => true
  | _ => false

theorem SetStep.Effect.length {step : SetStep T ε σ} {o : σ} {keys keys' : List T}
    {outcome : Except ε (SetAnswer T)} (h : step.Effect o keys outcome keys') :
    keys'.length + (if isRemoval (step, outcome) then 1 else 0) =
      keys.length + (if isAddition (step, outcome) then 1 else 0) := by
  obtain ⟨cb, request⟩ := step
  cases outcome with
  | error e => cases request <;> cases h <;> rfl
  | ok a =>
    cases a with
    | count n => cases request <;> cases h <;> rfl
    | keys ks => cases request <;> cases h <;> rfl
    | flag b =>
      cases b with
      | false => cases request <;> cases h <;> rfl
      | true =>
        cases request with
        | add key =>
          obtain ⟨before, after, rfl, -, rfl⟩ := h
          simp [isAddition, isRemoval]
          omega
        | remove key =>
          obtain ⟨before, victim, after, rfl, -, rfl⟩ := h
          simp [isAddition, isRemoval]
          omega
        | _ =>
          cases h
          rfl

/-- Over a run on one of the sets the counter stays right, and additions and removals make up for
the change of size. -/
theorem MonitorSet.serve_balance (steps : List (SetStep T ε σ)) {set : MonitorSet T}
    (counted : set.count = set.keys.length) (o : σ) :
    let run := serve SetStep.perform steps ⟨set, o⟩
    run.2.container.count = run.2.container.keys.length ∧
      run.2.container.keys.length + run.1.countP SetStep.isRemoval =
        set.keys.length + run.1.countP SetStep.isAddition := by
  induction steps generalizing set o with
  | nil => exact ⟨counted, rfl⟩
  | cons step rest ih =>
    obtain ⟨outcome, set', o', calls, haccounts, hcounted⟩ := accounts step set o
    obtain ⟨hcount, hbalance⟩ := ih (hcounted counted) o'
    have hlength := haccounts.effect.length
    rw [serve_cons haccounts.run]
    refine ⟨hcount, ?_⟩
    rw [List.countP_cons, List.countP_cons]
    change set'.keys.length + _ = set.keys.length + _ at hlength
    dsimp only at hbalance ⊢
    omega

/-- A run that has led to a consistent set: the size is the number of keys, and of the true adds
less the true removes, and any request made next does as its outcome says. -/
structure Consistent {S : Type → Type} [LockedSet S]
    (run : List (SetStep T ε σ × Except ε (SetAnswer T)) × Shared (S T) σ) : Prop where
  size : ∀ o : σ, (LockedSet.size : Guarded (S T) ε σ Nat) ⟨run.2.container, o⟩ =
    .ok (LockedSet.keys run.2.container).length ⟨run.2.container, o⟩
  balance : (LockedSet.keys run.2.container).length + run.1.countP SetStep.isRemoval =
    run.1.countP SetStep.isAddition
  next : ∀ (step : SetStep T ε σ) (o : σ), ∃ outcome set' o' calls,
    step.Accounts run.2.container o outcome set' o' calls

theorem SetStep.counted_outcome (steps : List (SetStep T ε σ)) (o : σ) :
    (outcome MonitorSet steps o).2.container.count =
      (outcome MonitorSet steps o).2.container.keys.length :=
  (MonitorSet.serve_balance steps rfl o).1

theorem MonitorSet.consistent (steps : List (SetStep T ε σ)) (o : σ) :
    Consistent (SetStep.outcome MonitorSet steps o) where
  size o' := congrArg (fun n => EStateM.Result.ok n _) (SetStep.counted_outcome steps o)
  balance := by
    have hempty : (LockedSet.empty : MonitorSet T).count =
        (LockedSet.empty : MonitorSet T).keys.length := rfl
    have hbalance := (serve_balance steps hempty o).2
    exact hbalance.trans (Nat.zero_add _)
  next step o' := by
    obtain ⟨outcome, set', o'', calls, haccounts, -⟩ := accounts step _ o'
    exact ⟨outcome, set', o'', calls, haccounts⟩

theorem Consistent.alike
    {m : List (SetStep T ε σ × Except ε (SetAnswer T)) × Shared (MonitorSet T) σ}
    {c : List (SetStep T ε σ × Except ε (SetAnswer T)) × Shared (CoupledSet T) σ}
    (h : Consistent m) (alike : Indistinguishable m c)
    (counted : m.2.container.count = m.2.container.keys.length) : Consistent c := by
  have hcoupled : c.2.container = m.2.container.coupled :=
    SameKeys.eq_coupled ⟨alike.keys, alike.count, counted⟩
  constructor
  · intro o
    rw [hcoupled]
    exact congrArg (fun n => EStateM.Result.ok n _) counted
  · rw [hcoupled, alike.outcomes]
    exact h.balance
  · intro step o
    obtain ⟨outcome, set', o', calls, haccounts⟩ := h.next step o
    rw [hcoupled]
    exact ⟨outcome, set'.coupled, o', calls, haccounts.coupled counted⟩

/-- New sets of either kind stay consistent, whatever their callbacks answer, also when these are
others for every request and fail at any call. -/
theorem sets_stay_consistent (steps : List (SetStep T ε σ)) (o : σ) :
    Consistent (SetStep.outcome MonitorSet steps o) ∧
      Consistent (SetStep.outcome CoupledSet steps o) := by
  have hmonitor := MonitorSet.consistent steps o
  exact ⟨hmonitor, hmonitor.alike (SetStep.outcome_alike steps o) (SetStep.counted_outcome steps o)⟩

/-- Keys by size, the smaller or the larger ones first. -/
def bySize (descending : Bool) : SetCallbacks Nat String Unit where
  compare a b := pure (if descending then b < a else a < b)
  copy := pure

/-- The order is switched for one addition, which leaves the list out of order. The next addition
compares three times; when its second comparison fails there is no third, and nothing is added. -/
theorem sets_stay_consistent_switched :
    let run := SetStep.outcome CoupledSet
      [⟨bySize false, .add 5⟩, ⟨bySize true, .add 9⟩, ⟨bySize false, .add 1⟩] ()
    let step : SetStep Nat String Unit := ⟨bySize false, .add 7⟩
    Consistent run ∧ run.2.container = ⟨[1, 9, 5], 3⟩ ∧
      step.Accounts run.2.container () (.ok (.flag true)) ⟨[1, 7, 9, 5], 4⟩ ()
        [.compare 1 7, .compare 9 7, .compare 7 9] ∧
      ∃ o, (step.interrupted ⟨2, "poison", id⟩).perform ⟨run.2.container, ((), [])⟩ =
        .error "poison" ⟨run.2.container, (o, [.compare 1 7, .compare 9 7])⟩ := by
  intro run step
  have hconsistent : Consistent run := (sets_stay_consistent _ ()).2
  obtain ⟨outcome, set', o', calls, haccounts⟩ := hconsistent.next step ()
  have hnoted : step.noted.perform ⟨run.2.container, ((), [])⟩ =
      resultOf (.ok (.flag true)) ⟨(⟨[1, 7, 9, 5], 4⟩ : CoupledSet Nat),
        ((), [.compare 1 7, .compare 9 7, .compare 7 9])⟩ := rfl
  obtain ⟨rfl, hrest⟩ := resultOf_inj (haccounts.noted.symm.trans hnoted)
  cases hrest
  exact ⟨hconsistent, rfl, haccounts, haccounts.broken ⟨2, "poison", id⟩ (by decide) (by decide)⟩

end LockedContainers
