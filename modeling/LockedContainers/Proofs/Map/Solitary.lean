import LockedContainers.Proofs.Map.Effects
import LockedContainers.Proofs.Map.Stripes

/-!
# A thread alone among the stripes

When nothing comes between its steps a request is carried out as by the
operations on the map, and it leaves every stripe free.
-/
namespace LockedContainers

variable {Thread K V C ε σ α β τ : Type}

/-- With nothing between them, the sections of a task come to this result. -/
inductive Sections.Completes (ops : Sections C ε σ α β τ) :
    τ → Shared C σ → EStateM.Result ε (Shared C σ) β → Prop
  | answer {task : τ} {s s' : Shared C σ} {b : β} (h : ops.next task s = .ok (.inl b) s') :
      Completes ops task s (.ok b s')
  | failure {task : τ} {s s' : Shared C σ} {e : ε} (h : ops.next task s = .error e s') :
      Completes ops task s (.error e s')
  | next {task task' : τ} {s s' : Shared C σ} {result : EStateM.Result ε (Shared C σ) β}
      (h : ops.next task s = .ok (.inr task') s') (rest : Completes ops task' s' result) :
      Completes ops task s result

/-- A thread that is scheduled alone carries its task out to the answer that it comes to. -/
theorem Sections.Completes.exists_run [DecidableEq Thread] {ops : Sections C ε σ α β τ} {task : τ}
    {shared shared' : Shared C σ} {b : β} (h : ops.Completes task shared (.ok b shared'))
    {s : Interleaving Thread C ε σ α β τ} {t : Thread} {pending : List α}
    (up : (s.clients t).upcoming ops.start = some (task, pending)) (here : s.shared = shared) :
    ∃ n, (s.run ops (List.replicate n t)).shared = shared' ∧
      (s.run ops (List.replicate n t)).clients t = { pending } := by
  generalize hresult : EStateM.Result.ok b shared' = result at h
  induction h generalizing s with
  | answer h =>
    cases hresult
    refine ⟨1, ?_⟩
    subst here
    simp [Interleaving.run, Interleaving.step, up, h, Interleaving.turn]
  | failure h => cases hresult
  | @next task task' shared mid result h rest ih =>
    have hstep : s.step ops t = s.turn t mid { task := some task', pending } [] := by
      subst here
      simp [Interleaving.step, up, h]
    have hup : ((s.step ops t).clients t).upcoming ops.start = some (task', pending) := by
      rw [hstep]
      simp [Interleaving.turn, Client.upcoming]
    have hhere : (s.step ops t).shared = mid := by rw [hstep, Interleaving.turn]
    obtain ⟨n, hn⟩ := ih hup hhere hresult
    exact ⟨n + 1, hn⟩

/-- A growth keeps the options, whether it fails or not. -/
theorem LockedMap.ends_double_options {l : Locking} (cb : MapCallbacks K V ε σ)
    (map : LockedMap l K V) :
    Ends map (double cb) (fun _ map' => map'.options = map.options)
      fun _ map' => map'.options = map.options := by
  rw [← bind_pure (double cb), double, bind_assoc]
  apply Ends.read_bind
  rw [bind_assoc]
  exact .ask_any_bind (Yields.any _) (fun _ => rfl) fun _ _ => .modify_bind (.pure rfl)

theorem LockedMap.lookup_beside {l : Locking} (cb : MapCallbacks K V ε σ) (h : UInt64) (key : K)
    (map : LockedMap l K V) (o : σ) :
    (∃ slot hit o', lookup cb h key ⟨map, o⟩ = .ok (slot, hit) ⟨map, o'⟩) ∨
      ∃ f o', lookup cb h key ⟨map, o⟩ = .error f ⟨map, o'⟩ := by
  have hends : Ends map (lookup cb h key) (fun _ map' => map' = map) fun _ map' => map' = map :=
    (ends_lookup_any cb h).mono (fun _ _ hok => hok.1) fun _ _ herror => herror.1
  rcases hends.cases_beside o with ⟨⟨slot, hit⟩, o', hrun⟩ | hfail
  · exact .inl ⟨slot, hit, o', hrun⟩
  · exact .inr hfail

namespace StripeBank

/-- A result of the map with all stripes free. -/
def freed : EStateM.Result (MapFailure ε) (Shared (StripedMap K V) σ) α →
    EStateM.Result (MapFailure ε) (Shared (StripeBank K V) σ) α
  | .ok a s => .ok a ⟨{ map := s.container }, s.outside⟩
  | .error e s => .error e ⟨{ map := s.container }, s.outside⟩

/-- Only the stripe of this index is locked. -/
def only (i : Nat) : Nat → Bool := Function.update (fun _ => false) i true

def below (n : Nat) : Nat → Bool := fun i => i < n

theorem update_only (i : Nat) : Function.update (only i) i false = fun _ => false := by
  rw [only, Function.update_idem, Function.update_eq_self_iff]

theorem below_zero : below 0 = fun _ => false := by
  funext i
  simp [below]

theorem update_below (n : Nat) : Function.update (below n) n true = below (n + 1) := by
  funext i
  by_cases h : i = n
  · simp [h, below]
  · rw [Function.update_of_ne h, below, below, decide_eq_decide]
    omega

theorem update_below_succ (n : Nat) : Function.update (below (n + 1)) n false = below n := by
  rw [← update_below, Function.update_idem, Function.update_eq_self_iff]
  simp [below]

section Alone
variable {cb : MapCallbacks K V ε σ} {map : StripedMap K V} {o : σ} {ending : Ending K V ε}
  {result : EStateM.Result (MapFailure ε) (Shared (StripeBank K V) σ) (MapAnswer V)}

theorem completes_settled {first : Nat} {request : MapRequest K V}
    {outcome : Except (MapFailure ε) (MapAnswer V)} {s : Shared (StripeBank K V) σ} :
    (sections cb).Completes (.leaving first 0 (.settled request outcome)) s
      (resultOf outcome s) := by
  cases outcome with
  | ok a => exact .answer rfl
  | error e => exact .failure rfl

/-- The one stripe is given up. -/
theorem completes_leaving_one {i : Nat}
    (h : (sections cb).Completes (.leaving i 0 ending) ⟨{ map }, o⟩ result) :
    (sections cb).Completes (.leaving i 1 ending) ⟨⟨map, only i⟩, o⟩ result := by
  rw [← update_only i] at h
  exact .next rfl h

theorem completes_leaving_all {n : Nat}
    (h : (sections cb).Completes (.leaving 0 0 ending) ⟨{ map }, o⟩ result) :
    (sections cb).Completes (.leaving 0 n ending) ⟨⟨map, below n⟩, o⟩ result := by
  induction n with
  | zero =>
    rw [below_zero]
    exact h
  | succ n ih =>
    rw [← update_below_succ] at ih
    apply Sections.Completes.next _ ih
    simp only [sections, Task.next, release, bind, EStateM.bind, Guarded.modify, Nat.zero_add]
    rfl

/-- All stripes are taken, one after the other. -/
theorem completes_barring {purpose : Purpose K V} {n taken : Nat}
    (hn : taken + n = StripedMap.stripes map)
    (h : (sections cb).Completes (.barred purpose) ⟨⟨map, below (StripedMap.stripes map)⟩, o⟩
      result) :
    (sections cb).Completes (.barring purpose taken) ⟨⟨map, below taken⟩, o⟩ result := by
  induction n generalizing taken with
  | zero =>
    rw [Nat.add_zero] at hn
    subst hn
    apply Sections.Completes.next _ h
    simp only [sections, Task.next, bind, EStateM.bind, Guarded.read, Nat.lt_irrefl, if_false]
    rfl
  | succ n ih =>
    apply Sections.Completes.next _ (ih (show taken + 1 + n = _ by omega))
    have hless : taken < StripedMap.stripes map := by omega
    simp only [sections, Task.next, acquire, bind, EStateM.bind, Guarded.read, Guarded.modify,
      if_pos hless, below, Nat.lt_irrefl, decide_false, Bool.false_eq_true, if_false]
    rw [← update_below]
    rfl

/-- The stripe of the hash is taken for a look-up. -/
theorem completes_knocking {r : KeyRequest K V} {h : UInt64} {slot : Nat} {hit : Option (Hit K V)}
    {o' : σ} (hlookup : LockedMap.lookup cb h r.key ⟨map, o⟩ = .ok (slot, hit) ⟨map, o'⟩)
    (hfound : (sections cb).Completes (.found r h slot hit)
      ⟨⟨map, only (StripedMap.stripeOf map h)⟩, o'⟩ result) :
    (sections cb).Completes (.knocking r h) ⟨{ map }, o⟩ result := by
  refine .next rfl (.next ?_ hfound)
  simp only [sections, Task.next, bind, EStateM.bind, onMap, hlookup]
  rfl

theorem completes_knocking_error {r : KeyRequest K V} {h : UInt64} {f : MapFailure ε} {o' : σ}
    (hlookup : LockedMap.lookup cb h r.key ⟨map, o⟩ = .error f ⟨map, o'⟩) :
    (sections cb).Completes (.knocking r h) ⟨{ map }, o⟩ (.error f ⟨{ map }, o'⟩) := by
  have hsettled : (sections cb).Completes
      (.leaving (StripedMap.stripeOf map h) 1 (.settled r.request (.error f)))
      ⟨⟨map, only (StripedMap.stripeOf map h)⟩, o'⟩ (.error f ⟨{ map }, o'⟩) :=
    completes_leaving_one completes_settled
  refine .next rfl (.next ?_ hsettled)
  simp only [sections, Task.next, bind, EStateM.bind, onMap, hlookup]
  rfl

/-- Room is asked for, the entry is written and counted, and the stripe is given up. -/
theorem completes_linking {put : Insertion K V} {slot : Nat} {o' : σ}
    (hroom : LockedMap.makeRoom cb slot ⟨map, o⟩ = .ok () ⟨map, o'⟩) :
    (sections cb).Completes (.linking put slot)
      ⟨⟨map, only (StripedMap.stripeOf map put.hash)⟩, o⟩
      (.ok (.value none) ⟨{ map := map.linked slot put.key put.value }, o'⟩) := by
  have hsettled : (sections cb).Completes
      (.leaving (StripedMap.stripeOf map put.hash) 0
        (.settled put.request.request (.ok (.value none))))
      ⟨{ map := map.linked slot put.key put.value }, o'⟩
      (.ok (.value none) ⟨{ map := map.linked slot put.key put.value }, o'⟩) :=
    completes_settled
  have htally : (sections cb).Completes (.tallying put)
      ⟨⟨{ map with table := map.table.append slot (put.key, put.value) },
        only (StripedMap.stripeOf map put.hash)⟩, o'⟩
      (.ok (.value none) ⟨{ map := map.linked slot put.key put.value }, o'⟩) :=
    .next rfl (completes_leaving_one hsettled)
  refine .next ?_ htally
  simp only [sections, Task.next, bind, EStateM.bind, onMap, hroom]
  rfl

theorem completes_linking_error {put : Insertion K V} {slot : Nat} {f : MapFailure ε} {o' : σ}
    (hroom : LockedMap.makeRoom cb slot ⟨map, o⟩ = .error f ⟨map, o'⟩) :
    (sections cb).Completes (.linking put slot)
      ⟨⟨map, only (StripedMap.stripeOf map put.hash)⟩, o⟩ (.error f ⟨{ map }, o'⟩) := by
  have hsettled : (sections cb).Completes
      (.leaving (StripedMap.stripeOf map put.hash) 1 (.settled put.request.request (.error f)))
      ⟨⟨map, only (StripedMap.stripeOf map put.hash)⟩, o'⟩ (.error f ⟨{ map }, o'⟩) :=
    completes_leaving_one completes_settled
  refine .next ?_ hsettled
  simp only [sections, Task.next, bind, EStateM.bind, onMap, hroom]
  rfl

/-- A section between the stripes being held and the put being tried again: it hands the map on to
the next attempt, or its failure on to the caller. -/
def Leads (cb : MapCallbacks K V ε σ) (put : Insertion K V) (task : Task K V ε)
    (s : Shared (StripeBank K V) σ) :
    EStateM.Result (MapFailure ε) (Shared (StripedMap K V) σ) Unit → Prop
  | .ok _ left => ∀ result, (sections cb).Completes (.knocking put.request put.hash)
      ⟨{ map := left.container }, left.outside⟩ result → (sections cb).Completes task s result
  | .error f left =>
    (sections cb).Completes task s (.error f ⟨{ map := left.container }, left.outside⟩)

/-- A task leads on to what the task that it becomes leads on to. -/
theorem Leads.before {put : Insertion K V} {task task' : Task K V ε}
    {s s' : Shared (StripeBank K V) σ}
    {left : EStateM.Result (MapFailure ε) (Shared (StripedMap K V) σ) Unit}
    (h : Leads cb put task' s' left)
    (becomes : ∀ result, (sections cb).Completes task' s' result →
      (sections cb).Completes task s result) : Leads cb put task s left := by
  cases left with
  | ok u left => exact fun result hknock => becomes result (h result hknock)
  | error f left => exact becomes _ h

theorem leads_retrying {put : Insertion K V} {n : Nat} :
    Leads cb put (.leaving 0 n (.retrying put)) ⟨⟨map, below n⟩, o⟩ (.ok () ⟨map, o⟩) :=
  fun _ hknock => completes_leaving_all (.next rfl hknock)

theorem leads_doubling (put : Insertion K V) :
    Leads cb put (.doubling put) ⟨⟨map, below (StripedMap.stripes map)⟩, o⟩
      (LockedMap.double cb ⟨map, o⟩) := by
  have hends := LockedMap.ends_double_options cb map
  cases hdouble : LockedMap.double cb ⟨map, o⟩ with
  | ok u s =>
    have hstripes : StripedMap.stripes s.container = StripedMap.stripes map := by
      rw [StripedMap.stripes, hends.of_ok hdouble, StripedMap.stripes]
    refine Leads.before (leads_retrying (n := StripedMap.stripes map)) fun _ => .next ?_
    simp only [sections, Task.next, bind, EStateM.bind, onMap, hdouble, unbar, Guarded.read,
      hstripes]
    rfl
  | error f s =>
    have hstripes : StripedMap.stripes s.container = StripedMap.stripes map := by
      rw [StripedMap.stripes, hends.of_error hdouble, StripedMap.stripes]
    have hsettled : (sections cb).Completes
        (.leaving 0 (StripedMap.stripes map) (.settled put.request.request (.error f)))
        ⟨⟨s.container, below (StripedMap.stripes map)⟩, s.outside⟩
        (.error f ⟨{ map := s.container }, s.outside⟩) :=
      completes_leaving_all completes_settled
    refine .next ?_ hsettled
    simp only [sections, Task.next, bind, EStateM.bind, onMap, hdouble, unbar, Guarded.read,
      hstripes]
    rfl

/-- All stripes are taken for a growth, and it is decided anew whether to grow. -/
theorem leads_growing (put : Insertion K V) (seen : Nat) :
    Leads cb put (.barring (.growth put seen) 0) ⟨{ map }, o⟩
      (StripedMap.grow cb seen ⟨map, o⟩) := by
  have hbarred : Leads cb put (.barred (.growth put seen))
      ⟨⟨map, below (StripedMap.stripes map)⟩, o⟩ (StripedMap.grow cb seen ⟨map, o⟩) := by
    simp only [StripedMap.grow, bind, EStateM.bind, Guarded.read]
    by_cases hgrow : (map.table.size = seen && map.isFull) = true
    · rw [if_pos hgrow]
      refine (leads_doubling put).before fun _ => .next ?_
      simp only [sections, Task.next, bind, EStateM.bind, Guarded.read, if_pos hgrow]
      rfl
    · rw [if_neg hgrow]
      refine Leads.before (leads_retrying (n := StripedMap.stripes map)) fun _ => .next ?_
      simp only [sections, Task.next, bind, EStateM.bind, Guarded.read, if_neg hgrow]
      rfl
  apply hbarred.before
  intro result hcompletes
  have hbarring := completes_barring (Nat.zero_add _) hcompletes
  rw [below_zero] at hbarring
  exact hbarring

variable (cb) in
/-- An attempt under the stripe of the hash; if it gives up, the stripe is free for the growth. -/
theorem completes_attempt (h : UInt64) (key : K) (value : V) (map : StripedMap K V) (o : σ) :
    match StripedMap.attempt cb h key value ⟨map, o⟩ with
    | .ok (.done previous) s =>
      (sections cb).Completes (.knocking (.put key value) h) ⟨{ map }, o⟩
        (.ok (.value previous) ⟨{ map := s.container }, s.outside⟩)
    | .ok (.full seen) s => ∀ result,
      (sections cb).Completes (.barring (.growth ⟨h, key, value⟩ seen) 0)
        ⟨{ map := s.container }, s.outside⟩ result →
      (sections cb).Completes (.knocking (.put key value) h) ⟨{ map }, o⟩ result
    | .error f s =>
      (sections cb).Completes (.knocking (.put key value) h) ⟨{ map }, o⟩
        (.error f ⟨{ map := s.container }, s.outside⟩) := by
  simp only [StripedMap.attempt, bind, EStateM.bind]
  rcases LockedMap.lookup_beside cb h key map o with ⟨slot, hit, o', hlookup⟩ | ⟨f, o', hlookup⟩
  · rw [hlookup]
    cases hit with
    | some hit =>
      exact completes_knocking hlookup (.next rfl (completes_leaving_one completes_settled))
    | none =>
      simp only [EStateM.bind, Guarded.read]
      cases hfull : map.isFull with
      | false =>
        have hlinking : ∀ result, (sections cb).Completes (.linking ⟨h, key, value⟩ slot)
            ⟨⟨map, only (StripedMap.stripeOf map h)⟩, o'⟩ result →
            (sections cb).Completes (.knocking (.put key value) h) ⟨{ map }, o⟩ result := by
          intro result hlink
          refine completes_knocking hlookup (.next rfl (.next ?_ hlink))
          simp only [sections, Task.next, bind, EStateM.bind, Guarded.read, hfull]
          rfl
        have hroom : Ends map (LockedMap.makeRoom cb slot) (fun _ map' => map' = map)
            fun _ map' => map' = map :=
          (LockedMap.ends_makeRoom_any cb slot).mono (fun _ _ h => h) fun _ _ h => h.1
        rcases hroom.cases_beside o' with ⟨_, o'', hrun⟩ | ⟨f, o'', hrun⟩
        · simp only [Bool.false_eq_true, if_false, LockedMap.link, bind, EStateM.bind, hrun]
          exact hlinking _ (completes_linking hrun)
        · simp only [Bool.false_eq_true, if_false, LockedMap.link, bind, EStateM.bind, hrun]
          exact hlinking _ (completes_linking_error hrun)
      | true =>
        intro result hgrowing
        have hleave : (sections cb).Completes (.leaving (StripedMap.stripeOf map h) 1
            (.growing ⟨h, key, value⟩ map.table.size))
            ⟨⟨map, only (StripedMap.stripeOf map h)⟩, o'⟩ result :=
          completes_leaving_one (.next rfl hgrowing)
        refine completes_knocking hlookup (.next rfl (.next ?_ hleave))
        simp only [sections, Task.next, bind, EStateM.bind, Guarded.read, hfull]
        rfl
  · rw [hlookup]
    exact completes_knocking_error hlookup

/-- The attempts of a put, with a growth after each that gives up. -/
theorem completes_put (h : UInt64) (key : K) (value : V) (attempts : Nat) (map : StripedMap K V)
    (o : σ) :
    (sections cb).Completes (.knocking (.put key value) h) ⟨{ map }, o⟩
      (freed ((MapAnswer.value <$> StripedMap.putWithin cb h key value attempts) ⟨map, o⟩)) ∨
    ∃ s, StripedMap.putWithin cb h key value attempts ⟨map, o⟩ = .error .tooLarge s := by
  induction attempts generalizing map o with
  | zero => exact .inr ⟨_, rfl⟩
  | succ attempts ih =>
    have hattempt := completes_attempt cb h key value map o
    simp only [StripedMap.putWithin, bind, EStateM.bind, Functor.map, EStateM.map]
    cases hrun : StripedMap.attempt cb h key value ⟨map, o⟩ with
    | error f s =>
      rw [hrun] at hattempt
      exact .inl hattempt
    | ok outcome s =>
      rw [hrun] at hattempt
      cases outcome with
      | done previous => exact .inl hattempt
      | full seen =>
        -- A growth leaves the stripes free, so the next attempt starts like the first.
        have hgrowing : Leads cb _ _ _ (StripedMap.grow cb seen s) :=
          leads_growing ⟨h, key, value⟩ seen
        cases hgrow : StripedMap.grow cb seen s with
        | error f s' =>
          rw [hgrow] at hgrowing
          simp only [EStateM.bind, hgrow]
          exact .inl (hattempt _ hgrowing)
        | ok u s' =>
          rw [hgrow] at hgrowing
          simp only [EStateM.bind, hgrow]
          rcases ih s'.container s'.outside with hrest | hrest
          · exact .inl (hattempt _ (hgrowing _ hrest))
          · exact .inr hrest

/-- The hash of the key is asked for before anything else. -/
theorem completes_asked_key (r : KeyRequest K V)
    {f : UInt64 → MapSection .striped K V ε σ (MapAnswer V)}
    (hknock : ∀ h o', cb.hash r.key o = .ok h o' →
      (sections cb).Completes (.knocking r h) ⟨{ map }, o'⟩ (freed (f h ⟨map, o'⟩))) :
    (sections cb).Completes (.asked r.request) ⟨{ map }, o⟩
      (freed ((Guarded.ask (cb.hash r.key) >>= f) ⟨map, o⟩)) := by
  have happroach : (sections cb).next (.asked r.request) = Task.approach cb r := by
    cases r <;> rfl
  simp only [bind, EStateM.bind, Guarded.ask_eq]
  cases hrun : cb.hash r.key o with
  | error e o' =>
    apply Sections.Completes.failure
    rw [happroach]
    simp only [Task.approach, bind, EStateM.bind, Guarded.ask_eq, hrun]
  | ok h o' =>
    apply Sections.Completes.next _ (hknock h o' hrun)
    rw [happroach]
    simp only [Task.approach, bind, EStateM.bind, Guarded.ask_eq, hrun]
    rfl

/-- Then it is looked up under its stripe. -/
theorem completes_search (r : KeyRequest K V)
    {f : Nat × Option (Hit K V) → MapSection .striped K V ε σ (MapAnswer V)}
    (hfound : ∀ h slot hit o', (sections cb).Completes (.found r h slot hit)
      ⟨⟨map, only (StripedMap.stripeOf map h)⟩, o'⟩ (freed (f (slot, hit) ⟨map, o'⟩))) :
    (sections cb).Completes (.asked r.request) ⟨{ map }, o⟩
      (freed ((Guarded.ask (cb.hash r.key) >>= fun h => LockedMap.lookup cb h r.key >>= f)
        ⟨map, o⟩)) := by
  apply completes_asked_key r
  intro h o' _
  simp only [bind, EStateM.bind]
  rcases LockedMap.lookup_beside cb h r.key map o' with
    ⟨slot, hit, o'', hlookup⟩ | ⟨f, o'', hlookup⟩
  · rw [hlookup]
    exact completes_knocking hlookup (hfound h slot hit o'')
  · rw [hlookup]
    exact completes_knocking_error hlookup

theorem completes_get (key : K) :
    (sections cb).Completes (.asked (.get key)) ⟨{ map }, o⟩
      (freed ((MapRequest.get key).perform cb ⟨map, o⟩)) := by
  simp only [MapRequest.perform, LockedMap.get, map_bind]
  apply completes_search (.get key)
  intro h slot hit o'
  cases hit with
  | none => exact .next rfl (completes_leaving_one completes_settled)
  | some hit =>
    simp only [Functor.map, EStateM.map, Guarded.ask_eq]
    have hsettled : ∀ outcome o'', (sections cb).Completes
        (.leaving (StripedMap.stripeOf map h) 1 (.settled (.get key) outcome))
        ⟨⟨map, only (StripedMap.stripeOf map h)⟩, o''⟩ (resultOf outcome ⟨{ map }, o''⟩) :=
      fun _ _ => completes_leaving_one completes_settled
    cases hcopy : cb.copy hit.value o' with
    | ok v o'' =>
      refine .next ?_ (hsettled (.ok (.value (some v))) o'')
      simp only [sections, Task.next, conclude, bind, EStateM.bind, onMap, Guarded.ask_eq, hcopy]
      rfl
    | error e o'' =>
      refine .next ?_ (hsettled (.error (.callback e)) o'')
      simp only [sections, Task.next, conclude, bind, EStateM.bind, onMap, Guarded.ask_eq, hcopy]
      rfl

theorem completes_remove (key : K) :
    (sections cb).Completes (.asked (.remove key)) ⟨{ map }, o⟩
      (freed ((MapRequest.remove key).perform cb ⟨map, o⟩)) := by
  simp only [MapRequest.perform, LockedMap.remove, map_bind]
  apply completes_search (.remove key)
  intro h slot hit o'
  cases hit with
  | none => exact .next rfl (completes_leaving_one completes_settled)
  | some hit => exact .next rfl (.next rfl (completes_leaving_one completes_settled))

theorem completes_contains (key : K) :
    (sections cb).Completes (.asked (.contains key)) ⟨{ map }, o⟩
      (freed ((MapRequest.contains key).perform cb ⟨map, o⟩)) := by
  simp only [MapRequest.perform, LockedMap.contains, map_bind]
  apply completes_search (.contains key)
  intro h slot hit o'
  exact .next rfl (completes_leaving_one completes_settled)

theorem completes_audit :
    (sections cb).Completes (.asked .audit) ⟨{ map }, o⟩
      (freed (MapRequest.audit.perform cb ⟨map, o⟩)) := by
  have hbeside : Ends map (MapRequest.audit.perform cb) (fun _ map' => map' = map)
      fun _ map' => map' = map :=
    (LockedMap.ends_perform_any cb map .audit).mono (fun _ _ hok => hok) fun _ _ herror => herror.1
  have hsettled : ∀ outcome o', (sections cb).Completes
      (.leaving 0 (StripedMap.stripes map) (.settled .audit outcome))
      ⟨⟨map, below (StripedMap.stripes map)⟩, o'⟩ (resultOf outcome ⟨{ map }, o'⟩) :=
    fun _ _ => completes_leaving_all completes_settled
  have hbarred : (sections cb).Completes (.barred .audit)
      ⟨⟨map, below (StripedMap.stripes map)⟩, o⟩
      (freed (MapRequest.audit.perform cb ⟨map, o⟩)) := by
    rcases hbeside.cases_beside o with ⟨a, o', hrun⟩ | ⟨f, o', hrun⟩
    · rw [hrun]
      refine .next ?_ (hsettled (.ok a) o')
      simp only [sections, Task.next, bind, EStateM.bind, onMap, hrun]
      rfl
    · rw [hrun]
      refine .next ?_ (hsettled (.error f) o')
      simp only [sections, Task.next, bind, EStateM.bind, onMap, hrun]
      rfl
  have hbarring := completes_barring (Nat.zero_add _) hbarred
  rw [below_zero] at hbarring
  exact .next rfl hbarring

theorem completes_peeking (g : Glance) :
    (sections cb).Completes (.peeking g) ⟨{ map }, o⟩ (freed (g.request.perform cb ⟨map, o⟩)) := by
  cases g <;> exact .next rfl (.next rfl (completes_leaving_one completes_settled))

end Alone

/-- A request of a thread that is alone comes to what the operation on the map comes to, unless
memory is granted for a table of which there is none. -/
theorem completes_perform (cb : MapCallbacks K V ε σ) (map : StripedMap K V) (o : σ)
    (request : MapRequest K V) :
    (sections cb).Completes (.asked request) ⟨{ map }, o⟩ (freed (request.perform cb ⟨map, o⟩)) ∨
      ∃ s, request.perform cb ⟨map, o⟩ = .error .tooLarge s := by
  cases request with
  | put key value =>
    simp only [MapRequest.perform, LockedMap.put, StripedMap.put, map_bind]
    by_cases hlarge : ∃ h o' s, cb.hash key o = .ok h o' ∧
        StripedMap.putWithin cb h key value StripedMap.maxAttempts ⟨map, o'⟩ = .error .tooLarge s
    · obtain ⟨h, o', s, hhash, hput⟩ := hlarge
      refine .inr ⟨s, ?_⟩
      simp only [bind, EStateM.bind, Functor.map, EStateM.map, Guarded.ask_eq, hhash, hput]
    · refine .inl (completes_asked_key (.put key value) fun h o' hhash => ?_)
      rcases completes_put h key value StripedMap.maxAttempts map o' with hput | ⟨s, hput⟩
      · exact hput
      · exact absurd ⟨h, o', s, hhash, hput⟩ hlarge
  | get key => exact .inl (completes_get key)
  | remove key => exact .inl (completes_remove key)
  | contains key => exact .inl (completes_contains key)
  | size => exact .inl (.answer rfl)
  | isEmpty => exact .inl (.answer rfl)
  | options => exact .inl (.answer rfl)
  | bucketCount => exact .inl (.next rfl (completes_peeking .bucketCount))
  | growthCount => exact .inl (.next rfl (completes_peeking .growthCount))
  | loadFactor => exact .inl (.next rfl (completes_peeking .loadFactor))
  | audit => exact .inl completes_audit

/-- A thread that is scheduled alone makes of the map what the requests make of it that it is
answered one after the other. -/
theorem exists_run_of_serve [DecidableEq Thread] {cb : MapCallbacks K V ε σ}
    {requests : List (MapRequest K V)} {map : StripedMap K V} {o : σ}
    (answered : ∀ entry ∈ (serve (MapRequest.perform cb) requests ⟨map, o⟩).1,
      ∃ a, entry.2 = .ok a)
    {s : Interleaving Thread (StripeBank K V) (MapFailure ε) σ (MapRequest K V) (MapAnswer V)
      (Task K V ε)} {t : Thread}
    (here : s.shared = ⟨{ map }, o⟩) (client : s.clients t = { pending := requests }) :
    ∃ n, (s.run (sections cb) (List.replicate n t)).shared.container.map =
      (serve (MapRequest.perform cb) requests ⟨map, o⟩).2.container := by
  induction requests generalizing map o s with
  | nil =>
    refine ⟨0, ?_⟩
    change s.shared.container.map = map
    rw [here]
  | cons r rest ih =>
    cases hrun : r.perform cb ⟨map, o⟩ with
    | error f s' =>
      have hfailed : (r, Except.error f) ∈
          (serve (MapRequest.perform cb) (r :: rest) ⟨map, o⟩).1 := by
        rw [serve, hrun]
        exact List.mem_cons_self
      obtain ⟨a, ha⟩ := answered _ hfailed
      cases ha
    | ok a s' =>
      have hserve : serve (MapRequest.perform cb) (r :: rest) ⟨map, o⟩ =
          ((r, .ok a) :: (serve (MapRequest.perform cb) rest s').1,
            (serve (MapRequest.perform cb) rest s').2) := serve_cons hrun
      rw [hserve, List.forall_mem_cons] at answered
      rcases completes_perform cb map o r with hcompletes | ⟨_, hlarge⟩
      · rw [hrun] at hcompletes
        have hup : (s.clients t).upcoming Task.asked = some (.asked r, rest) := by
          rw [client]
          rfl
        obtain ⟨n, hshared, hclient⟩ := hcompletes.exists_run hup here
        obtain ⟨n', hrest⟩ := ih answered.2 hshared hclient
        refine ⟨n + n', ?_⟩
        rw [hserve, ← hrest, List.replicate_add, Interleaving.run, List.foldl_append]
        rfl
      · rw [hrun] at hlarge
        cases hlarge

end StripeBank
end LockedContainers
