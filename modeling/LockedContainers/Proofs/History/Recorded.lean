import LockedContainers.History.CallTree
import LockedContainers.History.Subject
import LockedContainers.Proofs.History.Packed
import LockedContainers.Proofs.Map.Integer
import LockedContainers.Proofs.Set.Integer

/-!
# Recorded histories

A call is performed on its container after its nested calls and is noted just
after that, so the order of the events is the order in which the container was
used. A call that fails has left the container alone and is not noted. Hence
the order of completion is a legal order.
-/
namespace LockedContainers

variable {S D ε α β : Type}

theorem Recording.timed_eq (i : Invocation) (body : EStateM ε (Recording S) Int) (w : Recording S) :
    Recording.timed i body w =
      match body { w with recorder.clock := w.recorder.clock + 1 } with
      | .ok result w' => .ok result
        { w' with
          recorder.clock := w'.recorder.clock + 1
          recorder.events := w'.recorder.events ++
            [{ i with result, invoked := w.recorder.clock, returned := w'.recorder.clock }] }
      | .error e w' => .error e w' := by
  simp only [timed, Bind.bind, EStateM.bind, tick]
  cases body { w with recorder.clock := w.recorder.clock + 1 } <;> rfl

/-- The state in which a run ends, well or not. -/
def finalState : EStateM.Result ε S α → S
  | .ok _ s | .error _ s => s

section Runs
variable (object : SequentialObject D Invocation Int) (holds : S → D → Prop)

/-- The operation answers as the object, and does nothing to it when it fails. -/
def Tracks (operation : Invocation → EStateM ε S Int) : Prop :=
  ∀ i s d, holds s d →
    match operation i s with
    | .ok a s' => object.accepts d i a ∧ holds s' (object.effect d i)
    | .error _ s' => holds s' d

/-- The events in their order lead the object to where the subject is, and no two of them returned
at once. -/
structure Faithful (start : D) (w : Recording (Journal ε S)) : Prop where
  explained : ∃ d, object.Explains (fun _ : ε => False) start
    (w.recorder.events.map (Event.answered ε)) d ∧ holds w.subject.subject d
  timed : ∀ e ∈ w.recorder.events, e.invoked < e.returned ∧ e.returned < w.recorder.clock
  ordered : w.recorder.events.Pairwise fun a b => a.returned < b.returned

/-- However the action ends, the recording stays faithful and the clock is not set back. -/
def Maintains (start : D) (act : EStateM ε (Recording (Journal ε S)) α) : Prop :=
  ∀ w, Faithful object holds start w →
    Faithful object holds start (finalState (act w)) ∧
      w.recorder.clock ≤ (finalState (act w)).recorder.clock

end Runs

section
variable {object : SequentialObject D Invocation Int} {holds : S → D → Prop} {start : D}

namespace Maintains

theorem pure (a : α) :
    Maintains object holds start (Pure.pure a : EStateM ε (Recording (Journal ε S)) α) :=
  fun _ hw => ⟨hw, Nat.le_refl _⟩

theorem bind {act : EStateM ε (Recording (Journal ε S)) α}
    {next : α → EStateM ε (Recording (Journal ε S)) β} (h : Maintains object holds start act)
    (hnext : ∀ a, Maintains object holds start (next a)) :
    Maintains object holds start (act >>= next) := by
  intro w hw
  have hact := h w hw
  cases hrun : act w with
  | error e w' =>
    rw [hrun] at hact
    simp only [Bind.bind, EStateM.bind, hrun]
    exact hact
  | ok a w' =>
    rw [hrun] at hact
    simp only [Bind.bind, EStateM.bind, hrun]
    have hlast := hnext a w' hact.1
    exact ⟨hlast.1, Nat.le_trans hact.2 hlast.2⟩

end Maintains

section Noting
variable {w : Recording (Journal ε S)} (h : Faithful object holds start w)
include h

/-- The outcomes that are written down are no part of what is recorded. -/
theorem Faithful.conclude (outcomes : List (Except ε Int)) :
    Faithful object holds start { w with subject.outcomes := outcomes } :=
  ⟨h.explained, h.timed, h.ordered⟩

theorem Faithful.tick :
    Faithful object holds start { w with recorder.clock := w.recorder.clock + 1 } :=
  ⟨h.explained, fun e he => ⟨(h.timed e he).1, Nat.lt_succ_of_lt (h.timed e he).2⟩, h.ordered⟩

/-- An operation that failed may have changed the subject, but not what it holds. -/
theorem Faithful.fail {s : S} (kept : ∀ d, holds w.subject.subject d → holds s d) :
    Faithful object holds start { w with subject.subject := s } := by
  obtain ⟨d, hlog, hd⟩ := h.explained
  exact ⟨⟨d, hlog, kept d hd⟩, h.timed, h.ordered⟩

/-- An operation that is answered is noted behind all others. -/
theorem Faithful.note {s : S} {i : Invocation} {result : Int} {invoked : Nat}
    (began : invoked < w.recorder.clock)
    (answered : ∀ d, holds w.subject.subject d →
      object.accepts d i result ∧ holds s (object.effect d i)) :
    Faithful object holds start
      { recorder.clock := w.recorder.clock + 1
        recorder.events := w.recorder.events ++ [{ i with result, invoked, returned := w.recorder.clock }]
        subject := { w.subject with subject := s } } := by
  obtain ⟨d, hlog, hd⟩ := h.explained
  obtain ⟨haccepts, hs⟩ := answered d hd
  constructor
  · refine ⟨_, ?_, hs⟩
    rw [List.map_append]
    exact hlog.append (.answer haccepts .nil)
  · intro e he
    rcases List.mem_append.1 he with hold | hnew
    · exact ⟨(h.timed e hold).1, Nat.lt_succ_of_lt (h.timed e hold).2⟩
    · rw [List.mem_singleton.1 hnew]
      exact ⟨began, Nat.lt_succ_self _⟩
  · refine List.pairwise_append.2 ⟨h.ordered, List.pairwise_singleton _ _, ?_⟩
    intro a ha b hb
    rw [List.mem_singleton.1 hb]
    exact (h.timed a ha).2

/-- In the order of completion no event comes after one that began when it was over. -/
theorem Faithful.timely : w.recorder.events.Pairwise fun a b => ¬ b.before a := by
  apply h.ordered.imp_of_mem
  intro a b ha _ hab
  have hinvoked := (h.timed a ha).1
  rw [Event.before]
  omega

end Noting

namespace CallTree
variable {operation : Invocation → EStateM ε S Int}

/-- The body of a call after its nested calls, with the call's own event. -/
theorem maintains_timed (tracks : Tracks object holds operation) (i : Invocation)
    {nested : EStateM ε (Recording (Journal ε S)) Unit}
    (hnested : Maintains object holds start nested) (fault : Option ε) :
    Maintains object holds start (Recording.timed i do
      nested
      match fault with
      | some e => throw e
      | none => Journal.perform (operation i)) := by
  intro w hw
  have hcalls := hnested _ hw.tick
  rw [Recording.timed_eq]
  simp only [Bind.bind, EStateM.bind]
  cases hrun : nested { w with recorder.clock := w.recorder.clock + 1 } with
  | error e w' =>
    rw [hrun] at hcalls
    exact ⟨hcalls.1, Nat.le_of_succ_le hcalls.2⟩
  | ok u w' =>
    rw [hrun] at hcalls
    obtain ⟨hfaithful, hclock⟩ := hcalls
    cases fault with
    | some e => exact ⟨hfaithful, Nat.le_of_succ_le hclock⟩
    | none =>
      have htracks := fun d hd => tracks i w'.subject.subject d hd
      simp only [Journal.perform, Recording.onSubject, onPart]
      cases hop : operation i w'.subject.subject with
      | ok a s =>
        simp only [hop] at htracks
        exact ⟨hfaithful.note hclock htracks, Nat.le_of_lt (Nat.lt_succ_of_lt hclock)⟩
      | error e s =>
        simp only [hop] at htracks
        exact ⟨hfaithful.fail htracks, Nat.le_of_succ_le hclock⟩

mutual

theorem maintains_run (tracks : Tracks object holds operation) :
    (t : CallTree ε) → Maintains object holds start (run operation t)
  | .call i nested fault caught => by
    have hcall := maintains_timed tracks i (maintains_runAll tracks nested) fault
    intro w hw
    have h := hcall w hw
    simp only [run]
    generalize Recording.timed i _ w = result at h ⊢
    cases result with
    | ok a w' => exact ⟨h.1.conclude _, h.2⟩
    | error e w' => cases caught <;> exact ⟨h.1.conclude _, h.2⟩

theorem maintains_runAll (tracks : Tracks object holds operation) :
    (ts : List (CallTree ε)) → Maintains object holds start (runAll operation ts)
  | [] => .pure ()
  | t :: rest => by
    rw [runAll]
    exact (maintains_run tracks t).bind fun _ => maintains_runAll tracks rest

end

/-- The events of calls that are made one after the other, up to one that fails and is not caught. -/
def history (operation : Invocation → EStateM ε S Int) (trees : List (CallTree ε)) (s : S) :
    List Event :=
  (finalState (runAll operation trees ⟨{}, ⟨s, []⟩⟩)).recorder.events

/-- What is recorded of a subject that tracks an object is found to be in order by any model of that
object. -/
theorem history_linearizable {W : Type} [BEq W] [Hashable W] [LawfulBEq W] {model : Model W}
    {InRange : Invocation → Prop} {packs : W → D → Prop} (tracks : Tracks object holds operation)
    (follows : model.Follows object InRange packs) {s : S} (hs : holds s start)
    (initial : packs model.initial start) {trees : List (CallTree ε)}
    (short : (history operation trees s).length ≤ 64)
    (range : ∀ e ∈ history operation trees s, InRange e.toInvocation) :
    linearizable (history operation trees s) model = .ok true := by
  have hstart : Faithful object holds start (⟨{}, ⟨s, []⟩⟩ : Recording (Journal ε S)) :=
    ⟨⟨start, .nil, hs⟩, nofun, .nil⟩
  have hrun := (maintains_runAll tracks trees _ hstart).1
  obtain ⟨d, hlog, -⟩ := hrun.explained
  have hlegal : LegalOrder model model.initial (history operation trees s)
      (history operation trees s) :=
    ⟨.refl _, hrun.timely, follows.accepts initial range hlog⟩
  have htimed : ∀ e ∈ history operation trees s, e.invoked ≤ e.returned :=
    fun e he => Nat.le_of_lt (hrun.timed e he).1
  have hfound := (OrderSearch.ask_make short htimed).2 ⟨_, hlegal⟩
  rw [linearizable, OrderSearch.make, OrderSearch.maxEvents, if_neg (Nat.not_lt.2 short)]
  exact congrArg Except.ok hfound

end CallTree
end

/-! ## The containers -/

section Tracks
variable {C σ : Type} {object : SequentialObject D Invocation Int}

theorem Tracks.of_ends {operation : Invocation → Guarded C ε σ Int} {holds : C → D → Prop}
    (ends : ∀ c d i, holds c d → Ends c (operation i)
      (fun a c' => object.accepts d i a ∧ holds c' (object.effect d i)) fun _ c' => holds c' d) :
    Tracks object (fun s d => holds s.container d) operation := by
  rintro i ⟨c, o⟩ d h
  have hrun := ends c d i h o
  cases hop : operation i ⟨c, o⟩ with
  | ok a s' =>
    rw [hop] at hrun
    simpa only [hop] using hrun
  | error e s' =>
    rw [hop] at hrun
    simpa only [hop] using hrun

theorem Tracks.adaptExcept {ε' : Type} {operation : Invocation → EStateM ε S Int}
    {holds : S → D → Prop} (f : ε → ε') (tracks : Tracks object holds operation) :
    Tracks object holds fun i => (operation i).adaptExcept f := by
  intro i s d h
  have htracks := tracks i s d h
  simp only [EStateM.adaptExcept]
  cases hrun : operation i s with
  | ok a s' =>
    rw [hrun] at htracks
    exact htracks
  | error e s' =>
    rw [hrun] at htracks
    exact htracks

end Tracks

section Sets
variable {σ : Type}

/-- A set of integers performs as the set that its keys make up. -/
theorem LockedSet.IsOrdered.tracks {S : Type → Type} [LockedSet S]
    {stores : S Int → KeySet Int → Prop}
    (ordered : LockedSet.IsOrdered (.integer : SetCallbacks Int ε σ) intBefore stores) :
    Tracks SetOp.object
      (fun s d => ∃ members, stores s.container members ∧ d = KeySet.has intBefore members)
      (SetOp.perform : Invocation → Guarded (S Int) ε σ Int) := by
  have ends (set : S Int) (d : Int → Bool) (i : Invocation)
      (h : ∃ members, stores set members ∧ d = KeySet.has intBefore members) :
      Ends set (SetOp.perform i : Guarded (S Int) ε σ Int)
        (fun a set' => SetOp.object.accepts d i a ∧ ∃ members, stores set' members ∧
          SetOp.object.effect d i = KeySet.has intBefore members)
        fun _ set' => ∃ members, stores set' members ∧ d = KeySet.has intBefore members := by
    obtain ⟨members, h, rfl⟩ := h
    have hspared (e : ε) (set' : S Int) (hs : SetCallbacks.integer.Spares (σ := σ) set e set') :
        ∃ members', stores set' members' ∧
          KeySet.has intBefore members = KeySet.has intBefore members' :=
      ⟨members, hs.2 ▸ h, rfl⟩
    simp only [SetOp.object, SetOp.perform]
    cases SetOp.ofCode i.op with
    | add =>
      apply ((ordered.add set members i.key h).mono (fun _ _ hb => hb) hspared).bind
      rintro done set' ⟨rfl, hset'⟩
      refine .pure ⟨?_, _, hset', (KeySet.has_insert_intBefore members i.key).symm⟩
      cases KeySet.has intBefore members i.key <;> rfl
    | remove =>
      apply ((ordered.remove set members i.key h).mono (fun _ _ hb => hb) hspared).bind
      rintro done set' ⟨rfl, hset'⟩
      exact .pure ⟨rfl, _, hset', (KeySet.has_erase_intBefore members i.key).symm⟩
    | contains =>
      apply ((ordered.contains set members i.key h).mono (fun _ _ hb => hb) hspared).bind
      rintro done set' ⟨rfl, rfl⟩
      exact .pure ⟨rfl, members, h, rfl⟩
  exact Tracks.of_ends ends

end Sets

section Maps
variable {l : Locking} {σ : Type}

/-- The map stores a dictionary with these values. -/
def LockedMap.HasValues (map : LockedMap l Int Int) (values : Int → Option Int) : Prop :=
  ∃ dict, map.Stores UInt64.ofInt (fun a b => decide (a = b)) dict ∧
    values = Dictionary.get? (fun a b => decide (a = b)) dict

theorem LockedMap.HasValues.ends_perform {map : LockedMap l Int Int} {values : Int → Option Int}
    (h : map.HasValues values) (i : Invocation) :
    Ends map (MapOp.perform i : MapSection l Int Int MemoryFault σ Int)
      (fun a map' => (MapOp.object MapOp.ofContainerCode).accepts values i a ∧
        map'.HasValues ((MapOp.object MapOp.ofContainerCode).effect values i))
      fun _ map' => map'.HasValues values := by
  obtain ⟨dict, h, rfl⟩ := h
  have hkept (f : MapFailure MemoryFault) (map' : LockedMap l Int Int)
      (hf : Keeps (MapCallbacks.integer (σ := σ)) UInt64.ofInt (fun a b => decide (a = b)) dict f map') :
      map'.HasValues (Dictionary.get? (fun a b => decide (a = b)) dict) :=
    ⟨dict, hf.2, rfl⟩
  simp only [MapOp.object, MapOp.perform]
  cases MapOp.ofContainerCode i.op with
  | put =>
    have hput : Ends map (put (.integer : MapCallbacks Int Int MemoryFault σ) i.key i.arg) _ _ :=
      ends_put integer_lawful MapCallbacks.integer_follows h i.key i.arg
    apply (hput.mono (fun _ _ hv => hv) hkept).bind
    rintro value map' ⟨rfl, hmap'⟩
    exact .pure ⟨rfl, _, hmap', (Dictionary.get?_put_integer dict i.key i.arg).symm⟩
  | get =>
    have hget : Ends map (get (.integer : MapCallbacks Int Int MemoryFault σ) i.key) _ _ :=
      ends_get integer_lawful MapCallbacks.integer_follows h
    apply (hget.mono (fun _ _ hv => hv) hkept).bind
    rintro value map' ⟨rfl, rfl⟩
    exact .pure ⟨rfl, dict, h, rfl⟩
  | remove =>
    have hremove : Ends map (remove (.integer : MapCallbacks Int Int MemoryFault σ) i.key) _ _ :=
      ends_remove integer_lawful MapCallbacks.integer_follows h
    apply (hremove.mono (fun _ _ hv => hv) hkept).bind
    rintro value map' ⟨rfl, hmap'⟩
    exact .pure ⟨rfl, _, hmap', (Dictionary.get?_erase_integer dict i.key).symm⟩

/-- The codes of the model's operations mean the same to a map. -/
def MapOp.Coded (i : Invocation) : Prop := 0 ≤ i.op ∧ i.op ≤ 2

instance : DecidablePred MapOp.Coded := fun _ => inferInstanceAs (Decidable (_ ∧ _))

theorem MapOp.ofContainerCode_eq {i : Invocation} (coded : Coded i) :
    ofContainerCode i.op = ofCode i.op := by
  obtain ⟨hlow, hhigh⟩ := coded
  have hop : i.op = 0 ∨ i.op = 1 ∨ i.op = 2 := by omega
  rcases hop with hop | hop | hop <;> rw [hop] <;> rfl

theorem byteMapModel_follows_container :
    byteMapModel.Follows (MapOp.object MapOp.ofContainerCode)
      (fun i => MapOp.InRange i ∧ MapOp.Coded i) HoldsBytes := by
  rintro word values e h ⟨range, coded⟩
  have hstep := h.step range
  simp only [MapOp.object, MapOp.ofContainerCode_eq coded] at hstep ⊢
  exact hstep

end Maps

/-- Whatever calls are made of the subject, nested and failing, a history of up to 64 of them is found
to be in order. -/
def CallTree.FoundInOrder {W : Type} [BEq W] [Hashable W] (model : Model W)
    (InRange : Invocation → Prop) (operation : Invocation → EStateM ε S Int) (s : S) : Prop :=
  ∀ trees : List (CallTree ε), (history operation trees s).length ≤ 64 →
    (∀ e ∈ history operation trees s, InRange e.toInvocation) →
      linearizable (history operation trees s) model = .ok true

/-- What is recorded of new containers of integers is linearizable. -/
theorem recorded_histories_linearizable (ε σ : Type) (f : MapFailure MemoryFault → ε) (o : σ) :
    CallTree.FoundInOrder bitSetModel SetOp.InRange
        (SetOp.perform : Invocation → Guarded (MonitorSet Int) ε σ Int) ⟨LockedSet.empty, o⟩ ∧
      CallTree.FoundInOrder bitSetModel SetOp.InRange
        (SetOp.perform : Invocation → Guarded (CoupledSet Int) ε σ Int) ⟨LockedSet.empty, o⟩ ∧
      ∀ (l : Locking) (options : MapOptions) (map : LockedMap l Int Int) (o' : σ),
        LockedMap.make .integer l options o = .ok map o' → 0 < map.table.size →
          CallTree.FoundInOrder byteMapModel (fun i => MapOp.InRange i ∧ MapOp.Coded i)
            (fun i => (MapOp.perform i).adaptExcept f) (⟨map, o'⟩ : Shared (LockedMap l Int Int) σ) := by
  have hset {S : Type → Type} [LockedSet S] {stores : S Int → KeySet Int → Prop}
      (ordered : LockedSet.IsOrdered (.integer : SetCallbacks Int ε σ) intBefore stores)
      (vacant : stores LockedSet.empty []) :
      CallTree.FoundInOrder bitSetModel SetOp.InRange
        (SetOp.perform : Invocation → Guarded (S Int) ε σ Int) ⟨LockedSet.empty, o⟩ :=
    fun _ => CallTree.history_linearizable ordered.tracks bitSetModel_follows
      ⟨[], vacant, rfl⟩ holdsBits_zero
  refine ⟨hset (MonitorSet.isOrdered SetCallbacks.integer_follows) (KeySet.stored_nil _),
    hset (CoupledSet.isOrdered SetCallbacks.integer_follows) (KeySet.stored_nil _), ?_⟩
  intro l options map o' made roomy trees
  have hvacant : map.HasValues fun _ => none :=
    ⟨[], LockedMap.stores_made made roomy, rfl⟩
  exact CallTree.history_linearizable
    ((Tracks.of_ends fun _ _ i h => h.ends_perform i).adaptExcept f)
    byteMapModel_follows_container hvacant holdsBytes_zero

/-- A put that makes other calls first, one of which fails, and a look-up after it. -/
def CallTree.nestedPut : List (CallTree Unit) :=
  [.call ⟨0, 3, 254⟩ [.call ⟨1, 3, 0⟩ [] none true, .call ⟨2, 3, 0⟩ [] (some ()) true] none true,
    .call ⟨1, 3, 0⟩ [] none true]

/-- The inner look-up is over first and finds nothing; the removal that fails leaves a gap in time. -/
theorem recorded_histories_linearizable_nested :
    let run := CallTree.history (fun i => (MapOp.perform i).adaptExcept fun _ => ())
      CallTree.nestedPut (⟨LockedMap.ofTwo, ()⟩ : Shared (StripedMap Int Int) Unit)
    run = [⟨⟨1, 3, 0⟩, -1, 1, 2⟩, ⟨⟨0, 3, 254⟩, -1, 0, 4⟩, ⟨⟨1, 3, 0⟩, 254, 5, 6⟩] ∧
      linearizable run byteMapModel = .ok true := by
  intro run
  have hrun : run = [⟨⟨1, 3, 0⟩, -1, 1, 2⟩, ⟨⟨0, 3, 254⟩, -1, 0, 4⟩, ⟨⟨1, 3, 0⟩, 254, 5, 6⟩] := by
    decide +kernel
  have h : run.length ≤ 64 →
      (∀ e ∈ run, MapOp.InRange e.toInvocation ∧ MapOp.Coded e.toInvocation) →
        linearizable run byteMapModel = .ok true :=
    (recorded_histories_linearizable Unit Unit (fun _ => ()) ()).2.2 .striped _ _ ()
      (LockedMap.make_integer_ofTwo ()) (by decide) CallTree.nestedPut
  rw [hrun] at h ⊢
  exact ⟨rfl, h (by decide) (by decide)⟩

end LockedContainers
