import Mathlib.Data.List.Pairwise
import LockedContainers.Proofs.Set.Interleaved

/-!
# Snapshots of a coupled set that others change

A walk over the linked nodes copies their keys while others link and cut out
nodes on both sides of it. A key that is in the set all the time has been
copied or is behind the last copied key, since where the walk stands two nodes
are held, and one comparison there tells whether the set has the key.
-/
namespace LockedContainers

variable {Thread T ε σ : Type}

section Order
variable {before : T → T → Bool} {keys : List T} {key key' : T}

/-- Different keys of an ascending list are not equivalent. -/
theorem eq_of_equivalent (ascending : keys.Pairwise (before · ·)) (hkey : key ∈ keys)
    (hkey' : key' ∈ keys) (same : equivalent before key key') : key = key' := by
  have hsymm : Std.Symm fun a b : T => equivalent before a b = false :=
    ⟨fun a b h => Bool.eq_false_iff.2 fun h' => Bool.eq_false_iff.1 h (equivalent_symm h')⟩
  by_contra hne
  have happart := (ascending.imp not_equivalent_of_before).forall hkey hkey' hne
  rw [same] at happart
  exact Bool.noConfusion happart

variable [order : IsStrictWeakOrder T (before · ·)]

/-- An ascending list has a key only once. -/
theorem KeySet.countP_of_has (ascending : keys.Pairwise (before · ·))
    (has : KeySet.has before keys key) : keys.countP (equivalent before key) = 1 := by
  induction keys with
  | nil => cases has
  | cons k rest ih =>
    obtain ⟨hk, hrest⟩ := List.pairwise_cons.1 ascending
    cases hkey : equivalent before key k with
    | true =>
      have hnone : rest.countP (equivalent before key) = 0 := by
        refine List.countP_eq_zero.2 fun x hx hx' => ?_
        have hsame : equivalent before k x := equivalent_trans (equivalent_symm hkey) hx'
        rw [not_equivalent_of_before (hk x hx)] at hsame
        exact Bool.noConfusion hsame
      rw [List.countP_cons_of_pos hkey, hnone]
    | false =>
      rw [List.countP_cons_of_neg (by simp [hkey])]
      exact ih hrest (by simpa [KeySet.has, hkey] using has)

end Order

/-- The list is one that a walk may give which has seen the set with these keys, one after the
other. -/
structure WeaklyConsistent (before : T → T → Bool) (seen : List T → Prop) (keys : List T) :
    Prop where
  ascending : keys.Pairwise (before · ·)
  /-- A key that the set had all the time is listed, and only once. -/
  stayed : ∀ key, (∀ shown, seen shown → KeySet.has before shown key) →
    keys.countP (equivalent before key) = 1
  kept : ∀ key, (∀ shown, seen shown → key ∈ shown) → key ∈ keys
  /-- No key is listed that was never in the set. -/
  found : ∀ key ∈ keys, ∃ shown, seen shown ∧ key ∈ shown

/-- What a walk has copied: keys that the set had, and among them those that stayed, unless they
are behind the last one. -/
structure Gathered (before : T → T → Bool) (seen : List T → Prop) (copied : List T) : Prop where
  found : ∀ key ∈ copied, ∃ shown, seen shown ∧ shown.Pairwise (before · ·) ∧ key ∈ shown
  stayed : ∀ key, (∀ shown, seen shown → KeySet.has before shown key) →
    KeySet.has before copied key ∨ ∀ last ∈ copied.getLast?, before last key

namespace Gathered

variable {before : T → T → Bool} {seen : List T → Prop} {copied : List T}

theorem nil : Gathered before seen [] where
  found _ h := absurd h List.not_mem_nil
  stayed _ _ := .inr fun _ h => by cases h

variable [order : IsStrictWeakOrder T (before · ·)] {head : Nat} {nodes : Nat → Option (Node T)}
  {front back : List (Cell T)} {a b : Nat} {p q : Place T}

/-- At a link that leads on from the last copied key, a key that stayed is the one there, unless
it has been copied or is behind. -/
theorem at_link (h : Gathered before seen copied)
    (linked : Linked before head nodes (front ++ (a, p) :: (b, q) :: back))
    (now : seen (keysOf (front ++ (a, p) :: (b, q) :: back))) (hp : p ≠ .tail)
    (last : copied.getLast? = p.key?) {key : T}
    (stayed : ∀ shown, seen shown → KeySet.has before shown key) :
    KeySet.has before copied key ∨ q.precedes before key ∨ q.reaches before key := by
  -- The key is behind the last one copied, so a search for it would pass the first node that is
  -- held; where it would stop at the second, one comparison tells whether the set has the key.
  refine (h.stayed key stayed).imp_right fun hlast => ?_
  have hpassed : p.precedes before key := by
    cases p with
    | head => rfl
    | «at» k => exact hlast k last
    | tail => exact absurd rfl hp
  cases hq : q.precedes before key with
  | true => exact .inl rfl
  | false =>
    right
    rw [← linked.has_eq hpassed hq (.refl _)]
    exact stayed _ now

/-- The next key is copied. -/
theorem push (h : Gathered before seen copied) {k : T}
    (linked : Linked before head nodes (front ++ (a, p) :: (b, .at k) :: back))
    (now : seen (keysOf (front ++ (a, p) :: (b, .at k) :: back))) (hp : p ≠ .tail)
    (last : copied.getLast? = p.key?) : Gathered before seen (copied ++ [k]) where
  found key hkey := by
    rcases List.mem_append.1 hkey with hkey | hkey
    · exact h.found key hkey
    · refine ⟨_, now, linked.keys_ascending, ?_⟩
      rw [List.mem_singleton.1 hkey]
      exact List.mem_filterMap.2 ⟨(b, .at k), by simp, rfl⟩
  stayed key stayed := by
    have hadd : KeySet.has before (copied ++ [k]) key =
        (KeySet.has before copied key || equivalent before key k) := by
      simp [KeySet.has]
    rw [hadd]
    cases hbehind : before k key with
    | true =>
      right
      simpa using hbehind
    | false =>
      left
      rcases h.at_link linked now hp last stayed with hcopied | hbefore | hreached
      · simp [hcopied]
      · exact absurd hbefore (by simpa [Place.precedes] using hbehind)
      · have hafter : before key k = false := by simpa [Place.reaches] using hreached
        simp [equivalent, hbehind, hafter]

/-- At the tail everything that stayed has been copied. -/
theorem weaklyConsistent (h : Gathered before seen copied)
    (ascending : copied.Pairwise (before · ·))
    (linked : Linked before head nodes (front ++ (a, p) :: (b, .tail) :: back))
    (now : seen (keysOf (front ++ (a, p) :: (b, .tail) :: back))) (hp : p ≠ .tail)
    (last : copied.getLast? = p.key?) : WeaklyConsistent before seen copied := by
  have hcopied {key : T} (stayed : ∀ shown, seen shown → KeySet.has before shown key) :
      KeySet.has before copied key := by
    rcases h.at_link linked now hp last stayed with hcopied | hbefore | hreached
    · exact hcopied
    · exact Bool.noConfusion hbefore
    · exact Bool.noConfusion hreached
  refine ⟨ascending, fun key stayed => KeySet.countP_of_has ascending (hcopied stayed), ?_, ?_⟩
  · intro key kept
    have hhas := hcopied fun shown hshown =>
      List.any_eq_true.2 ⟨key, kept shown hshown, equivalent_refl key⟩
    obtain ⟨k, hk, hsame⟩ := List.any_eq_true.1 hhas
    obtain ⟨shown, hshown, hascending, hmem⟩ := h.found k hk
    rwa [eq_of_equivalent hascending (kept shown hshown) hmem hsame]
  · intro key hkey
    obtain ⟨shown, hshown, -, hmem⟩ := h.found key hkey
    exact ⟨shown, hshown, hmem⟩

end Gathered

/-- The keys of the linked nodes, from the head to the tail. -/
def NodeHeap.Shows (heap : NodeHeap Thread T) (keys : List T) : Prop :=
  ∃ inner last, Chain heap.nodes (cellsOf heap.head inner last) ∧ inner.map Prod.snd = keys

/-- A heap shows one list only. -/
theorem NodeHeap.Shows.unique {heap : NodeHeap Thread T} {keys keys' : List T}
    (h : heap.Shows keys) (h' : heap.Shows keys') : keys = keys' := by
  obtain ⟨inner, last, hchain, rfl⟩ := h
  obtain ⟨inner', last', hchain', rfl⟩ := h'
  rw [← keysOf_cellsOf heap.head last inner, hchain.eq_of_head hchain' rfl, keysOf_cellsOf]

theorem Linked.shows {before : T → T → Bool} {heap : NodeHeap Thread T} {cells : List (Cell T)}
    (linked : Linked before heap.head heap.nodes cells) : heap.Shows (keysOf cells) := by
  obtain ⟨inner, last, rfl, -⟩ := linked.interior
  exact ⟨inner, last, linked.chain, (keysOf_cellsOf ..).symm⟩

/-- On the way over the list, from the lock of the head to the node where an outcome is fixed. -/
def Phase.walking : Phase T ε → Bool
  | resting _ | waiting _ _ | visiting _ _ | passing _ _ => true
  | _ => false

/-- A snapshot that is on its way. -/
structure Task.Copying (before : T → T → Bool) (seen : List T → Prop) (task : Task T ε) : Prop where
  errand : task.errand = .snapshot
  underway : task.phase = .entering ∨ task.phase.walking
  gathered : Gathered before seen task.copied.toList

/-- What a snapshot may come to. -/
def SetCallbacks.Delivers (cb : SetCallbacks T ε σ) (before : T → T → Bool) (seen : List T → Prop)
    (outcome : SetOutcome T ε) : Prop :=
  match outcome with
  | .ok answer => ∃ keys, answer = .keys keys ∧ WeaklyConsistent before seen keys
  | .error e => cb.Raises e

section Visits
variable {cb : SetCallbacks T ε σ} {before : T → T → Bool}
  [order : IsStrictWeakOrder T (before · ·)] {seen : List T → Prop}
  {nodes : Nat → Option (Node T)} {cells : List (Cell T)} {pred curr : Nat} {task : Task T ε}

omit order in
theorem Task.Copying.undecided (copying : task.Copying before seen) :
    task.phase.decided = none := by
  rcases copying.underway with hphase | hwalking
  · rw [hphase]
    rfl
  · cases hphase : task.phase <;> simp_all [Phase.walking, Phase.decided]

/-- A visit copies the key, or ends the walk at the tail. -/
theorem Task.Copying.yields_visit (copying : task.Copying before seen) (follows : cb.Follows before)
    {head : Nat} (linked : Linked before head nodes cells) (now : seen (keysOf cells))
    (ahead : Ahead nodes cells (task.Passed before) pred curr) {q : Place T} {next : Option Nat}
    (hcurr : nodes curr = some ⟨q, next⟩) :
    Yields (task.visit cb pred curr ⟨q, next⟩)
      (fun out => (out.2 = none ∧ out.1.Copying before seen) ∨
        ∃ outcome, out.2 = some outcome ∧ cb.Delivers before seen outcome) cb.Raises := by
  obtain ⟨errand, copied, audited, phase⟩ := task
  obtain ⟨rfl, -, gathered⟩ := copying
  obtain ⟨p, hp, ⟨hne, ascending, last⟩, hlink⟩ := ahead
  obtain ⟨front, r, back, rfl⟩ := linked.next hp hlink
  obtain rfl : q = r := linked.place_eq (by simp) hcurr
  cases q with
  | head =>
    have hbelow := (linked.below_next hp hlink hcurr).2
    rw [Place.below_head] at hbelow
    exact Bool.noConfusion hbelow
  | «at» k =>
    refine (CoupledSet.yields_copyNode follows copied k).bind fun out hout => ?_
    subst hout
    refine .pure (.inl ⟨rfl, rfl, .inr rfl, ?_⟩)
    rw [Array.toList_push]
    exact gathered.push linked now hne last
  | tail =>
    exact .pure (.inr ⟨_, rfl, _, rfl, gathered.weaklyConsistent ascending linked now hne last⟩)

end Visits

section Acts
variable [DecidableEq Thread] {cb : SetCallbacks T ε σ} {before : T → T → Bool}
  [order : IsStrictWeakOrder T (before · ·)] {seen : List T → Prop} {t : Thread}
  {heap : NodeHeap Thread T} {cells : List (Cell T)} {members : KeySet T} {task : Task T ε}
  {act : Act Thread T ε σ} {o : σ}

/-- A step takes a snapshot on, or settles it with the keys that it has copied. -/
theorem Task.Copying.acts (copying : task.Copying before seen) (follows : cb.Follows before)
    (sit : task.Situated before t heap cells members)
    (now : task.phase.walking → seen (keysOf cells)) {fresh : Nat}
    (hact : task.act cb t fresh heap o = some act) :
    (act.decided = none ∧ act.task.Copying before seen) ∨
      ∃ outcome, act.decided = some outcome ∧ cb.Delivers before seen outcome := by
  have hgoes {phase : Phase T ε} (quiet : task.phase.settling = false)
      (htask : act.task = { task with phase }) (walking : phase.walking) :
      act.decided = none ∧ act.task.Copying before seen := by
    refine ⟨?_, ?_⟩
    · by_contra hdecided
      rw [Task.settling_of_decided hact hdecided] at quiet
      exact Bool.noConfusion quiet
    · rw [htask]
      exact ⟨copying.errand, .inr walking, copying.gathered⟩
  have hstands := sit.stands
  cases hphase : task.phase with
  | entering =>
    simp only [Task.act, hphase] at hact
    have hhead := sit.linked.ne_none_of_on ⟨_, sit.linked.head⟩
    exact .inl (hgoes (by rw [hphase]; rfl) (by rw [(acquire_eq hact hhead).2]) rfl)
  | resting pred =>
    simp only [Stands, Task.act, hphase] at hstands hact
    obtain ⟨p, hp, passed⟩ := hstands
    obtain ⟨curr, hlink⟩ := sit.linked.exists_next hp passed.ne_tail
    simp only [hlink, goTo, Option.some.injEq] at hact
    exact .inl (hgoes (by rw [hphase]; rfl) (by rw [← hact]) rfl)
  | waiting pred curr =>
    simp only [Stands, Task.act, hphase] at hstands hact
    have hcurr := sit.linked.ne_none_of_on (hstands.beside sit.linked).2.2
    exact .inl (hgoes (by rw [hphase]; rfl) (by rw [(acquire_eq hact hcurr).2]) rfl)
  | visiting pred curr =>
    simp only [Stands, Task.act, hphase] at hstands hact
    obtain ⟨q, hq⟩ := (hstands.beside sit.linked).2.2
    obtain ⟨next, hnode⟩ := sit.linked.node hq
    have hnow : seen (keysOf cells) := now (by rw [hphase]; rfl)
    have hyields := copying.yields_visit follows sit.linked hnow hstands hnode o
    simp only [hnode] at hact
    cases hvisit : task.visit cb pred curr ⟨q, next⟩ o with
    | ok out o' =>
      rw [hvisit] at hyields
      simp only [hvisit, Option.some.injEq] at hact
      rw [← hact]
      exact hyields
    | error e o' =>
      rw [hvisit] at hyields
      simp only [hvisit, settle, Option.some.injEq] at hact
      rw [← hact]
      exact .inr ⟨_, rfl, hyields⟩
  | passing pred curr =>
    simp only [Stands, Task.act, hphase] at hstands hact
    have hpred := sit.linked.ne_none_of_on hstands.2.1
    have howner : heap.owner pred = some t := (sit.owned pred).2 (by simp [hphase, Phase.held])
    exact .inl (hgoes (by rw [hphase]; rfl) (by rw [release_eq hact hpred howner]) rfl)
  | _ =>
    have hunderway := copying.underway
    simp [hphase, Phase.walking] at hunderway

end Acts

namespace NodeRun

variable [DecidableEq Thread] {cb : SetCallbacks T ε σ} {before : T → T → Bool}
  {program : Thread → List (Errand T)} {s : NodeRun Thread T ε σ} {cells : List (Cell T)}
  {members : KeySet T} {t : Thread} {calls : List (SetRequest T × SetOutcome T ε)}
  {seen : List T → Prop}

omit [DecidableEq Thread] in
/-- The thread is on its way over the list, in the operation after these calls. -/
def Walks (s : NodeRun Thread T ε σ) (t : Thread)
    (calls : List (SetRequest T × SetOutcome T ε)) : Prop :=
  (s.callers t).returned = calls ∧ ∃ task ∈ (s.callers t).task, task.phase.walking

/-- On some part of the schedule the set has these keys, while the thread walks. -/
def Sees (s : NodeRun Thread T ε σ) (cb : SetCallbacks T ε σ) (t : Thread)
    (schedule : List (Thread × Nat)) (keys : List T) : Prop :=
  ∃ part, part <+: schedule ∧ (run cb s part).Walks t (s.callers t).returned ∧
    (run cb s part).heap.Shows keys

/-- How far a thread has come that called for a snapshot after these calls. -/
inductive Snapshots (cb : SetCallbacks T ε σ) (before : T → T → Bool) (seen : List T → Prop)
    (s : NodeRun Thread T ε σ) (t : Thread) (calls : List (SetRequest T × SetOutcome T ε)) : Prop
  | underway {task : Task T ε} {pending : List (Errand T)} :
    s.callers t = ⟨some task, pending, calls⟩ → task.Copying before seen →
      Snapshots cb before seen s t calls
  | settled {outcome : SetOutcome T ε} {later : List (SetRequest T × SetOutcome T ε)} :
    Interleaving.logOf s.log t = calls ++ (.snapshot, outcome) :: later →
      cb.Delivers before seen outcome → Snapshots cb before seen s t calls

theorem callers_of_ne {turn : Thread × Nat} (ht : t ≠ turn.1) :
    (step cb s turn).callers t = s.callers t := by
  have hstep := step_spec cb s turn
  generalize step cb s turn = s' at hstep ⊢
  cases hstep with
  | still => rfl
  | _ => exact Function.update_of_ne ht ..

/-- What is in the log stays there. -/
theorem log_prefix (cb : SetCallbacks T ε σ) (s : NodeRun Thread T ε σ) (turn : Thread × Nat) :
    s.log <+: (step cb s turn).log := by
  have hstep := step_spec cb s turn
  generalize step cb s turn = s' at hstep ⊢
  cases hstep with
  | acts _ _ => exact List.prefix_append ..
  | _ => exact List.prefix_refl _

variable [order : IsStrictWeakOrder T (before · ·)]

/-- A step of the thread itself. -/
theorem Snapshots.act (follows : cb.Follows before) (h : s.Coherent cb before program cells members)
    {task : Task T ε} {pending : List (Errand T)}
    (hcaller : s.callers t = ⟨some task, pending, calls⟩) (copying : task.Copying before seen)
    (now : s.Walks t calls → ∀ keys, s.heap.Shows keys → seen keys) {fresh : Nat}
    {act : Act Thread T ε σ} (hact : task.act cb t fresh s.heap s.outside = some act) :
    Snapshots cb before seen
      { heap := act.heap, outside := act.outside
        callers := Function.update s.callers t ⟨some act.task, pending, calls⟩
        log := s.log ++ act.decided.toList.map fun outcome => (t, task.errand.request, outcome) }
      t calls := by
  have hnow : task.phase.walking → seen (keysOf cells) := fun walking =>
    now ⟨by rw [hcaller], task, by rw [hcaller]; rfl, walking⟩ _ h.linked.shows
  have hlog : Interleaving.logOf s.log t = calls := by
    rw [← h.answered t, hcaller]
    simp [Caller.settled, copying.undecided]
  obtain ⟨-, hcopying⟩ | ⟨outcome, hdecided, hdelivers⟩ :=
    copying.acts follows (h.situated hcaller) hnow hact
  · exact .underway (Function.update_self ..) hcopying
  · have hgrown := Interleaving.logOf_append s.log
      ([(SetRequest.snapshot, outcome)].map (t, ·)) t
    rw [Interleaving.logOf_self, hlog] at hgrown
    rw [hdecided, copying.errand]
    exact .settled hgrown hdelivers

/-- Whoever takes the step, the snapshot gets on with the sets that it sees. -/
theorem Snapshots.step (follows : cb.Follows before)
    (h : s.Coherent cb before program cells members) (snapshots : s.Snapshots cb before seen t calls)
    (now : s.Walks t calls → ∀ keys, s.heap.Shows keys → seen keys) (turn : Thread × Nat) :
    (NodeRun.step cb s turn).Snapshots cb before seen t calls := by
  cases snapshots with
  | settled hlog hdelivers =>
    obtain ⟨more, hmore⟩ := log_prefix cb s turn
    have hgrown := Interleaving.logOf_append s.log more t
    rw [hmore, hlog, List.append_assoc, List.cons_append] at hgrown
    exact .settled hgrown hdelivers
  | @underway task pending hcaller copying =>
    by_cases ht : t = turn.1
    · have hstep := step_spec cb s turn
      generalize NodeRun.step cb s turn = s' at hstep ⊢
      cases hstep with
      | still => exact .underway hcaller copying
      | calls hcaller' =>
        cases ht
        rw [hcaller'] at hcaller
        cases hcaller
      | returns hcaller' hphase =>
        cases ht
        rw [hcaller'] at hcaller
        cases hcaller
        have hundecided := copying.undecided
        rw [hphase] at hundecided
        cases hundecided
      | acts hcaller' hact =>
        cases ht
        rw [hcaller'] at hcaller
        cases hcaller
        exact .act follows h hcaller' copying now hact
    · exact .underway ((callers_of_ne ht).trans hcaller) copying

theorem Snapshots.run (follows : cb.Follows before)
    (h : s.Coherent cb before program cells members)
    (snapshots : s.Snapshots cb before seen t calls) (schedule : List (Thread × Nat))
    (now : ∀ part, part <+: schedule → (NodeRun.run cb s part).Walks t calls →
      ∀ keys, (NodeRun.run cb s part).heap.Shows keys → seen keys) :
    (NodeRun.run cb s schedule).Snapshots cb before seen t calls := by
  -- What is seen stays fixed, as all that the whole schedule will show: no step has to add to it.
  induction schedule generalizing s cells members with
  | nil => exact snapshots
  | cons turn rest ih =>
    obtain ⟨cells', members', h'⟩ := h.step follows turn
    refine ih h' (snapshots.step follows h (now [] List.nil_prefix) turn) fun part hpart => ?_
    exact now (turn :: part) ((List.prefix_cons_inj turn).2 hpart)

/-- What walks tell of a set that others change: a snapshot is weakly consistent with the sets that
it saw on its way, and an audit finds the order right. -/
structure Surveyed (cb : SetCallbacks T ε σ) (before : T → T → Bool) (s : NodeRun Thread T ε σ) :
    Prop where
  snapshots : ∀ t schedule outcome later, (s.callers t).task = some { errand := .snapshot } →
    ((run cb s schedule).callers t).returned =
      (s.callers t).returned ++ (.snapshot, outcome) :: later →
    cb.Delivers before (s.Sees cb t schedule) outcome
  audits : ∀ t outcome, (.auditLive, outcome) ∈ (s.callers t).returned →
    outcome = .ok (.flag true) ∨ ∃ e, outcome = .error e ∧ cb.Raises e

theorem Coherent.surveyed (follows : cb.Follows before)
    (h : s.Coherent cb before program cells members) : s.Surveyed cb before where
  snapshots t schedule outcome later htask hreturned := by
    obtain ⟨pending, returned, hcaller⟩ := Caller.eq_of_task htask
    have hbegun : s.Snapshots cb before (s.Sees cb t schedule) t (s.callers t).returned := by
      rw [hcaller]
      exact .underway hcaller ⟨rfl, .inl rfl, .nil⟩
    have hended := hbegun.run follows h schedule fun part hpart walks keys shows =>
      ⟨part, hpart, walks, shows⟩
    cases hended with
    | underway hcaller' _ =>
      rw [hcaller'] at hreturned
      simp at hreturned
    | settled hlog hdelivers =>
      obtain ⟨cells', members', h'⟩ := h.run follows schedule
      have hanswered := h'.answered t
      rw [hlog, hreturned, List.append_assoc, List.append_cancel_left_eq] at hanswered
      cases hanswered
      exact hdelivers
  audits t outcome hmem := by
    have hlogged : (SetRequest.auditLive, outcome) ∈ Interleaving.logOf s.log t := by
      rw [← h.answered t]
      exact List.mem_append_left _ hmem
    have hentry := h.explains.of_mem (List.mem_map_of_mem (Interleaving.mem_logOf.1 hlogged))
    obtain ⟨_, answer, rfl, haccepts⟩ | hfailed := hentry
    · exact .inl (congrArg Except.ok haccepts)
    · exact .inr hfailed

end NodeRun

/-- Whatever other threads add and remove meanwhile, a snapshot lists in ascending order what stayed
in the set during its walk, and nothing that was never in it; an audit that runs among them finds
nothing wrong. -/
theorem walks_weakly_consistent [DecidableEq Thread] {cb : SetCallbacks T ε σ}
    {before : T → T → Bool} (order : IsStrictWeakOrder T (before · ·)) (follows : cb.Follows before)
    (outside : σ) (program : Thread → List (Errand T)) (schedule : List (Thread × Nat)) :
    ((NodeRun.begin outside program).run cb schedule).Surveyed cb before := by
  obtain ⟨cells, members, h⟩ := (NodeRun.coherent_begin outside).run follows schedule
  exact h.surveyed follows

/-- Two threads that change the set on both sides of a third, which walks. -/
def twoSides : Fin 3 → List (Errand Nat)
  | 0 => [.search .add 15, .search .add 35, .search .add 55, .search .remove 15]
  | 1 => [.search .add 65]
  | 2 => [.snapshot, .audit false]

/-- The first key is removed behind the walk before another is added ahead of it; the snapshot has
both, though the set never did. -/
theorem walks_weakly_consistent_twoSides :
    let s := (NodeRun.begin none twoSides).run (.fused byTens)
      ((List.replicate 48 (0 : Fin 3) ++ List.replicate 17 1 ++ [2]).zipIdx 2)
    let schedule := (List.replicate 12 (2 : Fin 3) ++ List.replicate 13 0 ++ List.replicate 7 1 ++
      List.replicate 48 2).zipIdx 68
    ((s.run (.fused byTens) schedule).callers 2).returned =
      [(.snapshot, .ok (.keys [15, 35, 55, 65])), (.auditLive, .ok (.flag true))] ∧
    WeaklyConsistent byTens (s.Sees (.fused byTens) 2 schedule) [15, 35, 55, 65] := by
  intro s schedule
  have hreturned : ((s.run (.fused byTens) schedule).callers 2).returned =
      [(.snapshot, .ok (.keys [15, 35, 55, 65])), (.auditLive, .ok (.flag true))] := by
    decide +kernel
  have hcalled : (s.callers 2).task = some { errand := .snapshot } := rfl
  have hbefore : (s.callers 2).returned = [] := by decide +kernel
  have hsurveyed : s.Surveyed (.fused byTens) byTens :=
    walks_weakly_consistent byTens_strictWeakOrder (SetCallbacks.fused_follows byTens) none
      twoSides _
  have hdelivers := hsurveyed.snapshots 2 schedule (.ok (.keys [15, 35, 55, 65]))
    [(.auditLive, .ok (.flag true))] hcalled (by rw [hbefore, hreturned, List.nil_append])
  obtain ⟨keys, hkeys, hconsistent⟩ := hdelivers
  cases hkeys
  exact ⟨hreturned, hconsistent⟩

end LockedContainers
