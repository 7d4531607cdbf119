import LockedContainers.Proofs.Set.Standing

/-!
# The steps of an operation

Every step of a thread leaves an ascending chain of linked nodes, leaves the
thread with something to rely on, and disturbs no node in another's hands. A
link write settles an update; the other outcomes are settled by a comparison.
-/
namespace LockedContainers

variable {Thread T ε σ : Type}

/-- What a thread inside an operation finds: an ascending chain with the keys of the set, its own
locks, and the nodes that it knows. -/
structure Task.Situated (before : T → T → Bool) (t : Thread) (heap : NodeHeap Thread T)
    (cells : List (Cell T)) (members : KeySet T) (task : Task T ε) : Prop where
  linked : Linked before heap.head heap.nodes cells
  listed : (keysOf cells).Perm members
  owned : ∀ a, heap.owner a = some t ↔ a ∈ task.phase.held
  stands : task.Stands before heap.nodes cells

/-- What a step leaves, and what it leaves alone. -/
structure Act.Sound (cb : SetCallbacks T ε σ) (before : T → T → Bool) (t : Thread)
    (heap : NodeHeap Thread T) (cells : List (Cell T)) (members : KeySet T) (task : Task T ε)
    (act : Act Thread T ε σ) (cells' : List (Cell T)) (members' : KeySet T) : Prop where
  situated : act.task.Situated before t act.heap cells' members'
  errand : act.task.errand = task.errand
  /-- The locks of other threads stay theirs. -/
  others : ∀ a, ∀ t' ≠ t, (act.heap.owner a = some t' ↔ heap.owner a = some t')
  undisturbed : ∀ a, heap.nodes a ≠ none → a ∉ task.phase.held ++ task.phase.apart →
    Undisturbed heap.nodes cells act.heap.nodes cells' a ∧ a ∉ act.task.phase.apart
  settles : act.task.phase.decided.toList = task.phase.decided.toList ++ act.decided.toList
  explains : (KeySet.live before).Explains cb.Raises members
    (act.decided.toList.map (task.errand.request, ·)) members'

section Acts
variable {cb : SetCallbacks T ε σ} {before : T → T → Bool} {t : Thread}
  {heap : NodeHeap Thread T} {cells : List (Cell T)} {members : KeySet T} {task : Task T ε}
  {act : Act Thread T ε σ} {o : σ}

/-- A step that leaves the nodes alone disturbs nobody. -/
theorem Act.Sound.of_nodes (sit : task.Situated before t heap cells members)
    (nodes : act.heap.nodes = heap.nodes) (head : act.heap.head = heap.head)
    (errand : act.task.errand = task.errand)
    (owned : ∀ a, act.heap.owner a = some t ↔ a ∈ act.task.phase.held)
    (others : ∀ a, ∀ t' ≠ t, (act.heap.owner a = some t' ↔ heap.owner a = some t'))
    (apart : ∀ a ∈ act.task.phase.apart, a ∈ task.phase.apart)
    (stands : act.task.Stands before heap.nodes cells)
    (settles : act.task.phase.decided.toList = task.phase.decided.toList ++ act.decided.toList)
    (explains : (KeySet.live before).Explains cb.Raises members
      (act.decided.toList.map (task.errand.request, ·)) members) :
    act.Sound cb before t heap cells members task cells members where
  situated :=
    { linked := by rw [nodes, head]; exact sit.linked
      listed := sit.listed
      owned := owned
      stands := by rw [nodes]; exact stands }
  errand := errand
  others := others
  undisturbed a _ ha :=
    ⟨⟨congrFun nodes a, fun _ => Iff.rfl⟩, fun h => ha (List.mem_append_right _ (apart a h))⟩
  settles := settles
  explains := explains

/-- A step within the thread. -/
theorem Act.Sound.still (sit : task.Situated before t heap cells members)
    (nodes : act.heap.nodes = heap.nodes) (head : act.heap.head = heap.head)
    (owner : act.heap.owner = heap.owner) (errand : act.task.errand = task.errand)
    (held : act.task.phase.held = task.phase.held)
    (apart : ∀ a ∈ act.task.phase.apart, a ∈ task.phase.apart)
    (stands : act.task.Stands before heap.nodes cells)
    (settles : act.task.phase.decided.toList = task.phase.decided.toList ++ act.decided.toList)
    (explains : (KeySet.live before).Explains cb.Raises members
      (act.decided.toList.map (task.errand.request, ·)) members) :
    act.Sound cb before t heap cells members task cells members := by
  refine .of_nodes sit nodes head errand (fun a => ?_) (fun a _ _ => ?_) apart stands settles explains
  · rw [owner, held]
    exact sit.owned a
  · rw [owner]

variable [DecidableEq Thread]

/-- Taking the lock of a linked node. -/
theorem Task.acquire_sound (sit : task.Situated before t heap cells members) {a : Nat}
    {phase : Phase T ε} (hact : task.acquire t a phase heap o = some act) (on : On cells a)
    (held : ∀ x, x ∈ phase.held ↔ x = a ∨ x ∈ task.phase.held)
    (apart : phase.apart = []) (decided : phase.decided = task.phase.decided)
    (stands : ({ task with phase } : Task T ε).Stands before heap.nodes cells) :
    act.Sound cb before t heap cells members task cells members := by
  obtain ⟨hfree, rfl⟩ := acquire_eq hact (sit.linked.ne_none_of_on on)
  obtain ⟨howned, hothers⟩ := owner_take sit.owned hfree held
  refine .of_nodes sit rfl rfl rfl howned hothers ?_ stands ?_ .nil
  · simp [apart]
  · simp [decided]

/-- Giving a lock up. -/
theorem Task.release_sound (sit : task.Situated before t heap cells members) {a : Nat}
    {phase : Phase T ε} (hact : task.release t a phase heap o = some act)
    (exists' : heap.nodes a ≠ none) (held : ∀ x, x ∈ task.phase.held ↔ x = a ∨ x ∈ phase.held)
    (gone : a ∉ phase.held) (apart : ∀ x ∈ phase.apart, x ∈ task.phase.apart)
    (decided : phase.decided = task.phase.decided)
    (stands : ({ task with phase } : Task T ε).Stands before heap.nodes cells) :
    act.Sound cb before t heap cells members task cells members := by
  obtain rfl := release_eq hact exists' ((sit.owned a).2 ((held a).2 (.inl rfl)))
  obtain ⟨howned, hothers⟩ := owner_give sit.owned held gone
  refine .of_nodes sit rfl rfl rfl howned hothers apart stands ?_ .nil
  simp [decided]

end Acts
section Visits
variable {cb : SetCallbacks T ε σ} {before : T → T → Bool} {nodes : Nat → Option (Node T)}
  {cells : List (Cell T)} {pred curr : Nat} {task : Task T ε}

/-- What a visit leaves while both nodes are held. -/
structure Task.Visited (cb : SetCallbacks T ε σ) (before : T → T → Bool)
    (nodes : Nat → Option (Node T)) (cells : List (Cell T)) (pred curr : Nat) (task : Task T ε)
    (out : Task T ε × Option (SetOutcome T ε)) : Prop where
  errand : out.1.errand = task.errand
  held : out.1.phase.held = [pred, curr]
  apart : out.1.phase.apart = []
  stands : out.1.Stands before nodes cells
  settles : out.1.phase.decided = out.2
  explains : ∀ members, (KeySet.live before).Explains cb.Raises members
    (out.2.toList.map (task.errand.request, ·)) members

/-- The keys copied before the next node are before its key. -/
theorem Task.ascending_push [order : IsStrictWeakOrder T (before · ·)] {copied : Array T}
    {p : Place T} {k : T} (ascending : copied.toList.Pairwise (before · ·))
    (last : copied.toList.getLast? = p.key?) (below : p.below before (.at k)) :
    (copied.push k).toList.Pairwise (before · ·) := by
  rw [Array.toList_push]
  refine List.pairwise_append.2 ⟨ascending, List.pairwise_singleton _ _, fun a ha b hb => ?_⟩
  rw [List.mem_singleton.1 hb]
  refine before_of_last ascending (fun l hl => ?_) a ha
  rw [last] at hl
  cases p with
  | «at» l' =>
    cases hl
    exact below
  | head => cases hl
  | tail => cases hl

/-- A node of the chain is visited with what was passed before it. -/
theorem Task.yields_visit [order : IsStrictWeakOrder T (before · ·)] (follows : cb.Follows before)
    {head : Nat} (linked : Linked before head nodes cells)
    (h : Ahead nodes cells (task.Passed before) pred curr) {q : Place T} {next : Option Nat}
    (hcurr : nodes curr = some ⟨q, next⟩) :
    Yields (task.visit cb pred curr ⟨q, next⟩) (task.Visited cb before nodes cells pred curr) cb.Raises := by
  have hbeside := h.beside linked
  have hne := hbeside.1
  have hon := hbeside.2.1
  obtain ⟨p, hp, passed, hlink⟩ := h
  obtain ⟨hq, hbelow⟩ := linked.below_next hp hlink hcurr
  obtain ⟨errand, copied, audited, phase⟩ := task
  cases errand with
  | search kind key =>
    refine (Place.yields_isBefore follows key q).bind fun x hx => ?_
    cases x with
    | true => exact .pure ⟨rfl, rfl, rfl, ⟨hne, hon, q, hq, hx.symm⟩, rfl, fun _ => .nil⟩
    | false =>
      exact .pure ⟨rfl, rfl, rfl, ⟨rfl, q, next, ⟨p, hp, passed, hlink⟩, hcurr, hx.symm⟩, rfl,
        fun _ => .nil⟩
  | snapshot =>
    obtain ⟨-, ascending, last⟩ := passed
    cases q with
    | head =>
      rw [Place.below_head] at hbelow
      exact Bool.noConfusion hbelow
    | «at» k =>
      refine (CoupledSet.yields_copyNode follows copied k).bind fun out hout => ?_
      subst hout
      refine .pure ⟨rfl, rfl, rfl, ⟨hne, hon, .at k, hq, ?_⟩, rfl, fun _ => .nil⟩
      exact ⟨by simp, Task.ascending_push ascending last hbelow, by simp [Place.key?]⟩
    | tail =>
      refine .pure ⟨rfl, rfl, rfl, ⟨hbeside, trivial⟩, rfl, fun members =>
        .unchanged ?_ rfl⟩
      exact ⟨_, rfl, ascending⟩
  | audit atRest =>
    obtain ⟨last, seen⟩ := audited
    obtain ⟨-, hlast⟩ := passed
    cases q with
    | head =>
      rw [Place.below_head] at hbelow
      exact Bool.noConfusion hbelow
    | «at» k =>
      have hbefore : ∀ l ∈ last, before l k := by
        intro l hl
        have hl' : p.key? = some l := hlast.symm.trans hl
        cases p with
        | «at» l' =>
          cases hl'
          exact hbelow
        | head => cases hl'
        | tail => cases hl'
      refine (CoupledSet.yields_auditNode follows hbefore seen).bind fun out hout => ?_
      subst hout
      exact .pure ⟨rfl, rfl, rfl, ⟨hne, hon, .at k, hq, by simp [Passed, Place.key?]⟩, rfl,
        fun _ => .nil⟩
    | tail =>
      obtain rfl := linked.next_of_tail hq hcurr
      cases atRest with
      | true => exact .pure ⟨rfl, rfl, rfl, ⟨hbeside, rfl⟩, rfl, fun _ => .nil⟩
      | false =>
        exact .pure ⟨rfl, rfl, rfl, ⟨hbeside, trivial⟩, rfl, fun members =>
          .unchanged rfl rfl⟩

end Visits
section Conclusions
variable {cb : SetCallbacks T ε σ} {before : T → T → Bool} {t : Thread} {heap : NodeHeap Thread T}
  {cells : List (Cell T)} {members : KeySet T} {task : Task T ε} {act : Act Thread T ε σ} {o : σ}
  {pred curr : Nat}

/-- A step that changes the thread's place only, and the counter perhaps. -/
theorem Task.goTo_sound (sit : task.Situated before t heap cells members) {phase : Phase T ε}
    {count : Nat} (hact : task.goTo phase { heap with count } o = some act)
    (held : phase.held = task.phase.held) (apart : ∀ a ∈ phase.apart, a ∈ task.phase.apart)
    (decided : phase.decided = task.phase.decided)
    (stands : ({ task with phase } : Task T ε).Stands before heap.nodes cells) :
    act.Sound cb before t heap cells members task cells members := by
  rw [goTo, Option.some.injEq] at hact
  subst hact
  refine .still sit rfl rfl rfl rfl held apart stands ?_ .nil
  rw [decided]
  simp

/-- An outcome that changes nothing is settled while both nodes are held. -/
theorem Task.settle_sound (sit : task.Situated before t heap cells members)
    {outcome : SetOutcome T ε} (hact : task.settle pred curr outcome heap o = some act)
    (held : task.phase.held = [pred, curr]) (undecided : task.phase.decided = none)
    (beside : pred ≠ curr ∧ On cells pred ∧ On cells curr)
    (explains : (KeySet.live before).Explains cb.Raises members
      [(task.errand.request, outcome)] members) :
    act.Sound cb before t heap cells members task cells members := by
  rw [settle, Option.some.injEq] at hact
  subst hact
  refine .still sit rfl rfl rfl rfl held.symm ?_ ⟨beside, trivial⟩ ?_ explains
  · intro a ha
    cases ha
  · rw [undecided]
    rfl

variable [order : IsStrictWeakOrder T (before · ·)]

/-- What the set has where a search stops. -/
theorem Task.Situated.has_eq (sit : task.Situated before t heap cells members) {key : T}
    {q : Place T} {next : Option Nat}
    (h : Brackets before heap.nodes cells key pred curr q next) :
    KeySet.has before members key = q.reaches before key := by
  obtain ⟨p, hp, passed, hlink⟩ := h.ahead
  obtain ⟨front, r, back, hcells⟩ := sit.linked.next hp hlink
  have hr : q = r := sit.linked.place_eq (by simp [hcells]) h.current
  subst hr
  have linked := sit.linked
  have listed := sit.listed
  rw [hcells] at linked listed
  exact linked.has_eq passed h.stopped listed

/-- Once equivalence is tested, the search is settled or goes on to its update. -/
theorem Task.conclude_sound (sit : task.Situated before t heap cells members) {kind : SearchKind}
    {key : T} (phase : task.phase = .located pred curr kind key)
    (errand : task.errand = .search kind key) {q : Place T} {next : Option Nat}
    (h : Brackets before heap.nodes cells key pred curr q next)
    (hact : task.conclude pred curr key heap o kind (q.reaches before key) = some act) :
    act.Sound cb before t heap cells members task cells members := by
  have hheld : task.phase.held = [pred, curr] := by rw [phase]; rfl
  have hundecided : task.phase.decided = none := by rw [phase]; rfl
  have hsettle {answer : SetAnswer T}
      (hact : task.settle pred curr (.ok answer) heap o = some act)
      (right : KeySet.AcceptsLive before members task.errand.request answer)
      (same : KeySet.effect before members task.errand.request = members) :
      act.Sound cb before t heap cells members task cells members :=
    settle_sound sit hact hheld hundecided (h.ahead.beside sit.linked)
      (.unchanged right same)
  have hhas := sit.has_eq h
  rw [errand] at hsettle
  cases hreach : q.reaches before key with
  | true =>
    rw [hreach] at hact hhas
    cases kind with
    | add =>
      refine hsettle hact ?_ (KeySet.insert_of_has hhas)
      simp [Errand.request, KeySet.AcceptsLive, KeySet.Accepts, hhas]
    | remove =>
      exact goTo_sound sit hact hheld.symm (by simp [Phase.apart]) hundecided.symm
        ⟨key, q, next, errand, h, hreach⟩
    | contains => exact hsettle hact (congrArg SetAnswer.flag hhas.symm) rfl
  | false =>
    rw [hreach] at hact hhas
    cases kind with
    | add =>
      exact goTo_sound sit hact hheld.symm (by simp [Phase.apart]) hundecided.symm
        ⟨errand, q, next, h, hreach⟩
    | remove => exact hsettle hact (congrArg SetAnswer.flag hhas.symm) (KeySet.erase_of_not_has hhas)
    | contains => exact hsettle hact (congrArg SetAnswer.flag hhas.symm) rfl

/-- A new node is nobody's yet. -/
theorem Task.build_sound (sit : task.Situated before t heap cells members) {key : T} {fresh : Nat}
    (phase : task.phase = .building pred curr key) (free : heap.nodes fresh = none)
    (hact : task.goTo (.splicing pred curr fresh)
      { heap with nodes := Function.update heap.nodes fresh (some ⟨.at key, some curr⟩) } o =
      some act) :
    act.Sound cb before t heap cells members task cells members := by
  have hstands := sit.stands
  rw [Stands, phase] at hstands
  obtain ⟨errand, q, next, hb, absent⟩ := hstands
  obtain ⟨-, hpred, hcurr⟩ := hb.ahead.beside sit.linked
  have hother {a : Nat} (ha : heap.nodes a ≠ none) : a ≠ fresh := by
    rintro rfl
    exact ha free
  have hsame {a : Nat} (ha : heap.nodes a ≠ none) :
      Undisturbed heap.nodes cells
        (Function.update heap.nodes fresh (some ⟨.at key, some curr⟩)) cells a :=
    ⟨Function.update_of_ne (hother ha) _ _, fun _ => Iff.rfl⟩
  have hon {a : Nat} (ha : On cells a) := hsame (sit.linked.ne_none_of_on ha)
  rw [goTo, Option.some.injEq] at hact
  subst hact
  exact
    { situated :=
        { linked := sit.linked.frame fun a ha => (hon ha).node
          listed := sit.listed
          owned := fun a => by rw [sit.owned a, phase]; rfl
          stands := ⟨key, q, next, errand, hb.frame (hon hpred) (hon hcurr), absent,
            Function.update_self .., fun hfresh => sit.linked.ne_none_of_on hfresh free⟩ }
      errand := rfl
      others := fun _ _ _ => Iff.rfl
      undisturbed := fun a ha _ => ⟨hsame ha, by simp [Phase.apart, hother ha]⟩
      settles := by rw [phase]; rfl
      explains := .nil }

/-- The link to a new node settles an insertion. -/
theorem Task.splice_sound (sit : task.Situated before t heap cells members) {node : Nat}
    (phase : task.phase = .splicing pred curr node)
    (hact : task.relink pred (some node) (.tallying pred curr) heap o = some act) :
    ∃ cells' members', act.Sound cb before t heap cells members task cells' members' := by
  have hstands := sit.stands
  rw [Stands, phase] at hstands
  obtain ⟨key, q, next, errand, hb, absent, hnode, hoff⟩ := hstands
  have hhas := sit.has_eq hb
  have hne := (hb.ahead.beside sit.linked).1
  obtain ⟨p, hp, passed, hlink⟩ := hb.ahead
  obtain ⟨front, r, back, rfl⟩ := sit.linked.next hp hlink
  have hr : q = r := sit.linked.place_eq (by simp) hb.current
  subst hr
  rw [relink, hlink, Option.some.injEq] at hact
  subst hact
  exact ⟨_, _,
    { situated :=
        { linked := sit.linked.splice passed hb.stopped absent hoff hnode
          listed := sit.linked.perm_splice passed hb.stopped sit.listed absent node
          owned := fun a => by rw [sit.owned a, phase]; rfl
          stands := ⟨hne, ⟨p, by simp⟩, q, by simp⟩ }
      errand := rfl
      others := fun _ _ _ => Iff.rfl
      undisturbed := fun a _ ha => by
        rw [phase] at ha
        simp only [Phase.held, Phase.apart, List.mem_append, List.mem_cons, List.not_mem_nil,
          or_false, not_or] at ha
        refine ⟨⟨Function.update_of_ne ha.1.1 _ _, fun place => ?_⟩, by simp [Phase.apart]⟩
        simp [ha.2]
      settles := by rw [phase]; rfl
      explains := by
        have hright : KeySet.AcceptsLive before members (.add key) (.flag true) := by
          simp [KeySet.AcceptsLive, KeySet.Accepts, hhas, absent]
        rw [errand]
        exact .answer hright .nil }⟩

/-- The link past a node settles its removal. -/
theorem Task.cut_sound (sit : task.Situated before t heap cells members) {next : Option Nat}
    (phase : task.phase = .cutting pred curr next)
    (hact : task.relink pred next (.discounting pred curr) heap o = some act) :
    ∃ cells' members', act.Sound cb before t heap cells members task cells' members' := by
  have hstands := sit.stands
  rw [Stands, phase] at hstands
  obtain ⟨key, q, errand, hb, present⟩ := hstands
  have hhas := sit.has_eq hb
  have hne := (hb.ahead.beside sit.linked).1
  obtain ⟨p, hp, passed, hlink⟩ := hb.ahead
  obtain ⟨front, r, back, rfl⟩ := sit.linked.next hp hlink
  have hr : q = r := sit.linked.place_eq (by simp) hb.current
  subst hr
  have hgone : ¬ On (front ++ (pred, p) :: back) curr := by
    have hsplit : front ++ (pred, p) :: (curr, q) :: back =
        (front ++ [(pred, p)]) ++ (curr, q) :: back := by simp
    have hlinked := sit.linked
    rw [hsplit] at hlinked
    rintro ⟨place, hmem⟩
    rcases List.mem_append.1 hmem with hfront | hback
    · exact (apart_of_distinct hlinked.distinct).1 _ (List.mem_append_left _ hfront) rfl
    · rcases List.mem_cons.1 hback with heq | hback
      · exact hne (congrArg Prod.fst heq).symm
      · exact (apart_of_distinct hlinked.distinct).2 _ hback rfl
  rw [relink, hlink, Option.some.injEq] at hact
  subst hact
  exact ⟨_, _,
    { situated :=
        { linked := sit.linked.cut present hb.current
          listed := sit.linked.perm_cut passed hb.stopped sit.listed present
          owned := fun a => by rw [sit.owned a, phase]; rfl
          stands := by
            refine ⟨⟨p, by simp⟩, ?_, hgone⟩
            simp [Ne.symm hne, hb.current] }
      errand := rfl
      others := fun _ _ _ => Iff.rfl
      undisturbed := fun a _ ha => by
        rw [phase] at ha
        simp only [Phase.held, Phase.apart, List.mem_append, List.mem_cons, List.not_mem_nil,
          or_false, not_or] at ha
        refine ⟨⟨Function.update_of_ne ha.1 _ _, fun place => ?_⟩, by simp [Phase.apart, ha.2]⟩
        simp [ha.2]
      settles := by rw [phase]; rfl
      explains := by
        have hright : KeySet.AcceptsLive before members (.remove key) (.flag true) := by
          simp [KeySet.AcceptsLive, KeySet.Accepts, hhas, present]
        rw [errand]
        exact .answer hright .nil }⟩

omit order in
/-- Deleting a victim that nobody else knows. -/
theorem Task.delete_sound (sit : task.Situated before t heap cells members) {victim : Nat}
    (phase : task.phase = .deleting pred victim)
    (hact : task.goTo (.left pred (.settled (.ok (.flag true))))
      { heap with nodes := Function.update heap.nodes victim none } o = some act) :
    act.Sound cb before t heap cells members task cells members := by
  have hstands := sit.stands
  rw [Stands, phase] at hstands
  obtain ⟨hpred, -, hoff⟩ := hstands
  have hother {a : Nat} (ha : On cells a) : a ≠ victim := by
    rintro rfl
    exact hoff ha
  rw [goTo, Option.some.injEq] at hact
  subst hact
  exact
    { situated :=
        { linked := sit.linked.frame fun a ha => Function.update_of_ne (hother ha) _ _
          listed := sit.listed
          owned := fun a => by rw [sit.owned a, phase]; rfl
          stands := ⟨hpred, trivial⟩ }
      errand := rfl
      others := fun _ _ _ => Iff.rfl
      undisturbed := fun a _ ha => by
        rw [phase] at ha
        simp only [Phase.held, Phase.apart, List.mem_append, List.mem_cons, List.not_mem_nil,
          or_false, not_or] at ha
        exact ⟨⟨Function.update_of_ne ha.2 _ _, fun _ => Iff.rfl⟩, by simp [Phase.apart]⟩
      settles := by rw [phase]; rfl
      explains := .nil }

end Conclusions

section Phases
variable {cb : SetCallbacks T ε σ} {before : T → T → Bool} [order : IsStrictWeakOrder T (before · ·)]
  [DecidableEq Thread] {t : Thread} {heap : NodeHeap Thread T} {cells : List (Cell T)}
  {members : KeySet T} {task : Task T ε} {act : Act Thread T ε σ} {o : σ} {pred curr fresh : Nat}
  (sit : task.Situated before t heap cells members)
  (hact : task.act cb t fresh heap o = some act)

namespace Task
include sit hact

omit order in
theorem entering_sound (phase : task.phase = .entering) :
    act.Sound cb before t heap cells members task cells members := by
  have hstands := sit.stands
  simp only [Stands, Task.act, phase] at hstands hact
  refine acquire_sound sit hact ⟨_, sit.linked.head⟩ ?_ rfl ?_ ⟨_, sit.linked.head, hstands⟩
  · simp [phase, Phase.held]
  · rw [phase]
    rfl

omit order in
theorem resting_sound (phase : task.phase = .resting pred) :
    act.Sound cb before t heap cells members task cells members := by
  have hstands := sit.stands
  simp only [Stands, Task.act, phase] at hstands hact
  obtain ⟨p, hp, passed⟩ := hstands
  obtain ⟨curr, hlink⟩ := sit.linked.exists_next hp passed.ne_tail
  simp only [hlink] at hact
  refine goTo_sound sit hact ?_ ?_ ?_ ⟨p, hp, passed, hlink⟩
  all_goals simp [phase, Phase.held, Phase.apart, Phase.decided]

theorem waiting_sound (phase : task.phase = .waiting pred curr) :
    act.Sound cb before t heap cells members task cells members := by
  have hstands := sit.stands
  simp only [Stands, Task.act, phase] at hstands hact
  refine acquire_sound sit hact (hstands.beside sit.linked).2.2 ?_ rfl ?_ hstands
  · intro x
    simp [phase, Phase.held, or_comm]
  · rw [phase]
    rfl

theorem visiting_sound (follows : cb.Follows before) (phase : task.phase = .visiting pred curr) :
    act.Sound cb before t heap cells members task cells members := by
  have hstands := sit.stands
  simp only [Stands, Task.act, phase] at hstands hact
  have hbeside := hstands.beside sit.linked
  obtain ⟨q, hq⟩ := hbeside.2.2
  obtain ⟨next, hnode⟩ := sit.linked.node hq
  simp only [hnode] at hact
  have hyields := yields_visit follows sit.linked hstands hnode o
  cases hvisit : task.visit cb pred curr ⟨q, next⟩ o with
  | ok out o' =>
    rw [hvisit] at hyields
    simp only [hvisit, Option.some.injEq] at hact
    subst hact
    refine .still sit rfl rfl rfl hyields.errand ?_ ?_ hyields.stands ?_ (hyields.explains members)
    · rw [hyields.held, phase]
      rfl
    · simp [hyields.apart]
    · rw [hyields.settles, phase]
      rfl
  | error e o' =>
    rw [hvisit] at hyields
    simp only [hvisit] at hact
    refine settle_sound sit hact ?_ ?_ hbeside (.failure hyields .nil)
    all_goals simp [phase, Phase.held, Phase.decided]

omit order in
theorem passing_sound (phase : task.phase = .passing pred curr) :
    act.Sound cb before t heap cells members task cells members := by
  have hstands := sit.stands
  simp only [Stands, Task.act, phase] at hstands hact
  obtain ⟨hne, hpred, hcurr⟩ := hstands
  refine release_sound sit hact (sit.linked.ne_none_of_on hpred) ?_ ?_ ?_ ?_ hcurr
  · intro x
    simp [phase, Phase.held]
  · simpa [Phase.held] using hne
  · simp [Phase.apart]
  · rw [phase]
    rfl

theorem located_sound (follows : cb.Follows before) {kind : SearchKind} {key : T}
    (phase : task.phase = .located pred curr kind key) :
    act.Sound cb before t heap cells members task cells members := by
  have hstands := sit.stands
  simp only [Stands, Task.act, phase] at hstands hact
  obtain ⟨errand, q, next, hb⟩ := hstands
  simp only [hb.current] at hact
  have hyields := Place.yields_isSame follows key q o
  cases hsame : q.isSame cb key o with
  | ok same o' =>
    rw [hsame] at hyields
    simp only [hsame] at hact
    rw [hyields] at hact
    exact conclude_sound sit phase errand hb hact
  | error e o' =>
    rw [hsame] at hyields
    simp only [hsame] at hact
    refine settle_sound sit hact ?_ ?_ (hb.ahead.beside sit.linked) (.failure hyields .nil)
    all_goals simp [phase, Phase.held, Phase.decided]

theorem building_sound {key : T} (phase : task.phase = .building pred curr key) :
    act.Sound cb before t heap cells members task cells members := by
  simp only [Task.act, phase] at hact
  cases free : heap.nodes fresh with
  | some node => simp [free] at hact
  | none =>
    simp only [free] at hact
    exact build_sound sit phase free hact

omit order in
theorem tallying_sound (phase : task.phase = .tallying pred curr) :
    act.Sound cb before t heap cells members task cells members := by
  have hstands := sit.stands
  simp only [Stands, Task.act, phase] at hstands hact
  refine goTo_sound sit hact ?_ ?_ ?_ ⟨hstands, trivial⟩
  all_goals simp [phase, Phase.held, Phase.apart, Phase.decided, Ending.outcome]

omit order in
theorem doomed_sound (phase : task.phase = .doomed pred curr) :
    act.Sound cb before t heap cells members task cells members := by
  have hstands := sit.stands
  simp only [Stands, Task.act, phase] at hstands hact
  obtain ⟨key, q, next, errand, hb, present⟩ := hstands
  simp only [hb.current] at hact
  refine goTo_sound sit hact ?_ ?_ ?_ ⟨key, q, errand, hb, present⟩
  all_goals simp [phase, Phase.held, Phase.apart, Phase.decided]

omit order in
theorem discounting_sound (phase : task.phase = .discounting pred curr) :
    act.Sound cb before t heap cells members task cells members := by
  have hstands := sit.stands
  simp only [Stands, Task.act, phase] at hstands hact
  refine goTo_sound sit hact ?_ ?_ ?_ hstands
  all_goals simp [phase, Phase.held, Phase.apart, Phase.decided]

omit order in
theorem dropping_sound (phase : task.phase = .dropping pred curr) :
    act.Sound cb before t heap cells members task cells members := by
  have hstands := sit.stands
  simp only [Stands, Task.act, phase] at hstands hact
  have hne : curr ≠ pred := by
    rintro rfl
    exact hstands.2.2 hstands.1
  refine release_sound sit hact hstands.2.1 ?_ ?_ ?_ ?_ hstands
  · intro x
    simp [phase, Phase.held, or_comm]
  · simpa [Phase.held] using hne
  · simp [phase, Phase.apart]
  · rw [phase]
    rfl

omit order in
theorem deleting_sound (phase : task.phase = .deleting pred curr)
    (alone : ∀ a ∈ task.phase.apart, ∀ t' ≠ t, heap.owner a ≠ some t') :
    act.Sound cb before t heap cells members task cells members := by
  have hstands := sit.stands
  simp only [Stands, Task.act, phase] at hstands hact
  obtain ⟨hpred, hexists, hoff⟩ := hstands
  have hfree : heap.owner curr = none := by
    refine owner_free sit.owned (fun hheld => ?_) (alone curr (by simp [phase, Phase.apart]))
    rw [phase] at hheld
    rw [List.mem_singleton.1 hheld] at hoff
    exact hoff hpred
  cases hnode : heap.nodes curr with
  | none => exact absurd hnode hexists
  | some node =>
    simp only [hnode, hfree] at hact
    exact delete_sound sit phase hact

omit order in
theorem leaving_sound {ending : Ending T ε} (phase : task.phase = .leaving pred curr ending) :
    act.Sound cb before t heap cells members task cells members := by
  have hstands := sit.stands
  simp only [Stands, Task.act, phase] at hstands hact
  obtain ⟨⟨hne, hpred, hcurr⟩, suits⟩ := hstands
  refine release_sound sit hact (sit.linked.ne_none_of_on hcurr) ?_ ?_ ?_ ?_ ⟨hpred, suits⟩
  · intro x
    simp [phase, Phase.held, or_comm]
  · simpa [Phase.held] using Ne.symm hne
  · simp [Phase.apart]
  · rw [phase]
    rfl

omit order in
theorem left_sound {ending : Ending T ε} (phase : task.phase = .left pred ending) :
    act.Sound cb before t heap cells members task cells members := by
  have hstands := sit.stands
  simp only [Stands, phase] at hstands
  obtain ⟨hpred, suits⟩ := hstands
  have hrelease {phase' : Phase T ε} (hact : task.release t pred phase' heap o = some act)
      (held : phase'.held = []) (apart : phase'.apart = [])
      (decided : phase'.decided = ending.outcome)
      (stands : ({ task with phase := phase' } : Task T ε).Stands before heap.nodes cells) :
      act.Sound cb before t heap cells members task cells members := by
    refine release_sound sit hact (sit.linked.ne_none_of_on hpred) ?_ ?_ ?_ ?_ stands
    · intro x
      rw [held, phase]
      simp [Phase.held]
    · simp [held]
    · simp [apart]
    · rw [phase, decided]
      rfl
  cases ending with
  | settled outcome =>
    simp only [Task.act, phase] at hact
    exact hrelease hact rfl rfl rfl trivial
  | counting seen =>
    simp only [Task.act, phase] at hact
    exact hrelease hact rfl rfl rfl suits

omit order in
/-- An audit at rest may answer either way while others are at work. -/
theorem comparing_sound {seen : Nat} (phase : task.phase = .comparing seen) :
    act.Sound cb before t heap cells members task cells members := by
  have hstands := sit.stands
  simp only [Stands, Task.act, phase, Option.some.injEq] at hstands hact
  subst hact
  refine .still sit rfl rfl rfl rfl ?_ ?_ trivial ?_ ?_
  · rw [phase]
    rfl
  · simp [Phase.apart]
  · rw [phase]
    rfl
  · rw [hstands]
    exact .unchanged trivial rfl

/-- Every step that a thread takes is sound, when nobody else holds what it has apart. -/
theorem act_sound (follows : cb.Follows before)
    (alone : ∀ a ∈ task.phase.apart, ∀ t' ≠ t, heap.owner a ≠ some t') :
    ∃ cells' members', act.Sound cb before t heap cells members task cells' members' := by
  cases phase : task.phase with
  | entering => exact ⟨_, _, entering_sound sit hact phase⟩
  | resting pred => exact ⟨_, _, resting_sound sit hact phase⟩
  | waiting pred curr => exact ⟨_, _, waiting_sound sit hact phase⟩
  | visiting pred curr => exact ⟨_, _, visiting_sound sit hact follows phase⟩
  | passing pred curr => exact ⟨_, _, passing_sound sit hact phase⟩
  | located pred curr kind key => exact ⟨_, _, located_sound sit hact follows phase⟩
  | building pred curr key => exact ⟨_, _, building_sound sit hact phase⟩
  | splicing pred curr node =>
    simp only [Task.act, phase] at hact
    exact splice_sound sit phase hact
  | tallying pred curr => exact ⟨_, _, tallying_sound sit hact phase⟩
  | doomed pred curr => exact ⟨_, _, doomed_sound sit hact phase⟩
  | cutting pred curr next =>
    simp only [Task.act, phase] at hact
    exact cut_sound sit phase hact
  | discounting pred victim => exact ⟨_, _, discounting_sound sit hact phase⟩
  | dropping pred victim => exact ⟨_, _, dropping_sound sit hact phase⟩
  | deleting pred victim => exact ⟨_, _, deleting_sound sit hact phase alone⟩
  | leaving pred curr ending => exact ⟨_, _, leaving_sound sit hact phase⟩
  | left pred ending => exact ⟨_, _, left_sound sit hact phase⟩
  | comparing seen => exact ⟨_, _, comparing_sound sit hact phase⟩
  | returning outcome => simp [Task.act, phase] at hact
  | crashed => simp [Task.act, phase] at hact

end Task
end Phases
section Settling
variable [DecidableEq Thread] {cb : SetCallbacks T ε σ} {t : Thread} {heap : NodeHeap Thread T}
  {task : Task T ε} {act : Act Thread T ε σ} {o : σ} {a : Nat} {phase : Phase T ε}

namespace Task

omit [DecidableEq Thread] in
theorem goTo_decided (h : task.goTo phase heap o = some act) : act.decided = none := by
  cases h
  rfl

theorem acquire_decided (h : task.acquire t a phase heap o = some act) : act.decided = none := by
  rw [acquire] at h
  split at h
  · exact goTo_decided h
  · cases h
  · exact goTo_decided h

theorem release_decided (h : task.release t a phase heap o = some act) : act.decided = none := by
  rw [release] at h
  split at h
  · exact goTo_decided h
  · exact goTo_decided h

/-- An operation is settled in few phases only. -/
theorem settling_of_decided {fresh : Nat} (hact : task.act cb t fresh heap o = some act)
    (hdecided : act.decided ≠ none) : task.phase.settling := by
  rw [Task.act] at hact
  cases hphase : task.phase with
  | visiting pred curr | located pred curr kind key | splicing pred curr node
  | cutting pred curr next | comparing seen => rfl
  | entering | waiting pred curr =>
    simp only [hphase] at hact
    exact absurd (acquire_decided hact) hdecided
  | passing pred curr | dropping pred victim | leaving pred curr ending =>
    simp only [hphase] at hact
    exact absurd (release_decided hact) hdecided
  | left pred ending =>
    cases ending <;> simp only [hphase] at hact <;> exact absurd (release_decided hact) hdecided
  | tallying pred curr | discounting pred victim =>
    simp only [hphase] at hact
    exact absurd (goTo_decided hact) hdecided
  | resting pred | building pred curr key | doomed pred curr | deleting pred victim =>
    simp only [hphase] at hact
    split at hact
    all_goals first
      | exact absurd (goTo_decided hact) hdecided
      | cases hact
  | returning outcome | crashed => simp [hphase] at hact

end Task
end Settling
end LockedContainers
