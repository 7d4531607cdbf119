import LockedContainers.Proofs.Set.Footing

/-!
# The steps of an operation, whatever the callbacks answer

Every step leaves the linked nodes on one chain and the thread with its feet on
it. A thread that is not waiting for a lock in another's hands can take a step.
-/
namespace LockedContainers

variable {Thread T ε σ : Type}

/-- A thread inside an operation, with its own locks and with its feet on the chain. -/
structure Task.Footed (t : Thread) (heap : NodeHeap Thread T) (cells : List (Cell T))
    (task : Task T ε) : Prop where
  strung : Strung heap.head heap.nodes cells
  owned : ∀ a, heap.owner a = some t ↔ a ∈ task.phase.held
  grounded : task.phase.Grounded heap.nodes cells

/-- What a step leaves, and what it leaves alone. -/
structure Act.Firm (t : Thread) (heap : NodeHeap Thread T) (cells : List (Cell T))
    (task : Task T ε) (act : Act Thread T ε σ) (cells' : List (Cell T)) : Prop where
  footed : act.task.Footed t act.heap cells'
  /-- The locks of other threads stay theirs. -/
  others : ∀ a, ∀ t' ≠ t, (act.heap.owner a = some t' ↔ heap.owner a = some t')
  undisturbed : ∀ a, heap.nodes a ≠ none → a ∉ task.phase.held ++ task.phase.apart →
    Undisturbed heap.nodes cells act.heap.nodes cells' a ∧ a ∉ act.task.phase.apart
  bounded : Bounded heap.nodes → Bounded act.heap.nodes

section Strides
variable {cb : SetCallbacks T ε σ} {t : Thread} {heap : NodeHeap Thread T}
  {cells : List (Cell T)} {task : Task T ε} {act : Act Thread T ε σ} {o : σ} {phase : Phase T ε}
  {pred curr : Nat} (fit : task.Footed t heap cells)
include fit

/-- A step that leaves the nodes alone disturbs nobody. -/
theorem Act.Firm.of_nodes (nodes : act.heap.nodes = heap.nodes) (head : act.heap.head = heap.head)
    (owned : ∀ a, act.heap.owner a = some t ↔ a ∈ act.task.phase.held)
    (others : ∀ a, ∀ t' ≠ t, (act.heap.owner a = some t' ↔ heap.owner a = some t'))
    (apart : ∀ a ∈ act.task.phase.apart, a ∈ task.phase.apart)
    (grounded : act.task.phase.Grounded heap.nodes cells) : act.Firm t heap cells task cells where
  footed := ⟨by rw [nodes, head]; exact fit.strung, owned, by rw [nodes]; exact grounded⟩
  others := others
  undisturbed a _ ha :=
    ⟨⟨congrFun nodes a, fun _ => Iff.rfl⟩, fun h => ha (List.mem_append_right _ (apart a h))⟩
  bounded h := nodes ▸ h

/-- A step that changes the thread's place only, and the counter perhaps. -/
theorem Task.goTo_firm {count : Nat} (hact : task.goTo phase { heap with count } o = some act)
    (held : phase.held = task.phase.held) (apart : ∀ a ∈ phase.apart, a ∈ task.phase.apart)
    (grounded : phase.Grounded heap.nodes cells) : act.Firm t heap cells task cells := by
  rw [goTo, Option.some.injEq] at hact
  subst hact
  exact .of_nodes fit rfl rfl (fun a => by rw [held]; exact fit.owned a) (fun _ _ _ => Iff.rfl)
    apart grounded

/-- An outcome is fixed while both nodes are held. -/
theorem Task.settle_firm {outcome : SetOutcome T ε}
    (hact : task.settle pred curr outcome heap o = some act) (held : task.phase.held = [pred, curr])
    (footing : task.phase.footing = [pred, curr]) : act.Firm t heap cells task cells := by
  rw [settle, Option.some.injEq] at hact
  subst hact
  exact .of_nodes fit rfl rfl (fun a => by rw [fit.owned a, held]; rfl) (fun _ _ _ => Iff.rfl)
    (by simp [Phase.apart]) (.of_two rfl rfl (fit.grounded.two footing) trivial)

variable [DecidableEq Thread] {a : Nat}

theorem Task.acquire_firm (hact : task.acquire t a phase heap o = some act) (on : On cells a)
    (held : ∀ x, x ∈ phase.held ↔ x = a ∨ x ∈ task.phase.held) (apart : phase.apart = [])
    (grounded : phase.Grounded heap.nodes cells) : act.Firm t heap cells task cells := by
  obtain ⟨hfree, rfl⟩ := acquire_eq hact (fit.strung.ne_none on)
  obtain ⟨howned, hothers⟩ := owner_take fit.owned hfree held
  exact .of_nodes fit rfl rfl howned hothers (by simp [apart]) grounded

theorem Task.release_firm (hact : task.release t a phase heap o = some act)
    (held : ∀ x, x ∈ task.phase.held ↔ x = a ∨ x ∈ phase.held) (gone : a ∉ phase.held)
    (apart : ∀ x ∈ phase.apart, x ∈ task.phase.apart)
    (grounded : phase.Grounded heap.nodes cells) : act.Firm t heap cells task cells := by
  have hmine : a ∈ task.phase.held := (held a).2 (.inl rfl)
  have hnode := fit.grounded.exist fit.strung a (List.mem_append_left _ hmine)
  obtain rfl := release_eq hact hnode ((fit.owned a).2 hmine)
  obtain ⟨howned, hothers⟩ := owner_give fit.owned held gone
  exact .of_nodes fit rfl rfl howned hothers apart grounded

end Strides

section Edits
variable {t : Thread} {heap : NodeHeap Thread T} {cells : List (Cell T)} {task : Task T ε}
  {act : Act Thread T ε σ} {o : σ} {pred curr : Nat} (fit : task.Footed t heap cells)
include fit

/-- A new node is nobody's yet. -/
theorem Task.build_firm {key : T} {fresh : Nat} (phase : task.phase = .building pred curr key)
    (free : heap.nodes fresh = none)
    (hact : task.goTo (.splicing pred curr fresh)
      { heap with nodes := Function.update heap.nodes fresh (some ⟨.at key, some curr⟩) } o =
      some act) : act.Firm t heap cells task cells := by
  obtain ⟨strung, owned, grounded⟩ := fit
  rw [phase] at grounded owned
  have hother {a : Nat} (ha : heap.nodes a ≠ none) : a ≠ fresh := by
    rintro rfl
    exact ha free
  have hsame {a : Nat} (ha : heap.nodes a ≠ none) :
      Function.update heap.nodes fresh (some ⟨.at key, some curr⟩) a = heap.nodes a :=
    Function.update_of_ne (hother ha) _ _
  obtain ⟨p, hlink⟩ := grounded.knows
  rw [goTo, Option.some.injEq] at hact
  subst hact
  exact
    { footed :=
        { strung := strung.frame fun a ha => hsame (strung.ne_none ha)
          owned := owned
          grounded :=
            { distinct := grounded.distinct
              rests := grounded.rests
              apart := fun a ha => by
                rw [List.mem_singleton.1 ha]
                refine ⟨?_, fun hon => strung.ne_none hon free⟩
                simp
              knows := by
                refine ⟨⟨p, (hsame ?_).trans hlink⟩, key, Function.update_self ..⟩
                simp [hlink] } }
      others := fun _ _ _ => Iff.rfl
      undisturbed := fun a ha _ =>
        ⟨⟨hsame ha, fun _ => Iff.rfl⟩, by simp [Phase.apart, hother ha]⟩
      bounded := fun h => h.update _ _ }

/-- The link to a new node. -/
theorem Task.splice_firm {node : Nat} (phase : task.phase = .splicing pred curr node)
    (hact : task.relink pred (some node) (.tallying pred curr) heap o = some act) :
    ∃ cells', act.Firm t heap cells task cells' := by
  obtain ⟨strung, owned, grounded⟩ := fit
  rw [phase] at grounded owned
  obtain ⟨hne, hpred, hcurr⟩ : pred ≠ curr ∧ On cells pred ∧ On cells curr := grounded.two rfl
  obtain ⟨⟨p, hlink⟩, key, hnode⟩ := grounded.knows
  have hoff : ¬ On cells node := (grounded.apart node List.mem_cons_self).2
  have hother {a : Nat} (ha : On cells a) : a ≠ node := by
    rintro rfl
    exact hoff ha
  obtain ⟨cells', hstrung, hsame⟩ := strung.splice hpred hlink hoff hnode
  rw [relink, hlink, Option.some.injEq] at hact
  subst hact
  exact ⟨cells',
    { footed :=
        { strung := hstrung
          owned := owned
          grounded := .of_two rfl rfl ⟨hne, (exists_congr (hsame pred (hother hpred))).2 hpred,
            (exists_congr (hsame curr (hother hcurr))).2 hcurr⟩ trivial }
      others := fun _ _ _ => Iff.rfl
      undisturbed := fun a _ ha => by
        rw [phase] at ha
        simp only [Phase.held, Phase.apart, List.mem_append, List.mem_cons, List.not_mem_nil,
          or_false, not_or] at ha
        exact ⟨⟨Function.update_of_ne ha.1.1 _ _, hsame a ha.2⟩, by simp [Phase.apart]⟩
      bounded := fun h => h.update _ _ }⟩

/-- The link past a node. -/
theorem Task.cut_firm {next : Option Nat} (phase : task.phase = .cutting pred curr next)
    (hact : task.relink pred next (.discounting pred curr) heap o = some act) :
    ∃ cells', act.Firm t heap cells task cells' := by
  obtain ⟨strung, owned, grounded⟩ := fit
  rw [phase] at grounded owned
  obtain ⟨hne, hpred, -⟩ : pred ≠ curr ∧ On cells pred ∧ On cells curr := grounded.two rfl
  obtain ⟨⟨p, hlink⟩, key, hvictim⟩ := grounded.knows
  obtain ⟨cells', hstrung, hoff, hsame⟩ := strung.cut hpred hlink hvictim
  rw [relink, hlink, Option.some.injEq] at hact
  subst hact
  exact ⟨cells',
    { footed :=
        { strung := hstrung
          owned := owned
          grounded :=
            { distinct := grounded.distinct
              rests := fun a ha => by
                rw [List.mem_singleton.1 ha]
                exact (exists_congr (hsame pred hne)).2 hpred
              apart := fun a ha => by
                rw [List.mem_singleton.1 ha]
                refine ⟨?_, hoff⟩
                simp [Ne.symm hne, hvictim]
              knows := trivial } }
      others := fun _ _ _ => Iff.rfl
      undisturbed := fun a _ ha => by
        rw [phase] at ha
        simp only [Phase.held, Phase.apart, List.mem_append, List.mem_cons, List.not_mem_nil,
          or_false, not_or] at ha
        exact ⟨⟨Function.update_of_ne ha.1 _ _, hsame a ha.2⟩, by simp [Phase.apart, ha.2]⟩
      bounded := fun h => h.update _ _ }⟩

/-- A victim that is linked no more is deleted. -/
theorem Task.delete_firm {victim : Nat} (phase : task.phase = .deleting pred victim)
    (hact : task.goTo (.left pred (.settled (.ok (.flag true))))
      { heap with nodes := Function.update heap.nodes victim none } o = some act) :
    act.Firm t heap cells task cells := by
  obtain ⟨strung, owned, grounded⟩ := fit
  rw [phase] at grounded owned
  have hoff : ¬ On cells victim := (grounded.apart victim List.mem_cons_self).2
  have hother {a : Nat} (ha : On cells a) : a ≠ victim := by
    rintro rfl
    exact hoff ha
  rw [goTo, Option.some.injEq] at hact
  subst hact
  exact
    { footed :=
        { strung := strung.frame fun a ha => Function.update_of_ne (hother ha) _ _
          owned := owned
          grounded := .of_one rfl rfl (grounded.one rfl) trivial }
      others := fun _ _ _ => Iff.rfl
      undisturbed := fun a _ ha => by
        rw [phase] at ha
        simp only [Phase.held, Phase.apart, List.mem_append, List.mem_cons, List.not_mem_nil,
          or_false, not_or] at ha
        exact ⟨⟨Function.update_of_ne ha.2 _ _, fun _ => Iff.rfl⟩, by simp [Phase.apart]⟩
      bounded := fun h => h.update _ _ }

end Edits
section Phases
variable {cb : SetCallbacks T ε σ} {t : Thread} {heap : NodeHeap Thread T} {cells : List (Cell T)}
  {task : Task T ε} {act : Act Thread T ε σ} {o : σ} {pred curr fresh : Nat}

namespace Task

/-- A visit goes on from a node that is not the tail, stops there, or is settled. -/
theorem yields_visit_any (cb : SetCallbacks T ε σ) (pred curr : Nat) (task : Task T ε)
    (node : Node T) :
    Yields (task.visit cb pred curr node)
      (fun out => out.1.phase = .passing pred curr ∧ node.place ≠ .tail ∨
        (∃ kind key, out.1.phase = .located pred curr kind key) ∨
        ∃ ending, out.1.phase = .leaving pred curr ending) fun _ => True := by
  obtain ⟨errand, copied, audited, phase⟩ := task
  obtain ⟨place, next⟩ := node
  cases errand with
  | search kind key =>
    have hbefore : Yields (place.isBefore cb key) (fun b => b = true → place ≠ .tail)
        fun _ => True := by
      cases place with
      | tail => exact .pure (by simp)
      | _ => exact (Yields.any _).mono (fun _ _ _ => by simp) fun _ _ => trivial
    refine hbefore.bind fun b hb => ?_
    cases b with
    | true => exact .pure (.inl ⟨rfl, hb rfl⟩)
    | false => exact .pure (.inr (.inl ⟨kind, key, rfl⟩))
  | snapshot =>
    cases place with
    | «at» k => exact (Yields.any _).bind fun _ _ => .pure (.inl ⟨rfl, by simp⟩)
    | _ => exact .pure (.inr (.inr ⟨_, rfl⟩))
  | audit atRest =>
    cases place with
    | «at» k =>
      refine (Yields.any _).bind fun out _ => ?_
      obtain ⟨audited, b⟩ := out
      cases b with
      | true => exact .pure (.inl ⟨rfl, by simp⟩)
      | false => exact .pure (.inr (.inr ⟨_, rfl⟩))
    | head => cases atRest <;> exact .pure (.inr (.inr ⟨_, rfl⟩))
    | tail => cases atRest <;> cases next <;> exact .pure (.inr (.inr ⟨_, rfl⟩))

variable [DecidableEq Thread] (fit : task.Footed t heap cells)
  (hact : task.act cb t fresh heap o = some act)
include fit hact

theorem resting_firm (phase : task.phase = .resting pred) : act.Firm t heap cells task cells := by
  have hgrounded := fit.grounded
  rw [phase] at hgrounded
  have hpred : On cells pred := hgrounded.one rfl
  obtain ⟨p, next, hnode, hp⟩ := hgrounded.knows
  obtain ⟨curr, rfl⟩ := fit.strung.leads hpred hnode hp
  simp only [Task.act, phase, hnode] at hact
  exact goTo_firm fit hact (by rw [phase]; rfl) (by simp [Phase.apart])
    (.of_one rfl rfl hpred ⟨p, hnode⟩)

theorem visiting_firm (phase : task.phase = .visiting pred curr) :
    act.Firm t heap cells task cells := by
  have hgrounded := fit.grounded
  have howned := fit.owned
  rw [phase] at hgrounded howned
  have hbeside : pred ≠ curr ∧ On cells pred ∧ On cells curr := hgrounded.two rfl
  have hleads : Leads heap.nodes pred curr := hgrounded.knows
  obtain ⟨q, next, -, hnode⟩ := fit.strung.exists_node hbeside.2.2
  simp only [Task.act, phase, hnode] at hact
  have hvisit := yields_visit_any cb pred curr task ⟨q, next⟩ o
  cases hrun : task.visit cb pred curr ⟨q, next⟩ o with
  | error e o' =>
    simp only [hrun] at hact
    exact settle_firm fit hact (by rw [phase]; rfl) (by rw [phase]; rfl)
  | ok out o' =>
    rw [hrun] at hvisit
    simp only [hrun, Option.some.injEq] at hact
    subst hact
    have hphase : out.1.phase.held = [pred, curr] ∧ out.1.phase.apart = [] ∧
        out.1.phase.Knows heap.nodes := by
      obtain ⟨hout, hq⟩ | ⟨kind, key, hout⟩ | ⟨ending, hout⟩ := hvisit
      · exact hout ▸ ⟨rfl, rfl, q, next, hnode, hq⟩
      · exact hout ▸ ⟨rfl, rfl, hleads⟩
      · exact hout ▸ ⟨rfl, rfl, trivial⟩
    obtain ⟨hheld, hapart, hknows⟩ := hphase
    exact .of_nodes fit rfl rfl (fun a => by rw [hheld]; exact howned a) (fun _ _ _ => Iff.rfl)
      (by simp [hapart]) (.of_two hheld hapart hbeside hknows)

theorem located_firm {kind : SearchKind} {key : T}
    (phase : task.phase = .located pred curr kind key) : act.Firm t heap cells task cells := by
  have hgrounded := fit.grounded
  rw [phase] at hgrounded
  have hbeside : pred ≠ curr ∧ On cells pred ∧ On cells curr := hgrounded.two rfl
  have hleads : Leads heap.nodes pred curr := hgrounded.knows
  have hheld : task.phase.held = [pred, curr] := by rw [phase]; rfl
  have hfooting : task.phase.footing = [pred, curr] := by rw [phase]; rfl
  obtain ⟨q, next, -, hnode⟩ := fit.strung.exists_node hbeside.2.2
  simp only [Task.act, phase, hnode] at hact
  cases hsame : q.isSame cb key o with
  | error e o' =>
    simp only [hsame] at hact
    exact settle_firm fit hact hheld hfooting
  | ok same o' =>
    simp only [hsame] at hact
    have hon {phase' : Phase T ε} (hact : task.goTo phase' heap o' = some act)
        (held : phase'.held = [pred, curr]) (apart : phase'.apart = [])
        (knows : phase'.Knows heap.nodes) : act.Firm t heap cells task cells :=
      goTo_firm fit hact (held.trans hheld.symm) (by simp [apart])
        (.of_two held apart hbeside knows)
    cases kind with
    | contains => exact settle_firm fit hact hheld hfooting
    | add =>
      cases same with
      | true => exact settle_firm fit hact hheld hfooting
      | false => exact hon hact rfl rfl hleads
    | remove =>
      cases same with
      | false => exact settle_firm fit hact hheld hfooting
      | true =>
        cases q with
        | «at» k => exact hon hact rfl rfl ⟨hleads, k, next, hnode⟩
        | _ => cases hsame

theorem doomed_firm (phase : task.phase = .doomed pred curr) :
    act.Firm t heap cells task cells := by
  have hgrounded := fit.grounded
  rw [phase] at hgrounded
  obtain ⟨hleads, key, next, hnode⟩ := hgrounded.knows
  simp only [Task.act, phase, hnode] at hact
  exact goTo_firm fit hact (by rw [phase]; rfl) (by simp [Phase.apart])
    (.of_two rfl rfl (hgrounded.two rfl) ⟨hleads, key, hnode⟩)

/-- Nobody holds a victim that is to be deleted. -/
theorem deleting_firm (phase : task.phase = .deleting pred curr)
    (alone : ∀ a ∈ task.phase.apart, ∀ t' ≠ t, heap.owner a ≠ some t') :
    act.Firm t heap cells task cells := by
  have hgrounded := fit.grounded
  rw [phase] at hgrounded
  obtain ⟨hexists, hoff⟩ := hgrounded.apart curr List.mem_cons_self
  have hfree : heap.owner curr = none := by
    refine owner_free fit.owned (fun hheld => ?_) (alone curr (by simp [phase, Phase.apart]))
    rw [phase] at hheld
    rw [List.mem_singleton.1 hheld] at hoff
    exact hoff (hgrounded.one rfl)
  cases hnode : heap.nodes curr with
  | none => exact absurd hnode hexists
  | some node =>
    simp only [Task.act, phase, hnode, hfree] at hact
    exact delete_firm fit phase hact

/-- Every step that a thread takes is firm, when nobody else holds what it has apart. -/
theorem act_firm (alone : ∀ a ∈ task.phase.apart, ∀ t' ≠ t, heap.owner a ≠ some t') :
    ∃ cells', act.Firm t heap cells task cells' := by
  have hgrounded := fit.grounded
  cases phase : task.phase with
  | entering =>
    rw [phase] at hgrounded
    have hhead : On cells heap.head := ⟨_, fit.strung.linked.head⟩
    obtain ⟨next, hnode⟩ := fit.strung.linked.node fit.strung.linked.head
    simp only [Task.act, phase] at hact
    exact ⟨cells, acquire_firm fit hact hhead (by simp [phase, Phase.held]) rfl
      (.of_one rfl rfl hhead ⟨.head, next, hnode, by simp⟩)⟩
  | resting pred => exact ⟨cells, resting_firm fit hact phase⟩
  | waiting pred curr =>
    rw [phase] at hgrounded
    have hbeside := fit.strung.beside (hgrounded.one rfl) hgrounded.knows
    simp only [Task.act, phase] at hact
    exact ⟨cells, acquire_firm fit hact hbeside.2.2 (by simp [phase, Phase.held, or_comm]) rfl
      (.of_two rfl rfl hbeside hgrounded.knows)⟩
  | visiting pred curr => exact ⟨cells, visiting_firm fit hact phase⟩
  | passing pred curr =>
    rw [phase] at hgrounded
    obtain ⟨hne, -, hcurr⟩ : pred ≠ curr ∧ On cells pred ∧ On cells curr := hgrounded.two rfl
    simp only [Task.act, phase] at hact
    exact ⟨cells, release_firm fit hact (by simp [phase, Phase.held])
      (by simpa [Phase.held] using hne) (by simp [Phase.apart])
      (.of_one rfl rfl hcurr hgrounded.knows)⟩
  | located pred curr kind key => exact ⟨cells, located_firm fit hact phase⟩
  | building pred curr key =>
    simp only [Task.act, phase] at hact
    cases free : heap.nodes fresh with
    | some node => simp [free] at hact
    | none =>
      simp only [free] at hact
      exact ⟨cells, build_firm fit phase free hact⟩
  | splicing pred curr node =>
    simp only [Task.act, phase] at hact
    exact splice_firm fit phase hact
  | tallying pred curr =>
    rw [phase] at hgrounded
    simp only [Task.act, phase] at hact
    exact ⟨cells, goTo_firm fit hact (by rw [phase]; rfl) (by simp [Phase.apart])
      (.of_two rfl rfl (hgrounded.two rfl) trivial)⟩
  | doomed pred curr => exact ⟨cells, doomed_firm fit hact phase⟩
  | cutting pred curr next =>
    simp only [Task.act, phase] at hact
    exact cut_firm fit phase hact
  | discounting pred victim =>
    rw [phase] at hgrounded
    simp only [Task.act, phase] at hact
    exact ⟨cells, goTo_firm fit hact (by rw [phase]; rfl) (by simp [phase, Phase.apart])
      ⟨hgrounded.distinct, hgrounded.rests, hgrounded.apart, trivial⟩⟩
  | dropping pred victim =>
    rw [phase] at hgrounded
    have hne : pred ≠ victim := by simpa [Phase.held] using hgrounded.distinct
    simp only [Task.act, phase] at hact
    exact ⟨cells, release_firm fit hact (by simp [phase, Phase.held, or_comm])
      (by simpa [Phase.held] using Ne.symm hne) (by simp [phase, Phase.apart])
      ⟨by simp [Phase.held], hgrounded.rests, hgrounded.apart, trivial⟩⟩
  | deleting pred victim => exact ⟨cells, deleting_firm fit hact phase alone⟩
  | leaving pred curr ending =>
    rw [phase] at hgrounded
    obtain ⟨hne, hpred, -⟩ : pred ≠ curr ∧ On cells pred ∧ On cells curr := hgrounded.two rfl
    simp only [Task.act, phase] at hact
    exact ⟨cells, release_firm fit hact (by simp [phase, Phase.held, or_comm])
      (by simpa [Phase.held] using Ne.symm hne) (by simp [Phase.apart])
      (.of_one rfl rfl hpred trivial)⟩
  | left pred ending =>
    cases ending <;> simp only [Task.act, phase] at hact
    all_goals exact ⟨cells, release_firm fit hact (by simp [phase, Phase.held])
      (by simp [Phase.held]) (by simp [Phase.apart]) (.of_none rfl rfl trivial)⟩
  | comparing seen =>
    simp only [Task.act, phase, Option.some.injEq] at hact
    subst hact
    have howned := fit.owned
    rw [phase] at howned
    exact ⟨cells, .of_nodes fit rfl rfl howned (fun _ _ _ => Iff.rfl) (by simp [Phase.apart])
      (.of_none rfl rfl trivial)⟩
  | returning outcome => simp [Task.act, phase] at hact
  | crashed => simp [Task.act, phase] at hact

end Task
end Phases
section Enabled
variable [DecidableEq Thread] {cb : SetCallbacks T ε σ} {t : Thread} {heap : NodeHeap Thread T}
  {task : Task T ε} {act : Act Thread T ε σ} {o : σ} {a fresh : Nat} {phase : Phase T ε}

namespace Task

omit [DecidableEq Thread] in
theorem goTo_phase (h : task.goTo phase heap o = some act) : act.task.phase = phase := by
  cases h
  rfl

theorem acquire_phase (h : task.acquire t a phase heap o = some act) :
    act.task.phase = phase ∨ act.task.phase = .crashed := by
  rw [acquire] at h
  split at h
  · exact .inr (goTo_phase h)
  · cases h
  · exact .inl (goTo_phase h)

theorem release_phase (h : task.release t a phase heap o = some act) :
    act.task.phase = phase ∨ act.task.phase = .crashed := by
  rw [release] at h
  split at h
  · exact .inl (goTo_phase h)
  · exact .inr (goTo_phase h)

omit [DecidableEq Thread] in
theorem relink_phase {next : Option Nat} (h : task.relink a next phase heap o = some act) :
    act.task.phase = phase ∨ act.task.phase = .crashed := by
  rw [relink] at h
  split at h
  · exact .inr (goTo_phase h)
  · cases h
    exact .inl rfl

omit [DecidableEq Thread] in
theorem settle_phase {pred curr : Nat} {outcome : SetOutcome T ε}
    (h : task.settle pred curr outcome heap o = some act) :
    act.task.phase = .leaving pred curr (.settled outcome) := by
  cases h
  rfl

/-- A step takes the thread to another place. -/
theorem phase_of_act (hact : task.act cb t fresh heap o = some act) :
    act.task.phase ≠ task.phase := by
  cases hphase : task.phase with
  | entering | waiting _ _ =>
    simp only [Task.act, hphase] at hact
    rcases acquire_phase hact with h | h <;> simp [h]
  | passing _ _ | dropping _ _ | leaving _ _ _ =>
    simp only [Task.act, hphase] at hact
    rcases release_phase hact with h | h <;> simp [h]
  | left _ ending =>
    cases ending <;> simp only [Task.act, hphase] at hact <;>
      rcases release_phase hact with h | h <;> simp [h]
  | splicing _ _ _ | cutting _ _ _ =>
    simp only [Task.act, hphase] at hact
    rcases relink_phase hact with h | h <;> simp [h]
  | tallying _ _ | discounting _ _ =>
    simp only [Task.act, hphase] at hact
    simp [goTo_phase hact]
  | resting _ | doomed _ _ | deleting _ _ =>
    simp only [Task.act, hphase] at hact
    split at hact <;> simp [goTo_phase hact]
  | building _ _ _ =>
    simp only [Task.act, hphase] at hact
    split at hact
    · cases hact
    · simp [goTo_phase hact]
  | visiting pred curr =>
    simp only [Task.act, hphase] at hact
    split at hact
    · simp [goTo_phase hact]
    · rename_i node hnode
      have hvisit := yields_visit_any cb pred curr task node o
      cases hrun : task.visit cb pred curr node o with
      | error e o' =>
        simp only [hrun] at hact
        simp [settle_phase hact]
      | ok out o' =>
        rw [hrun] at hvisit
        simp only [hrun, Option.some.injEq] at hact
        subst hact
        obtain ⟨hout, -⟩ | ⟨kind, key, hout⟩ | ⟨ending, hout⟩ := hvisit <;> simp [hout]
  | located pred curr kind key =>
    simp only [Task.act, hphase] at hact
    split at hact
    · simp [goTo_phase hact]
    · split at hact
      · rename_i same o' _
        cases kind <;> cases same <;>
          first | simp [settle_phase hact] | simp [goTo_phase hact]
      · simp [settle_phase hact]
  | comparing seen =>
    simp only [Task.act, hphase, Option.some.injEq] at hact
    subst hact
    simp
  | returning outcome | crashed => simp [Task.act, hphase] at hact

theorem acquire_isSome (free : heap.owner a = none) :
    (task.acquire t a phase heap o).isSome := by
  rw [acquire, free]
  cases heap.nodes a <;> rfl

theorem release_isSome : (task.release t a phase heap o).isSome := by
  rw [release]
  split <;> rfl

omit [DecidableEq Thread] in
theorem relink_isSome {next : Option Nat} : (task.relink a next phase heap o).isSome := by
  rw [relink]
  cases heap.nodes a <;> rfl

/-- There is no step while the lock that the thread waits for is taken. -/
theorem act_of_taken {t' : Thread} (ha : a ∈ task.phase.awaited heap.head)
    (node : heap.nodes a ≠ none) (taken : heap.owner a = some t') :
    task.act cb t fresh heap o = none := by
  obtain ⟨node, hnode⟩ := Option.ne_none_iff_exists'.1 node
  have hacquire (phase : Phase T ε) :
      (task.acquire t a phase heap o : Option (Act Thread T ε σ)) = none := by
    rw [acquire, hnode, taken]
  cases hphase : task.phase with
  | entering =>
    rw [hphase] at ha
    cases ha
    simp only [Task.act, hphase]
    exact hacquire _
  | waiting pred curr =>
    rw [hphase] at ha
    cases ha
    simp only [Task.act, hphase]
    exact hacquire _
  | _ =>
    rw [hphase] at ha
    cases ha

/-- A thread inside an operation can take a step, unless the lock that it waits for is taken. -/
theorem act_isSome (bounded : Bounded heap.nodes)
    (free : ∀ a ∈ task.phase.awaited heap.head, heap.owner a = none)
    (returning : ∀ outcome, task.phase ≠ .returning outcome) (intact : task.phase ≠ .crashed) :
    ∃ fresh, (task.act cb t fresh heap o).isSome := by
  obtain ⟨bound, hroom⟩ := bounded
  -- Only an insertion needs the address, of a node that does not exist yet.
  refine ⟨bound, ?_⟩
  cases hphase : task.phase with
  | entering | waiting _ _ =>
    simp only [Task.act, hphase]
    exact acquire_isSome (free _ (by rw [hphase]; rfl))
  | passing _ _ | dropping _ _ | leaving _ _ _ =>
    simp only [Task.act, hphase]
    exact release_isSome
  | left _ ending =>
    cases ending <;> simp only [Task.act, hphase] <;> exact release_isSome
  | splicing _ _ _ | cutting _ _ _ =>
    simp only [Task.act, hphase]
    exact relink_isSome
  | building _ _ _ =>
    simp only [Task.act, hphase, hroom bound (Nat.le_refl _)]
    rfl
  | tallying _ _ | discounting _ _ | comparing _ =>
    simp only [Task.act, hphase]
    rfl
  | resting _ | doomed _ _ | deleting _ _ =>
    simp only [Task.act, hphase]
    split <;> rfl
  | visiting _ _ =>
    simp only [Task.act, hphase]
    split
    · rfl
    · split <;> rfl
  | located _ _ kind _ =>
    simp only [Task.act, hphase]
    split
    · rfl
    · split
      · rename_i same _ _
        cases kind <;> cases same <;> rfl
      · rfl
  | returning outcome => exact absurd hphase (returning outcome)
  | crashed => exact absurd hphase intact

end Task
end Enabled
end LockedContainers
