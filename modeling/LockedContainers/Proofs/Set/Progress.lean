import LockedContainers.Proofs.Set.Coupling
import LockedContainers.Proofs.Set.Strides

/-!
# Threads of a coupled set never wait for each other in a circle

A thread that holds a node waits only for the node behind it, so whoever holds
the last of the locked nodes does not wait. The list may change in the meantime
and the callbacks may answer anything.
-/
namespace LockedContainers

variable {Thread T ε σ : Type}

namespace NodeRun

/-- The linked nodes are one chain, every thread has its feet on it, and there is room for a node. -/
structure Steady (s : NodeRun Thread T ε σ) (cells : List (Cell T)) : Prop where
  strung : Strung s.heap.head s.heap.nodes cells
  owned : ∀ t a, s.heap.owner a = some t ↔ a ∈ (s.callers t).held
  grounded : ∀ t, ∀ task ∈ (s.callers t).task, task.phase.Grounded s.heap.nodes cells
  disjoint : ∀ t t' a, a ∈ (s.callers t).apart → a ∈ (s.callers t').apart → t = t'
  bounded : Bounded s.heap.nodes

section Runs
variable {cb : SetCallbacks T ε σ} {program : Thread → List (Errand T)}
  {s : NodeRun Thread T ε σ} {cells : List (Cell T)} {t t' : Thread} {a : Nat}

/-- No thread holds what another has apart. -/
theorem Steady.held_off (h : s.Steady cells) (ht : t' ≠ t) (ha : a ∈ (s.callers t).held) :
    a ∉ (s.callers t').apart := by
  intro ha'
  obtain ⟨task, htask, hheld⟩ := Caller.mem_held.1 ha
  obtain ⟨task', htask', hapart'⟩ := Caller.mem_apart.1 ha'
  rcases task.phase.footing_or_apart a hheld with hfoot | hapart
  · exact ((h.grounded t' task' htask').apart a hapart').2 ((h.grounded t task htask).rests a hfoot)
  · exact ht (h.disjoint t' t a ha' (Caller.mem_apart.2 ⟨task, htask, hapart⟩))

theorem Steady.exist (h : s.Steady cells) (ha : a ∈ (s.callers t).held ++ (s.callers t).apart) :
    s.heap.nodes a ≠ none := by
  rw [List.mem_append, Caller.mem_held, Caller.mem_apart] at ha
  obtain ⟨task, htask, ha⟩ | ⟨task, htask, ha⟩ := ha
  · exact (h.grounded t task htask).exist h.strung a (List.mem_append_left _ ha)
  · exact (h.grounded t task htask).exist h.strung a (List.mem_append_right _ ha)

/-- No two threads have a node in their hands. -/
theorem Steady.hands_off (h : s.Steady cells) (ht : t' ≠ t)
    (ha : a ∈ (s.callers t').held ++ (s.callers t').apart) :
    a ∉ (s.callers t).held ++ (s.callers t).apart :=
  Caller.hands_off h.owned h.disjoint (fun _ _ _ ht ha => h.held_off ht ha) ht ha

variable [DecidableEq Thread]

/-- A thread changes the heap and itself. -/
theorem Steady.update (h : s.Steady cells) {heap : NodeHeap Thread T} {outside : σ}
    {c : Caller T ε} {cells' : List (Cell T)}
    {log : List (Thread × SetRequest T × SetOutcome T ε)}
    (strung : Strung heap.head heap.nodes cells') (owned : ∀ a, heap.owner a = some t ↔ a ∈ c.held)
    (others : ∀ a, ∀ t' ≠ t, (heap.owner a = some t' ↔ s.heap.owner a = some t'))
    (grounded : ∀ task ∈ c.task, task.phase.Grounded heap.nodes cells')
    (undisturbed : ∀ t' ≠ t, ∀ a ∈ (s.callers t').held ++ (s.callers t').apart,
      Undisturbed s.heap.nodes cells heap.nodes cells' a ∧ a ∉ c.apart)
    (bounded : Bounded heap.nodes) :
    Steady { heap, outside, callers := Function.update s.callers t c, log } cells' where
  strung := strung
  owned := Caller.owned_update h.owned owned others
  grounded := (Function.forall_update_iff s.callers
    fun _ c => ∀ task ∈ c.task, task.phase.Grounded heap.nodes cells').2
    ⟨grounded, fun t' ht task htask => (h.grounded t' task htask).frame fun a ha =>
      (undisturbed t' ht a (by simpa [Caller.held, Caller.apart, Option.mem_def.1 htask] using ha)).1⟩
  disjoint := Caller.disjoint_update h.disjoint fun t' ht a ha =>
    (undisturbed t' ht a (List.mem_append_right _ ha)).2
  bounded := bounded

/-- A thread that calls or returns changes only itself. -/
theorem Steady.update_caller (h : s.Steady cells) {c : Caller T ε}
    (held : c.held = (s.callers t).held) (apart : c.apart = [])
    (grounded : ∀ task ∈ c.task, task.phase.Grounded s.heap.nodes cells) :
    Steady { s with callers := Function.update s.callers t c } cells :=
  h.update h.strung (fun a => by rw [held, h.owned t a]) (fun _ _ _ => Iff.rfl) grounded
    (fun _ _ _ _ => ⟨⟨rfl, fun _ => Iff.rfl⟩, by simp [apart]⟩) h.bounded

/-- A step within an operation. -/
theorem Steady.act (h : s.Steady cells) {task : Task T ε} {pending : List (Errand T)}
    {returned : List (SetRequest T × SetOutcome T ε)}
    (hcaller : s.callers t = ⟨some task, pending, returned⟩) {fresh : Nat}
    {act : Act Thread T ε σ} (hact : task.act cb t fresh s.heap s.outside = some act)
    {log : List (Thread × SetRequest T × SetOutcome T ε)} :
    ∃ cells', Steady
      { heap := act.heap, outside := act.outside
        callers := Function.update s.callers t ⟨some act.task, pending, returned⟩, log } cells' := by
  have hheld : (s.callers t).held = task.phase.held := by rw [hcaller]; rfl
  have hapart : (s.callers t).apart = task.phase.apart := by rw [hcaller]; rfl
  have fit : task.Footed t s.heap cells :=
    ⟨h.strung, fun a => by rw [h.owned t a, hheld], h.grounded t task (by rw [hcaller]; rfl)⟩
  have alone : ∀ a ∈ task.phase.apart, ∀ t' ≠ t, s.heap.owner a ≠ some t' := by
    intro a ha t' ht howner
    rw [← hapart] at ha
    exact h.held_off (Ne.symm ht) ((h.owned t' a).1 howner) ha
  obtain ⟨cells', firm⟩ := task.act_firm fit hact alone
  refine ⟨cells', h.update firm.footed.strung firm.footed.owned firm.others ?_ ?_
    (firm.bounded h.bounded)⟩
  · intro task' htask'
    cases htask'
    exact firm.footed.grounded
  · intro t' ht a ha
    have hoff := h.hands_off ht ha
    rw [hheld, hapart] at hoff
    exact firm.undisturbed a (h.exist ha) hoff

/-- Whoever takes the step, the run stays steady. -/
theorem Steady.step (h : s.Steady cells) (turn : Thread × Nat) :
    ∃ cells', (NodeRun.step cb s turn).Steady cells' := by
  have hstep := step_spec cb s turn
  generalize NodeRun.step cb s turn = s' at hstep ⊢
  cases hstep with
  | still => exact ⟨cells, h⟩
  | calls hcaller =>
    refine ⟨cells, h.update_caller (by rw [hcaller]; rfl) rfl fun task htask => ?_⟩
    cases htask
    exact .of_none rfl rfl trivial
  | returns hcaller hphase =>
    refine ⟨cells, h.update_caller ?_ rfl fun task' htask' => by cases htask'⟩
    simp [hcaller, Caller.held, hphase, Phase.held]
  | acts hcaller hact => exact h.act hcaller hact

omit [DecidableEq Thread] in
/-- A set that is shared by threads that have not begun. -/
theorem steady_begin (outside : σ) :
    (begin outside program : NodeRun Thread T ε σ).Steady [(0, .head), (1, .tail)] where
  strung := ⟨⟨⟨rfl, rfl, trivial⟩, by simp [Place.below], by simp [begin, NodeHeap.empty], 1, by simp⟩,
    by simp⟩
  owned t a := by simp [begin, NodeHeap.empty, Caller.held]
  grounded t task htask := by cases htask
  disjoint t t' a ha := by simp [begin, Caller.apart] at ha
  bounded := NodeHeap.holds_empty.bounded

/-- Every schedule is steady. -/
theorem Steady.run (h : s.Steady cells) (schedule : List (Thread × Nat)) :
    ∃ cells', (NodeRun.run cb s schedule).Steady cells' := by
  induction schedule generalizing s cells with
  | nil => exact ⟨cells, h⟩
  | cons turn rest ih =>
    obtain ⟨cells', h'⟩ := h.step turn
    exact ih h'

/-- A step of an operation changes the state. -/
theorem step_ne_of_act {task : Task T ε} (htask : task ∈ (s.callers t).task) {fresh : Nat}
    (hact : (task.act cb t fresh s.heap s.outside).isSome) : NodeRun.step cb s (t, fresh) ≠ s := by
  obtain ⟨act, hact⟩ := Option.isSome_iff_exists.1 hact
  obtain ⟨pending, returned, hcaller⟩ := Caller.eq_of_task htask
  rw [step_of_act hcaller hact]
  intro hsame
  have hcallers := congrFun (congrArg NodeRun.callers hsame) t
  simp only [Function.update_self, hcaller, Caller.mk.injEq, Option.some.injEq] at hcallers
  exact Task.phase_of_act hact (by rw [hcallers.1])

omit [DecidableEq Thread] in
/-- A thread that waits for a lock does not hold it. -/
theorem Steady.awaited_not_held (h : s.Steady cells) {task : Task T ε}
    (htask : task ∈ (s.callers t).task) (ha : a ∈ task.phase.awaited s.heap.head) :
    s.heap.owner a ≠ some t := by
  have hgrounded := h.grounded t task htask
  rw [Ne, h.owned, Caller.mem_held, not_exists]
  rintro task' ⟨htask', hheld⟩
  obtain rfl : task' = task := Option.some.inj (htask'.symm.trans htask)
  obtain ⟨-, hnone | ⟨pred, hone, hon, hleads⟩⟩ := hgrounded.awaits h.strung a ha
  · rw [hnone] at hheld
    cases hheld
  · rw [hone] at hheld
    exact (h.strung.beside hon hleads).1 (List.mem_singleton.1 hheld).symm

/-- A thread that waits for a lock that is taken does nothing. -/
theorem Steady.step_of_taken (h : s.Steady cells) {task : Task T ε}
    (htask : task ∈ (s.callers t).task) (ha : a ∈ task.phase.awaited s.heap.head)
    (taken : s.heap.owner a = some t') (fresh : Nat) : NodeRun.step cb s (t, fresh) = s := by
  have hon := ((h.grounded t task htask).awaits h.strung a ha).1
  have hact : task.act cb t fresh s.heap s.outside = none :=
    Task.act_of_taken ha (h.strung.ne_none hon) taken
  obtain ⟨pending, returned, hcaller⟩ := Caller.eq_of_task htask
  cases hphase : task.phase with
  | returning outcome =>
    rw [hphase] at ha
    cases ha
  | _ => simp only [NodeRun.step, hcaller, hphase, hact]

/-- A thread inside an operation can take its next step, unless it waits for a lock in another's
hands. -/
theorem Steady.blocked_iff (h : s.Steady cells) (inside : (s.callers t).task ≠ none) :
    (∀ fresh, NodeRun.step cb s (t, fresh) = s) ↔
      ∃ task ∈ (s.callers t).task, ∃ a ∈ task.phase.awaited s.heap.head, ∃ t' ≠ t,
        s.heap.owner a = some t' := by
  constructor
  · intro stuck
    obtain ⟨task, htask⟩ := Option.ne_none_iff_exists'.1 inside
    by_contra hfree
    have hact : ∃ fresh, (task.act cb t fresh s.heap s.outside).isSome := by
      apply Task.act_isSome h.bounded
      · intro a ha
        cases howner : s.heap.owner a with
        | none => rfl
        | some t' =>
          refine absurd ⟨task, htask, a, ha, t', ?_, howner⟩ hfree
          rintro rfl
          exact h.awaited_not_held htask ha howner
      · intro outcome hphase
        obtain ⟨pending, returned, hcaller⟩ := Caller.eq_of_task htask
        have hstep := stuck 0
        simp only [NodeRun.step, hcaller, hphase] at hstep
        have hcallers := congrFun (congrArg NodeRun.callers hstep) t
        simp [hcaller] at hcallers
      · intro hphase
        have hknows := (h.grounded t task htask).knows
        rw [hphase] at hknows
        exact hknows
    obtain ⟨fresh, hact⟩ := hact
    exact step_ne_of_act htask hact (stuck fresh)
  · rintro ⟨task, htask, a, ha, t', -, howner⟩
    exact h.step_of_taken htask ha howner

/-- The holder of a node can go on, or whoever holds the node behind, if that can. -/
theorem Steady.advances_holder (h : s.Steady cells) (owner : s.heap.owner a = some t)
    (behind : ∀ b, Leads s.heap.nodes a b → ∀ t', s.heap.owner b = some t' →
      ∃ t' fresh, (s.callers t').task ≠ none ∧ NodeRun.step cb s (t', fresh) ≠ s) :
    ∃ t' fresh, (s.callers t').task ≠ none ∧ NodeRun.step cb s (t', fresh) ≠ s := by
  obtain ⟨task, htask, hheld⟩ := Caller.mem_held.1 ((h.owned t a).1 owner)
  have hinside : (s.callers t).task ≠ none := Option.ne_none_iff_exists'.2 ⟨task, htask⟩
  by_cases stuck : ∀ fresh, NodeRun.step cb s (t, fresh) = s
  · obtain ⟨task', htask', b, hb, t', -, howner⟩ := (h.blocked_iff hinside).1 stuck
    obtain rfl : task' = task := Option.some.inj (htask'.symm.trans htask)
    obtain ⟨-, hnone | ⟨pred, hone, -, hleads⟩⟩ := (h.grounded t task' htask).awaits h.strung b hb
    · rw [hnone] at hheld
      cases hheld
    · rw [hone] at hheld
      obtain rfl := List.mem_singleton.1 hheld
      exact behind b hleads t' howner
  · rw [not_forall] at stuck
    obtain ⟨fresh, hstep⟩ := stuck
    exact ⟨t, fresh, hinside, hstep⟩

/-- Behind a locked node there is a thread that can go on: its holder, or whoever that waits for. -/
theorem Steady.advances_behind (h : s.Steady cells) {front back : List (Cell T)} {p : Place T}
    (hcells : cells = front ++ (a, p) :: back) (owner : s.heap.owner a = some t) :
    ∃ t' fresh, (s.callers t').task ≠ none ∧ NodeRun.step cb s (t', fresh) ≠ s := by
  -- The induction is on what is linked behind the node: a holder waits for the first node there.
  induction back generalizing front a p t with
  | nil =>
    have hlink : s.heap.nodes a = some ⟨p, none⟩ := (hcells ▸ h.strung.linked.chain).right.1
    refine h.advances_holder owner fun b hb => ?_
    obtain ⟨place, hleads⟩ := hb
    rw [hlink] at hleads
    cases hleads
  | cons c back ih =>
    have hlink : s.heap.nodes a = some ⟨p, some c.1⟩ :=
      (hcells ▸ h.strung.linked.chain).right.1
    refine h.advances_holder owner fun b hb t' howner => ?_
    obtain ⟨place, hleads⟩ := hb
    rw [hlink] at hleads
    cases hleads
    have hrest : cells = (front ++ [(a, p)]) ++ (c.1, c.2) :: back := by simp [hcells]
    exact ih hrest howner

/-- While a thread is inside an operation, some thread that is inside one can take a step. -/
theorem Steady.advances (h : s.Steady cells) (inside : (s.callers t).task ≠ none) :
    ∃ t' fresh, (s.callers t').task ≠ none ∧ NodeRun.step cb s (t', fresh) ≠ s := by
  by_cases stuck : ∀ fresh, NodeRun.step cb s (t, fresh) = s
  · obtain ⟨task, htask, a, ha, t', -, howner⟩ := (h.blocked_iff inside).1 stuck
    obtain ⟨p, hp⟩ := ((h.grounded t task htask).awaits h.strung a ha).1
    obtain ⟨front, back, hcells⟩ := List.append_of_mem hp
    exact h.advances_behind hcells howner
  · rw [not_forall] at stuck
    obtain ⟨fresh, hstep⟩ := stuck
    exact ⟨t, fresh, inside, hstep⟩

/-- How the locks of a coupled set are used. A thread holds two at most, and while it waits for one,
none but that of the node before. -/
structure Orderly (cb : SetCallbacks T ε σ) (s : NodeRun Thread T ε σ) (inner : List (Nat × T))
    (last : Nat) : Prop where
  chain : Chain s.heap.nodes (cellsOf s.heap.head inner last)
  /-- No thread has met a missing node or misused a lock. -/
  safe : ∀ t, ∀ task ∈ (s.callers t).task, task.phase ≠ .crashed
  holds : ∀ t, ∃ held : List Nat, held.length ≤ 2 ∧ ∀ a, s.heap.owner a = some t ↔ a ∈ held
  awaits : ∀ t, ∀ task ∈ (s.callers t).task, ∀ a ∈ task.phase.awaited s.heap.head,
    (∀ b, s.heap.owner b ≠ some t) ∨
      ∃ pred, (∀ b, s.heap.owner b = some t ↔ b = pred) ∧ ∃ front p q back,
        cellsOf s.heap.head inner last = front ++ (pred, p) :: (a, q) :: back
  /-- Only a lock in another's hands keeps a thread from its next step. -/
  blocked : ∀ t, (s.callers t).task ≠ none →
    ((∀ fresh, NodeRun.step cb s (t, fresh) = s) ↔
      ∃ task ∈ (s.callers t).task, ∃ a ∈ task.phase.awaited s.heap.head, ∃ t' ≠ t,
        s.heap.owner a = some t')
  advances : ∀ t, (s.callers t).task ≠ none →
    ∃ t' fresh, (s.callers t').task ≠ none ∧ NodeRun.step cb s (t', fresh) ≠ s

theorem Steady.orderly (h : s.Steady cells) : ∃ inner last, s.Orderly cb inner last := by
  obtain ⟨inner, last, rfl, -⟩ := h.strung.linked.interior
  refine ⟨inner, last,
    { chain := h.strung.linked.chain
      safe := fun t task htask hphase => ?_
      holds := fun t => ⟨(s.callers t).held, ?_, h.owned t⟩
      awaits := fun t task htask a ha => ?_
      blocked := fun t inside => h.blocked_iff inside
      advances := fun t inside => h.advances inside }⟩
  · have hknows := (h.grounded t task htask).knows
    rw [hphase] at hknows
    exact hknows
  · cases htask : (s.callers t).task with
    | none => simp [Caller.held, htask]
    | some task =>
      simp only [Caller.held, htask, Option.elim_some]
      cases task.phase <;> simp [Phase.held]
  · have howned (b : Nat) : s.heap.owner b = some t ↔ b ∈ task.phase.held := by
      rw [h.owned]
      simp [Caller.held, Option.mem_def.1 htask]
    obtain ⟨-, hnone | ⟨pred, hone, hon, p, hlink⟩⟩ :=
      (h.grounded t task htask).awaits h.strung a ha
    · left
      simp [howned, hnone]
    · right
      obtain ⟨front, q, back, hcells⟩ := h.strung.split hon hlink
      exact ⟨pred, fun b => by simp [howned, hone], front, p, q, back, hcells⟩

end Runs
end NodeRun
end LockedContainers
