import LockedContainers.Proofs.Interleaved
import LockedContainers.Proofs.Set.Acts

/-!
# Threads that share a coupled set

Whatever their number and whatever order their steps come in, threads never
meet a node that is gone, the linked nodes stay one ascending chain, and the
operations, in the order in which they were settled, are those of the set.
-/
namespace LockedContainers

variable {Thread T ε σ : Type}

namespace Caller

variable (c : Caller T ε)

def held : List Nat := c.task.elim [] fun task => task.phase.held

def apart : List Nat := c.task.elim [] fun task => task.phase.apart

/-- The operation that is settled and has not returned. -/
def settled : List (SetRequest T × SetOutcome T ε) :=
  c.task.toList.flatMap fun task => task.phase.decided.toList.map (task.errand.request, ·)

/-- The operations that are not settled. -/
def unsettled : List (SetRequest T) :=
  (c.task.toList.filter fun task => task.phase.decided.isNone).map (fun task => task.errand.request)
    ++ c.pending.map Errand.request

variable {c} {a : Nat}

/-- A thread inside an operation. -/
theorem eq_of_task {task : Task T ε} (h : task ∈ c.task) :
    ∃ pending returned, c = ⟨some task, pending, returned⟩ :=
  ⟨c.pending, c.returned, by rw [← Option.mem_def.1 h]⟩

theorem mem_held : a ∈ c.held ↔ ∃ task ∈ c.task, a ∈ task.phase.held := by
  cases h : c.task <;> simp [held, h]

theorem mem_apart : a ∈ c.apart ↔ ∃ task ∈ c.task, a ∈ task.phase.apart := by
  cases h : c.task <;> simp [apart, h]

section Hands
variable {callers : Thread → Caller T ε} {owner owner' : Nat → Option Thread} {t t' : Thread}
  (owned : ∀ t a, owner a = some t ↔ a ∈ (callers t).held)
  (disjoint : ∀ t t' a, a ∈ (callers t).apart → a ∈ (callers t').apart → t = t')

include owned disjoint in
/-- No two threads have a node in their hands. -/
theorem hands_off (held_off : ∀ t t' a, t' ≠ t → a ∈ (callers t).held → a ∉ (callers t').apart)
    (ht : t' ≠ t) (ha : a ∈ (callers t').held ++ (callers t').apart) :
    a ∉ (callers t).held ++ (callers t).apart := by
  intro hmine
  rcases List.mem_append.1 ha with ha | ha <;> rcases List.mem_append.1 hmine with hm | hm
  · have howner := (owned t' a).2 ha
    rw [(owned t a).2 hm] at howner
    exact ht (Option.some.inj howner).symm
  · exact held_off t' t a (Ne.symm ht) ha hm
  · exact held_off t t' a ht hm ha
  · exact ht (disjoint t' t a ha hm)

variable [DecidableEq Thread]

include owned in
/-- A thread changes its own locks only. -/
theorem owned_update (mine : ∀ a, owner' a = some t ↔ a ∈ c.held)
    (others : ∀ a, ∀ t' ≠ t, (owner' a = some t' ↔ owner a = some t')) (t' : Thread) (a : Nat) :
    owner' a = some t' ↔ a ∈ (Function.update callers t c t').held := by
  by_cases ht : t' = t
  · subst ht
    simpa using mine a
  · rw [Function.update_of_ne ht]
    exact (others a t' ht).trans (owned t' a)

include disjoint in
/-- A thread takes nothing apart that another has apart. -/
theorem disjoint_update (off : ∀ t' ≠ t, ∀ a ∈ (callers t').apart, a ∉ c.apart) (t₁ t₂ : Thread)
    (a : Nat) (h₁ : a ∈ (Function.update callers t c t₁).apart)
    (h₂ : a ∈ (Function.update callers t c t₂).apart) : t₁ = t₂ := by
  by_cases ht₁ : t₁ = t <;> by_cases ht₂ : t₂ = t
  · rw [ht₁, ht₂]
  · subst ht₁
    rw [Function.update_self] at h₁
    rw [Function.update_of_ne ht₂] at h₂
    exact absurd h₁ (off t₂ ht₂ a h₂)
  · subst ht₂
    rw [Function.update_self] at h₂
    rw [Function.update_of_ne ht₁] at h₁
    exact absurd h₂ (off t₁ ht₁ a h₁)
  · rw [Function.update_of_ne ht₁] at h₁
    rw [Function.update_of_ne ht₂] at h₂
    exact disjoint t₁ t₂ a h₁ h₂

end Hands
end Caller

namespace NodeRun

/-- The linked nodes are an ascending chain with the members' keys, and every thread stands on it. The
log leads to the members, and has what the threads were answered, in the order of their programs. -/
structure Coherent [DecidableEq Thread] (cb : SetCallbacks T ε σ) (before : T → T → Bool)
    (program : Thread → List (Errand T)) (s : NodeRun Thread T ε σ) (cells : List (Cell T))
    (members : KeySet T) : Prop where
  linked : Linked before s.heap.head s.heap.nodes cells
  listed : (keysOf cells).Perm members
  owned : ∀ t a, s.heap.owner a = some t ↔ a ∈ (s.callers t).held
  stands : ∀ t, ∀ task ∈ (s.callers t).task, task.Stands before s.heap.nodes cells
  disjoint : ∀ t t' a, a ∈ (s.callers t).apart → a ∈ (s.callers t').apart → t = t'
  explains : (KeySet.live before).Explains cb.Raises [] (s.log.map Prod.snd) members
  answered : ∀ t, (s.callers t).returned ++ (s.callers t).settled = Interleaving.logOf s.log t
  kept : ∀ t, (Interleaving.logOf s.log t).map Prod.fst ++ (s.callers t).unsettled =
    (program t).map Errand.request

section Steps
variable [DecidableEq Thread] {cb : SetCallbacks T ε σ} {before : T → T → Bool}
  [order : IsStrictWeakOrder T (before · ·)] {program : Thread → List (Errand T)}
  {s : NodeRun Thread T ε σ} {cells : List (Cell T)} {members : KeySet T}

/-- No thread holds what another has apart. -/
theorem Coherent.held_off (h : s.Coherent cb before program cells members) {t t' : Thread}
    (ht : t' ≠ t) {a : Nat} (ha : a ∈ (s.callers t).held) : a ∉ (s.callers t').apart := by
  intro ha'
  obtain ⟨task, htask, hheld⟩ := Caller.mem_held.1 ha
  obtain ⟨task', htask', hapart'⟩ := Caller.mem_apart.1 ha'
  have hoff : ¬ On cells a := ((h.stands t' task' htask').apart_off a hapart').2
  by_cases happart : a ∈ task.phase.apart
  · exact ht (h.disjoint t' t a ha' (Caller.mem_apart.2 ⟨task, htask, happart⟩))
  · exact hoff ((h.stands t task htask).rests h.linked a hheld happart)

theorem Coherent.exist (h : s.Coherent cb before program cells members) {t : Thread} {a : Nat}
    (ha : a ∈ (s.callers t).held ++ (s.callers t).apart) : s.heap.nodes a ≠ none := by
  rw [List.mem_append, Caller.mem_held, Caller.mem_apart] at ha
  obtain ⟨task, htask, ha⟩ | ⟨task, htask, ha⟩ := ha
  · exact (h.stands t task htask).exist h.linked a (List.mem_append_left _ ha)
  · exact (h.stands t task htask).exist h.linked a (List.mem_append_right _ ha)

/-- No two threads have a node in their hands. -/
theorem Coherent.hands_off (h : s.Coherent cb before program cells members) {t t' : Thread}
    (ht : t' ≠ t) {a : Nat} (ha : a ∈ (s.callers t').held ++ (s.callers t').apart) :
    a ∉ (s.callers t).held ++ (s.callers t).apart :=
  Caller.hands_off h.owned h.disjoint (fun _ _ _ ht ha => h.held_off ht ha) ht ha

omit order in
/-- A thread changes the heap and itself, and settles the operations `done`. -/
theorem Coherent.update (h : s.Coherent cb before program cells members) {t : Thread}
    {heap : NodeHeap Thread T} {outside : σ} {c : Caller T ε} {cells' : List (Cell T)}
    {members' : KeySet T} {done : List (SetRequest T × SetOutcome T ε)}
    (linked : Linked before heap.head heap.nodes cells') (listed : (keysOf cells').Perm members')
    (owned : ∀ a, heap.owner a = some t ↔ a ∈ c.held)
    (others : ∀ a, ∀ t' ≠ t, (heap.owner a = some t' ↔ s.heap.owner a = some t'))
    (stands : ∀ task ∈ c.task, task.Stands before heap.nodes cells')
    (undisturbed : ∀ t' ≠ t, ∀ a ∈ (s.callers t').held ++ (s.callers t').apart,
      Undisturbed s.heap.nodes cells heap.nodes cells' a ∧ a ∉ c.apart)
    (explains : (KeySet.live before).Explains cb.Raises members done members')
    (answered : c.returned ++ c.settled =
      (s.callers t).returned ++ (s.callers t).settled ++ done)
    (kept : (s.callers t).unsettled = done.map Prod.fst ++ c.unsettled) :
    Coherent cb before program
      { heap, outside
        callers := Function.update s.callers t c
        log := s.log ++ done.map (t, ·) } cells' members' where
  linked := linked
  listed := listed
  owned := Caller.owned_update h.owned owned others
  stands := (Function.forall_update_iff s.callers
    fun _ c => ∀ task ∈ c.task, task.Stands before heap.nodes cells').2
    ⟨stands, fun t' ht task htask => (h.stands t' task htask).frame fun a ha =>
      (undisturbed t' ht a (by simpa [Caller.held, Caller.apart, Option.mem_def.1 htask] using ha)).1⟩
  disjoint := Caller.disjoint_update h.disjoint fun t' ht a ha =>
    (undisturbed t' ht a (List.mem_append_right _ ha)).2
  explains := by
    have hdone : (done.map (t, ·)).map Prod.snd = done := by simp [Function.comp_def]
    rw [List.map_append, hdone]
    exact h.explains.append explains
  answered t' := by
    rw [Interleaving.logOf_append]
    by_cases ht : t' = t
    · subst ht
      simp only [Function.update_self, Interleaving.logOf_self]
      rw [answered, h.answered]
    · simp only [Function.update_of_ne ht, Interleaving.logOf_other ht, List.append_nil]
      exact h.answered t'
  kept t' := by
    rw [Interleaving.logOf_append]
    by_cases ht : t' = t
    · subst ht
      simp only [Function.update_self, Interleaving.logOf_self, List.map_append, List.append_assoc]
      rw [← kept, h.kept]
    · simp only [Function.update_of_ne ht, Interleaving.logOf_other ht, List.append_nil]
      exact h.kept t'

omit order in
/-- A thread that calls or returns changes only itself. -/
theorem Coherent.update_caller (h : s.Coherent cb before program cells members) {t : Thread}
    {c : Caller T ε} (held : c.held = (s.callers t).held) (apart : c.apart = [])
    (stands : ∀ task ∈ c.task, task.Stands before s.heap.nodes cells)
    (answered : c.returned ++ c.settled = (s.callers t).returned ++ (s.callers t).settled)
    (kept : c.unsettled = (s.callers t).unsettled) :
    Coherent cb before program { s with callers := Function.update s.callers t c } cells
      members := by
  have hupdate : Coherent cb before program
      { heap := s.heap, outside := s.outside, callers := Function.update s.callers t c
        log := s.log ++ ([] : List (SetRequest T × SetOutcome T ε)).map (t, ·) } cells members :=
    h.update h.linked h.listed (fun a => by rw [held, h.owned t a]) (fun _ _ _ => Iff.rfl) stands
      (fun _ _ _ _ => ⟨⟨rfl, fun _ => Iff.rfl⟩, by simp [apart]⟩) .nil
      (by rw [answered, List.append_nil]) kept.symm
  rw [List.map_nil, List.append_nil] at hupdate
  exact hupdate

omit order in
/-- What a thread inside an operation finds. -/
theorem Coherent.situated (h : s.Coherent cb before program cells members) {t : Thread}
    {task : Task T ε} {pending : List (Errand T)} {returned : List (SetRequest T × SetOutcome T ε)}
    (hcaller : s.callers t = ⟨some task, pending, returned⟩) :
    task.Situated before t s.heap cells members where
  linked := h.linked
  listed := h.listed
  owned a := by
    rw [h.owned t a, hcaller]
    rfl
  stands := h.stands t task (by rw [hcaller]; rfl)

/-- A step within an operation. -/
theorem Coherent.act (follows : cb.Follows before) (h : s.Coherent cb before program cells members)
    {t : Thread} {task : Task T ε} {pending : List (Errand T)}
    {returned : List (SetRequest T × SetOutcome T ε)}
    (hcaller : s.callers t = ⟨some task, pending, returned⟩) {fresh : Nat}
    {act : Act Thread T ε σ} (hact : task.act cb t fresh s.heap s.outside = some act) :
    ∃ cells' members', Coherent cb before program
      { heap := act.heap, outside := act.outside
        callers := Function.update s.callers t ⟨some act.task, pending, returned⟩
        log := s.log ++ act.decided.toList.map fun outcome => (t, task.errand.request, outcome) }
      cells' members' := by
  have hheld : (s.callers t).held = task.phase.held := by rw [hcaller]; rfl
  have hapart : (s.callers t).apart = task.phase.apart := by rw [hcaller]; rfl
  have sit := h.situated hcaller
  have alone : ∀ a ∈ task.phase.apart, ∀ t' ≠ t, s.heap.owner a ≠ some t' := by
    intro a ha t' ht howner
    rw [← hapart] at ha
    exact h.held_off (Ne.symm ht) ((h.owned t' a).1 howner) ha
  obtain ⟨cells', members', sound⟩ := task.act_sound sit hact follows alone
  have hlog : act.decided.toList.map (fun outcome => (t, task.errand.request, outcome)) =
      (act.decided.toList.map (task.errand.request, ·)).map (t, ·) := by
    rw [List.map_map]
    rfl
  refine ⟨cells', members', ?_⟩
  rw [hlog]
  refine h.update sound.situated.linked sound.situated.listed sound.situated.owned sound.others
    ?_ ?_ sound.explains ?_ ?_
  · intro task' htask'
    cases htask'
    exact sound.situated.stands
  · intro t' ht a ha
    have hoff := h.hands_off ht ha
    rw [hheld, hapart] at hoff
    exact sound.undisturbed a (h.exist ha) hoff
  · simp [hcaller, Caller.settled, sound.errand, sound.settles]
  · have hsettles := sound.settles
    rw [hcaller]
    cases hdecided : task.phase.decided <;> cases hact' : act.decided <;>
      cases hafter : act.task.phase.decided <;>
      simp_all [Caller.unsettled, sound.errand]

/-- Whoever takes the step, the run stays coherent. -/
theorem Coherent.step (follows : cb.Follows before) (h : s.Coherent cb before program cells members)
    (turn : Thread × Nat) : ∃ cells' members',
      (NodeRun.step cb s turn).Coherent cb before program cells' members' := by
  have hstep := step_spec cb s turn
  generalize NodeRun.step cb s turn = s' at hstep ⊢
  cases hstep with
  | still => exact ⟨cells, members, h⟩
  | @calls t fresh errand pending returned hcaller =>
    refine ⟨cells, members, h.update_caller ?_ rfl ?_ ?_ ?_⟩
    · rw [hcaller]
      rfl
    · intro task htask
      cases htask
      exact Task.passed_head before errand
    · rw [hcaller]
      rfl
    · rw [hcaller]
      rfl
  | returns hcaller hphase =>
    refine ⟨cells, members, h.update_caller ?_ rfl ?_ ?_ ?_⟩
    · simp [hcaller, Caller.held, hphase, Phase.held]
    · intro task' htask'
      cases htask'
    · simp [hcaller, Caller.settled, hphase, Phase.decided]
    · simp [hcaller, Caller.unsettled, hphase, Phase.decided]
  | acts hcaller hact => exact h.act follows hcaller hact

omit order in
/-- A set that is shared by threads that have not begun. -/
theorem coherent_begin (outside : σ) :
    (begin outside program : NodeRun Thread T ε σ).Coherent cb before program
      [(0, .head), (1, .tail)] [] where
  linked := ⟨⟨rfl, rfl, trivial⟩, by simp [Place.below], by simp [begin, NodeHeap.empty], 1, by simp⟩
  listed := .nil
  owned t a := by simp [begin, NodeHeap.empty, Caller.held]
  stands t task htask := by cases htask
  disjoint t t' a ha := by simp [begin, Caller.apart] at ha
  explains := .nil
  answered t := rfl
  kept t := rfl

/-- Every schedule is coherent. -/
theorem Coherent.run (follows : cb.Follows before) (h : s.Coherent cb before program cells members)
    (schedule : List (Thread × Nat)) : ∃ cells' members',
      (NodeRun.run cb s schedule).Coherent cb before program cells' members' := by
  induction schedule generalizing s cells members with
  | nil => exact ⟨cells, members, h⟩
  | cons turn rest ih =>
    obtain ⟨cells', members', h'⟩ := h.step follows turn
    exact ih h'

end Steps
end NodeRun
end LockedContainers
