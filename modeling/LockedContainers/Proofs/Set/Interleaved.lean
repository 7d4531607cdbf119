import LockedContainers.Proofs.Set.Coupling

/-!
# Linearizability of the coupled set

In every state that threads reach, they hold and await linked nodes only, the
list ascends between its sentinels, and what the operations answer is what the
set answers when they are ordered by the moments at which they were settled.
-/
namespace LockedContainers

variable {Thread T ε σ : Type}

namespace KeySet

variable {before : T → T → Bool} [order : IsStrictWeakOrder T (before · ·)] {set set' : KeySet T}
  {key key' : T}

theorem has_congr (h : equivalent before key key') :
    has before set key = has before set key' := by
  rw [has, has]
  congr 1
  funext k
  rw [Bool.eq_iff_iff]
  exact ⟨equivalent_trans (equivalent_symm h), equivalent_trans h⟩

omit order in
theorem has_insert (h : has before set key) : has before (insert before set key') key := by
  rw [insert]
  split
  · exact h
  · rw [has, List.any_append, Bool.or_eq_true]
    exact .inl h

theorem has_insert_self : has before (insert before set key) key := by
  rw [insert]
  split
  · assumption
  · have hself : equivalent before key key := equivalent_refl key
    simp [has, hself]

theorem has_erase (h : has before set key) (hne : equivalent before key' key = false) :
    has before (erase before set key') key := by
  obtain ⟨k, hk, hkey⟩ := List.any_eq_true.1 h
  have hkeep : equivalent before key' k = false := by
    rw [Bool.eq_false_iff] at hne ⊢
    exact fun hk' => hne (equivalent_trans hk' (equivalent_symm hkey))
  exact List.any_eq_true.2 ⟨k, List.mem_filter.2 ⟨hk, by simp [hkeep]⟩, hkey⟩

/-- A member stays until a removal of an equivalent key is answered. -/
theorem stays {excused : ε → Prop} {log : List (SetRequest T × SetOutcome T ε)}
    (h : (live before).Explains excused set log set') (hhas : has before set key)
    (kept : ∀ k, (SetRequest.remove k, .ok (.flag true)) ∈ log → equivalent before k key = false) :
    has before set' key := by
  induction h with
  | nil => exact hhas
  | failure _ _ ih => exact ih hhas fun k hk => kept k (List.mem_cons_of_mem _ hk)
  | @answer d _ r a log ha _ ih =>
    refine ih ?_ fun k hk => kept k (List.mem_cons_of_mem _ hk)
    cases r with
    | add k => exact has_insert hhas
    | remove k =>
      have ha' : a = .flag (has before d k) := ha
      cases hk : has before d k with
      | true =>
        rw [ha', hk] at kept
        exact has_erase hhas (kept k List.mem_cons_self)
      | false =>
        have hsame : erase before d k = d := erase_of_not_has hk
        exact (congrArg (has before · key) hsame).trans hhas
    | _ => exact hhas

/-- Between two insertions of equivalent keys that both took place there is a removal. -/
theorem remove_between {excused : ε → Prop} {l₁ l₂ l₃ : List (SetRequest T × SetOutcome T ε)}
    (h : (live before).Explains excused set
      (l₁ ++ (.add key, .ok (.flag true)) :: (l₂ ++ (.add key', .ok (.flag true)) :: l₃)) set')
    (hsame : equivalent before key key') :
    ∃ k, (SetRequest.remove k, .ok (.flag true)) ∈ l₂ ∧ equivalent before k key := by
  obtain ⟨d₁, -, h₁⟩ := h.split
  cases h₁ with
  | answer _ h₁ =>
    obtain ⟨d₂, h₂, h₃⟩ := h₁.split
    by_contra hnone
    have hstays : has before d₂ key := stays h₂ has_insert_self fun k hk => by
      rw [Bool.eq_false_iff]
      exact fun hk' => hnone ⟨k, hk, hk'⟩
    rw [has_congr hsame] at hstays
    cases h₃ with
    | answer ha _ =>
      have habsent : SetAnswer.flag true = .flag (!has before d₂ key') := ha
      rw [hstays] at habsent
      cases habsent

end KeySet

namespace NodeRun

variable [DecidableEq Thread] {cb : SetCallbacks T ε σ} {before : T → T → Bool}
  {program : Thread → List (Errand T)} {s : NodeRun Thread T ε σ} {cells : List (Cell T)}
  {members : KeySet T}

/-- What the state of a run shows: a sound list under sound locks, and a log that is one of the
set. -/
structure Linearized (cb : SetCallbacks T ε σ) (before : T → T → Bool)
    (program : Thread → List (Errand T)) (s : NodeRun Thread T ε σ) (inner : List (Nat × T))
    (last : Nat) (members : KeySet T) : Prop where
  chain : Chain s.heap.nodes (cellsOf s.heap.head inner last)
  ascending : (inner.map Prod.snd).Pairwise (before · ·)
  /-- No thread has met a missing node or misused a lock. -/
  safe : ∀ t, ∀ task ∈ (s.callers t).task, task.phase ≠ .crashed
  owned : ∀ t a, s.heap.owner a = some t ↔ a ∈ (s.callers t).held
  /-- What a thread holds is linked, but for the node that it has itself cut out. -/
  rests : ∀ t, ∀ task ∈ (s.callers t).task, ∀ a ∈ task.phase.held, a ∉ task.phase.apart →
    On (cellsOf s.heap.head inner last) a
  awaits : ∀ t, ∀ task ∈ (s.callers t).task, ∀ a ∈ task.phase.awaited s.heap.head,
    On (cellsOf s.heap.head inner last) a
  /-- A node that is cut out stays until its remover deletes it, and nobody else holds it. -/
  apart : ∀ t, ∀ a ∈ (s.callers t).apart, s.heap.nodes a ≠ none ∧
    ∀ t' ≠ t, a ∉ (s.callers t').held
  explains : (KeySet.live before).Explains cb.Raises [] (s.log.map Prod.snd) members
  /-- Two insertions of equivalent keys take place only with a removal between them. -/
  separated : ∀ key key' l₁ l₂ l₃,
    s.log.map Prod.snd =
      l₁ ++ (.add key, .ok (.flag true)) :: (l₂ ++ (.add key', .ok (.flag true)) :: l₃) →
    equivalent before key key' →
    ∃ k, (SetRequest.remove k, .ok (.flag true)) ∈ l₂ ∧ equivalent before k key
  /-- What has returned is what was settled, in the order of the thread's program. -/
  answered : ∀ t, (s.callers t).returned ++ (s.callers t).settled = Interleaving.logOf s.log t
  kept : ∀ t, (Interleaving.logOf s.log t).map Prod.fst ++ (s.callers t).unsettled =
    (program t).map Errand.request
  /-- A search is settled while its thread holds two adjacent nodes, the first before the key. -/
  window : ∀ turn, (step cb s turn).log ≠ s.log → ∀ task ∈ (s.callers turn.1).task,
    ∀ kind key, task.errand = .search kind key → ∃ pred curr, task.phase.held = [pred, curr] ∧
      Ahead s.heap.nodes (cellsOf s.heap.head inner last) (fun p => p.precedes before key) pred curr

/-- Only a step of an operation in a settling phase writes to the log. -/
theorem settling_of_log {turn : Thread × Nat} (hlog : (step cb s turn).log ≠ s.log)
    {task : Task T ε} (htask : (s.callers turn.1).task = some task) : task.phase.settling := by
  have hstep := step_spec cb s turn
  generalize step cb s turn = s' at hstep hlog
  cases hstep with
  | acts hcaller hact =>
    rw [hcaller] at htask
    cases htask
    refine Task.settling_of_decided hact fun hnone => ?_
    simp [hnone] at hlog
  | _ => exact absurd rfl hlog

theorem Coherent.linearized [order : IsStrictWeakOrder T (before · ·)]
    (h : s.Coherent cb before program cells members) :
    ∃ inner last, s.Linearized cb before program inner last members := by
  obtain ⟨inner, last, rfl, ascending⟩ := h.linked.interior
  refine ⟨inner, last,
    { chain := h.linked.chain
      ascending
      safe := ?_
      owned := h.owned
      rests := fun t task htask => (h.stands t task htask).rests h.linked
      awaits := fun t task htask => (h.stands t task htask).awaits h.linked
      apart := ?_
      explains := h.explains
      separated := ?_
      answered := h.answered
      kept := h.kept
      window := ?_ }⟩
  · intro t task htask hcrashed
    have hstands := h.stands t task htask
    simp only [Task.Stands, hcrashed] at hstands
  · intro t a ha
    exact ⟨h.exist (List.mem_append_right _ ha), fun t' ht ha' => h.held_off (Ne.symm ht) ha' ha⟩
  · intro key key' l₁ l₂ l₃ hlog hsame
    have hexplains := h.explains
    rw [hlog] at hexplains
    exact KeySet.remove_between hexplains hsame
  · intro turn hlog task htask kind key errand
    exact (h.stands turn.1 task htask).window errand (settling_of_log hlog htask)

end NodeRun

/-- Whatever the threads ask of a coupled set, and whatever order their steps come in, the locks
keep the list sound and the operations are those of the set, in the order in which they were
settled. -/
theorem coupled_set_linearized [DecidableEq Thread] {cb : SetCallbacks T ε σ} {before : T → T → Bool}
    (order : IsStrictWeakOrder T (before · ·)) (follows : cb.Follows before) (outside : σ)
    (program : Thread → List (Errand T)) (schedule : List (Thread × Nat)) :
    ∃ inner last members, NodeRun.Linearized cb before program
      ((NodeRun.begin outside program).run cb schedule) inner last members := by
  obtain ⟨cells, members, h⟩ := (NodeRun.coherent_begin outside).run follows schedule
  obtain ⟨inner, last, hlinearized⟩ := h.linearized
  exact ⟨inner, last, members, hlinearized⟩

/-- Two threads that search for equivalent keys. -/
def twoSeekers : Bool → List (Errand Nat)
  | false => [.search .add 15, .search .remove 12]
  | true => [.search .add 17, .search .contains 19]

/-- The threads take turns; the second waits at the head until the first has inserted its key. -/
theorem coupled_set_linearized_twoSeekers :
    (∃ inner last members, NodeRun.Linearized (.fused byTens) byTens twoSeekers
      ((NodeRun.begin none twoSeekers).run (.fused byTens)
        ((List.range 80).map fun i => (decide (i % 2 = 1), i + 2))) inner last members) ∧
    ((NodeRun.begin none twoSeekers).run (.fused byTens)
      ((List.range 80).map fun i => (decide (i % 2 = 1), i + 2))).log =
      [(false, .add 15, .ok (.flag true)), (true, .add 17, .ok (.flag false)),
        (false, .remove 12, .ok (.flag true)), (true, .contains 19, .ok (.flag false))] :=
  ⟨coupled_set_linearized byTens_strictWeakOrder (SetCallbacks.fused_follows byTens) none
    twoSeekers _, by decide +kernel⟩

end LockedContainers
