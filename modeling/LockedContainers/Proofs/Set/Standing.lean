import LockedContainers.Proofs.Set.Chain
import LockedContainers.Proofs.Set.Sequential

/-!
# What a thread can rely on

A thread relies on the nodes whose locks it holds: they stay linked where they
are, and the link that it has read stays the link. It owns a node that it has
not linked yet, or has cut out. What others do elsewhere does not disturb it.
-/
namespace LockedContainers

variable {Thread T ε σ : Type}

/-- The outcome that is fixed already. -/
def Ending.outcome : Ending T ε → Option (SetOutcome T ε)
  | settled outcome => some outcome
  | counting _ => none

/-- Only an audit at rest has to read the counter. -/
def Ending.Suits (errand : Errand T) : Ending T ε → Prop
  | settled _ => True
  | counting _ => errand = .audit true

namespace Phase

/-- The nodes whose locks the thread holds. -/
def held : Phase T ε → List Nat
  | resting pred | waiting pred _ | deleting pred _ | left pred _ => [pred]
  | visiting pred curr | passing pred curr | located pred curr _ _ | building pred curr _
  | splicing pred curr _ | tallying pred curr | doomed pred curr | cutting pred curr _
  | discounting pred curr | dropping pred curr | leaving pred curr _ => [pred, curr]
  | entering | comparing _ | returning _ | crashed => []

/-- The node that the thread has not linked yet, or has cut out. -/
def apart : Phase T ε → List Nat
  | splicing _ _ node => [node]
  | discounting _ victim | dropping _ victim | deleting _ victim => [victim]
  | _ => []

/-- The node whose lock the thread waits for, when the list begins at `head`. -/
def awaited (head : Nat) : Phase T ε → Option Nat
  | entering => some head
  | waiting _ curr => some curr
  | _ => none

/-- Whether the next step may settle the operation. -/
def settling : Phase T ε → Bool
  | visiting _ _ | located _ _ _ _ | splicing _ _ _ | cutting _ _ _ | comparing _ => true
  | _ => false

/-- The outcome of the operation, once it is settled. -/
def decided : Phase T ε → Option (SetOutcome T ε)
  | tallying _ _ | discounting _ _ | dropping _ _ | deleting _ _ => some (.ok (.flag true))
  | leaving _ _ ending | left _ ending => ending.outcome
  | returning outcome => some outcome
  | _ => none

end Phase

/-- The node is linked at a place that fits, and its link is known to lead to `curr`. -/
def Ahead (nodes : Nat → Option (Node T)) (cells : List (Cell T)) (Fits : Place T → Prop)
    (pred curr : Nat) : Prop :=
  ∃ p, (pred, p) ∈ cells ∧ Fits p ∧ nodes pred = some ⟨p, some curr⟩

/-- Two adjacent nodes where the search for a key stops. -/
structure Brackets (before : T → T → Bool) (nodes : Nat → Option (Node T)) (cells : List (Cell T))
    (key : T) (pred curr : Nat) (q : Place T) (next : Option Nat) : Prop where
  ahead : Ahead nodes cells (fun p => p.precedes before key) pred curr
  current : nodes curr = some ⟨q, next⟩
  stopped : q.precedes before key = false

namespace Task

/-- What an operation knows when it has passed a place. -/
def Passed (before : T → T → Bool) (task : Task T ε) (p : Place T) : Prop :=
  match task.errand with
  | .search _ key => p.precedes before key
  | .snapshot => p ≠ .tail ∧ task.copied.toList.Pairwise (before · ·) ∧
      task.copied.toList.getLast? = p.key?
  | .audit _ => p ≠ .tail ∧ task.audited.1 = p.key?

theorem Passed.ne_tail {before : T → T → Bool} {task : Task T ε} {p : Place T}
    (h : task.Passed before p) : p ≠ .tail := by
  obtain ⟨errand, copied, audited, phase⟩ := task
  cases errand with
  | search kind key => exact Place.ne_tail_of_precedes h
  | snapshot => exact h.1
  | audit atRest => exact h.1

/-- An operation that has just been called has passed the head. -/
theorem passed_head (before : T → T → Bool) (errand : Errand T) :
    ({ errand } : Task T ε).Passed before .head := by
  cases errand with
  | search kind key => rfl
  | snapshot => exact ⟨by simp, .nil, rfl⟩
  | audit atRest => exact ⟨by simp, rfl⟩

/-- What the thread knows of the nodes it has in hand. -/
def Stands (before : T → T → Bool) (nodes : Nat → Option (Node T)) (cells : List (Cell T))
    (task : Task T ε) : Prop :=
  match task.phase with
  | .entering => task.Passed before .head
  | .resting pred => ∃ p, (pred, p) ∈ cells ∧ task.Passed before p
  | .waiting pred curr | .visiting pred curr => Ahead nodes cells (task.Passed before) pred curr
  | .passing pred curr =>
    pred ≠ curr ∧ On cells pred ∧ ∃ q, (curr, q) ∈ cells ∧ task.Passed before q
  | .located pred curr kind key =>
    task.errand = .search kind key ∧ ∃ q next, Brackets before nodes cells key pred curr q next
  | .building pred curr key =>
    task.errand = .search .add key ∧ ∃ q next,
      Brackets before nodes cells key pred curr q next ∧ q.reaches before key = false
  | .splicing pred curr node => ∃ key q next,
    task.errand = .search .add key ∧ Brackets before nodes cells key pred curr q next ∧
      q.reaches before key = false ∧ nodes node = some ⟨.at key, some curr⟩ ∧ ¬ On cells node
  | .doomed pred curr => ∃ key q next,
    task.errand = .search .remove key ∧ Brackets before nodes cells key pred curr q next ∧
      q.reaches before key
  | .cutting pred curr next => ∃ key q,
    task.errand = .search .remove key ∧ Brackets before nodes cells key pred curr q next ∧
      q.reaches before key
  | .tallying pred curr => pred ≠ curr ∧ On cells pred ∧ On cells curr
  | .discounting pred victim | .dropping pred victim | .deleting pred victim =>
    On cells pred ∧ nodes victim ≠ none ∧ ¬ On cells victim
  | .leaving pred curr ending =>
    (pred ≠ curr ∧ On cells pred ∧ On cells curr) ∧ ending.Suits task.errand
  | .left pred ending => On cells pred ∧ ending.Suits task.errand
  | .comparing _ => task.errand = .audit true
  | .returning _ => True
  | .crashed => False

end Task

/-- The node is as it was, and linked where it was, if at all. -/
structure Undisturbed (nodes : Nat → Option (Node T)) (cells : List (Cell T))
    (nodes' : Nat → Option (Node T)) (cells' : List (Cell T)) (a : Nat) : Prop where
  node : nodes' a = nodes a
  place : ∀ p, (a, p) ∈ cells' ↔ (a, p) ∈ cells

section Locks
variable {t : Thread} {owner : Nat → Option Thread} {held held' : List Nat}
  {a : Nat} (mine : ∀ x, owner x = some t ↔ x ∈ held)
include mine

/-- A lock that was free is taken. -/
theorem owner_take (free : owner a = none) (now : ∀ x, x ∈ held' ↔ x = a ∨ x ∈ held) :
    (∀ x, Function.update owner a (some t) x = some t ↔ x ∈ held') ∧
      ∀ x, ∀ t' ≠ t, (Function.update owner a (some t) x = some t' ↔ owner x = some t') := by
  refine ⟨fun x => ?_, fun x t' ht' => ?_⟩ <;> by_cases hx : x = a
  · simp [hx, now]
  · simp [hx, now, mine]
  · simp [hx, free, Ne.symm ht']
  · simp [hx]

/-- A lock in the thread's hands is given up. -/
theorem owner_give (now : ∀ x, x ∈ held ↔ x = a ∨ x ∈ held') (gone : a ∉ held') :
    (∀ x, Function.update owner a none x = some t ↔ x ∈ held') ∧
      ∀ x, ∀ t' ≠ t, (Function.update owner a none x = some t' ↔ owner x = some t') := by
  have howner : owner a = some t := (mine a).2 ((now a).2 (.inl rfl))
  refine ⟨fun x => ?_, fun x t' ht' => ?_⟩ <;> by_cases hx : x = a
  · simp [hx, gone]
  · simp [hx, mine, now]
  · simp [hx, howner, Ne.symm ht']
  · simp [hx]

/-- A lock in nobody's hands is free. -/
theorem owner_free (off : a ∉ held) (others : ∀ t' ≠ t, owner a ≠ some t') : owner a = none := by
  cases howner : owner a with
  | none => rfl
  | some t' =>
    by_cases ht : t' = t
    · subst ht
      exact absurd ((mine a).1 howner) off
    · exact absurd howner (others t' ht)

end Locks

section Frame
variable {before : T → T → Bool} {nodes nodes' : Nat → Option (Node T)}
  {cells cells' : List (Cell T)} {a pred curr : Nat}

theorem Undisturbed.on (h : Undisturbed nodes cells nodes' cells' a) :
    On cells' a ↔ On cells a :=
  exists_congr h.place

theorem Ahead.frame {Fits : Place T → Prop} (h : Ahead nodes cells Fits pred curr)
    (same : Undisturbed nodes cells nodes' cells' pred) : Ahead nodes' cells' Fits pred curr := by
  obtain ⟨p, hp, fits, hnode⟩ := h
  exact ⟨p, (same.place p).2 hp, fits, same.node.trans hnode⟩

theorem Brackets.frame {key : T} {q : Place T} {next : Option Nat}
    (h : Brackets before nodes cells key pred curr q next)
    (hpred : Undisturbed nodes cells nodes' cells' pred)
    (hcurr : Undisturbed nodes cells nodes' cells' curr) :
    Brackets before nodes' cells' key pred curr q next :=
  ⟨h.ahead.frame hpred, hcurr.node.trans h.current, h.stopped⟩

/-- What a thread knows stays true while nobody disturbs its nodes. -/
theorem Task.Stands.frame {task : Task T ε} (h : task.Stands before nodes cells)
    (same : ∀ a ∈ task.phase.held ++ task.phase.apart, Undisturbed nodes cells nodes' cells' a) :
    task.Stands before nodes' cells' := by
  obtain ⟨errand, copied, audited, phase⟩ := task
  cases phase with
  | entering => exact h
  | resting pred =>
    obtain ⟨p, hp, passed⟩ := h
    exact ⟨p, ((same pred (by simp [Phase.held])).place p).2 hp, passed⟩
  | waiting pred curr => exact Ahead.frame h (same pred (by simp [Phase.held]))
  | visiting pred curr => exact Ahead.frame h (same pred (by simp [Phase.held]))
  | passing pred curr =>
    obtain ⟨hne, hon, q, hq, passed⟩ := h
    exact ⟨hne, (same pred (by simp [Phase.held])).on.2 hon, q,
      ((same curr (by simp [Phase.held])).place q).2 hq, passed⟩
  | located pred curr kind key =>
    obtain ⟨herrand, q, next, hb⟩ := h
    exact ⟨herrand, q, next, hb.frame (same pred (by simp [Phase.held]))
      (same curr (by simp [Phase.held]))⟩
  | building pred curr key =>
    obtain ⟨herrand, q, next, hb, absent⟩ := h
    exact ⟨herrand, q, next, hb.frame (same pred (by simp [Phase.held]))
      (same curr (by simp [Phase.held])), absent⟩
  | splicing pred curr node =>
    obtain ⟨key, q, next, herrand, hb, absent, hnode, hoff⟩ := h
    have hsame := same node (by simp [Phase.apart])
    exact ⟨key, q, next, herrand, hb.frame (same pred (by simp [Phase.held]))
      (same curr (by simp [Phase.held])), absent, hsame.node.trans hnode,
      fun hon => hoff (hsame.on.1 hon)⟩
  | tallying pred curr =>
    exact ⟨h.1, (same pred (by simp [Phase.held])).on.2 h.2.1,
      (same curr (by simp [Phase.held])).on.2 h.2.2⟩
  | doomed pred curr =>
    obtain ⟨key, q, next, herrand, hb, present⟩ := h
    exact ⟨key, q, next, herrand, hb.frame (same pred (by simp [Phase.held]))
      (same curr (by simp [Phase.held])), present⟩
  | cutting pred curr next =>
    obtain ⟨key, q, herrand, hb, present⟩ := h
    exact ⟨key, q, herrand, hb.frame (same pred (by simp [Phase.held]))
      (same curr (by simp [Phase.held])), present⟩
  | discounting pred victim | dropping pred victim | deleting pred victim =>
    have hsame := same victim (by simp [Phase.apart])
    refine ⟨(same pred (by simp [Phase.held])).on.2 h.1, ?_, fun hon => h.2.2 (hsame.on.1 hon)⟩
    rw [hsame.node]
    exact h.2.1
  | leaving pred curr ending =>
    exact ⟨⟨h.1.1, (same pred (by simp [Phase.held])).on.2 h.1.2.1,
      (same curr (by simp [Phase.held])).on.2 h.1.2.2⟩, h.2⟩
  | left pred ending => exact ⟨(same pred (by simp [Phase.held])).on.2 h.1, h.2⟩
  | comparing seen => exact h
  | returning outcome => trivial
  | crashed => exact h

end Frame
section Rest
variable {before : T → T → Bool} [order : IsStrictWeakOrder T (before · ·)] {head : Nat}
  {nodes : Nat → Option (Node T)} {cells : List (Cell T)} {pred curr : Nat}
  (linked : Linked before head nodes cells)
include linked

/-- Behind a link that is known there is another linked node. -/
theorem Ahead.beside {Fits : Place T → Prop} (h : Ahead nodes cells Fits pred curr) :
    pred ≠ curr ∧ On cells pred ∧ On cells curr := by
  obtain ⟨p, hp, -, hnode⟩ := h
  obtain ⟨front, r, back, rfl⟩ := linked.next hp hnode
  refine ⟨?_, ⟨p, hp⟩, r, by simp⟩
  exact Ne.symm ((apart_of_distinct linked.distinct).2 (curr, r) List.mem_cons_self)

namespace Task
variable {task : Task T ε}

/-- A thread holds linked nodes only, its own victim apart. -/
theorem Stands.rests (h : task.Stands before nodes cells) :
    ∀ a ∈ task.phase.held, a ∉ task.phase.apart → On cells a := by
  obtain ⟨errand, copied, audited, phase⟩ := task
  have htwo {a pred curr : Nat} (ha : a ∈ [pred, curr])
      (hon : pred ≠ curr ∧ On cells pred ∧ On cells curr) : On cells a := by
    rcases List.mem_pair.1 ha with rfl | rfl
    · exact hon.2.1
    · exact hon.2.2
  intro a ha hoff
  cases phase with
  | entering | comparing _ | returning _ | crashed => cases ha
  | resting pred =>
    obtain ⟨p, hp, -⟩ := h
    exact ⟨p, List.mem_singleton.1 ha ▸ hp⟩
  | waiting pred curr => exact List.mem_singleton.1 ha ▸ (h.beside linked).2.1
  | visiting pred curr => exact htwo ha (h.beside linked)
  | passing pred curr =>
    obtain ⟨hne, hon, q, hq, -⟩ := h
    exact htwo ha ⟨hne, hon, q, hq⟩
  | located pred curr kind key =>
    obtain ⟨-, q, next, hb⟩ := h
    exact htwo ha (hb.ahead.beside linked)
  | building pred curr key =>
    obtain ⟨-, q, next, hb, -⟩ := h
    exact htwo ha (hb.ahead.beside linked)
  | splicing pred curr node =>
    obtain ⟨key, q, next, -, hb, -⟩ := h
    exact htwo ha (hb.ahead.beside linked)
  | doomed pred curr =>
    obtain ⟨key, q, next, -, hb, -⟩ := h
    exact htwo ha (hb.ahead.beside linked)
  | cutting pred curr next =>
    obtain ⟨key, q, -, hb, -⟩ := h
    exact htwo ha (hb.ahead.beside linked)
  | tallying pred curr => exact htwo ha h
  | leaving pred curr _ => exact htwo ha h.1
  | discounting pred victim | dropping pred victim =>
    rcases List.mem_pair.1 ha with rfl | rfl
    · exact h.1
    · exact absurd (List.mem_singleton_self _) hoff
  | deleting pred victim => exact List.mem_singleton.1 ha ▸ h.1
  | left pred _ => exact List.mem_singleton.1 ha ▸ h.1

/-- A thread waits for linked nodes only. -/
theorem Stands.awaits (h : task.Stands before nodes cells) :
    ∀ a ∈ task.phase.awaited head, On cells a := by
  obtain ⟨errand, copied, audited, phase⟩ := task
  intro a ha
  cases phase with
  | entering =>
    cases ha
    exact ⟨_, linked.head⟩
  | waiting pred curr =>
    cases ha
    exact (h.beside linked).2.2
  | _ => cases ha

omit order linked in
/-- A search is settled while its thread holds two adjacent nodes, the first before the key. -/
theorem Stands.window (h : task.Stands before nodes cells) {kind : SearchKind} {key : T}
    (errand : task.errand = .search kind key) (settling : task.phase.settling) :
    ∃ pred curr, task.phase.held = [pred, curr] ∧
      Ahead nodes cells (fun p => p.precedes before key) pred curr := by
  obtain ⟨errand', copied, audited, phase⟩ := task
  cases errand
  cases phase with
  | visiting pred curr => exact ⟨pred, curr, rfl, h⟩
  | located pred curr kind' key' =>
    obtain ⟨herrand, q, next, hb⟩ := h
    cases herrand
    exact ⟨pred, curr, rfl, hb.ahead⟩
  | splicing pred curr node =>
    obtain ⟨key', q, next, herrand, hb, -⟩ := h
    cases herrand
    exact ⟨pred, curr, rfl, hb.ahead⟩
  | cutting pred curr next =>
    obtain ⟨key', q, herrand, hb, -⟩ := h
    cases herrand
    exact ⟨pred, curr, rfl, hb.ahead⟩
  | comparing seen => cases h
  | _ => cases settling

omit order linked in
/-- A node that a thread has apart exists and is not linked. -/
theorem Stands.apart_off (h : task.Stands before nodes cells) :
    ∀ a ∈ task.phase.apart, nodes a ≠ none ∧ ¬ On cells a := by
  obtain ⟨errand, copied, audited, phase⟩ := task
  intro a ha
  cases phase with
  | splicing pred curr node =>
    obtain ⟨key, q, next, -, -, -, hnode, hoff⟩ := h
    rw [List.mem_singleton.1 ha, hnode]
    exact ⟨by simp, hoff⟩
  | discounting pred victim | dropping pred victim | deleting pred victim =>
    rw [List.mem_singleton.1 ha]
    exact h.2
  | _ => cases ha

end Task

omit order in
theorem Linked.ne_none_of_on {a : Nat} (h : On cells a) : nodes a ≠ none := by
  obtain ⟨p, hp⟩ := h
  obtain ⟨next, hnode⟩ := linked.node hp
  simp [hnode]

/-- The nodes in a thread's hands exist. -/
theorem Task.Stands.exist {task : Task T ε} (h : task.Stands before nodes cells) :
    ∀ a ∈ task.phase.held ++ task.phase.apart, nodes a ≠ none := by
  intro a ha
  by_cases hoff : a ∈ task.phase.apart
  · exact (h.apart_off a hoff).1
  · exact linked.ne_none_of_on (h.rests linked a ((List.mem_append.1 ha).resolve_right hoff) hoff)

end Rest
end LockedContainers
