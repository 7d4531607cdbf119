import Mathlib.Logic.Relation
import LockedContainers.Proofs.Set.Chain

/-!
# A thread alone on the nodes

While no other thread moves, the accesses of an operation follow one another.
Between two of them the keys are those that the thread has passed and those
ahead, so a traversal of the nodes goes where one of the keys goes.
-/
namespace LockedContainers

variable {Thread T ε σ β : Type}

/-- The thread holds these nodes, and nobody holds another. -/
def NodeHeap.locked [DecidableEq Thread] (heap : NodeHeap Thread T) (t : Thread)
    (held : List Nat) : NodeHeap Thread T :=
  { heap with owner := fun a => if a ∈ held then some t else none }

/-- The heap with this at the address. -/
def NodeHeap.write (heap : NodeHeap Thread T) (a : Nat) (node : Option (Node T)) : NodeHeap Thread T :=
  { heap with nodes := Function.update heap.nodes a node }

namespace Task

variable [DecidableEq Thread] {task : Task T ε} {t : Thread} {heap : NodeHeap Thread T}
  {held held' : List Nat} {a : Nat} {node : Node T} {phase : Phase T ε} {o : σ}

theorem acquire_locked (hnode : heap.nodes a = some node) (ha : a ∉ held) :
    task.acquire t a phase (heap.locked t held) o =
      task.goTo phase (heap.locked t (a :: held)) o := by
  have howner : (heap.locked t held).owner a = none := if_neg ha
  have hupdate : Function.update (heap.locked t held).owner a (some t) =
      (heap.locked t (a :: held)).owner := by
    funext x
    by_cases hx : x = a
    · subst hx
      simp [NodeHeap.locked]
    · simp [NodeHeap.locked, hx]
  rw [acquire, show (heap.locked t held).nodes a = some node from hnode, howner]
  simp only [hupdate]
  rfl

theorem release_locked (hnode : heap.nodes a = some node) (ha : a ∈ held)
    (rest : held.filter (· ≠ a) = held') :
    task.release t a phase (heap.locked t held) o =
      task.goTo phase (heap.locked t held') o := by
  have howner : (heap.locked t held).owner a = some t := if_pos ha
  have hupdate : Function.update (heap.locked t held).owner a none =
      (heap.locked t held').owner := by
    funext x
    by_cases hx : x = a
    · subst hx
      simp [NodeHeap.locked, ← rest]
    · simp [NodeHeap.locked, ← rest, hx]
  rw [release, if_pos ⟨by simp [NodeHeap.locked, hnode], howner⟩, hupdate]
  rfl

theorem relink_locked {next : Option Nat} (hnode : heap.nodes a = some node) :
    task.relink a next phase (heap.locked t held) o =
      some { heap := (heap.write a (some { node with next })).locked t held, outside := o
             task := { task with phase }, decided := some (.ok (.flag true)) } := by
  rw [relink, show (heap.locked t held).nodes a = some node from hnode]
  rfl

end Task

/-- An operation with the nodes and the state of the callbacks to itself. -/
structure Solo (Thread T ε σ : Type) where
  heap : NodeHeap Thread T
  outside : σ
  task : Task T ε

namespace Solo

variable [DecidableEq Thread]

/-- One access; a new node may come to any address. -/
def Moves (cb : SetCallbacks T ε σ) (t : Thread) (m m' : Solo Thread T ε σ) : Prop :=
  ∃ fresh decided,
    m.task.act cb t fresh m.heap m.outside = some ⟨m'.heap, m'.outside, m'.task, decided⟩

abbrev Runs (cb : SetCallbacks T ε σ) (t : Thread) :
    Solo Thread T ε σ → Solo Thread T ε σ → Prop :=
  Relation.ReflTransGen (Moves cb t)

/-- In a phase of an operation, with the locks of these nodes. -/
def holding (heap : NodeHeap Thread T) (t : Thread) (held : List Nat) (o : σ) (task : Task T ε)
    (phase : Phase T ε) : Solo Thread T ε σ :=
  ⟨heap.locked t held, o, { task with phase }⟩

section Accesses
variable {cb : SetCallbacks T ε σ} {t : Thread} {heap : NodeHeap Thread T} {task : Task T ε} {o : σ}
  {pred curr : Nat} {place : Place T} {node : Node T}

theorem enters (hnode : heap.nodes heap.head = some node) :
    Moves cb t (holding heap t [] o task .entering)
      (holding heap t [heap.head] o task (.resting heap.head)) :=
  ⟨0, none, Task.acquire_locked hnode List.not_mem_nil⟩

/-- From a node to the lock of the next one. -/
theorem visits (hpred : heap.nodes pred = some ⟨place, some curr⟩)
    (hcurr : heap.nodes curr = some node) (hne : curr ≠ pred) :
    Runs cb t (holding heap t [pred] o task (.resting pred))
      (holding heap t [curr, pred] o task (.visiting pred curr)) := by
  have hlink : Moves cb t (holding heap t [pred] o task (.resting pred))
      (holding heap t [pred] o task (.waiting pred curr)) := by
    refine ⟨0, none, ?_⟩
    simp only [holding, Task.act, NodeHeap.locked, hpred]
    rfl
  have hlock : Moves cb t (holding heap t [pred] o task (.waiting pred curr))
      (holding heap t [curr, pred] o task (.visiting pred curr)) :=
    ⟨0, none, Task.acquire_locked hcurr (by simpa using hne)⟩
  exact .tail (.single hlink) hlock

theorem visited {task' : Task T ε} {decided : Option (SetOutcome T ε)} {o' : σ}
    (hcurr : heap.nodes curr = some node)
    (h : ({ task with phase := .visiting pred curr } : Task T ε).visit cb pred curr node o =
      .ok (task', decided) o') :
    Moves cb t (holding heap t [curr, pred] o task (.visiting pred curr))
      ⟨heap.locked t [curr, pred], o', task'⟩ := by
  refine ⟨0, decided, ?_⟩
  simp only [holding, Task.act, NodeHeap.locked, hcurr, h]

/-- A callback that fails ends the operation. -/
theorem fails {e : ε} {o' : σ} (hcurr : heap.nodes curr = some node)
    (h : ({ task with phase := .visiting pred curr } : Task T ε).visit cb pred curr node o =
      .error e o') :
    Moves cb t (holding heap t [curr, pred] o task (.visiting pred curr))
      (holding heap t [curr, pred] o' task (.leaving pred curr (.settled (.error e)))) := by
  refine ⟨0, some (.error e), ?_⟩
  simp only [holding, Task.act, NodeHeap.locked, hcurr, h]
  rfl

theorem passes (hpred : heap.nodes pred = some node) (hne : curr ≠ pred) :
    Moves cb t (holding heap t [curr, pred] o task (.passing pred curr))
      (holding heap t [curr] o task (.resting curr)) :=
  ⟨0, none, Task.release_locked hpred (by simp) (by simp [hne])⟩

end Accesses
end Solo

/-- What an ending comes to when the counter stands at `count`. -/
def Ending.final (count : Nat) : Ending T ε → SetOutcome T ε
  | settled outcome => outcome
  | counting seen => .ok (.flag (seen = count))

namespace Solo

variable [DecidableEq Thread] {cb : SetCallbacks T ε σ} {t : Thread} {heap : NodeHeap Thread T}
  {task : Task T ε} {o : σ} {pred curr : Nat} {node : Node T}

/-- The last lock is given up. -/
theorem left (hpred : heap.nodes pred = some node) (ending : Ending T ε) :
    Runs cb t (holding heap t [pred] o task (.left pred ending))
      (holding heap t [] o task (.returning (ending.final heap.count))) := by
  have hnone : [pred].filter (· ≠ pred) = [] := by simp
  cases ending with
  | settled outcome =>
    exact .single ⟨0, none, Task.release_locked hpred List.mem_cons_self hnone⟩
  | counting seen =>
    have hrelease : Moves cb t (holding heap t [pred] o task (.left pred (.counting seen)))
        (holding heap t [] o task (.comparing seen)) :=
      ⟨0, none, Task.release_locked hpred List.mem_cons_self hnone⟩
    exact .tail (.single hrelease) ⟨0, some (.ok (.flag (seen = heap.count))), rfl⟩

/-- Both locks are given up. -/
theorem leaves (hpred : heap.nodes pred = some node) {node' : Node T}
    (hcurr : heap.nodes curr = some node') (hne : curr ≠ pred) (ending : Ending T ε) :
    Runs cb t (holding heap t [curr, pred] o task (.leaving pred curr ending))
      (holding heap t [] o task (.returning (ending.final heap.count))) := by
  have hrelease : Moves cb t (holding heap t [curr, pred] o task (.leaving pred curr ending))
      (holding heap t [pred] o task (.left pred ending)) :=
    ⟨0, none, Task.release_locked hcurr (by simp) (by simp [Ne.symm hne])⟩
  exact .head hrelease (left hpred ending)

end Solo

section Link
variable {passed ahead : List (Nat × T)} {last : Nat}

/-- The node that was passed last. -/
def lastOf (head : Nat) (passed : List (Nat × T)) : Nat := (passed.map Prod.fst).getLastD head

/-- The first node ahead. -/
def firstOf (ahead : List (Nat × T)) (last : Nat) : Nat := (ahead.map Prod.fst).headD last

@[simp] theorem lastOf_concat (head : Nat) (passed : List (Nat × T)) (c : Nat × T) :
    lastOf head (passed ++ [c]) = c.1 := by
  simp [lastOf]

/-- Cells with a link before and a link behind the middle ones. -/
theorem cellsOf_split (head last : Nat) (passed ahead : List (Nat × T)) :
    ∃ front p back, ∀ middle, cellsOf head (passed ++ middle ++ ahead) last =
      front ++ (lastOf head passed, p) :: (middle.map (fun c => (c.1, .at c.2)) ++
        (firstOf ahead last, Place.start (ahead.map Prod.snd)) :: back) := by
  have hfront : ∃ (front : List (Cell T)) (p : Place T),
      (head, .head) :: passed.map (fun c => (c.1, .at c.2)) = front ++ [(lastOf head passed, p)] := by
    rcases List.eq_nil_or_concat passed with rfl | ⟨init, c, rfl⟩
    · exact ⟨[], .head, rfl⟩
    · refine ⟨(head, .head) :: init.map (fun c => (c.1, .at c.2)), .at c.2, ?_⟩
      simp [lastOf]
  have hback : ∃ back : List (Cell T),
      ahead.map (fun c => (c.1, .at c.2)) ++ [(last, .tail)] =
        (firstOf ahead last, Place.start (ahead.map Prod.snd)) :: back := by
    cases ahead with
    | nil => exact ⟨[], rfl⟩
    | cons c ahead => exact ⟨ahead.map (fun c => (c.1, .at c.2)) ++ [(last, .tail)], rfl⟩
  obtain ⟨front, p, hfront⟩ := hfront
  obtain ⟨back, hback⟩ := hback
  refine ⟨front, p, back, fun middle => ?_⟩
  rw [cellsOf, List.map_append, List.map_append, ← List.cons_append, ← List.cons_append, hfront]
  simp [hback]

/-- The linked nodes, between the sentinels. -/
structure NodeHeap.Lists (heap : NodeHeap Thread T) (inner : List (Nat × T)) (last : Nat) : Prop where
  chain : Chain heap.nodes (cellsOf heap.head inner last)
  distinct : (cellsOf heap.head inner last).Pairwise fun c d => c.1 ≠ d.1

theorem NodeHeap.Lists.link {heap : NodeHeap Thread T} (h : heap.Lists (passed ++ ahead) last) :
    ∃ place next, heap.nodes (lastOf heap.head passed) = some ⟨place, some (firstOf ahead last)⟩ ∧
      heap.nodes (firstOf ahead last) = some ⟨Place.start (ahead.map Prod.snd), next⟩ ∧
      firstOf ahead last ≠ lastOf heap.head passed := by
  obtain ⟨front, p, back, hcells⟩ := cellsOf_split heap.head last passed ahead
  have hsplit := hcells []
  rw [List.append_nil] at hsplit
  have hchain := h.chain
  have hdistinct := h.distinct
  rw [hsplit] at hchain hdistinct
  exact ⟨p, _, hchain.right.1, hchain.right.2.1,
    (apart_of_distinct hdistinct).2 _ List.mem_cons_self⟩

/-- No node is linked behind the tail. -/
theorem NodeHeap.Lists.tail {heap : NodeHeap Thread T} {inner : List (Nat × T)}
    (h : heap.Lists inner last) : heap.nodes last = some ⟨.tail, none⟩ :=
  h.chain.right.1

end Link

namespace Solo

variable [DecidableEq Thread] {cb : SetCallbacks T ε σ} {t : Thread} {heap : NodeHeap Thread T}
  {task : Task T ε} {o : σ} {passed ahead : List (Nat × T)} {last : Nat}

/-- On the last node that was passed. -/
def resting (heap : NodeHeap Thread T) (t : Thread) (passed : List (Nat × T)) (o : σ)
    (task : Task T ε) : Solo Thread T ε σ :=
  holding heap t [lastOf heap.head passed] o task (.resting (lastOf heap.head passed))

/-- In a phase at the link between the nodes passed and the nodes ahead. -/
def between (heap : NodeHeap Thread T) (t : Thread) (last : Nat) (passed ahead : List (Nat × T))
    (o : σ) (task : Task T ε) (phase : Nat → Nat → Phase T ε) : Solo Thread T ε σ :=
  holding heap t [firstOf ahead last, lastOf heap.head passed] o task
    (phase (lastOf heap.head passed) (firstOf ahead last))

/-- A traversal of the nodes goes from the link to where one of the keys goes. -/
def Reaches (cb : SetCallbacks T ε σ) (t : Thread) (heap : NodeHeap Thread T) (last : Nat)
    (inner passed : List (Nat × T)) (o : σ) (task task' : Task T ε) (o' : σ)
    (phase : Nat → Nat → Phase T ε) : Prop :=
  ∃ passed' ahead', passed' ++ ahead' = inner ∧
    Runs cb t (resting heap t passed o task) (between heap t last passed' ahead' o' task' phase)

theorem rests_visits (h : heap.Lists (passed ++ ahead) last) :
    Runs cb t (resting heap t passed o task)
      (between heap t last passed ahead o task .visiting) := by
  obtain ⟨_, _, hpred, hcurr, hne⟩ := h.link
  exact visits hpred hcurr hne

/-- Over a node that the visit passes. -/
theorem advances {c : Nat × T} {task' : Task T ε} {o' : σ}
    (h : heap.Lists (passed ++ c :: ahead) last)
    (hvisit : ∀ pred curr next,
      ({ task with phase := .visiting pred curr } : Task T ε).visit cb pred curr ⟨.at c.2, next⟩ o =
        .ok ({ task' with phase := .passing pred curr }, none) o') :
    Runs cb t (resting heap t passed o task) (resting heap t (passed ++ [c]) o' task') := by
  obtain ⟨_, _, hpred, hcurr, hne⟩ := h.link
  have hpass : Moves cb t (between heap t last passed (c :: ahead) o' task' .passing)
      (resting heap t (passed ++ [c]) o' task') := by
    rw [resting, lastOf_concat]
    exact passes hpred hne
  exact ((rests_visits h).tail (visited hcurr (hvisit _ _ _))).tail hpass

/-- To the link where the visit leaves the traversal. -/
theorem stops {phase : Nat → Nat → Phase T ε} {decided : Nat → Nat → Option (SetOutcome T ε)}
    {task' : Task T ε} {o' : σ} {node : Node T} (h : heap.Lists (passed ++ ahead) last)
    (hcurr : heap.nodes (firstOf ahead last) = some node)
    (hvisit : ∀ pred curr, ({ task with phase := .visiting pred curr } : Task T ε).visit cb pred curr
      node o = .ok ({ task' with phase := phase pred curr }, decided pred curr) o') :
    Reaches cb t heap last (passed ++ ahead) passed o task task' o' phase :=
  ⟨passed, ahead, rfl, (rests_visits h).tail (visited hcurr (hvisit _ _))⟩

theorem breaks {e : ε} {o' : σ} {node : Node T} (h : heap.Lists (passed ++ ahead) last)
    (hcurr : heap.nodes (firstOf ahead last) = some node)
    (hvisit : ∀ pred curr, ({ task with phase := .visiting pred curr } : Task T ε).visit cb pred curr
      node o = .error e o') :
    Reaches cb t heap last (passed ++ ahead) passed o task task o'
      (.leaving · · (.settled (.error e))) :=
  ⟨passed, ahead, rfl, (rests_visits h).tail (fails hcurr (hvisit _ _))⟩

theorem Reaches.head {inner : List (Nat × T)} {passed' : List (Nat × T)} {task₁ task' : Task T ε}
    {o₁ o' : σ} {phase : Nat → Nat → Phase T ε}
    (hrun : Runs cb t (resting heap t passed o task) (resting heap t passed' o₁ task₁))
    (h : Reaches cb t heap last inner passed' o₁ task₁ task' o' phase) :
    Reaches cb t heap last inner passed o task task' o' phase := by
  obtain ⟨passed'', ahead'', hinner, hrun'⟩ := h
  exact ⟨passed'', ahead'', hinner, hrun.trans hrun'⟩

end Solo

section Search
variable {cb : SetCallbacks T ε σ} {task : Task T ε} {kind : SearchKind} {key k : T}
  {behind ahead : List T} {o o' : σ} {pred curr : Nat} {node : Node T}

theorem Cursor.seek_cons :
    seek cb key behind (k :: ahead) o =
      match cb.compare k key o with
      | .ok true o' => seek cb key (k :: behind) ahead o'
      | .ok false o' => .ok ⟨behind, k :: ahead⟩ o'
      | .error e o' => .error e o' := by
  simp only [seek, Place.isBefore, bind, EStateM.bind]
  cases cb.compare k key o with
  | ok b o' => cases b <;> rfl
  | error e o' => rfl

theorem Task.visit_search (errand : task.errand = .search kind key) :
    task.visit cb pred curr node o =
      match node.place.isBefore cb key o with
      | .ok true o' => .ok ({ task with phase := .passing pred curr }, none) o'
      | .ok false o' => .ok ({ task with phase := .located pred curr kind key }, none) o'
      | .error e o' => .error e o' := by
  simp only [visit, errand, bind, EStateM.bind]
  cases node.place.isBefore cb key o with
  | ok b o' => cases b <;> rfl
  | error e o' => rfl

end Search

namespace Solo

variable [DecidableEq Thread] {cb : SetCallbacks T ε σ} {t : Thread} {heap : NodeHeap Thread T}
  {task : Task T ε} {kind : SearchKind} {key : T} {last : Nat}

/-- A search stops at the cursor that the search of the keys finds. -/
theorem seeks (cb : SetCallbacks T ε σ) (t : Thread) (errand : task.errand = .search kind key)
    (ahead passed : List (Nat × T)) (o : σ) (h : heap.Lists (passed ++ ahead) last) :
    match Cursor.seek cb key (passed.map Prod.snd).reverse (ahead.map Prod.snd) o with
    | .ok c o' => ∃ passed' ahead', passed' ++ ahead' = passed ++ ahead ∧
        c = ⟨(passed'.map Prod.snd).reverse, ahead'.map Prod.snd⟩ ∧
        Runs cb t (resting heap t passed o task)
          (between heap t last passed' ahead' o' task (.located · · kind key))
    | .error e o' => Reaches cb t heap last (passed ++ ahead) passed o task task o'
        (.leaving · · (.settled (.error e))) := by
  induction ahead generalizing passed o with
  | nil =>
    exact ⟨passed, [], rfl, rfl,
      (rests_visits h).tail (visited h.tail (Task.visit_search errand))⟩
  | cons c ahead ih =>
    obtain ⟨_, _, _, hcurr, _⟩ := h.link
    rw [List.map_cons, Cursor.seek_cons]
    have hvisit : ∀ pred curr next, ({ task with phase := .visiting pred curr } : Task T ε).visit cb
        pred curr ⟨.at c.2, next⟩ o = _ := fun pred curr next => Task.visit_search errand
    simp only [Place.isBefore] at hvisit
    cases hcompare : cb.compare c.2 key o with
    | error e o' =>
      rw [hcompare] at hvisit
      exact breaks h hcurr (hvisit · · _)
    | ok b o' =>
      rw [hcompare] at hvisit
      cases b with
      | false =>
        exact ⟨passed, c :: ahead, rfl, rfl, (rests_visits h).tail (visited hcurr (hvisit _ _ _))⟩
      | true =>
        have hsplit : passed ++ c :: ahead = (passed ++ [c]) ++ ahead := by simp
        have hon := advances (t := t) h hvisit
        rw [hsplit] at h ⊢
        have hnext := ih (passed ++ [c]) o' h
        rw [List.map_append, List.reverse_append] at hnext
        revert hnext
        simp only [List.map_cons, List.map_nil, List.reverse_singleton, List.singleton_append]
        cases Cursor.seek cb key (c.2 :: (passed.map Prod.snd).reverse) (ahead.map Prod.snd) o' with
        | ok cursor o'' =>
          rintro ⟨passed', ahead', hinner, hcursor, hrun⟩
          exact ⟨passed', ahead', hinner, hcursor, hon.trans hrun⟩
        | error e o'' => exact fun hreach => hreach.head hon

end Solo

section Walk
variable (cb : SetCallbacks T ε σ) (visit : β → T → EStateM ε σ (β × Bool)) (carry : β → Task T ε)
  (ending : β → Ending T ε)

/-- The task walks over the nodes as `visit` over the keys, with what it carries along. -/
structure Walk : Prop where
  node : ∀ acc k pred curr next o,
    ({ carry acc with phase := .visiting pred curr } : Task T ε).visit cb pred curr ⟨.at k, next⟩ o =
      match visit acc k o with
      | .ok (acc', true) o' => .ok ({ carry acc' with phase := .passing pred curr }, none) o'
      | .ok (_, false) o' =>
        .ok ({ carry acc with phase := .leaving pred curr (.settled (.ok (.flag false))) },
          some (.ok (.flag false))) o'
      | .error e o' => .error e o'
  tail : ∀ acc, ∃ decided, ∀ pred curr o,
    ({ carry acc with phase := .visiting pred curr } : Task T ε).visit cb pred curr ⟨.tail, none⟩ o =
      .ok ({ carry acc with phase := .leaving pred curr (ending acc) }, decided) o

/-- How a walk ends, and what it leaves of the callbacks. -/
def Ending.ofWalk : EStateM.Result ε σ (β × Bool) → Ending T ε × σ
  | .ok (acc, true) o => (ending acc, o)
  | .ok (_, false) o => (.settled (.ok (.flag false)), o)
  | .error e o => (.settled (.error e), o)

theorem CoupledSet.traverse_cons (acc : β) (k : T) (ahead : List T) (o : σ) :
    traverse visit acc (k :: ahead) o =
      match visit acc k o with
      | .ok (acc', true) o' => traverse visit acc' ahead o'
      | .ok (acc', false) o' => .ok (acc', false) o'
      | .error e o' => .error e o' := by
  simp only [traverse, bind, EStateM.bind]
  cases visit acc k o with
  | ok r o' => obtain ⟨acc', _ | _⟩ := r <;> rfl
  | error e o' => rfl

end Walk

namespace Solo

variable [DecidableEq Thread] {cb : SetCallbacks T ε σ} {t : Thread} {heap : NodeHeap Thread T}
  {visit : β → T → EStateM ε σ (β × Bool)} {carry : β → Task T ε} {ending : β → Ending T ε}
  {last : Nat}

/-- A walk over the nodes ends as the one over the keys. -/
theorem walks (walk : Walk cb visit carry ending) (ahead passed : List (Nat × T)) (acc : β) (o : σ)
    (h : heap.Lists (passed ++ ahead) last) {final : Ending T ε} {o' : σ}
    (hfinal : Ending.ofWalk ending (CoupledSet.traverse visit acc (ahead.map Prod.snd) o) =
      (final, o')) :
    ∃ acc', Reaches cb t heap last (passed ++ ahead) passed o (carry acc) (carry acc') o'
      (.leaving · · final) := by
  induction ahead generalizing passed acc o with
  | nil =>
    cases hfinal
    obtain ⟨decided, htail⟩ := walk.tail acc
    exact ⟨acc, stops h h.tail fun _ _ => htail _ _ _⟩
  | cons c ahead ih =>
    obtain ⟨_, _, _, hcurr, _⟩ := h.link
    have hvisit := fun pred curr next => walk.node acc c.2 pred curr next o
    rw [List.map_cons, CoupledSet.traverse_cons] at hfinal
    cases hnode : visit acc c.2 o with
    | error e o₁ =>
      rw [hnode] at hvisit hfinal
      cases hfinal
      exact ⟨acc, breaks h hcurr (hvisit · · _)⟩
    | ok r o₁ =>
      rw [hnode] at hvisit hfinal
      obtain ⟨acc₁, _ | _⟩ := r
      · cases hfinal
        exact ⟨acc, stops h hcurr (hvisit · · _)⟩
      · have hsplit : passed ++ c :: ahead = (passed ++ [c]) ++ ahead := by simp
        have hon := advances (t := t) h hvisit
        rw [hsplit] at h ⊢
        obtain ⟨acc', hreach⟩ := ih (passed ++ [c]) acc₁ o₁ h hfinal
        exact ⟨acc', hreach.head hon⟩

end Solo
end LockedContainers
