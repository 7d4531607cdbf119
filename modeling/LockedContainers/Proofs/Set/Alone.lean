import LockedContainers.Proofs.Sequential
import LockedContainers.Proofs.Set.Solo

/-!
# The operations of a coupled set, node by node

When one thread alone uses the nodes, its steps carry out the operations on the
keys: with the same answers and failures, the same calls of the callbacks, and
nodes that hold the keys that the operation leaves.
-/
namespace LockedContainers

variable {Thread T ε σ : Type}

/-- Only finitely many addresses are in use. -/
def Bounded (nodes : Nat → Option (Node T)) : Prop := ∃ bound, ∀ a, bound ≤ a → nodes a = none

theorem Bounded.update {nodes : Nat → Option (Node T)} (h : Bounded nodes) (a : Nat)
    (node : Option (Node T)) : Bounded (Function.update nodes a node) := by
  obtain ⟨bound, hfree⟩ := h
  refine ⟨bound + (a + 1), fun x hx => ?_⟩
  rw [Function.update_of_ne (by omega)]
  exact hfree x (by omega)

namespace NodeHeap

/-- The nodes hold the keys of the set, and no lock is taken. -/
structure Holds (heap : NodeHeap Thread T) (set : CoupledSet T) : Prop where
  lists : ∃ inner last, heap.Lists inner last ∧ inner.map Prod.snd = set.keys
  count : heap.count = set.count
  free : ∀ a, heap.owner a = none
  bounded : Bounded heap.nodes

theorem holds_empty : (empty : NodeHeap Thread T).Holds {} where
  lists := ⟨[], 1, ⟨⟨rfl, rfl, trivial⟩, by simp [cellsOf, empty]⟩, rfl⟩
  count := rfl
  free _ := rfl
  bounded := by
    refine ⟨2, fun a ha => ?_⟩
    obtain ⟨b, rfl⟩ := Nat.exists_eq_add_of_le ha
    rw [Nat.add_comm]
    rfl

section Edit
variable {heap : NodeHeap Thread T} {passed ahead : List (Nat × T)} {last : Nat} {place : Place T}

/-- The heap with a node of the key at `n`, linked behind the last node passed. -/
def splice (heap : NodeHeap Thread T) (passed ahead : List (Nat × T)) (last n : Nat) (key : T)
    (place : Place T) : NodeHeap Thread T :=
  { (heap.write n (some ⟨.at key, some (firstOf ahead last)⟩)).write (lastOf heap.head passed)
      (some ⟨place, some n⟩) with
    count := heap.count + 1 }

theorem Lists.splice (h : heap.Lists (passed ++ ahead) last) {n : Nat} {key : T}
    (hn : heap.nodes n = none)
    (hpred : heap.nodes (lastOf heap.head passed) = some ⟨place, some (firstOf ahead last)⟩) :
    (heap.splice passed ahead last n key place).Lists (passed ++ (n, key) :: ahead) last := by
  obtain ⟨front, p, back, hcells⟩ := cellsOf_split heap.head last passed ahead
  have hbefore := hcells []
  have hafter := hcells [(n, key)]
  rw [List.append_nil, List.map_nil, List.nil_append] at hbefore
  rw [List.append_assoc, List.singleton_append, List.map_singleton, List.singleton_append] at hafter
  have hchain := h.chain
  have hdistinct := h.distinct
  rw [hbefore] at hchain hdistinct
  have hoff : ∀ c ∈ front ++ (lastOf heap.head passed, p) ::
      (firstOf ahead last, Place.start (ahead.map Prod.snd)) :: back, n ≠ c.1 := by
    rintro c hc rfl
    obtain ⟨_, hnode⟩ := hchain.node hc
    rw [hn] at hnode
    cases hnode
  have hplace : place = p := by
    have hlink := hchain.right.1
    rw [hpred] at hlink
    exact (Node.mk.inj (Option.some.inj hlink)).1
  constructor
  · change Chain _ (cellsOf heap.head _ last)
    rw [hafter, NodeHeap.splice, hplace]
    refine Chain.splice ?_ hdistinct (hoff (lastOf heap.head passed, p) (by simp))
      (Function.update_self ..)
    exact hchain.frame fun c hc => Function.update_of_ne (Ne.symm (hoff c hc)) ..
  · change (cellsOf heap.head _ last).Pairwise _
    rw [hafter, List.append_cons]
    rw [List.append_cons] at hdistinct hoff
    exact (List.pairwise_middle Ne.symm).2 (List.pairwise_cons.2 ⟨hoff, hdistinct⟩)

/-- The heap without the node at `victim`, which was linked behind the last node passed. -/
def cut (heap : NodeHeap Thread T) (passed : List (Nat × T)) (victim : Nat) (place : Place T)
    (next : Option Nat) : NodeHeap Thread T :=
  { (heap.write (lastOf heap.head passed) (some ⟨place, next⟩)).write victim none with
    count := heap.count - 1 }

theorem Lists.cut {victim : Nat} {k : T} {q : Place T} {next : Option Nat}
    (h : heap.Lists (passed ++ (victim, k) :: ahead) last)
    (hpred : heap.nodes (lastOf heap.head passed) = some ⟨place, some victim⟩)
    (hvictim : heap.nodes victim = some ⟨q, next⟩) :
    (heap.cut passed victim place next).Lists (passed ++ ahead) last := by
  obtain ⟨front, p, back, hcells⟩ := cellsOf_split heap.head last passed ahead
  have hbefore := hcells [(victim, k)]
  have hafter := hcells []
  rw [List.append_nil, List.map_nil, List.nil_append] at hafter
  rw [List.append_assoc, List.singleton_append, List.map_singleton, List.singleton_append] at hbefore
  have hchain := h.chain
  have hdistinct := h.distinct
  rw [hbefore] at hchain hdistinct
  have hplace : place = p := by
    have hlink := hchain.right.1
    rw [hpred] at hlink
    exact (Node.mk.inj (Option.some.inj hlink)).1
  have hcut := hchain.cut hdistinct hvictim
  rw [List.append_cons] at hdistinct
  have hremoved := List.pairwise_cons.1 ((List.pairwise_middle Ne.symm).1 hdistinct)
  rw [← List.append_cons] at hremoved
  constructor
  · change Chain _ (cellsOf heap.head _ last)
    rw [hafter, NodeHeap.cut, hplace]
    exact hcut.frame fun c hc => Function.update_of_ne (Ne.symm (hremoved.1 c hc)) ..
  · change (cellsOf heap.head _ last).Pairwise _
    rw [hafter]
    exact hremoved.2

end Edit

theorem Holds.locked_nil [DecidableEq Thread] {heap : NodeHeap Thread T} {set : CoupledSet T}
    {t : Thread} (h : heap.Holds set) : heap.locked t [] = heap := by
  have howner : (heap.locked t []).owner = heap.owner := by
    funext a
    rw [h.free a]
    rfl
  obtain ⟨head, nodes, owner, count⟩ := heap
  simp only [locked] at howner
  simp only [locked, howner]

end NodeHeap

namespace SearchKind

/-- The answer of a search that has compared its key with the one where it stopped. -/
def answers : SearchKind → Bool → Bool
  | add, same => !same
  | remove, same => same
  | contains, same => same

/-- The set after it. -/
def updates (c : Cursor T) (key : T) (set : CoupledSet T) : SearchKind → Bool → CoupledSet T
  | add, false => ⟨(c.splice key).toList, set.count + 1⟩
  | remove, true => ⟨c.unlink.toList, set.count - 1⟩
  | _, _ => set

end SearchKind

namespace Errand

variable (cb : SetCallbacks T ε σ) (set : CoupledSet T) (o : σ)

theorem perform_search (kind : SearchKind) (key : T) :
    (search kind key).request.perform cb ⟨set, o⟩ =
      match Cursor.seek cb key [] set.keys o with
      | .error e o' => resultOf (.error e) ⟨set, o'⟩
      | .ok c o' =>
        match c.current.isSame cb key o' with
        | .error e o' => resultOf (.error e) ⟨set, o'⟩
        | .ok same o' =>
          resultOf (.ok (.flag (kind.answers same))) ⟨kind.updates c key set same, o'⟩ := by
  cases kind <;>
    simp only [request, SetRequest.perform, LockedSet.add, LockedSet.remove, LockedSet.contains,
      CoupledSet.add, CoupledSet.remove, CoupledSet.contains, Functor.map, EStateM.map, bind,
      EStateM.bind, Guarded.read, Guarded.call, onPart] <;>
    cases Cursor.seek cb key [] set.keys o with
    | error e o' => rfl
    | ok c o' =>
      simp only
      cases c.current.isSame cb key o' with
      | error e o' => rfl
      | ok same o' => cases same <;> rfl

theorem perform_snapshot :
    (snapshot : Errand T).request.perform cb ⟨set, o⟩ =
      match CoupledSet.traverse (CoupledSet.copyNode cb) #[] set.keys o with
      | .error e o' => resultOf (.error e) ⟨set, o'⟩
      | .ok (copied, _) o' => resultOf (.ok (.keys copied.toList)) ⟨set, o'⟩ := by
  simp only [request, SetRequest.perform, LockedSet.snapshot, CoupledSet.snapshot, Functor.map,
    EStateM.map, bind, EStateM.bind, Guarded.read, Guarded.call, onPart]
  cases CoupledSet.traverse (CoupledSet.copyNode cb) #[] set.keys o <;> rfl

theorem perform_audit (atRest : Bool) :
    (audit atRest : Errand T).request.perform cb ⟨set, o⟩ =
      match CoupledSet.traverse (CoupledSet.auditNode cb) (none, 0) set.keys o with
      | .error e o' => resultOf (.error e) ⟨set, o'⟩
      | .ok ((_, seen), reached) o' =>
        resultOf (.ok (.flag (reached && (!atRest || seen = set.count)))) ⟨set, o'⟩ := by
  cases atRest <;>
    simp only [request, SetRequest.perform, LockedSet.audit, LockedSet.auditLive, CoupledSet.audit,
      Functor.map, EStateM.map, bind, EStateM.bind, Guarded.read, Guarded.call, onPart] <;>
    cases CoupledSet.traverse (CoupledSet.auditNode cb) (none, 0) set.keys o <;> rfl

end Errand

namespace Solo

variable [DecidableEq Thread] {cb : SetCallbacks T ε σ} {t : Thread} {heap : NodeHeap Thread T}
  {task : Task T ε} {set : CoupledSet T} {o : σ} {passed ahead : List (Nat × T)} {last : Nat}
  {key : T}

/-- From here the operation comes to this result, and leaves nodes that hold its set. -/
def Returns (cb : SetCallbacks T ε σ) (t : Thread) (errand : Errand T) (m : Solo Thread T ε σ)
    (result : EStateM.Result ε (Shared (CoupledSet T) σ) (SetAnswer T)) : Prop :=
  ∃ m' outcome set', Runs cb t m m' ∧ m'.task.phase = .returning outcome ∧
    m'.task.errand = errand ∧ m'.heap.Holds set' ∧ result = resultOf outcome ⟨set', m'.outside⟩

theorem Returns.head {errand : Errand T} {m m' : Solo Thread T ε σ}
    {result : EStateM.Result ε (Shared (CoupledSet T) σ) (SetAnswer T)} (hrun : Runs cb t m m')
    (h : Returns cb t errand m' result) : Returns cb t errand m result := by
  obtain ⟨m'', outcome, set', hrest, h⟩ := h
  exact ⟨m'', outcome, set', hrun.trans hrest, h⟩

theorem leaving_returns (h : heap.Holds set) {pred curr : Nat} {node node' : Node T}
    (hpred : heap.nodes pred = some node) (hcurr : heap.nodes curr = some node')
    (hne : curr ≠ pred) (ending : Ending T ε) :
    Returns cb t task.errand (holding heap t [curr, pred] o task (.leaving pred curr ending))
      (resultOf (ending.final set.count) ⟨set, o⟩) := by
  refine ⟨_, _, set, leaves hpred hcurr hne ending, rfl, rfl, ?_, ?_⟩
  · rw [holding, h.locked_nil]
    exact h
  · rw [h.count]
    rfl

/-- A new node is built at `n`, linked and counted. -/
theorem splices {n : Nat} {place : Place T} (hn : heap.nodes n = none)
    (hpred : heap.nodes (lastOf heap.head passed) = some ⟨place, some (firstOf ahead last)⟩) :
    Runs cb t (between heap t last passed ahead o task (.building · · key))
      (between (heap.splice passed ahead last n key place) t last passed ahead o task
        (.leaving · · (.settled (.ok (.flag true))))) := by
  have hpn : lastOf heap.head passed ≠ n := by
    intro hsame
    rw [hsame, hn] at hpred
    cases hpred
  have hbuilt : (heap.write n (some ⟨.at key, some (firstOf ahead last)⟩)).nodes
      (lastOf heap.head passed) = some ⟨place, some (firstOf ahead last)⟩ :=
    (Function.update_of_ne hpn ..).trans hpred
  have hbuild : Moves cb t (between heap t last passed ahead o task (.building · · key))
      (between (heap.write n (some ⟨.at key, some (firstOf ahead last)⟩)) t last passed ahead o task
        (.splicing · · n)) := by
    refine ⟨n, none, ?_⟩
    simp only [between, holding, Task.act, NodeHeap.locked, hn]
    rfl
  have hlink : Moves cb t
      (between (heap.write n (some ⟨.at key, some (firstOf ahead last)⟩)) t last passed ahead o task
        (.splicing · · n))
      (between ((heap.write n (some ⟨.at key, some (firstOf ahead last)⟩)).write
        (lastOf heap.head passed) (some ⟨place, some n⟩)) t last passed ahead o task .tallying) :=
    ⟨0, _, Task.relink_locked hbuilt⟩
  exact ((Relation.ReflTransGen.single hbuild).tail hlink).tail ⟨0, none, rfl⟩

theorem building_returns (h : heap.Holds set) (lists : heap.Lists (passed ++ ahead) last) :
    Returns cb t task.errand (between heap t last passed ahead o task (.building · · key))
      (resultOf (.ok (.flag true))
        ⟨⟨passed.map Prod.snd ++ key :: ahead.map Prod.snd, set.count + 1⟩, o⟩) := by
  obtain ⟨place, next, hpred, hcurr, hne⟩ := lists.link
  obtain ⟨n, hfree⟩ := h.bounded
  have hn : heap.nodes n = none := hfree n (Nat.le_refl n)
  have hcn : firstOf ahead last ≠ n := by
    intro hsame
    rw [hsame, hn] at hcurr
    cases hcurr
  have hholds : (heap.splice passed ahead last n key place).Holds
      ⟨passed.map Prod.snd ++ key :: ahead.map Prod.snd, set.count + 1⟩ :=
    { lists := ⟨_, last, lists.splice hn hpred, by simp⟩
      count := by rw [NodeHeap.splice, h.count]
      free := h.free
      bounded := (Bounded.update h.bounded _ _).update _ _ }
  have hpred' : (heap.splice passed ahead last n key place).nodes (lastOf heap.head passed) =
      some ⟨place, some n⟩ := Function.update_self ..
  have hcurr' : (heap.splice passed ahead last n key place).nodes (firstOf ahead last) =
      some ⟨Place.start (ahead.map Prod.snd), next⟩ :=
    (Function.update_of_ne hne ..).trans ((Function.update_of_ne hcn ..).trans hcurr)
  exact (leaving_returns hholds hpred' hcurr' hne _).head (splices hn hpred)

/-- The node ahead is unlinked, discounted and deleted. -/
theorem cuts {victim : Nat} {k : T} {place q : Place T} {next : Option Nat}
    (hpred : heap.nodes (lastOf heap.head passed) = some ⟨place, some victim⟩)
    (hvictim : heap.nodes victim = some ⟨q, next⟩) (hne : victim ≠ lastOf heap.head passed) :
    Runs cb t (between heap t last passed ((victim, k) :: ahead) o task .doomed)
      (holding (heap.cut passed victim place next) t [lastOf heap.head passed] o task
        (.left (lastOf heap.head passed) (.settled (.ok (.flag true))))) := by
  have hlook : Moves cb t (between heap t last passed ((victim, k) :: ahead) o task .doomed)
      (between heap t last passed ((victim, k) :: ahead) o task (.cutting · · next)) := by
    refine ⟨0, none, ?_⟩
    simp only [between, holding, Task.act, NodeHeap.locked]
    rw [show heap.nodes (firstOf ((victim, k) :: ahead) last) = _ from hvictim]
    rfl
  have hlink : Moves cb t
      (between heap t last passed ((victim, k) :: ahead) o task (.cutting · · next))
      (between (heap.write (lastOf heap.head passed) (some ⟨place, next⟩)) t last passed
        ((victim, k) :: ahead) o task .discounting) := ⟨0, _, Task.relink_locked hpred⟩
  have hkept : (heap.write (lastOf heap.head passed) (some ⟨place, next⟩)).nodes victim =
      some ⟨q, next⟩ := (Function.update_of_ne hne ..).trans hvictim
  have hdrop : Moves cb t
      (holding { heap.write (lastOf heap.head passed) (some ⟨place, next⟩) with
        count := heap.count - 1 } t [victim, lastOf heap.head passed] o task
        (.dropping (lastOf heap.head passed) victim))
      (holding { heap.write (lastOf heap.head passed) (some ⟨place, next⟩) with
        count := heap.count - 1 } t [lastOf heap.head passed] o task
        (.deleting (lastOf heap.head passed) victim)) :=
    ⟨0, none, Task.release_locked hkept List.mem_cons_self (by simp [Ne.symm hne])⟩
  have hdelete : Moves cb t
      (holding { heap.write (lastOf heap.head passed) (some ⟨place, next⟩) with
        count := heap.count - 1 } t [lastOf heap.head passed] o task
        (.deleting (lastOf heap.head passed) victim))
      (holding (heap.cut passed victim place next) t [lastOf heap.head passed] o task
        (.left (lastOf heap.head passed) (.settled (.ok (.flag true))))) := by
    refine ⟨0, none, ?_⟩
    simp only [holding, Task.act, NodeHeap.locked, List.mem_singleton, if_neg hne, hkept]
    rfl
  have hunlink := (Relation.ReflTransGen.single hlook).tail hlink
  exact ((hunlink.tail ⟨0, none, rfl⟩).tail hdrop).tail hdelete

theorem doomed_returns (h : heap.Holds set) {victim : Nat} {k : T}
    (lists : heap.Lists (passed ++ (victim, k) :: ahead) last) :
    Returns cb t task.errand (between heap t last passed ((victim, k) :: ahead) o task .doomed)
      (resultOf (.ok (.flag true))
        ⟨⟨passed.map Prod.snd ++ ahead.map Prod.snd, set.count - 1⟩, o⟩) := by
  obtain ⟨place, next, hpred, hvictim, hne⟩ := lists.link
  have hholds : (heap.cut passed victim place next).Holds
      ⟨passed.map Prod.snd ++ ahead.map Prod.snd, set.count - 1⟩ :=
    { lists := ⟨_, last, lists.cut hpred hvictim, by simp⟩
      count := by rw [NodeHeap.cut, h.count]
      free := h.free
      bounded := (Bounded.update h.bounded _ _).update _ _ }
  have hpred' : (heap.cut passed victim place next).nodes (lastOf heap.head passed) =
      some ⟨place, next⟩ :=
    (Function.update_of_ne (Ne.symm hne) ..).trans (Function.update_self ..)
  refine ⟨_, _, _, (cuts hpred hvictim hne).trans (left hpred' _), rfl, rfl, ?_, rfl⟩
  rw [holding, hholds.locked_nil]
  exact hholds

theorem tested {kind : SearchKind} {same : Bool} {o' : σ} {place : Place T} {next : Option Nat}
    (phase : Nat → Nat → Phase T ε) {decided : Option (SetOutcome T ε)}
    (hcurr : heap.nodes (firstOf ahead last) = some ⟨place, next⟩)
    (htest : place.isSame cb key o = .ok same o')
    (hconclude : task.conclude (lastOf heap.head passed) (firstOf ahead last) key
      (heap.locked t [firstOf ahead last, lastOf heap.head passed]) o' kind same =
        some ⟨heap.locked t [firstOf ahead last, lastOf heap.head passed], o',
          { task with phase := phase (lastOf heap.head passed) (firstOf ahead last) }, decided⟩) :
    Runs cb t (between heap t last passed ahead o task (.located · · kind key))
      (between heap t last passed ahead o' task phase) := by
  refine .single ⟨0, decided, ?_⟩
  simp only [between, holding, Task.act, NodeHeap.locked, hcurr, htest]
  exact hconclude

/-- An answer that the equivalence test settles. -/
theorem answered_returns (h : heap.Holds set) (lists : heap.Lists (passed ++ ahead) last)
    {kind : SearchKind} {same b : Bool} {o' : σ}
    (htest : (Place.start (ahead.map Prod.snd)).isSame cb key o = .ok same o')
    (hconclude : task.conclude (lastOf heap.head passed) (firstOf ahead last) key
      (heap.locked t [firstOf ahead last, lastOf heap.head passed]) o' kind same =
        task.settle (lastOf heap.head passed) (firstOf ahead last) (.ok (.flag b))
          (heap.locked t [firstOf ahead last, lastOf heap.head passed]) o') :
    Returns cb t task.errand (between heap t last passed ahead o task (.located · · kind key))
      (resultOf (.ok (.flag b)) ⟨set, o'⟩) := by
  obtain ⟨place, next, hpred, hcurr, hne⟩ := lists.link
  exact (leaving_returns h hpred hcurr hne (.settled (.ok (.flag b)))).head
    (tested (.leaving · · (.settled (.ok (.flag b)))) hcurr htest hconclude)

/-- What follows the equivalence test at the cursor. -/
theorem located_returns (h : heap.Holds set) (lists : heap.Lists (passed ++ ahead) last)
    (kind : SearchKind) {c : Cursor T}
    (hcursor : c = ⟨(passed.map Prod.snd).reverse, ahead.map Prod.snd⟩) :
    Returns cb t task.errand (between heap t last passed ahead o task (.located · · kind key))
      (match c.current.isSame cb key o with
        | .error e o' => resultOf (.error e) ⟨set, o'⟩
        | .ok same o' =>
          resultOf (.ok (.flag (kind.answers same))) ⟨kind.updates c key set same, o'⟩) := by
  obtain ⟨place, next, hpred, hcurr, hne⟩ := lists.link
  subst hcursor
  rw [Cursor.current]
  cases htest : (Place.start (ahead.map Prod.snd)).isSame cb key o with
  | error e o' =>
    have hfail : Moves cb t (between heap t last passed ahead o task (.located · · kind key))
        (between heap t last passed ahead o' task (.leaving · · (.settled (.error e)))) := by
      refine ⟨0, some (.error e), ?_⟩
      simp only [between, holding, Task.act, NodeHeap.locked, hcurr, htest]
      rfl
    exact (leaving_returns h hpred hcurr hne _).head (.single hfail)
  | ok same o' =>
    cases kind with
    | contains => exact answered_returns h lists htest rfl
    | add =>
      cases same with
      | true => exact answered_returns h lists htest rfl
      | false =>
        refine Returns.head (tested (.building · · key) hcurr htest rfl) ?_
        simpa [SearchKind.answers, SearchKind.updates] using building_returns h lists
    | remove =>
      cases same with
      | false => exact answered_returns h lists htest rfl
      | true =>
        cases ahead with
        | nil => cases htest
        | cons v ahead =>
          refine Returns.head (tested .doomed hcurr htest rfl) ?_
          simpa [SearchKind.answers, SearchKind.updates] using doomed_returns h lists

theorem starts (h : heap.Holds set) {inner : List (Nat × T)} (lists : heap.Lists inner last)
    (errand : Errand T) :
    Runs cb t ⟨heap, o, { errand }⟩ (resting heap t [] o { errand }) := by
  have hlists : heap.Lists ([] ++ inner) last := lists
  obtain ⟨place, next, hpred, -, -⟩ := hlists.link
  have henter : Moves cb t (holding heap t [] o { errand } .entering)
      (resting heap t [] o { errand }) := enters hpred
  rw [holding, h.locked_nil] at henter
  exact .single henter

/-- Reaching the end of a walk. -/
theorem Reaches.returns {errand : Errand T} {inner : List (Nat × T)} {task' : Task T ε} {o' : σ}
    {ending : Ending T ε} (h : heap.Holds set) (lists : heap.Lists inner last)
    (hreach : Reaches cb t heap last inner passed o task task' o' (.leaving · · ending))
    (herrand : task'.errand = errand) :
    Returns cb t errand (resting heap t passed o task)
      (resultOf (ending.final set.count) ⟨set, o'⟩) := by
  obtain ⟨passed', ahead', rfl, hrun⟩ := hreach
  obtain ⟨place, next, hpred, hcurr, hne⟩ := lists.link
  subst herrand
  exact (leaving_returns h hpred hcurr hne ending).head hrun

theorem search_returns (h : heap.Holds set) (kind : SearchKind) (key : T) :
    Returns cb t (.search kind key) ⟨heap, o, { errand := .search kind key }⟩
      ((Errand.search kind key).request.perform cb ⟨set, o⟩) := by
  obtain ⟨inner, last, lists, hkeys⟩ := h.lists
  refine Returns.head (starts h lists _) ?_
  have hseek := seeks cb t (rfl : ({ errand := .search kind key } : Task T ε).errand = _)
    inner [] o lists
  rw [Errand.perform_search, ← hkeys]
  revert hseek
  rw [List.map_nil, List.reverse_nil, List.nil_append]
  cases Cursor.seek cb key [] (inner.map Prod.snd) o with
  | error e o' => exact fun hreach => hreach.returns h lists rfl
  | ok c o' =>
    rintro ⟨passed, ahead, rfl, hcursor, hrun⟩
    exact (located_returns h lists kind hcursor).head hrun

theorem snapshot_walk (cb : SetCallbacks T ε σ) :
    Walk cb (CoupledSet.copyNode cb) (fun copied => { errand := .snapshot, copied })
      (fun copied => .settled (.ok (.keys copied.toList))) where
  node copied k pred curr next o := by
    simp only [Task.visit, bind, EStateM.bind, CoupledSet.copyNode]
    cases cb.copy k o <;> rfl
  tail copied := ⟨some (.ok (.keys copied.toList)), fun _ _ _ => rfl⟩

theorem audit_walk (cb : SetCallbacks T ε σ) (atRest : Bool) :
    Walk cb (CoupledSet.auditNode cb) (fun audited => { errand := .audit atRest, audited })
      (fun audited => if atRest then .counting audited.2 else .settled (.ok (.flag true))) where
  node audited k pred curr next o := by
    cases atRest <;> simp only [Task.visit, bind, EStateM.bind] <;>
      cases CoupledSet.auditNode cb audited k o with
      | error e o' => rfl
      | ok r o' => obtain ⟨audited', _ | _⟩ := r <;> rfl
  tail audited := by
    cases atRest with
    | false => exact ⟨_, fun _ _ _ => rfl⟩
    | true => exact ⟨_, fun _ _ _ => rfl⟩

theorem snapshot_reached (cb : SetCallbacks T ε σ) (copied : Array T) (keys : List T) (o : σ)
    {copied' : Array T} {reached : Bool} {o' : σ}
    (h : CoupledSet.traverse (CoupledSet.copyNode cb) copied keys o = .ok (copied', reached) o') :
    reached = true := by
  induction keys generalizing copied o with
  | nil =>
    cases h
    rfl
  | cons k keys ih =>
    rw [CoupledSet.traverse_cons] at h
    simp only [CoupledSet.copyNode, bind, EStateM.bind] at h
    cases hcopy : cb.copy k o with
    | error e o₁ =>
      rw [hcopy] at h
      cases h
    | ok k' o₁ =>
      rw [hcopy] at h
      exact ih _ _ h

theorem snapshot_returns (h : heap.Holds set) :
    Returns cb t .snapshot ⟨heap, o, { errand := .snapshot }⟩
      ((Errand.snapshot : Errand T).request.perform cb ⟨set, o⟩) := by
  obtain ⟨inner, last, lists, hkeys⟩ := h.lists
  refine Returns.head (starts h lists _) ?_
  obtain ⟨acc', hreach⟩ := walks (t := t) (snapshot_walk cb) inner [] #[] o lists rfl
  have hreturns := hreach.returns h lists rfl
  rw [Errand.perform_snapshot, ← hkeys]
  cases htraverse : CoupledSet.traverse (CoupledSet.copyNode cb) #[] (inner.map Prod.snd) o with
  | error e o' =>
    rw [htraverse] at hreturns
    exact hreturns
  | ok r o' =>
    obtain ⟨copied, reached⟩ := r
    obtain rfl := snapshot_reached cb _ _ _ htraverse
    rw [htraverse] at hreturns
    exact hreturns

theorem audit_returns (h : heap.Holds set) (atRest : Bool) :
    Returns cb t (.audit atRest) ⟨heap, o, { errand := .audit atRest }⟩
      ((Errand.audit atRest : Errand T).request.perform cb ⟨set, o⟩) := by
  obtain ⟨inner, last, lists, hkeys⟩ := h.lists
  refine Returns.head (starts h lists _) ?_
  obtain ⟨acc', hreach⟩ := walks (t := t) (audit_walk cb atRest) inner [] (none, 0) o lists rfl
  have hreturns := hreach.returns h lists rfl
  rw [Errand.perform_audit, ← hkeys]
  cases htraverse : CoupledSet.traverse (CoupledSet.auditNode cb) (none, 0) (inner.map Prod.snd) o with
  | error e o' =>
    rw [htraverse] at hreturns
    exact hreturns
  | ok r o' =>
    obtain ⟨audited, reached⟩ := r
    rw [htraverse] at hreturns
    cases reached with
    | false => exact hreturns
    | true => cases atRest <;> simpa [Ending.final] using hreturns

/-- Alone, an errand is the operation on the keys. -/
theorem returns (cb : SetCallbacks T ε σ) (t : Thread) (o : σ) (h : heap.Holds set)
    (errand : Errand T) :
    Returns cb t errand ⟨heap, o, { errand }⟩ (errand.request.perform cb ⟨set, o⟩) := by
  cases errand with
  | search kind key => exact search_returns h kind key
  | snapshot => exact snapshot_returns h
  | audit atRest => exact audit_returns h atRest

end Solo

namespace NodeRun

/-- A schedule that lets only one thread go on. -/
def Alone (t : Thread) (schedule : List (Thread × Nat)) : Prop := ∀ turn ∈ schedule, turn.1 = t

theorem Alone.append {t : Thread} {schedule schedule' : List (Thread × Nat)} (h : Alone t schedule)
    (h' : Alone t schedule') : Alone t (schedule ++ schedule') :=
  List.forall_mem_append.2 ⟨h, h'⟩

theorem alone_single (t : Thread) (fresh : Nat) : Alone t [(t, fresh)] := by
  simp [Alone]

variable [DecidableEq Thread] {cb : SetCallbacks T ε σ} {t : Thread} {s : NodeRun Thread T ε σ}
  {set : CoupledSet T} {pending : List (Errand T)} {returned : List (SetRequest T × SetOutcome T ε)}

theorem run_append (s : NodeRun Thread T ε σ) (schedule schedule' : List (Thread × Nat)) :
    s.run cb (schedule ++ schedule') = (s.run cb schedule).run cb schedule' :=
  List.foldl_append

theorem of_runs {m m' : Solo Thread T ε σ} (hruns : Solo.Runs cb t m m') (heap : s.heap = m.heap)
    (outside : s.outside = m.outside) (hcaller : s.callers t = ⟨some m.task, pending, returned⟩) :
    ∃ schedule log, Alone t schedule ∧ s.run cb schedule =
      ⟨m'.heap, m'.outside, Function.update s.callers t ⟨some m'.task, pending, returned⟩, log⟩ := by
  induction hruns with
  | refl =>
    refine ⟨[], s.log, List.forall_mem_nil _, ?_⟩
    rw [← hcaller, Function.update_eq_self, ← heap, ← outside]
    rfl
  | @tail m₁ m₂ _ hmove ih =>
    obtain ⟨schedule, log, halone, hrun⟩ := ih
    obtain ⟨fresh, decided, hact⟩ := hmove
    have hcaller' : (⟨m₁.heap, m₁.outside, Function.update s.callers t
        ⟨some m₁.task, pending, returned⟩, log⟩ : NodeRun Thread T ε σ).callers t =
          ⟨some m₁.task, pending, returned⟩ := Function.update_self ..
    have hstep := step_of_act hcaller' hact
    rw [Function.update_idem, ← hrun] at hstep
    exact ⟨schedule ++ [(t, fresh)], _, halone.append (alone_single t fresh),
      (run_append s schedule _).trans hstep⟩

/-- From call to return, one operation. -/
theorem alone (cb : SetCallbacks T ε σ) {errand : Errand T} (h : s.heap.Holds set)
    (hcaller : s.callers t = ⟨none, errand :: pending, returned⟩) :
    ∃ schedule outcome heap set' o log, Alone t schedule ∧
      s.run cb schedule = ⟨heap, o, Function.update s.callers t
        ⟨none, pending, returned ++ [(errand.request, outcome)]⟩, log⟩ ∧
      heap.Holds set' ∧
      errand.request.perform cb ⟨set, s.outside⟩ = resultOf outcome ⟨set', o⟩ := by
  obtain ⟨m, outcome, set', hruns, hphase, herrand, hholds, hperform⟩ :=
    Solo.returns cb t s.outside h errand
  have hcall : step cb s (t, 0) = { s with
      callers := Function.update s.callers t ⟨some { errand }, pending, returned⟩ } := by
    simp only [step, hcaller]
  obtain ⟨schedule, log, halone, hrun⟩ := of_runs hruns
    (s := { s with callers := Function.update s.callers t ⟨some { errand }, pending, returned⟩ })
    rfl rfl (Function.update_self ..)
  have hreturn : step cb ⟨m.heap, m.outside, Function.update s.callers t
      ⟨some m.task, pending, returned⟩, log⟩ (t, 0) = ⟨m.heap, m.outside, Function.update s.callers t
        ⟨none, pending, returned ++ [(errand.request, outcome)]⟩, log⟩ := by
    simp only [step, Function.update_self, hphase, Function.update_idem, herrand]
  refine ⟨[(t, 0)] ++ schedule ++ [(t, 0)], outcome, m.heap, set', m.outside, log, ?_, ?_, hholds,
    hperform⟩
  · exact ((alone_single t 0).append halone).append (alone_single t 0)
  · rw [run_append, run_append, show s.run cb [(t, 0)] = _ from hcall, hrun, Function.update_idem]
    exact hreturn

end NodeRun

/-- A thread alone is served as by the operations on the keys. -/
theorem NodeRun.alone_serve [DecidableEq Thread] (cb : SetCallbacks T ε σ) (t : Thread)
    (errands : List (Errand T)) {s : NodeRun Thread T ε σ} {set : CoupledSet T}
    {returned : List (SetRequest T × SetOutcome T ε)} (h : s.heap.Holds set)
    (hcaller : s.callers t = ⟨none, errands, returned⟩) :
    ∃ schedule heap log, Alone t schedule ∧
      heap.Holds (serve (SetRequest.perform cb) (errands.map Errand.request)
        ⟨set, s.outside⟩).2.container ∧
      s.run cb schedule =
        { heap
          outside := (serve (SetRequest.perform cb) (errands.map Errand.request)
            ⟨set, s.outside⟩).2.outside
          callers := Function.update s.callers t ⟨none, [], returned ++
            (serve (SetRequest.perform cb) (errands.map Errand.request) ⟨set, s.outside⟩).1⟩
          log } := by
  induction errands generalizing s set returned with
  | nil =>
    refine ⟨[], s.heap, s.log, List.forall_mem_nil _, h, ?_⟩
    rw [List.map_nil, serve, List.append_nil, ← hcaller, Function.update_eq_self]
    rfl
  | cons errand errands ih =>
    obtain ⟨schedule, outcome, heap, set', o, log, halone, hrun, hholds, hperform⟩ :=
      alone cb h hcaller
    obtain ⟨schedule', heap', log', halone', hholds', hrun'⟩ := ih
      (s := ⟨heap, o, Function.update s.callers t
        ⟨none, errands, returned ++ [(errand.request, outcome)]⟩, log⟩) hholds
      (Function.update_self ..)
    rw [List.map_cons, serve_cons hperform]
    refine ⟨schedule ++ schedule', heap', log', halone.append halone', hholds', ?_⟩
    rw [run_append, hrun, hrun', Function.update_idem, List.append_assoc, List.singleton_append]

/-- The programs of a set that one thread alone uses: node by node they come to what the
operations on the keys come to. -/
theorem coupled_set_alone [DecidableEq Thread] (cb : SetCallbacks T ε σ) (outside : σ)
    (program : Thread → List (Errand T)) (t : Thread) :
    ∃ schedule, NodeRun.Alone t schedule ∧
      (((NodeRun.begin outside program).run cb schedule).callers t).returned =
        (serve (SetRequest.perform cb) ((program t).map Errand.request)
          ⟨(LockedSet.empty : CoupledSet T), outside⟩).1 ∧
      ((NodeRun.begin outside program).run cb schedule).heap.Holds
        (serve (SetRequest.perform cb) ((program t).map Errand.request)
          ⟨(LockedSet.empty : CoupledSet T), outside⟩).2.container := by
  obtain ⟨schedule, heap, log, halone, hholds, hrun⟩ := NodeRun.alone_serve cb t (program t)
    (s := NodeRun.begin outside program) NodeHeap.holds_empty rfl
  refine ⟨schedule, halone, ?_, ?_⟩
  · simp only [hrun, Function.update_self, List.nil_append]
    rfl
  · rw [hrun]
    exact hholds

end LockedContainers
