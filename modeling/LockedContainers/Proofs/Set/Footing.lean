import LockedContainers.Proofs.Set.Alone
import LockedContainers.Proofs.Set.Standing

/-!
# What the locks keep without an order

Whatever comparing answers, and whenever it fails, the linked nodes are one
chain from the head to the tail, and a thread stands on the nodes whose locks
it holds. What it knows of them is only where their links lead and that they
have keys.
-/
namespace LockedContainers

variable {Thread T ε σ : Type}

/-- Without their keys places are ordered, too. -/
theorem Place.below_any_trans {p q r : Place T} (hpq : p.below (fun _ _ => true) q)
    (hqr : q.below (fun _ _ => true) r) : p.below (fun _ _ => true) r := by
  cases p <;> cases q <;> cases r <;> simp_all [below]

theorem Place.below_key {p q : Place T} (h : p.below (fun _ _ => true) q) (key : T) :
    p.below (fun _ _ => true) (.at key) := by
  cases p <;> cases q <;> simp_all [below]

theorem Place.key_below {p q : Place T} (h : p.below (fun _ _ => true) q) (key : T) :
    (Place.at key).below (fun _ _ => true) q := by
  cases p <;> cases q <;> simp_all [below]

/-- The cells are the linked nodes from the head to the tail, each of them once. -/
structure Strung (head : Nat) (nodes : Nat → Option (Node T)) (cells : List (Cell T)) : Prop where
  linked : Linked (fun _ _ => true) head nodes cells
  distinct : cells.Pairwise fun c d => c.1 ≠ d.1

/-- The link of the first node leads to the second. -/
def Leads (nodes : Nat → Option (Node T)) (pred curr : Nat) : Prop :=
  ∃ p, nodes pred = some ⟨p, some curr⟩

namespace Strung

variable {head pred curr n : Nat} {nodes nodes' : Nat → Option (Node T)} {cells : List (Cell T)}
  {p q : Place T}

theorem frame (h : Strung head nodes cells) (same : ∀ a, On cells a → nodes' a = nodes a) :
    Strung head nodes' cells :=
  ⟨h.linked.frame same, h.distinct⟩

theorem exists_node (h : Strung head nodes cells) {a : Nat} (on : On cells a) :
    ∃ p next, (a, p) ∈ cells ∧ nodes a = some ⟨p, next⟩ := by
  obtain ⟨p, hp⟩ := on
  obtain ⟨next, hnode⟩ := h.linked.node hp
  exact ⟨p, next, hp, hnode⟩

theorem ne_none (h : Strung head nodes cells) {a : Nat} (on : On cells a) : nodes a ≠ none := by
  obtain ⟨p, next, -, hnode⟩ := h.exists_node on
  simp [hnode]

/-- Two nodes of which one leads to the other are neighbours. -/
theorem split (h : Strung head nodes cells) (on : On cells pred)
    (link : nodes pred = some ⟨p, some curr⟩) :
    ∃ front q back, cells = front ++ (pred, p) :: (curr, q) :: back := by
  obtain ⟨p', next, hp, hnode⟩ := h.exists_node on
  rw [link] at hnode
  cases hnode
  exact h.linked.next hp link

theorem beside (h : Strung head nodes cells) (on : On cells pred) (leads : Leads nodes pred curr) :
    pred ≠ curr ∧ On cells pred ∧ On cells curr := by
  obtain ⟨p, link⟩ := leads
  obtain ⟨front, q, back, rfl⟩ := h.split on link
  refine ⟨?_, on, q, by simp⟩
  exact Ne.symm ((apart_of_distinct h.distinct).2 (curr, q) List.mem_cons_self)

/-- A node that is not the tail has a link. -/
theorem leads (h : Strung head nodes cells) {a : Nat} (on : On cells a) {next : Option Nat}
    (node : nodes a = some ⟨p, next⟩) (hp : p ≠ .tail) : ∃ b, next = some b := by
  obtain ⟨p', _, hmem, hnode⟩ := h.exists_node on
  rw [node] at hnode
  cases hnode
  obtain ⟨b, hlink⟩ := h.linked.exists_next hmem hp
  rw [node] at hlink
  cases hlink
  exact ⟨b, rfl⟩

/-- A new node between two neighbours. -/
theorem splice (h : Strung head nodes cells) (on : On cells pred)
    (link : nodes pred = some ⟨p, some curr⟩) {key : T} (off : ¬ On cells n)
    (new : nodes n = some ⟨.at key, some curr⟩) :
    ∃ cells', Strung head (Function.update nodes pred (some ⟨p, some n⟩)) cells' ∧
      ∀ a ≠ n, ∀ place, (a, place) ∈ cells' ↔ (a, place) ∈ cells := by
  obtain ⟨front, q, back, rfl⟩ := h.split on link
  have hbelow : p.below (fun _ _ => true) q :=
    (List.pairwise_cons.1 (List.pairwise_append.1 h.linked.ascending).2.1).1 (curr, q) (by simp)
  refine ⟨_, ⟨h.linked.splice_between h.distinct Place.below_any_trans (Place.below_key hbelow key)
    (Place.key_below hbelow key) off new, ?_⟩, fun a ha place => by simp [ha]⟩
  have hdistinct := h.distinct
  have hoff : ∀ c ∈ front ++ (pred, p) :: (curr, q) :: back, n ≠ c.1 := by
    rintro c hc rfl
    exact off ⟨c.2, hc⟩
  rw [List.append_cons] at hdistinct hoff ⊢
  exact (List.pairwise_middle Ne.symm).2 (List.pairwise_cons.2 ⟨hoff, hdistinct⟩)

/-- A link past a neighbour that has a key. -/
theorem cut (h : Strung head nodes cells) (on : On cells pred)
    (link : nodes pred = some ⟨p, some curr⟩) {key : T} {next : Option Nat}
    (victim : nodes curr = some ⟨.at key, next⟩) :
    ∃ cells', Strung head (Function.update nodes pred (some ⟨p, next⟩)) cells' ∧
      ¬ On cells' curr ∧ ∀ a ≠ curr, ∀ place, (a, place) ∈ cells' ↔ (a, place) ∈ cells := by
  obtain ⟨front, q, back, rfl⟩ := h.split on link
  have hq : .at key = q := h.linked.place_eq (by simp) victim
  subst hq
  have hsub : (front ++ (pred, p) :: back).Sublist
      (front ++ (pred, p) :: (curr, .at key) :: back) :=
    ((List.sublist_cons_self _ back).cons_cons (pred, p)).append_left front
  refine ⟨_, ⟨h.linked.cut_at h.distinct victim, h.distinct.sublist hsub⟩, ?_,
    fun a ha place => by simp [ha]⟩
  have hdistinct := h.distinct
  rw [List.append_cons] at hdistinct
  obtain ⟨hfront, hback⟩ := apart_of_distinct hdistinct
  rintro ⟨place, hmem⟩
  rw [List.append_cons] at hmem
  rcases List.mem_append.1 hmem with hmem | hmem
  · exact hfront _ hmem rfl
  · exact hback _ hmem rfl

end Strung

namespace Phase

/-- The linked nodes whose locks the thread holds. -/
def footing : Phase T ε → List Nat
  | discounting pred _ | dropping pred _ => [pred]
  | phase => phase.held

theorem footing_or_apart (phase : Phase T ε) :
    ∀ a ∈ phase.held, a ∈ phase.footing ∨ a ∈ phase.apart := by
  cases phase <;> simp [held, footing, Phase.apart]

theorem footing_subset (phase : Phase T ε) : ∀ a ∈ phase.footing, a ∈ phase.held := by
  cases phase <;> simp [held, footing]

/-- What a thread knows of the nodes in its hands. -/
def Knows (nodes : Nat → Option (Node T)) : Phase T ε → Prop
  | resting a | passing _ a => ∃ p next, nodes a = some ⟨p, next⟩ ∧ p ≠ .tail
  | waiting pred curr | visiting pred curr | located pred curr _ _ | building pred curr _ =>
    Leads nodes pred curr
  | splicing pred curr node =>
    Leads nodes pred curr ∧ ∃ key, nodes node = some ⟨.at key, some curr⟩
  | doomed pred curr => Leads nodes pred curr ∧ ∃ key next, nodes curr = some ⟨.at key, next⟩
  | cutting pred curr next => Leads nodes pred curr ∧ ∃ key, nodes curr = some ⟨.at key, next⟩
  | crashed => False
  | _ => True

/-- What is in the hands of a thread: two nodes at most, which are linked, and a node apart. -/
structure Grounded (nodes : Nat → Option (Node T)) (cells : List (Cell T)) (phase : Phase T ε) :
    Prop where
  distinct : phase.held.Nodup
  rests : ∀ a ∈ phase.footing, On cells a
  apart : ∀ a ∈ phase.apart, nodes a ≠ none ∧ ¬ On cells a
  knows : phase.Knows nodes

variable {nodes nodes' : Nat → Option (Node T)} {cells cells' : List (Cell T)} {phase : Phase T ε}
  {pred curr head : Nat}

theorem Knows.frame (h : phase.Knows nodes)
    (same : ∀ a ∈ phase.held ++ phase.apart, nodes' a = nodes a) : phase.Knows nodes' := by
  cases phase <;> simp_all [Knows, Leads, held, Phase.apart]

/-- It stays true while nobody disturbs these nodes. -/
theorem Grounded.frame (h : phase.Grounded nodes cells)
    (same : ∀ a ∈ phase.held ++ phase.apart, Undisturbed nodes cells nodes' cells' a) :
    phase.Grounded nodes' cells' where
  distinct := h.distinct
  rests a ha :=
    (same a (List.mem_append_left _ (phase.footing_subset a ha))).on.2 (h.rests a ha)
  apart a ha := by
    have hsame := same a (List.mem_append_right _ ha)
    rw [hsame.node, hsame.on]
    exact h.apart a ha
  knows := h.knows.frame fun a ha => (same a ha).node

theorem Grounded.of_none (held : phase.held = []) (apart : phase.apart = [])
    (knows : phase.Knows nodes) : phase.Grounded nodes cells where
  distinct := by simp [held]
  rests a ha := by simpa [held] using phase.footing_subset a ha
  apart := by simp [apart]
  knows := knows

theorem Grounded.of_one (held : phase.held = [pred]) (apart : phase.apart = [])
    (on : On cells pred) (knows : phase.Knows nodes) : phase.Grounded nodes cells where
  distinct := by simp [held]
  rests a ha := by
    have hheld := phase.footing_subset a ha
    rw [held] at hheld
    rwa [List.mem_singleton.1 hheld]
  apart := by simp [apart]
  knows := knows

theorem Grounded.of_two (held : phase.held = [pred, curr]) (apart : phase.apart = [])
    (beside : pred ≠ curr ∧ On cells pred ∧ On cells curr) (knows : phase.Knows nodes) :
    phase.Grounded nodes cells where
  distinct := by simpa [held] using beside.1
  rests a ha := by
    have hheld := phase.footing_subset a ha
    rw [held] at hheld
    rcases List.mem_pair.1 hheld with rfl | rfl
    · exact beside.2.1
    · exact beside.2.2
  apart := by simp [apart]
  knows := knows

/-- The nodes in a thread's hands exist. -/
theorem Grounded.exist (h : phase.Grounded nodes cells) (strung : Strung head nodes cells) :
    ∀ a ∈ phase.held ++ phase.apart, nodes a ≠ none := by
  intro a ha
  by_cases hoff : a ∈ phase.apart
  · exact (h.apart a hoff).1
  · have hheld := (List.mem_append.1 ha).resolve_right hoff
    exact strung.ne_none (h.rests a ((phase.footing_or_apart a hheld).resolve_right hoff))

theorem Grounded.two (h : phase.Grounded nodes cells) (footing : phase.footing = [pred, curr]) :
    pred ≠ curr ∧ On cells pred ∧ On cells curr := by
  have hrests := h.rests
  rw [footing] at hrests
  refine ⟨?_, hrests pred (by simp), hrests curr (by simp)⟩
  rintro rfl
  have hheld : phase.held = [pred, pred] := by
    cases phase <;> simp_all [Phase.footing, Phase.held]
  simpa [hheld] using h.distinct

theorem Grounded.one (h : phase.Grounded nodes cells) (footing : phase.footing = [pred]) :
    On cells pred :=
  h.rests pred (by simp [footing])

/-- A thread that waits for a lock holds nothing or the node whose link leads there. -/
theorem Grounded.awaits (h : phase.Grounded nodes cells) (strung : Strung head nodes cells) :
    ∀ a ∈ phase.awaited head, On cells a ∧
      (phase.held = [] ∨ ∃ pred, phase.held = [pred] ∧ On cells pred ∧ Leads nodes pred a) := by
  intro a ha
  cases phase with
  | entering =>
    cases ha
    exact ⟨⟨_, strung.linked.head⟩, .inl rfl⟩
  | waiting pred curr =>
    cases ha
    have hon : On cells pred := h.one rfl
    exact ⟨(strung.beside hon h.knows).2.2, .inr ⟨pred, rfl, hon, h.knows⟩⟩
  | _ => cases ha

end Phase
end LockedContainers
