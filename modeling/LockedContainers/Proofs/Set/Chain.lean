import LockedContainers.Proofs.Set.Nodes
import LockedContainers.Proofs.Set.Ordered

/-!
# Chains of nodes

The linked nodes form one ascending chain between the sentinels. Splicing a
node in where a search stopped and cutting the node there out both leave such
a chain, and the keys on it are those of the ordered set.
-/
namespace LockedContainers

variable {T : Type}

namespace Place

def key? : Place T → Option T
  | .at k => some k
  | _ => none

/-- Places ascend from the head over the keys to the tail. -/
def below (before : T → T → Bool) : Place T → Place T → Bool
  | head, head => false
  | head, _ => true
  | .at a, .at b => before a b
  | .at _, tail => true
  | _, _ => false

variable {before : T → T → Bool}

theorem below_at (p : Place T) (key : T) : p.below before (.at key) = p.precedes before key := by
  cases p <;> rfl

theorem below_head (p : Place T) : p.below before .head = false := by
  cases p <;> rfl

theorem tail_below (p : Place T) : tail.below before p = false := by
  cases p <;> rfl

/-- A place that a search passes is not the tail. -/
theorem ne_tail_of_precedes {p : Place T} {key : T} (h : p.precedes before key) : p ≠ .tail := by
  rintro rfl
  exact Bool.noConfusion h

/-- Where a search stops without the key, the key comes before. -/
theorem at_below {q : Place T} {key : T} (stopped : q.precedes before key = false)
    (absent : q.reaches before key = false) : (Place.at key).below before q := by
  cases q with
  | head => exact Bool.noConfusion stopped
  | «at» k =>
    have hkey : before key k = true := by simpa [reaches] using absent
    exact hkey
  | tail => rfl

theorem eq_at_of_reaches {q : Place T} {key : T} (h : q.reaches before key) : ∃ k, q = .at k := by
  cases q with
  | head => exact Bool.noConfusion h
  | «at» k => exact ⟨k, rfl⟩
  | tail => exact Bool.noConfusion h

theorem eq_at_of_between {p q r : Place T} (hpq : p.below before q) (hqr : q.below before r) :
    ∃ k, q = .at k := by
  cases q with
  | head =>
    rw [below_head] at hpq
    exact Bool.noConfusion hpq
  | «at» k => exact ⟨k, rfl⟩
  | tail =>
    rw [tail_below] at hqr
    exact Bool.noConfusion hqr

variable [order : IsStrictWeakOrder T (before · ·)]

theorem below_irrefl (p : Place T) : p.below before p = false := by
  cases p with
  | head => rfl
  | «at» k => exact before_irrefl k
  | tail => rfl

theorem below_trans {p q r : Place T} (hpq : p.below before q) (hqr : q.below before r) :
    p.below before r := by
  cases p with
  | head =>
    cases r with
    | head => rwa [below_head] at hqr
    | «at» c => rfl
    | tail => rfl
  | «at» a =>
    cases r with
    | head => rwa [below_head] at hqr
    | tail => rfl
    | «at» c =>
      cases q with
      | head => exact Bool.noConfusion hpq
      | tail => exact Bool.noConfusion hqr
      | «at» b =>
        have hab : before a b := hpq
        have hbc : before b c := hqr
        have hac : before a c := before_trans hab hbc
        exact hac
  | tail => rwa [tail_below] at hpq

end Place

/-- The address of a linked node, with its place. -/
abbrev Cell (T : Type) := Nat × Place T

def keysOf (cells : List (Cell T)) : List T := cells.filterMap fun c => c.2.key?

theorem keysOf_append (left right : List (Cell T)) :
    keysOf (left ++ right) = keysOf left ++ keysOf right :=
  List.filterMap_append

theorem keysOf_split (front back : List (Cell T)) (c : Cell T) :
    keysOf (front ++ c :: back) = keysOf (front ++ [c]) ++ keysOf back := by
  rw [← keysOf_append]
  simp

/-- Cells at keys are addresses with keys. -/
theorem exists_inner (cells : List (Cell T)) (h : ∀ c ∈ cells, ∃ k, c.2 = .at k) :
    ∃ inner : List (Nat × T), cells = inner.map fun c => (c.1, .at c.2) := by
  induction cells with
  | nil => exact ⟨[], rfl⟩
  | cons c rest ih =>
    obtain ⟨k, hk⟩ := h c List.mem_cons_self
    obtain ⟨inner, rfl⟩ := ih fun c' hc' => h c' (List.mem_cons_of_mem _ hc')
    exact ⟨(c.1, k) :: inner, by rw [List.map_cons, ← hk]⟩

/-- The cells from the head over the inner nodes to the tail. -/
def cellsOf (head : Nat) (inner : List (Nat × T)) (last : Nat) : List (Cell T) :=
  (head, .head) :: inner.map (fun c => (c.1, .at c.2)) ++ [(last, .tail)]

theorem keysOf_cellsOf (head last : Nat) (inner : List (Nat × T)) :
    keysOf (cellsOf head inner last) = inner.map Prod.snd := by
  simp [cellsOf, keysOf, List.filterMap_map, Place.key?]

theorem apart_of_distinct {front back : List (Cell T)} {a : Nat} {p : Place T}
    (distinct : (front ++ (a, p) :: back).Pairwise fun c d => c.1 ≠ d.1) :
    (∀ c ∈ front, c.1 ≠ a) ∧ ∀ c ∈ back, c.1 ≠ a := by
  obtain ⟨-, hback, hfront⟩ := List.pairwise_append.1 distinct
  refine ⟨fun c hc => hfront c hc _ List.mem_cons_self, fun c hc => ?_⟩
  exact Ne.symm ((List.pairwise_cons.1 hback).1 c hc)

/-- Some linked node has the address. -/
def On (cells : List (Cell T)) (a : Nat) : Prop := ∃ p, (a, p) ∈ cells

/-- Every node is linked to the next one on the list, and the last to none. -/
def Chain (nodes : Nat → Option (Node T)) : List (Cell T) → Prop
  | [] => True
  | c :: rest => nodes c.1 = some ⟨c.2, rest.head?.map Prod.fst⟩ ∧ Chain nodes rest

namespace Chain

variable {nodes nodes' : Nat → Option (Node T)} {cells front back back' : List (Cell T)}
  {c : Cell T}

theorem right (h : Chain nodes (front ++ back)) : Chain nodes back := by
  induction front with
  | nil => exact h
  | cons _ front ih => exact ih h.2

theorem node (h : Chain nodes cells) (hc : c ∈ cells) : ∃ next, nodes c.1 = some ⟨c.2, next⟩ := by
  obtain ⟨front, back, rfl⟩ := List.append_of_mem hc
  exact ⟨_, h.right.1⟩

/-- The address of the first node determines the chain. -/
theorem eq_of_head {cells' : List (Cell T)} (h : Chain nodes cells) (h' : Chain nodes cells')
    (head : cells.head?.map Prod.fst = cells'.head?.map Prod.fst) : cells = cells' := by
  induction cells generalizing cells' with
  | nil =>
    cases cells' with
    | nil => rfl
    | cons c' rest' => cases head
  | cons c rest ih =>
    cases cells' with
    | nil => cases head
    | cons c' rest' =>
      have haddress : c.1 = c'.1 := Option.some.inj head
      have hnode : some (Node.mk c.2 (rest.head?.map Prod.fst)) =
          some ⟨c'.2, rest'.head?.map Prod.fst⟩ := by
        rw [← h.1, ← h'.1, haddress]
      obtain ⟨hplace, hnext⟩ := Node.mk.inj (Option.some.inj hnode)
      rw [ih h.2 h'.2 hnext, Prod.ext haddress hplace]

/-- Only the nodes of the chain matter. -/
theorem frame (h : Chain nodes cells) (same : ∀ c ∈ cells, nodes' c.1 = nodes c.1) :
    Chain nodes' cells := by
  induction cells with
  | nil => trivial
  | cons c rest ih =>
    refine ⟨?_, ih h.2 fun c' hc' => same c' (List.mem_cons_of_mem _ hc')⟩
    rw [same c List.mem_cons_self]
    exact h.1

/-- Behind a node the chain may go on differently. -/
theorem replace (h : Chain nodes (front ++ c :: back)) (same : ∀ c' ∈ front, nodes' c'.1 = nodes c'.1)
    (h' : Chain nodes' (c :: back')) : Chain nodes' (front ++ c :: back') := by
  induction front with
  | nil => exact h'
  | cons f front ih =>
    have hhead : (front ++ c :: back').head?.map Prod.fst =
        (front ++ c :: back).head?.map Prod.fst := by
      cases front <;> rfl
    have hnext : nodes f.1 = some ⟨f.2, (front ++ c :: back').head?.map Prod.fst⟩ := by
      rw [hhead]
      exact h.1
    exact ⟨(same f List.mem_cons_self).trans hnext,
      ih h.2 fun c' hc' => same c' (List.mem_cons_of_mem _ hc')⟩

section Edit
variable {p q r : Place T} {a b n : Nat}

/-- Writing a link leaves the nodes before and behind it. -/
theorem relink (h : Chain nodes (front ++ (a, p) :: back)) (hfront : ∀ c ∈ front, c.1 ≠ a)
    {node : Option (Node T)} (h' : Chain (Function.update nodes a node) ((a, p) :: back')) :
    Chain (Function.update nodes a node) (front ++ (a, p) :: back') :=
  h.replace (fun c hc => Function.update_of_ne (hfront c hc) ..) h'

theorem splice (h : Chain nodes (front ++ (a, p) :: (b, q) :: back))
    (distinct : (front ++ (a, p) :: (b, q) :: back).Pairwise fun c d => c.1 ≠ d.1)
    (hna : n ≠ a) (hn : nodes n = some ⟨r, some b⟩) :
    Chain (Function.update nodes a (some ⟨p, some n⟩))
      (front ++ (a, p) :: (n, r) :: (b, q) :: back) := by
  obtain ⟨hfront, hback⟩ := apart_of_distinct distinct
  refine h.relink hfront ⟨Function.update_self .., ?_, ?_⟩
  · rw [Function.update_of_ne hna]
    exact hn
  · exact h.right.2.frame fun c hc => Function.update_of_ne (hback c hc) ..

theorem cut (h : Chain nodes (front ++ (a, p) :: (b, q) :: back))
    (distinct : (front ++ (a, p) :: (b, q) :: back).Pairwise fun c d => c.1 ≠ d.1)
    {next : Option Nat} (hb : nodes b = some ⟨r, next⟩) :
    Chain (Function.update nodes a (some ⟨p, next⟩)) (front ++ (a, p) :: back) := by
  obtain ⟨hfront, hback⟩ := apart_of_distinct distinct
  refine h.relink hfront ⟨?_, ?_⟩
  · have hlink := h.right.2.1
    rw [hb] at hlink
    cases hlink
    exact Function.update_self ..
  · exact h.right.2.2.frame fun c hc =>
      Function.update_of_ne (hback c (List.mem_cons_of_mem _ hc)) ..

end Edit
end Chain

/-- The cells are the linked nodes, in ascending order from the head to the tail. -/
structure Linked (before : T → T → Bool) (head : Nat) (nodes : Nat → Option (Node T))
    (cells : List (Cell T)) : Prop where
  chain : Chain nodes cells
  ascending : cells.Pairwise fun c d => c.2.below before d.2
  head : (head, .head) ∈ cells
  tail : ∃ a, (a, .tail) ∈ cells

namespace Linked

variable {before : T → T → Bool} [order : IsStrictWeakOrder T (before · ·)] {head : Nat}
  {nodes : Nat → Option (Node T)} {cells front back : List (Cell T)} {a b : Nat} {p q : Place T}
  {key : T}

omit order in
theorem node (h : Linked before head nodes cells) (ha : (a, p) ∈ cells) :
    ∃ next, nodes a = some ⟨p, next⟩ :=
  h.chain.node ha

omit order in
theorem place_eq (h : Linked before head nodes cells) (ha : (a, p) ∈ cells) {next : Option Nat}
    (hnode : nodes a = some ⟨q, next⟩) : q = p := by
  obtain ⟨next', hnode'⟩ := h.node ha
  rw [hnode] at hnode'
  cases hnode'
  rfl

omit order in
/-- Nodes off the chain do not matter. -/
theorem frame (h : Linked before head nodes cells) {nodes' : Nat → Option (Node T)}
    (same : ∀ a, On cells a → nodes' a = nodes a) : Linked before head nodes' cells :=
  ⟨h.chain.frame fun c hc => same c.1 ⟨c.2, hc⟩, h.ascending, h.head, h.tail⟩

/-- No node is linked twice. -/
theorem distinct (h : Linked before head nodes cells) :
    cells.Pairwise fun c d => c.1 ≠ d.1 := by
  refine h.ascending.imp_of_mem fun {c d} hc hd hcd hsame => ?_
  obtain ⟨next, hnode⟩ := h.chain.node hc
  obtain ⟨next', hnode'⟩ := h.chain.node hd
  rw [hsame, hnode'] at hnode
  have hplace : d.2 = c.2 := (Node.mk.inj (Option.some.inj hnode)).1
  rw [hplace, Place.below_irrefl] at hcd
  exact Bool.noConfusion hcd

omit order in
/-- A link leads to the next cell. -/
theorem next (h : Linked before head nodes cells) (ha : (a, p) ∈ cells)
    (hnode : nodes a = some ⟨q, some b⟩) :
    ∃ front r back, cells = front ++ (a, p) :: (b, r) :: back := by
  obtain ⟨front, back, rfl⟩ := List.append_of_mem ha
  have hlink := h.chain.right.1
  rw [hnode] at hlink
  cases back with
  | nil => cases hlink
  | cons c back =>
    obtain ⟨b', r⟩ := c
    cases hlink
    exact ⟨front, r, back, rfl⟩

omit order in
/-- A link leads to a higher place. -/
theorem below_next (h : Linked before head nodes cells) (ha : (a, p) ∈ cells)
    {place r : Place T} {next : Option Nat} (hlink : nodes a = some ⟨place, some b⟩)
    (hnode : nodes b = some ⟨r, next⟩) : (b, r) ∈ cells ∧ p.below before r := by
  obtain ⟨front, r', back, hcells⟩ := h.next ha hlink
  have hmem : (b, r') ∈ cells := by simp [hcells]
  have hasc := h.ascending
  rw [hcells] at hasc
  have hbelow := (List.pairwise_cons.1 (List.pairwise_append.1 hasc).2.1).1 (b, r') (by simp)
  rw [h.place_eq hmem hnode]
  exact ⟨hmem, hbelow⟩

omit order in
/-- Only the tail has no link. -/
theorem exists_next (h : Linked before head nodes cells) (ha : (a, p) ∈ cells) (hp : p ≠ .tail) :
    ∃ b, nodes a = some ⟨p, some b⟩ := by
  obtain ⟨front, back, rfl⟩ := List.append_of_mem ha
  cases back with
  | cons c back => exact ⟨c.1, h.chain.right.1⟩
  | nil =>
    obtain ⟨z, hz⟩ := h.tail
    rcases List.mem_append.1 hz with hfront | hlast
    · have hbelow := (List.pairwise_append.1 h.ascending).2.2 _ hfront _ List.mem_cons_self
      rw [Place.tail_below] at hbelow
      exact Bool.noConfusion hbelow
    · rw [List.mem_singleton] at hlast
      cases hlast
      exact absurd rfl hp

omit order in
/-- The tail has no link, so a walk that gets there has been over the whole list. -/
theorem next_of_tail (h : Linked before head nodes cells) (ha : (a, .tail) ∈ cells)
    {next : Option Nat} (hnode : nodes a = some ⟨.tail, next⟩) : next = none := by
  cases next with
  | none => rfl
  | some b =>
    obtain ⟨front, r, back, hcells⟩ := h.next ha hnode
    have hasc := h.ascending
    rw [hcells] at hasc
    have hbelow := (List.pairwise_cons.1 (List.pairwise_append.1 hasc).2.1).1 (b, r) (by simp)
    rw [Place.tail_below] at hbelow
    exact Bool.noConfusion hbelow

omit order in
/-- The keys on the chain ascend. -/
theorem keys_ascending (h : Linked before head nodes cells) :
    (keysOf cells).Pairwise (before · ·) := by
  refine List.pairwise_filterMap.2 (h.ascending.imp fun {c d} hcd k hk k' hk' => ?_)
  cases hc : c.2 <;> cases hd : d.2 <;> simp_all [Place.key?, Place.below]

omit order in
/-- The keys from where a search stops begin at that place. -/
theorem start_keysOf (h : Linked before head nodes (front ++ (a, p) :: (b, q) :: back))
    (stopped : q.precedes before key = false) : Place.start (keysOf ((b, q) :: back)) = q := by
  cases q with
  | head => exact Bool.noConfusion stopped
  | «at» k => rfl
  | tail =>
    cases back with
    | nil => rfl
    | cons c back =>
      have hright := (List.pairwise_cons.1 (List.pairwise_append.1 h.ascending).2.1).2
      have hbelow := (List.pairwise_cons.1 hright).1 c List.mem_cons_self
      rw [Place.tail_below] at hbelow
      exact Bool.noConfusion hbelow

/-- The nodes that a search holds where it stops are the window of its key. -/
theorem window (h : Linked before head nodes (front ++ (a, p) :: (b, q) :: back))
    (passed : p.precedes before key) (stopped : q.precedes before key = false) :
    Window before key (keysOf (front ++ [(a, p)])) (keysOf ((b, q) :: back)) := by
  have hstart := h.start_keysOf stopped
  have hsplit : front ++ (a, p) :: (b, q) :: back = (front ++ [(a, p)]) ++ (b, q) :: back := by simp
  rw [hsplit] at h
  have hasc := h.keys_ascending
  rw [keysOf_append] at hasc
  refine ⟨⟨fun k hk => ?_, ?_⟩, hasc⟩
  · obtain ⟨c, hc, hck⟩ := List.mem_filterMap.1 hk
    have hbelow : c.2.below before (.at key) := by
      rw [← Place.below_at] at passed
      rcases List.mem_append.1 hc with hfront | hlast
      · have hcp := (List.pairwise_append.1 (List.pairwise_append.1 h.ascending).1).2.2 c hfront _
          List.mem_cons_self
        exact Place.below_trans hcp passed
      · rw [List.mem_singleton.1 hlast]
        exact passed
    cases hplace : c.2 with
    | «at» k' =>
      rw [hplace] at hck hbelow
      cases hck
      exact hbelow
    | head => simp [hplace, Place.key?] at hck
    | tail => simp [hplace, Place.key?] at hck
  · rw [hstart]
    exact stopped

omit order in
/-- A node is linked in between two places. -/
theorem splice_between (h : Linked before head nodes (front ++ (a, p) :: (b, q) :: back))
    (distinct : (front ++ (a, p) :: (b, q) :: back).Pairwise fun c d => c.1 ≠ d.1)
    (trans : ∀ {p q r : Place T}, p.below before q → q.below before r → p.below before r)
    (low : p.below before (.at key)) (high : (Place.at key).below before q) {n : Nat}
    (apart : ¬ On (front ++ (a, p) :: (b, q) :: back) n)
    (hn : nodes n = some ⟨.at key, some b⟩) :
    Linked before head (Function.update nodes a (some ⟨p, some n⟩))
      (front ++ (a, p) :: (n, .at key) :: (b, q) :: back) where
  chain := by
    refine h.chain.splice distinct ?_ hn
    rintro rfl
    exact apart ⟨p, by simp⟩
  ascending := by
    obtain ⟨hfront, hright, hcut⟩ := List.pairwise_append.1 h.ascending
    obtain ⟨ha, hb⟩ := List.pairwise_cons.1 hright
    refine List.pairwise_append.2 ⟨hfront, List.pairwise_cons.2 ⟨?_, List.pairwise_cons.2 ⟨?_, hb⟩⟩, ?_⟩
    · intro c hc
      rcases List.mem_cons.1 hc with rfl | hc
      · exact low
      · exact ha c hc
    · intro c hc
      rcases List.mem_cons.1 hc with rfl | hc
      · exact high
      · exact trans high ((List.pairwise_cons.1 hb).1 c hc)
    · intro c hc d hd
      have hca : c.2.below before p := hcut c hc (a, p) List.mem_cons_self
      rcases List.mem_cons.1 hd with rfl | hd
      · exact hca
      · rcases List.mem_cons.1 hd with rfl | hd
        · exact trans hca low
        · exact hcut c hc d (List.mem_cons_of_mem _ hd)
  head := by
    rcases List.mem_append.1 h.head with hf | hb
    · exact List.mem_append_left _ hf
    · refine List.mem_append_right _ ?_
      simp only [List.mem_cons] at hb ⊢
      tauto
  tail := by
    obtain ⟨z, hz⟩ := h.tail
    refine ⟨z, ?_⟩
    simp only [List.mem_append, List.mem_cons] at hz ⊢
    tauto

omit order in
/-- A node with a key is cut out. -/
theorem cut_at {k : T} (h : Linked before head nodes (front ++ (a, p) :: (b, .at k) :: back))
    (distinct : (front ++ (a, p) :: (b, .at k) :: back).Pairwise fun c d => c.1 ≠ d.1)
    {place : Place T} {next : Option Nat} (hb : nodes b = some ⟨place, next⟩) :
    Linked before head (Function.update nodes a (some ⟨p, next⟩)) (front ++ (a, p) :: back) where
  chain := h.chain.cut distinct hb
  ascending := h.ascending.sublist
    (((List.sublist_cons_self (b, .at k) back).cons_cons (a, p)).append_left front)
  head := by
    have hhead := h.head
    simp only [List.mem_append, List.mem_cons, Prod.mk.injEq, reduceCtorEq, and_false, false_or]
      at hhead ⊢
    exact hhead
  tail := by
    obtain ⟨z, hz⟩ := h.tail
    refine ⟨z, ?_⟩
    simp only [List.mem_append, List.mem_cons, Prod.mk.injEq, reduceCtorEq, and_false, false_or]
      at hz ⊢
    exact hz

theorem splice (h : Linked before head nodes (front ++ (a, p) :: (b, q) :: back))
    (passed : p.precedes before key) (stopped : q.precedes before key = false)
    (absent : q.reaches before key = false) {n : Nat}
    (apart : ¬ On (front ++ (a, p) :: (b, q) :: back) n)
    (hn : nodes n = some ⟨.at key, some b⟩) :
    Linked before head (Function.update nodes a (some ⟨p, some n⟩))
      (front ++ (a, p) :: (n, .at key) :: (b, q) :: back) :=
  h.splice_between h.distinct Place.below_trans (by rwa [Place.below_at])
    (Place.at_below stopped absent) apart hn

theorem cut (h : Linked before head nodes (front ++ (a, p) :: (b, q) :: back))
    (present : q.reaches before key) {place : Place T} {next : Option Nat}
    (hb : nodes b = some ⟨place, next⟩) :
    Linked before head (Function.update nodes a (some ⟨p, next⟩)) (front ++ (a, p) :: back) := by
  obtain ⟨k, rfl⟩ := Place.eq_at_of_reaches present
  exact h.cut_at h.distinct hb

omit order in
/-- Between the sentinels there are keys only. -/
theorem interior (h : Linked before head nodes cells) :
    ∃ (inner : List (Nat × T)) (last : Nat),
      cells = cellsOf head inner last ∧ (inner.map Prod.snd).Pairwise (before · ·) := by
  have hkeys := h.keys_ascending
  have hasc := h.ascending
  obtain ⟨last, hlast⟩ := h.tail
  obtain ⟨front, back, rfl⟩ := List.append_of_mem h.head
  have hfront : front = [] := by
    refine List.eq_nil_iff_forall_not_mem.2 fun c hc => ?_
    have hbelow := (List.pairwise_append.1 hasc).2.2 c hc _ List.mem_cons_self
    rw [Place.below_head] at hbelow
    exact Bool.noConfusion hbelow
  subst hfront
  rw [List.nil_append] at hkeys hasc hlast ⊢
  have hback : (last, .tail) ∈ back := by simpa using hlast
  obtain ⟨mid, rest, rfl⟩ := List.append_of_mem hback
  obtain ⟨hhead, hmid⟩ := List.pairwise_cons.1 hasc
  obtain ⟨-, htail, hcut⟩ := List.pairwise_append.1 hmid
  have hrest : rest = [] := by
    refine List.eq_nil_iff_forall_not_mem.2 fun c hc => ?_
    have hbelow := (List.pairwise_cons.1 htail).1 c hc
    rw [Place.tail_below] at hbelow
    exact Bool.noConfusion hbelow
  subst hrest
  obtain ⟨inner, rfl⟩ := exists_inner mid fun c hc =>
    Place.eq_at_of_between (hhead c (by simp [hc])) (hcut c hc (last, .tail) (by simp))
  refine ⟨inner, last, rfl, ?_⟩
  rwa [← keysOf_cellsOf head last inner]

section Members
variable {members : KeySet T} (h : Linked before head nodes (front ++ (a, p) :: (b, q) :: back))
  (passed : p.precedes before key) (stopped : q.precedes before key = false)
  (listed : (keysOf (front ++ (a, p) :: (b, q) :: back)).Perm members)
include h listed

omit order in
theorem shown : KeySet.Shown before (keysOf (front ++ [(a, p)]) ++ keysOf ((b, q) :: back)) members := by
  rw [← keysOf_split]
  exact ⟨h.keys_ascending, listed⟩

include passed stopped

/-- One comparison at the window decides whether the key is a member. -/
theorem has_eq : KeySet.has before members key = q.reaches before key := by
  rw [(h.window passed stopped).has_eq (h.shown listed), h.start_keysOf stopped]

theorem perm_splice (absent : q.reaches before key = false) (n : Nat) :
    (keysOf (front ++ (a, p) :: (n, .at key) :: (b, q) :: back)).Perm
      (KeySet.insert before members key) := by
  rw [keysOf_split]
  refine ((h.window passed stopped).shown_insert (h.shown listed) ?_).members
  rw [h.start_keysOf stopped]
  exact absent

theorem perm_cut (present : q.reaches before key) :
    (keysOf (front ++ (a, p) :: back)).Perm (KeySet.erase before members key) := by
  have htail : (keysOf ((b, q) :: back)).tail = keysOf back := by
    obtain ⟨k, rfl⟩ := Place.eq_at_of_reaches present
    rfl
  rw [keysOf_split, ← htail]
  refine ((h.window passed stopped).shown_erase (h.shown listed) ?_).members
  rw [h.start_keysOf stopped]
  exact present

end Members
end Linked
end LockedContainers
