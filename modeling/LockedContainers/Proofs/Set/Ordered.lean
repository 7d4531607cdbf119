import Mathlib.Order.Defs.Unbundled
import Mathlib.Data.List.Basic
import LockedContainers.Set.Request
import LockedContainers.Proofs.Sequential

/-!
# Ordered sets modulo equivalence

The reference for both sets is a collection of pairwise inequivalent keys in
the order of their insertion. A list in ascending order shows its members. A
search cuts that list at a window, where one comparison more tells whether the
key is a member, and where an insertion or a removal keeps the order.
-/
namespace LockedContainers

variable {T ε σ : Type}

/-- Neither key is before the other. -/
def equivalent (before : T → T → Bool) (a b : T) : Bool := !before a b && !before b a

/-- Keys in the order in which they came in. -/
abbrev KeySet (T : Type) := List T

namespace KeySet

variable (before : T → T → Bool)

def has (set : KeySet T) (key : T) : Bool := set.any (equivalent before key)

/-- The first of equivalent keys stays. -/
def insert (set : KeySet T) (key : T) : KeySet T :=
  if has before set key then set else set ++ [key]

def erase (set : KeySet T) (key : T) : KeySet T := set.filter fun k => !equivalent before key k

/-- The right answers of a set; a snapshot lists the members in ascending order. -/
def Accepts (set : KeySet T) : SetRequest T → SetAnswer T → Prop
  | .add key, answer => answer = .flag (!has before set key)
  | .remove key, answer => answer = .flag (has before set key)
  | .contains key, answer => answer = .flag (has before set key)
  | .size, answer => answer = .count set.length
  | .isEmpty, answer => answer = .flag set.isEmpty
  | .snapshot, answer =>
    ∃ keys, answer = .keys keys ∧ keys.Pairwise (before · ·) ∧ keys.Perm set
  | .audit, answer => answer = .flag true
  | .auditLive, answer => answer = .flag true

def effect (set : KeySet T) : SetRequest T → KeySet T
  | .add key => insert before set key
  | .remove key => erase before set key
  | _ => set

def object : SequentialObject (KeySet T) (SetRequest T) (SetAnswer T) where
  accepts := Accepts before
  effect := effect before

/-- The right answers while others are at work: exact for searches, while a walk only finds the
order right. -/
def AcceptsLive (set : KeySet T) : SetRequest T → SetAnswer T → Prop
  | .snapshot, answer => ∃ keys, answer = .keys keys ∧ keys.Pairwise (before · ·)
  | .size, _ | .isEmpty, _ | .audit, _ => True
  | request, answer => Accepts before set request answer

def live : SequentialObject (KeySet T) (SetRequest T) (SetAnswer T) where
  accepts := AcceptsLive before
  effect := effect before

theorem insert_of_has {before : T → T → Bool} {set : KeySet T} {key : T}
    (h : has before set key = true) : insert before set key = set := by
  rw [insert, h, if_pos rfl]

theorem erase_of_not_has {before : T → T → Bool} {set : KeySet T} {key : T}
    (h : has before set key = false) : erase before set key = set := by
  rw [has, List.any_eq_false] at h
  exact List.filter_eq_self.2 fun k hk => by simpa using h k hk

end KeySet

theorem equivalent_iff {before : T → T → Bool} {a b : T} :
    equivalent before a b = true ↔ before a b = false ∧ before b a = false := by
  simp [equivalent]

theorem equivalent_symm {before : T → T → Bool} {a b : T} (h : equivalent before a b) :
    equivalent before b a :=
  equivalent_iff.2 (equivalent_iff.1 h).symm

theorem not_equivalent_of_before {before : T → T → Bool} {a b : T} (h : before a b) :
    equivalent before a b = false := by
  simp [equivalent, h]

theorem not_equivalent_of_after {before : T → T → Bool} {a b : T} (h : before b a) :
    equivalent before a b = false := by
  simp [equivalent, h]

section Order
variable {before : T → T → Bool} [order : IsStrictWeakOrder T (before · ·)]

theorem before_irrefl (a : T) : before a a = false := by
  rw [Bool.eq_false_iff]
  exact order.irrefl a

theorem equivalent_refl (a : T) : equivalent before a a :=
  equivalent_iff.2 ⟨before_irrefl a, before_irrefl a⟩

theorem before_trans {a b c : T} (hab : before a b) (hbc : before b c) : before a c :=
  order.trans a b c hab hbc

theorem equivalent_trans {a b c : T} (hab : equivalent before a b) (hbc : equivalent before b c) :
    equivalent before a c := by
  rw [equivalent_iff, Bool.eq_false_iff, Bool.eq_false_iff] at *
  exact order.incomp_trans a b c hab hbc

/-- In an ascending list it is enough that the last key is before another. -/
theorem before_of_last {keys : List T} {key : T} (ascending : keys.Pairwise (before · ·))
    (last : ∀ k ∈ keys.getLast?, before k key) : ∀ k ∈ keys, before k key := by
  intro k hk
  rcases List.eq_nil_or_concat keys with rfl | ⟨front, final, rfl⟩
  · simp at hk
  · rw [List.concat_eq_append] at *
    have hfinal : before final key := last final (by simp)
    rcases List.mem_append.1 hk with hfront | hlast
    · have hcut := (List.pairwise_append.1 ascending).2.2
      exact before_trans (hcut k hfront final (by simp)) hfinal
    · rw [List.mem_singleton.1 hlast]
      exact hfinal

end Order

namespace Place

variable (before : T → T → Bool) (key : T)

/-- Whether the place comes before the key. -/
def precedes : Place T → Bool
  | head => true
  | .at k => before k key
  | tail => false

/-- Whether the key is not before the one at the place. -/
def reaches : Place T → Bool
  | .at k => !before key k
  | _ => false

end Place

/-- A list cut where the search for `key` ends. -/
structure Cut (before : T → T → Bool) (key : T) (left right : List T) : Prop where
  passed : ∀ k ∈ left, before k key
  stopped : (Place.start right).precedes before key = false

/-- An ascending list cut where the search for `key` ends. -/
structure Window (before : T → T → Bool) (key : T) (left right : List T) : Prop extends
    Cut before key left right where
  ascending : (left ++ right).Pairwise (before · ·)

/-- The list shows the members in ascending order. -/
structure KeySet.Shown (before : T → T → Bool) (keys : List T) (set : KeySet T) : Prop where
  ascending : keys.Pairwise (before · ·)
  members : keys.Perm set

/-- The list shows the members, and the counter counts them. -/
structure KeySet.Stored (before : T → T → Bool) (keys : List T) (count : Nat) (set : KeySet T) : Prop
    extends KeySet.Shown before keys set where
  counted : count = keys.length

namespace Window

variable {before : T → T → Bool} [order : IsStrictWeakOrder T (before · ·)]
  {key : T} {left right : List T} {set : KeySet T}

omit order in
theorem left_inequivalent (w : Window before key left right) :
    ∀ k ∈ left, equivalent before key k = false :=
  fun k hk => not_equivalent_of_after (w.passed k hk)

/-- Behind the window's right key all are after the key. -/
theorem tail_inequivalent (w : Window before key left right) :
    ∀ k ∈ right.tail, equivalent before key k = false := by
  intro k hk
  rcases right with _ | ⟨first, rest⟩
  · simp at hk
  · have hfirst : before first k :=
      (List.pairwise_cons.1 (List.pairwise_append.1 w.ascending).2.1).1 k hk
    have hstop : before first key = false := w.stopped
    rw [Bool.eq_false_iff]
    intro hkey
    cases hback : before key first with
    | true =>
      have hafter : before key k := before_trans hback hfirst
      rw [not_equivalent_of_before hafter] at hkey
      exact Bool.noConfusion hkey
    | false =>
      have hsame : equivalent before first k := equivalent_trans (equivalent_iff.2 ⟨hstop, hback⟩) hkey
      rw [not_equivalent_of_before hfirst] at hsame
      exact Bool.noConfusion hsame

/-- One comparison decides membership. -/
theorem any_equivalent (w : Window before key left right) :
    (left ++ right).any (equivalent before key) = (Place.start right).reaches before key := by
  have hleft : left.any (equivalent before key) = false :=
    List.any_eq_false.2 fun k hk => by simp [w.left_inequivalent k hk]
  rw [List.any_append, hleft, Bool.false_or]
  rcases right with _ | ⟨first, rest⟩
  · rfl
  · have hrest : rest.any (equivalent before key) = false :=
      List.any_eq_false.2 fun k hk => by simp [w.tail_inequivalent k hk]
    have hstop : before first key = false := w.stopped
    rw [List.any_cons, hrest, Bool.or_false]
    simp [equivalent, Place.start, Place.reaches, hstop]

theorem has_eq (w : Window before key left right) (h : KeySet.Shown before (left ++ right) set) :
    KeySet.has before set key = (Place.start right).reaches before key := by
  rw [← w.any_equivalent, KeySet.has, h.members.any_eq]

theorem shown_insert (w : Window before key left right)
    (h : KeySet.Shown before (left ++ right) set)
    (absent : (Place.start right).reaches before key = false) :
    KeySet.Shown before (left ++ key :: right) (KeySet.insert before set key) where
  ascending := by
    obtain ⟨hleft, hright, hcut⟩ := List.pairwise_append.1 w.ascending
    have hafter : ∀ k ∈ right, before key k := by
      intro k hk
      rcases right with _ | ⟨first, rest⟩
      · simp at hk
      · have hfirst : before key first := by simpa [Place.start, Place.reaches] using absent
        rcases List.mem_cons.1 hk with rfl | hrest
        · exact hfirst
        · exact before_trans hfirst ((List.pairwise_cons.1 hright).1 k hrest)
    refine List.pairwise_append.2 ⟨hleft, List.pairwise_cons.2 ⟨hafter, hright⟩, ?_⟩
    intro a ha b hb
    rcases List.mem_cons.1 hb with rfl | hb
    · exact w.passed a ha
    · exact hcut a ha b hb
  members := by
    rw [KeySet.insert, w.has_eq h, absent, if_neg (by simp)]
    have hfront : (left ++ key :: right).Perm (key :: set) :=
      List.perm_middle.trans (h.members.cons key)
    exact hfront.trans (List.perm_append_singleton key set).symm

theorem insert_present (w : Window before key left right)
    (h : KeySet.Shown before (left ++ right) set)
    (present : (Place.start right).reaches before key = true) :
    KeySet.insert before set key = set :=
  KeySet.insert_of_has ((w.has_eq h).trans present)

theorem shown_erase (w : Window before key left right)
    (h : KeySet.Shown before (left ++ right) set)
    (present : (Place.start right).reaches before key = true) :
    KeySet.Shown before (left ++ right.tail) (KeySet.erase before set key) where
  ascending := w.ascending.sublist (List.Sublist.append_left (List.tail_sublist right) left)
  members := by
    have hkeep : (left ++ right).filter (fun k => !equivalent before key k) = left ++ right.tail := by
      rcases right with _ | ⟨first, rest⟩
      · simp [Place.start, Place.reaches] at present
      · have hfirst : equivalent before key first := by
          refine equivalent_iff.2 ⟨?_, w.stopped⟩
          simpa [Place.start, Place.reaches] using present
        rw [List.filter_append, List.filter_cons_of_neg (by simp [hfirst]),
          List.filter_eq_self.2 fun k hk => by simp [w.left_inequivalent k hk],
          List.filter_eq_self.2 fun k hk => by simp [w.tail_inequivalent k hk], List.tail_cons]
    rw [← hkeep]
    exact h.members.filter _

theorem erase_absent (w : Window before key left right)
    (h : KeySet.Shown before (left ++ right) set)
    (absent : (Place.start right).reaches before key = false) :
    KeySet.erase before set key = set :=
  KeySet.erase_of_not_has ((w.has_eq h).trans absent)

theorem stored_insert {count : Nat} (w : Window before key left right)
    (h : KeySet.Stored before (left ++ right) count set)
    (absent : (Place.start right).reaches before key = false) :
    KeySet.Stored before (left ++ key :: right) (count + 1) (KeySet.insert before set key) where
  toShown := w.shown_insert h.toShown absent
  counted := by
    rw [h.counted]
    simp [Nat.add_assoc]

theorem stored_erase {count : Nat} (w : Window before key left right)
    (h : KeySet.Stored before (left ++ right) count set)
    (present : (Place.start right).reaches before key = true) :
    KeySet.Stored before (left ++ right.tail) (count - 1) (KeySet.erase before set key) where
  toShown := w.shown_erase h.toShown present
  counted := by
    rw [h.counted]
    cases right with
    | nil => simp [Place.start, Place.reaches] at present
    | cons first rest => simp

end Window
end LockedContainers
