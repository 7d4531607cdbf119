import Mathlib.Data.List.Pairwise
import LockedContainers.Map.Request
import LockedContainers.Proofs.Sequential

/-!
# Dictionaries modulo key equality

The reference for both maps: entries with pairwise different keys, in the
order of their insertion. The first of equal keys stays when its value is
replaced. What a dictionary answers does not depend on the order of its
entries.
-/
namespace LockedContainers

variable {K V : Type}

/-- An equivalence of keys, of which equal ones hash alike. -/
structure LawfulKeys (hash : K → UInt64) (same : K → K → Bool) : Prop where
  refl : ∀ a, same a a
  symm : ∀ a b, same a b → same b a
  trans : ∀ a b c, same a b → same b c → same a c
  hash_eq : ∀ a b, same a b → hash a = hash b

/-- No two entries have equal keys. -/
def DistinctKeys (same : K → K → Bool) (entries : List (K × V)) : Prop :=
  entries.Pairwise fun a b => same a.1 b.1 = false

abbrev Dictionary (K V : Type) := List (K × V)

namespace Dictionary

variable (same : K → K → Bool)

def get? (dict : Dictionary K V) (key : K) : Option V :=
  (dict.find? fun e => same e.1 key).map Prod.snd

/-- The entry with a new value under its own key, when that is equal to `key`. -/
def updated (key : K) (value : V) (e : K × V) : K × V :=
  if same e.1 key then (e.1, value) else e

def put (dict : Dictionary K V) (key : K) (value : V) : Dictionary K V :=
  if (get? same dict key).isSome then dict.map (updated same key value) else dict ++ [(key, value)]

def erase (dict : Dictionary K V) (key : K) : Dictionary K V :=
  dict.filter fun e => !same e.1 key

/-- The right answers of a dictionary; it has no buckets to be asked for. -/
def Accepts (dict : Dictionary K V) : MapRequest K V → MapAnswer V → Prop
  | .put key _, answer => answer = .value (get? same dict key)
  | .get key, answer => answer = .value (get? same dict key)
  | .remove key, answer => answer = .value (get? same dict key)
  | .contains key, answer => answer = .flag (get? same dict key).isSome
  | .size, answer => answer = .count dict.length
  | .isEmpty, answer => answer = .flag dict.isEmpty
  | .audit, answer => answer = .flag true
  | _, _ => True

def effect (dict : Dictionary K V) : MapRequest K V → Dictionary K V
  | .put key value => put same dict key value
  | .remove key => erase same dict key
  | _ => dict

def object : SequentialObject (Dictionary K V) (MapRequest K V) (MapAnswer V) where
  accepts := Accepts same
  effect := effect same

end Dictionary

section Lemmas
variable {hash : K → UInt64} {same : K → K → Bool} (lawful : LawfulKeys hash same)
include lawful

theorem LawfulKeys.false_symm {a b : K} (h : same a b = false) : same b a = false := by
  rw [Bool.eq_false_iff] at h ⊢
  exact fun h' => h (lawful.symm b a h')

theorem DistinctKeys.perm {entries entries' : List (K × V)} (h : DistinctKeys same entries)
    (perm : entries.Perm entries') : DistinctKeys same entries' :=
  (perm.pairwise_iff fun hab => lawful.false_symm hab).1 h

theorem DistinctKeys.eq_of_same {entries : List (K × V)} (h : DistinctKeys same entries)
    {a b : K × V} (ha : a ∈ entries) (hb : b ∈ entries) (hab : same a.1 b.1) : a = b := by
  by_contra hne
  have hsymm : Std.Symm fun a b : K × V => same a.1 b.1 = false :=
    ⟨fun _ _ hxy => lawful.false_symm hxy⟩
  have hdiff : same a.1 b.1 = false := List.Pairwise.forall h ha hb hne
  rw [hdiff] at hab
  exact Bool.noConfusion hab

/-- Around an entry with the key no other has it. -/
theorem DistinctKeys.others {left right : List (K × V)} {e : K × V} {key : K}
    (h : DistinctKeys same (left ++ e :: right)) (he : same e.1 key) :
    ∀ e' ∈ left ++ right, same e'.1 key = false := by
  obtain ⟨-, hright, hcut⟩ := List.pairwise_append.1 h
  intro e' he'
  have hdiff : same e'.1 e.1 = false := by
    rcases List.mem_append.1 he' with hl | hr
    · exact hcut e' hl e List.mem_cons_self
    · exact lawful.false_symm ((List.pairwise_cons.1 hright).1 e' hr)
  rw [Bool.eq_false_iff] at hdiff ⊢
  exact fun hkey => hdiff (lawful.trans e'.1 key e.1 hkey (lawful.symm e.1 key he))

namespace Dictionary
variable {dict : Dictionary K V} {key : K}

omit lawful in
theorem get?_eq_none (h : ∀ e ∈ dict, same e.1 key = false) : get? same dict key = none := by
  rw [get?, List.find?_eq_none.2 fun e he => by simp [h e he], Option.map_none]

theorem get?_eq_some (distinct : DistinctKeys same dict) {e : K × V} (he : e ∈ dict)
    (hkey : same e.1 key) : get? same dict key = some e.2 := by
  rw [get?]
  cases hfind : dict.find? fun e => same e.1 key with
  | none =>
    have hnone := List.find?_eq_none.1 hfind e he
    exact absurd hkey hnone
  | some e' =>
    have hkey' : same e'.1 key = true := by simpa using List.find?_some hfind
    have hsame : same e'.1 e.1 := lawful.trans e'.1 key e.1 hkey' (lawful.symm e.1 key hkey)
    rw [distinct.eq_of_same lawful (List.mem_of_find?_eq_some hfind) he hsame, Option.map_some]

/-- The order of the entries does not matter. -/
theorem get?_perm {dict' : Dictionary K V} (distinct : DistinctKeys same dict)
    (perm : dict.Perm dict') : get? same dict key = get? same dict' key := by
  cases hfind : dict.find? fun e => same e.1 key with
  | none =>
    have hnone : ∀ e ∈ dict, same e.1 key = false := by
      simpa using List.find?_eq_none.1 hfind
    rw [get?_eq_none hnone, get?_eq_none fun e he => hnone e (perm.mem_iff.2 he)]
  | some e =>
    have he : e ∈ dict := List.mem_of_find?_eq_some hfind
    have hkey : same e.1 key = true := by simpa using List.find?_some hfind
    rw [get?_eq_some lawful distinct he hkey,
      get?_eq_some lawful (distinct.perm lawful perm) (perm.mem_iff.1 he) hkey]

omit lawful in
theorem put_eq_append {value : V} (h : ∀ e ∈ dict, same e.1 key = false) :
    put same dict key value = dict ++ [(key, value)] := by
  rw [put, get?_eq_none h, if_neg (by simp)]

theorem put_eq_map {value : V} (distinct : DistinctKeys same dict) {e : K × V} (he : e ∈ dict)
    (hkey : same e.1 key) : put same dict key value = dict.map (updated same key value) := by
  rw [put, get?_eq_some lawful distinct he hkey, if_pos Option.isSome_some]

omit lawful in
theorem erase_eq_self (h : ∀ e ∈ dict, same e.1 key = false) : erase same dict key = dict :=
  List.filter_eq_self.2 fun e he => by simp [h e he]

/-- Only the entry with the key gets the new value. -/
theorem map_updated {left right : List (K × V)} {k : K} {v value : V}
    (distinct : DistinctKeys same (left ++ (k, v) :: right)) (hk : same k key) :
    (left ++ (k, v) :: right).map (updated same key value) = left ++ (k, value) :: right := by
  have hothers := distinct.others lawful hk
  have hkeep : ∀ e ∈ left ++ right, updated same key value e = e := by
    intro e he
    rw [updated, if_neg (by simp [hothers e he])]
  have hmap {part : List (K × V)} (hpart : ∀ e ∈ part, e ∈ left ++ right) :
      part.map (updated same key value) = part := by
    rw [List.map_congr_left fun e he => hkeep e (hpart e he), List.map_id']
  have hhit : updated same key value (k, v) = (k, value) := if_pos hk
  rw [List.map_append, List.map_cons, hmap fun e he => List.mem_append_left _ he,
    hmap fun e he => List.mem_append_right _ he, hhit]

/-- Only the entry with the key goes. -/
theorem filter_not_same {left right : List (K × V)} {k : K} {v : V}
    (distinct : DistinctKeys same (left ++ (k, v) :: right)) (hk : same k key) :
    erase same (left ++ (k, v) :: right) key = left ++ right := by
  have hothers := distinct.others lawful hk
  rw [erase, List.filter_append, List.filter_cons_of_neg (by simp [hk]), ← List.filter_append]
  exact List.filter_eq_self.2 fun e he => by simp [hothers e he]

omit lawful in
theorem distinct_map_updated {value : V} (distinct : DistinctKeys same dict) :
    DistinctKeys same (dict.map (updated same key value)) := by
  have hfst (e : K × V) : (updated same key value e).1 = e.1 := by
    rw [updated]
    split <;> rfl
  rw [DistinctKeys, List.pairwise_map]
  simp only [hfst]
  exact distinct

omit lawful in
theorem distinct_append {value : V} (distinct : DistinctKeys same dict)
    (h : ∀ e ∈ dict, same e.1 key = false) : DistinctKeys same (dict ++ [(key, value)]) := by
  refine List.pairwise_append.2 ⟨distinct, List.pairwise_singleton _ _, ?_⟩
  intro a ha b hb
  rw [List.mem_singleton.1 hb]
  exact h a ha

/-- Equal keys are mapped to the same. -/
theorem get?_congr {a b : K} (hab : same a b) : get? same dict a = get? same dict b := by
  have hiff (e : K × V) : same e.1 a = same e.1 b := by
    rw [Bool.eq_iff_iff]
    exact ⟨fun h => lawful.trans _ a b h hab, fun h => lawful.trans _ b a h (lawful.symm a b hab)⟩
  rw [get?, get?]
  simp only [hiff]

theorem get?_map_updated (dict : Dictionary K V) (key k : K) (value : V) :
    get? same (dict.map (updated same key value)) k =
      if same key k then (get? same dict k).map fun _ => value else get? same dict k := by
  induction dict with
  | nil => simp [get?]
  | cons e rest ih =>
    have hkey : (updated same key value e).1 = e.1 := by
      rw [updated]
      split <;> rfl
    rw [get?, get?] at ih
    rw [get?, get?, List.map_cons, List.find?_cons, List.find?_cons, hkey]
    cases hk : same e.1 k with
    | false => exact ih
    | true =>
      have hsame : same e.1 key = same key k := by
        rw [Bool.eq_iff_iff]
        exact ⟨fun h => lawful.trans _ _ _ (lawful.symm _ _ h) hk,
          fun h => lawful.trans _ _ _ hk (lawful.symm _ _ h)⟩
      simp only [updated, hsame, Option.map_some]
      split <;> rfl

/-- What a put maps the keys to. -/
theorem get?_put (dict : Dictionary K V) (key k : K) (value : V) :
    get? same (put same dict key value) k =
      if same key k then some value else get? same dict k := by
  rw [put]
  cases hold : get? same dict key with
  | some v =>
    rw [if_pos Option.isSome_some, get?_map_updated lawful]
    by_cases hk : same key k
    · rw [if_pos hk, if_pos hk, ← get?_congr lawful hk, hold, Option.map_some]
    · rw [if_neg hk, if_neg hk]
  | none =>
    rw [if_neg (by simp), get?, List.find?_append]
    by_cases hk : same key k
    · have hnone : get? same dict k = none := by rw [← get?_congr lawful hk, hold]
      rw [get?, Option.map_eq_none_iff] at hnone
      simp [hnone, hk]
    · simp [get?, hk]

/-- What an erasure maps the keys to. -/
theorem get?_erase (dict : Dictionary K V) (key k : K) :
    get? same (erase same dict key) k = if same key k then none else get? same dict k := by
  rw [get?, erase, List.find?_filter]
  by_cases hk : same key k
  · rw [if_pos hk, Option.map_eq_none_iff, List.find?_eq_none]
    intro e _ he
    simp only [Bool.not_eq_true', decide_eq_true_eq] at he
    have hsame := lawful.trans _ _ _ he.2 (lawful.symm _ _ hk)
    rw [he.1] at hsame
    exact Bool.noConfusion hsame
  · rw [if_neg hk, get?]
    congr 2
    funext e
    cases he : same e.1 k with
    | false => simp
    | true =>
      have hdiff : same e.1 key = false := by
        rw [Bool.eq_false_iff]
        exact fun h => hk (lawful.trans _ _ _ (lawful.symm _ _ h) he)
      simp [hdiff]

end Dictionary
end Lemmas
end LockedContainers
