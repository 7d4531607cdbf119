import LockedContainers.Proofs.Set.Ordered

/-!
# One caller of a sorted set

Either set, under any strict weak order and with callbacks that may fail at
any call, answers as an ordered set modulo equivalence.
-/
namespace LockedContainers

variable {T ε σ : Type}

namespace SetCallbacks

variable (cb : SetCallbacks T ε σ)

/-- Some call fails with this error. -/
def Raises (e : ε) : Prop :=
  (∃ a b o o', cb.compare a b o = .error e o') ∨ ∃ k o o', cb.copy k o = .error e o'

/-- A call that returns answers by the order, and a copy is equal to its original. -/
structure Follows (before : T → T → Bool) : Prop where
  compare : ∀ a b o x o', cb.compare a b o = .ok x o' → x = before a b
  copy : ∀ k o x o', cb.copy k o = .ok x o' → x = k

variable {cb} {before : T → T → Bool}

theorem Follows.yields_compare (follows : cb.Follows before) (a b : T) :
    Yields (cb.compare a b) (· = before a b) cb.Raises := by
  intro o
  cases h : cb.compare a b o with
  | ok x o' => exact follows.compare a b o x o' h
  | error e o' => exact .inl ⟨a, b, o, o', h⟩

theorem Follows.yields_copy (follows : cb.Follows before) (k : T) :
    Yields (cb.copy k) (· = k) cb.Raises := by
  intro o
  cases h : cb.copy k o with
  | ok x o' => exact follows.copy k o x o' h
  | error e o' => exact .inr ⟨k, o, o', h⟩

end SetCallbacks

section Search
variable {cb : SetCallbacks T ε σ} {before : T → T → Bool} (follows : cb.Follows before)
include follows

theorem Place.yields_isBefore (key : T) (place : Place T) :
    Yields (place.isBefore cb key) (· = place.precedes before key) cb.Raises := by
  cases place with
  | head => exact .pure rfl
  | «at» k => exact follows.yields_compare k key
  | tail => exact .pure rfl

theorem Place.yields_isSame (key : T) (place : Place T) :
    Yields (place.isSame cb key) (· = place.reaches before key) cb.Raises := by
  cases place with
  | head => exact .pure rfl
  | «at» k =>
    refine (follows.yields_compare key k).bind fun x hx => .pure ?_
    rw [hx]
    rfl
  | tail => exact .pure rfl

theorem MonitorSet.yields_position (key : T) (keys : List T) :
    Yields (MonitorSet.position cb key keys)
      (fun i => ∃ left right, keys = left ++ right ∧ i = left.length ∧ Cut before key left right)
      cb.Raises := by
  induction keys with
  | nil => exact .pure ⟨[], [], rfl, rfl, by simp, rfl⟩
  | cons k rest ih =>
    refine (Place.yields_isBefore follows key (.at k)).bind fun x hx => ?_
    have hk : x = before k key := hx
    cases x with
    | true =>
      refine ih.bind fun i ⟨left, right, hkeys, hi, cut⟩ => .pure ?_
      refine ⟨k :: left, right, by rw [hkeys, List.cons_append], by rw [hi, List.length_cons], ?_,
        cut.stopped⟩
      intro a ha
      rcases List.mem_cons.1 ha with rfl | ha
      · exact hk.symm
      · exact cut.passed a ha
    | false => exact .pure ⟨[], k :: rest, rfl, rfl, by simp, hk.symm⟩

theorem Cursor.yields_seek (key : T) (behind ahead : List T) (passed : ∀ k ∈ behind, before k key) :
    Yields (Cursor.seek cb key behind ahead)
      (fun c => c.toList = behind.reverse ++ ahead ∧ Cut before key c.behind.reverse c.ahead)
      cb.Raises := by
  induction ahead generalizing behind with
  | nil => exact .pure ⟨rfl, fun k hk => passed k (List.mem_reverse.1 hk), rfl⟩
  | cons k ahead ih =>
    refine (Place.yields_isBefore follows key (.at k)).bind fun x hx => ?_
    have hk : x = before k key := hx
    cases x with
    | true =>
      have hpassed : ∀ a ∈ k :: behind, before a key := by
        intro a ha
        rcases List.mem_cons.1 ha with rfl | ha
        · exact hk.symm
        · exact passed a ha
      refine (ih (k :: behind) hpassed).mono (fun c hc => ⟨?_, hc.2⟩) fun _ he => he
      rw [hc.1]
      simp
    | false => exact .pure ⟨rfl, fun a ha => passed a (List.mem_reverse.1 ha), hk.symm⟩

/-- An audit of the order compares neighbours only. -/
theorem MonitorSet.yields_ascending (keys : List T) :
    Yields (MonitorSet.ascending cb keys) (fun b => b = true ↔ keys.IsChain (before · ·))
      cb.Raises := by
  induction keys with
  | nil => exact .pure (by simp)
  | cons k rest ih =>
    cases rest with
    | nil => exact .pure (by simp)
    | cons next rest =>
      refine (follows.yields_compare k next).bind fun x hx => ?_
      rw [List.isChain_cons_cons, ← hx]
      cases x with
      | true => exact ih.mono (fun b hb => by simpa using hb) fun _ he => he
      | false => exact .pure (by simp)

theorem yields_mapM_copy (keys : List T) : Yields (keys.mapM cb.copy) (· = keys) cb.Raises := by
  induction keys with
  | nil => exact .pure rfl
  | cons k rest ih =>
    rw [List.mapM_cons]
    refine (follows.yields_copy k).bind fun x hx => ih.bind fun xs hxs => .pure ?_
    rw [hx, hxs]

namespace CoupledSet

theorem yields_copyNode (copied : Array T) (k : T) :
    Yields (copyNode cb copied k) (· = (copied.push k, true)) cb.Raises :=
  (follows.yields_copy k).bind fun x hx => .pure (by rw [hx])

theorem yields_auditNode {last : Option T} {k : T} (hlast : ∀ l ∈ last, before l k) (seen : Nat) :
    Yields (auditNode cb (last, seen) k) (· = ((some k, seen + 1), true)) cb.Raises := by
  cases last with
  | none => exact .pure rfl
  | some l =>
    refine (follows.yields_compare l k).bind fun x hx => ?_
    rw [hx, hlast l rfl, if_pos rfl]
    exact .pure rfl

theorem yields_copies (copied : Array T) (keys : List T) :
    Yields (traverse (copyNode cb) copied keys)
      (fun out => out.1.toList = copied.toList ++ keys) cb.Raises := by
  induction keys generalizing copied with
  | nil => exact .pure (by simp)
  | cons k rest ih =>
    refine (yields_copyNode follows copied k).bind fun out hout => ?_
    subst hout
    refine (ih (copied.push k)).mono (fun out h => ?_) fun _ he => he
    rw [h]
    simp

theorem yields_audit (last : Option T) (seen : Nat) {keys : List T}
    (h : (last.toList ++ keys).Pairwise (before · ·)) :
    Yields (traverse (auditNode cb) (last, seen) keys)
      (fun out => out.1.2 = seen + keys.length ∧ out.2 = true) cb.Raises := by
  induction keys generalizing last seen with
  | nil => exact .pure ⟨rfl, rfl⟩
  | cons k rest ih =>
    obtain ⟨-, hrest, hcut⟩ := List.pairwise_append.1 h
    have hlast : ∀ l ∈ last, before l k := fun l hl =>
      hcut l (Option.mem_toList.2 hl) k List.mem_cons_self
    refine (yields_auditNode follows hlast seen).bind fun out hout => ?_
    subst hout
    refine (ih (some k) (seen + 1) hrest).mono (fun out h => ⟨?_, h.2⟩) fun _ he => he
    rw [h.1, List.length_cons]
    omega

end CoupledSet
end Search

/-- A callback made the operation fail, and the set stays as it was. -/
def SetCallbacks.Spares {C : Type} (cb : SetCallbacks T ε σ) (set : C) (e : ε) (set' : C) : Prop :=
  cb.Raises e ∧ set' = set

/-- Every operation answers as an ordered set and leaves one that stores what the ordered set
then has. -/
structure LockedSet.IsOrdered {S : Type → Type} [LockedSet S] (cb : SetCallbacks T ε σ)
    (before : T → T → Bool) (stores : S T → KeySet T → Prop) : Prop where
  add : ∀ set members key, stores set members → Ends set (LockedSet.add cb key)
    (fun b set' => b = !KeySet.has before members key ∧
      stores set' (KeySet.insert before members key)) (cb.Spares set)
  remove : ∀ set members key, stores set members → Ends set (LockedSet.remove cb key)
    (fun b set' => b = KeySet.has before members key ∧
      stores set' (KeySet.erase before members key)) (cb.Spares set)
  contains : ∀ set members key, stores set members → Ends set (LockedSet.contains cb key)
    (fun b set' => b = KeySet.has before members key ∧ set' = set) (cb.Spares set)
  size : ∀ set members, stores set members →
    Ends set (LockedSet.size : Guarded (S T) ε σ Nat) (fun n set' => n = members.length ∧ set' = set)
      (cb.Spares set)
  snapshot : ∀ set members, stores set members → Ends set (LockedSet.snapshot cb)
    (fun keys set' => KeySet.Shown before keys members ∧ set' = set) (cb.Spares set)
  audit : ∀ set members, stores set members →
    Ends set (LockedSet.audit cb) (fun b set' => b = true ∧ set' = set) (cb.Spares set)
  auditLive : ∀ set members, stores set members →
    Ends set (LockedSet.auditLive cb) (fun b set' => b = true ∧ set' = set) (cb.Spares set)

/-- A request to such a set is answered as by the ordered set. -/
theorem LockedSet.IsOrdered.ends_perform {S : Type → Type} [LockedSet S] {cb : SetCallbacks T ε σ}
    {before : T → T → Bool} {stores : S T → KeySet T → Prop}
    (ordered : LockedSet.IsOrdered cb before stores) {set : S T} {members : KeySet T}
    (h : stores set members) (request : SetRequest T) :
    Ends set (request.perform cb)
      (fun answer set' => KeySet.Accepts before members request answer ∧
        stores set' (KeySet.effect before members request))
      (fun e set' => cb.Raises e ∧ stores set' members) := by
  have hkept (e : ε) (set' : S T) (he : cb.Spares set e set') :
      cb.Raises e ∧ stores set' members := ⟨he.1, he.2 ▸ h⟩
  cases request with
  | add key =>
    exact .map ((ordered.add set members key h).mono
      (fun _ _ hb => ⟨congrArg SetAnswer.flag hb.1, hb.2⟩) hkept)
  | remove key =>
    exact .map ((ordered.remove set members key h).mono
      (fun _ _ hb => ⟨congrArg SetAnswer.flag hb.1, hb.2⟩) hkept)
  | contains key =>
    exact .map ((ordered.contains set members key h).mono
      (fun _ _ hb => ⟨congrArg SetAnswer.flag hb.1, hb.2 ▸ h⟩) hkept)
  | size =>
    exact .map ((ordered.size set members h).mono
      (fun _ _ hn => ⟨congrArg SetAnswer.count hn.1, hn.2 ▸ h⟩) hkept)
  | isEmpty =>
    refine .map ((ordered.size set members h).mono (fun n _ hn => ⟨?_, hn.2 ▸ h⟩) hkept)
    rw [hn.1]
    cases members <;> rfl
  | snapshot =>
    exact .map ((ordered.snapshot set members h).mono
      (fun keys _ hk => ⟨⟨keys, rfl, hk.1.ascending, hk.1.members⟩, hk.2 ▸ h⟩) hkept)
  | audit =>
    exact .map ((ordered.audit set members h).mono
      (fun _ _ hb => ⟨congrArg SetAnswer.flag hb.1, hb.2 ▸ h⟩) hkept)
  | auditLive =>
    exact .map ((ordered.auditLive set members h).mono
      (fun _ _ hb => ⟨congrArg SetAnswer.flag hb.1, hb.2 ▸ h⟩) hkept)

section Operations
variable {cb : SetCallbacks T ε σ} {before : T → T → Bool} {members : KeySet T} {β : Type}

/-- A search callback that fails leaves the set, too. -/
theorem Yields.sparing {C α : Type} {act : EStateM ε σ α} {post : α → Prop} (set : C)
    (h : Yields act post cb.Raises) : Yields act post (cb.Spares set · set) :=
  h.mono (fun _ ha => ha) fun _ he => ⟨he, rfl⟩

namespace MonitorSet
variable {set : MonitorSet T}

def Stores (before : T → T → Bool) (set : MonitorSet T) (members : KeySet T) : Prop :=
  KeySet.Stored before set.keys set.count members

/-- What follows a search sees the window of the key. -/
theorem ends_search (follows : cb.Follows before) (key : T) (h : set.Stores before members)
    {next : Nat → Bool → Guarded (MonitorSet T) ε σ β} {post : β → MonitorSet T → Prop}
    (hnext : ∀ left right, set.keys = left ++ right → Window before key left right →
      Ends set (next left.length ((Place.start right).reaches before key)) post (cb.Spares set)) :
    Ends set (Guarded.call (position cb key set.keys) >>= fun i =>
      Guarded.call (sameAt cb set.keys i key) >>= next i) post (cb.Spares set) := by
  refine .call_bind ((yields_position follows key set.keys).sparing set) fun i hi => ?_
  obtain ⟨left, right, hkeys, rfl, cut⟩ := hi
  rw [sameAt, hkeys, List.drop_left]
  refine .call_bind ((Place.yields_isSame follows key _).sparing set) fun same hsame => ?_
  rw [hsame]
  exact hnext left right hkeys ⟨cut, hkeys ▸ h.ascending⟩

variable [order : IsStrictWeakOrder T (before · ·)]

theorem ends_add (follows : cb.Follows before) (key : T) (h : set.Stores before members) :
    Ends set (add cb key)
      (fun b set' => b = !KeySet.has before members key ∧
        set'.Stores before (KeySet.insert before members key)) (cb.Spares set) := by
  refine .read_bind (ends_search follows key h fun left right hkeys w => ?_)
  have hstored : KeySet.Stored before (left ++ right) set.count members := hkeys ▸ h
  rw [w.has_eq hstored.toShown]
  cases hsame : (Place.start right).reaches before key with
  | true =>
    refine .pure ⟨rfl, ?_⟩
    rw [w.insert_present hstored.toShown hsame]
    exact h
  | false =>
    refine .modify_bind (.pure ⟨rfl, ?_⟩)
    have hkeys' : set.keys.insertIdx left.length key = left ++ key :: right := by
      rw [hkeys]
      exact List.modifyTailIdx_add (List.cons key) 0 left right
    rw [Stores, hkeys']
    exact w.stored_insert hstored hsame

theorem ends_remove (follows : cb.Follows before) (key : T) (h : set.Stores before members) :
    Ends set (remove cb key)
      (fun b set' => b = KeySet.has before members key ∧
        set'.Stores before (KeySet.erase before members key)) (cb.Spares set) := by
  refine .read_bind (ends_search follows key h fun left right hkeys w => ?_)
  have hstored : KeySet.Stored before (left ++ right) set.count members := hkeys ▸ h
  rw [w.has_eq hstored.toShown]
  cases hsame : (Place.start right).reaches before key with
  | true =>
    refine .modify_bind (.pure ⟨rfl, ?_⟩)
    have hkeys' : set.keys.eraseIdx left.length = left ++ right.tail := by
      rw [hkeys, List.eraseIdx_eq_modifyTailIdx]
      exact List.modifyTailIdx_add List.tail 0 left right
    rw [Stores, hkeys']
    exact w.stored_erase hstored hsame
  | false =>
    refine .pure ⟨rfl, ?_⟩
    rw [w.erase_absent hstored.toShown hsame]
    exact h

theorem ends_contains (follows : cb.Follows before) (key : T) (h : set.Stores before members) :
    Ends set (contains cb key) (fun b set' => b = KeySet.has before members key ∧ set' = set)
      (cb.Spares set) := by
  have hsearch : Ends set (Guarded.call (position cb key set.keys) >>= fun i =>
      Guarded.call (sameAt cb set.keys i key) >>= pure)
      (fun b set' => b = KeySet.has before members key ∧ set' = set) (cb.Spares set) :=
    ends_search follows key h fun left right hkeys w => by
      have hstored : KeySet.Stored before (left ++ right) set.count members := hkeys ▸ h
      exact .pure ⟨(w.has_eq hstored.toShown).symm, rfl⟩
  simp only [bind_pure] at hsearch
  exact .read_bind hsearch

omit order in
theorem ends_audit (follows : cb.Follows before) (h : set.Stores before members) :
    Ends set (audit cb) (fun b set' => b = true ∧ set' = set) (cb.Spares set) := by
  refine .read_bind (.call_bind ((yields_ascending follows set.keys).sparing set) fun b hb => ?_)
  rw [hb.2 h.ascending.isChain, if_pos rfl]
  exact .pure ⟨by simp [h.counted], rfl⟩

omit order in
theorem ends_snapshot (follows : cb.Follows before) (h : set.Stores before members) :
    Ends set (snapshot cb) (fun keys set' => KeySet.Shown before keys members ∧ set' = set)
      (cb.Spares set) := by
  refine .read_bind ?_
  refine (Ends.call (yields_mapM_copy follows set.keys)).mono (fun keys set' hk => ?_) fun _ _ he => he
  exact ⟨hk.1 ▸ h.toShown, hk.2⟩

omit order in
theorem ends_size (h : set.Stores before members) :
    Ends set (size : Guarded (MonitorSet T) ε σ Nat) (fun n set' => n = members.length ∧ set' = set)
      (cb.Spares set) := by
  refine .read_bind (.pure ⟨?_, rfl⟩)
  exact h.counted.trans h.members.length_eq

theorem isOrdered (follows : cb.Follows before) :
    LockedSet.IsOrdered cb before (MonitorSet.Stores before) where
  add _ _ key h := ends_add follows key h
  remove _ _ key h := ends_remove follows key h
  contains _ _ key h := ends_contains follows key h
  size _ _ h := ends_size h
  snapshot _ _ h := ends_snapshot follows h
  audit _ _ h := ends_audit follows h
  auditLive _ _ h := ends_audit follows h

end MonitorSet

namespace CoupledSet
variable {set : CoupledSet T}

def Stores (before : T → T → Bool) (set : CoupledSet T) (members : KeySet T) : Prop :=
  KeySet.Stored before set.keys set.count members

/-- What follows a search sees the link where the key belongs. -/
theorem ends_search (follows : cb.Follows before) (key : T) (h : set.Stores before members)
    {next : Cursor T → Bool → Guarded (CoupledSet T) ε σ β} {post : β → CoupledSet T → Prop}
    (hnext : ∀ c : Cursor T, c.toList = set.keys → Window before key c.behind.reverse c.ahead →
      Ends set (next c (c.current.reaches before key)) post (cb.Spares set)) :
    Ends set (Guarded.call (Cursor.seek cb key [] set.keys) >>= fun c =>
      Guarded.call (c.current.isSame cb key) >>= next c) post (cb.Spares set) := by
  refine .call_bind ((Cursor.yields_seek follows key [] set.keys (by simp)).sparing set) fun c hc => ?_
  obtain ⟨hkeys, cut⟩ := hc
  rw [List.reverse_nil, List.nil_append] at hkeys
  refine .call_bind ((Place.yields_isSame follows key _).sparing set) fun same hsame => ?_
  rw [hsame]
  exact hnext c hkeys ⟨cut, (hkeys ▸ h.ascending : c.toList.Pairwise _)⟩

variable [order : IsStrictWeakOrder T (before · ·)]

theorem ends_add (follows : cb.Follows before) (key : T) (h : set.Stores before members) :
    Ends set (add cb key)
      (fun b set' => b = !KeySet.has before members key ∧
        set'.Stores before (KeySet.insert before members key)) (cb.Spares set) := by
  refine .read_bind (ends_search follows key h fun c hkeys w => ?_)
  have hstored : KeySet.Stored before c.toList set.count members := hkeys ▸ h
  have hhas : KeySet.has before members key = c.current.reaches before key :=
    w.has_eq hstored.toShown
  rw [hhas]
  cases hsame : c.current.reaches before key with
  | true =>
    refine .pure ⟨rfl, ?_⟩
    rw [w.insert_present hstored.toShown hsame]
    exact h
  | false =>
    exact .modify_bind (.pure ⟨rfl, w.stored_insert hstored hsame⟩)

theorem ends_remove (follows : cb.Follows before) (key : T) (h : set.Stores before members) :
    Ends set (remove cb key)
      (fun b set' => b = KeySet.has before members key ∧
        set'.Stores before (KeySet.erase before members key)) (cb.Spares set) := by
  refine .read_bind (ends_search follows key h fun c hkeys w => ?_)
  have hstored : KeySet.Stored before c.toList set.count members := hkeys ▸ h
  have hhas : KeySet.has before members key = c.current.reaches before key :=
    w.has_eq hstored.toShown
  rw [hhas]
  cases hsame : c.current.reaches before key with
  | true =>
    exact .modify_bind (.pure ⟨rfl, w.stored_erase hstored hsame⟩)
  | false =>
    refine .pure ⟨rfl, ?_⟩
    rw [w.erase_absent hstored.toShown hsame]
    exact h

theorem ends_contains (follows : cb.Follows before) (key : T) (h : set.Stores before members) :
    Ends set (contains cb key) (fun b set' => b = KeySet.has before members key ∧ set' = set)
      (cb.Spares set) := by
  have hsearch : Ends set (Guarded.call (Cursor.seek cb key [] set.keys) >>= fun c =>
      Guarded.call (c.current.isSame cb key) >>= pure)
      (fun b set' => b = KeySet.has before members key ∧ set' = set) (cb.Spares set) :=
    ends_search follows key h fun c hkeys w => by
      have hstored : KeySet.Stored before c.toList set.count members := hkeys ▸ h
      exact .pure ⟨(w.has_eq hstored.toShown).symm, rfl⟩
  simp only [bind_pure] at hsearch
  exact .read_bind hsearch

omit order in
theorem ends_snapshot (follows : cb.Follows before) (h : set.Stores before members) :
    Ends set (snapshot cb) (fun keys set' => KeySet.Shown before keys members ∧ set' = set)
      (cb.Spares set) := by
  refine .read_bind (.call_bind ((yields_copies follows #[] set.keys).sparing set) fun out hout => ?_)
  refine .pure ⟨?_, rfl⟩
  rw [hout]
  exact h.toShown

omit order in
theorem ends_audit (follows : cb.Follows before) (atRest : Bool) (h : set.Stores before members) :
    Ends set (audit cb atRest) (fun b set' => b = true ∧ set' = set) (cb.Spares set) := by
  refine .read_bind (.call_bind ((yields_audit follows none 0 h.ascending).sparing set)
    fun out hout => .pure ⟨?_, rfl⟩)
  rw [hout.1, hout.2]
  simp [h.counted]

omit order in
theorem ends_size (h : set.Stores before members) :
    Ends set (size : Guarded (CoupledSet T) ε σ Nat) (fun n set' => n = members.length ∧ set' = set)
      (cb.Spares set) := by
  refine .read_bind (.pure ⟨?_, rfl⟩)
  exact h.counted.trans h.members.length_eq

theorem isOrdered (follows : cb.Follows before) :
    LockedSet.IsOrdered cb before (CoupledSet.Stores before) where
  add _ _ key h := ends_add follows key h
  remove _ _ key h := ends_remove follows key h
  contains _ _ key h := ends_contains follows key h
  size _ _ h := ends_size h
  snapshot _ _ h := ends_snapshot follows h
  audit _ _ h := ends_audit follows true h
  auditLive _ _ h := ends_audit follows false h

end CoupledSet
end Operations

/-- Whatever a caller asks of a new set, and whichever calls fail, the log is one of an ordered set
that starts empty, and the keys show its members. -/
def LockedSet.AnswersInOrder (S : Type → Type) [LockedSet S] (cb : SetCallbacks T ε σ)
    (before : T → T → Bool) : Prop :=
  ∀ (o : σ) (requests : List (SetRequest T)), ∃ members : KeySet T,
    let run := serve (SetRequest.perform cb) requests ⟨(LockedSet.empty : S T), o⟩
    run.1.map Prod.fst = requests ∧
      (KeySet.object before).Explains cb.Raises [] run.1 members ∧
      KeySet.Shown before (LockedSet.keys run.2.container) members

theorem LockedSet.IsOrdered.answersInOrder {S : Type → Type} [LockedSet S]
    {cb : SetCallbacks T ε σ} {before : T → T → Bool} {stores : S T → KeySet T → Prop}
    (ordered : LockedSet.IsOrdered cb before stores) (start : stores LockedSet.empty [])
    (shown : ∀ set members, stores set members → KeySet.Shown before (LockedSet.keys set) members) :
    LockedSet.AnswersInOrder S cb before := by
  intro o requests
  obtain ⟨members, hlog, hset⟩ := serve_explained (KeySet.object before)
    (fun _ _ request h => ordered.ends_perform h request) start o requests
  exact ⟨members, serve_requests _ requests _, hlog, shown _ _ hset⟩

theorem KeySet.stored_nil (before : T → T → Bool) : KeySet.Stored before [] 0 [] :=
  ⟨⟨.nil, .nil⟩, rfl⟩

/-- Under any strict weak order both sets answer as the ordered set modulo equivalence; an
operation in which a callback fails does nothing. -/
theorem sets_answer_in_order {cb : SetCallbacks T ε σ} {before : T → T → Bool}
    (order : IsStrictWeakOrder T (before · ·)) (follows : cb.Follows before) :
    LockedSet.AnswersInOrder MonitorSet cb before ∧
      LockedSet.AnswersInOrder CoupledSet cb before :=
  ⟨(MonitorSet.isOrdered follows).answersInOrder (KeySet.stored_nil before) fun _ _ h => h.toShown,
    (CoupledSet.isOrdered follows).answersInOrder (KeySet.stored_nil before) fun _ _ h => h.toShown⟩

/-- Callbacks that compare by `before` and fail once, when a fuse has burnt down. -/
def SetCallbacks.fused (before : T → T → Bool) : SetCallbacks T Unit (Option Nat) where
  compare a b := burn (before a b)
  copy := pure

theorem SetCallbacks.fused_follows (before : T → T → Bool) :
    (SetCallbacks.fused before).Follows before where
  compare _ _ _ _ _ h := eq_of_burn h
  copy _ _ _ _ h := by
    cases h
    rfl

def byTens (a b : Nat) : Bool := a / 10 < b / 10

theorem byTens_strictWeakOrder : IsStrictWeakOrder Nat (byTens · ·) where
  irrefl a := by simp [byTens]
  trans a b c hab hbc := by
    simp only [byTens, decide_eq_true_eq] at *
    omega
  incomp_trans a b c hab hbc := by
    simp only [byTens, decide_eq_true_eq] at *
    omega

/-- Keys with the same tens are equivalent, and the fourth comparison fails. -/
theorem sets_answer_in_order_fused :
    (LockedSet.AnswersInOrder MonitorSet (SetCallbacks.fused byTens) byTens ∧
      LockedSet.AnswersInOrder CoupledSet (SetCallbacks.fused byTens) byTens) ∧
    (serve (SetRequest.perform (SetCallbacks.fused byTens))
      [.add 31, .add 12, .add 35, .add 24, .remove 39, .snapshot, .audit]
      ⟨({} : CoupledSet Nat), some 3⟩).1.map Prod.snd =
      [.ok (.flag true), .ok (.flag true), .error (), .ok (.flag true), .ok (.flag true),
        .ok (.keys [12, 24]), .ok (.flag true)] :=
  ⟨sets_answer_in_order byTens_strictWeakOrder (SetCallbacks.fused_follows byTens), by decide⟩

end LockedContainers
