import LockedContainers.Proofs.Map.Sequential
import LockedContainers.Proofs.Set.Interchange
import LockedContainers.Proofs.Set.Sequential

/-!
# What an audit accepts

An audit compares neighbouring keys, or the keys of one bucket. By the laws of the
order, or of hashing and equality, that decides about all keys of the container,
whether requests could have led to it or not.
-/
namespace LockedContainers

variable {C K V T ε σ α β : Type}

theorem Yields.of_map {act : EStateM ε σ α} {f : α → β} {post : β → Prop} {failed : ε → Prop}
    (h : Yields (f <$> act) post failed) : Yields act (fun a => post (f a)) failed := by
  intro o
  have ho := h o
  simp only [Functor.map, EStateM.map] at ho
  cases hact : act o with
  | ok a o' =>
    rw [hact] at ho
    exact ho
  | error e o' =>
    rw [hact] at ho
    exact ho

/-- The audit leaves the container as it is and answers whether it is accepted. It may fail with a
failure that is excused, and where there is none it answers. -/
structure Audits (excused : ε → Prop) (c : C) (audit : Guarded C ε σ Bool) (accepted : Prop) :
    Prop where
  ends : Ends c audit (fun b c' => (b = true ↔ accepted) ∧ c' = c) fun e c' => excused e ∧ c' = c
  answers : (∀ e, ¬ excused e) → ∀ o, ∃ b o', audit ⟨c, o⟩ = .ok b ⟨c, o'⟩ ∧ (b = true ↔ accepted)

theorem Audits.of_ends {excused : ε → Prop} {c : C} {audit : Guarded C ε σ Bool} {accepted : Prop}
    (h : Ends c audit (fun b c' => (b = true ↔ accepted) ∧ c' = c) fun e c' => excused e ∧ c' = c) :
    Audits excused c audit accepted where
  ends := h
  answers safe o := by
    have hsafe := h.mono (fun _ _ hb => hb) fun e _ he => safe e he.1
    obtain ⟨b, c', o', hrun, hb, rfl⟩ := hsafe.answers o
    exact ⟨b, o', hrun, hb⟩

/-! ## Sets -/

/-- Every key is before every later one, and the counter counts the keys. -/
structure InOrder (before : T → T → Bool) (keys : List T) (count : Nat) : Prop where
  ascending : keys.Pairwise (before · ·)
  counted : count = keys.length

section Sets
variable {cb : SetCallbacks T ε σ} {before : T → T → Bool}

/-- Under a transitive comparison it is enough that neighbours are in order. -/
theorem isChain_iff_ascending (transitive : ∀ a b c, before a b → before b c → before a c)
    (keys : List T) : keys.IsChain (before · ·) ↔ keys.Pairwise (before · ·) := by
  have : IsTrans T (before · ·) := ⟨transitive⟩
  exact List.isChain_iff_pairwise

theorem MonitorSet.audits (follows : cb.Follows before)
    (transitive : ∀ a b c, before a b → before b c → before a c) (set : MonitorSet T) :
    Audits cb.Raises set (audit cb) (InOrder before set.keys set.count) := by
  have hkeys := isChain_iff_ascending transitive set.keys
  apply Audits.of_ends
  apply Ends.read_bind
  apply Ends.call_bind ((yields_ascending follows set.keys).sparing set)
  intro b hb
  rw [hkeys] at hb
  cases b with
  | true =>
    refine .pure ⟨?_, rfl⟩
    rw [decide_eq_true_eq]
    exact ⟨fun h => ⟨hb.1 rfl, h.symm⟩, fun h => h.counted.symm⟩
  | false => exact .pure ⟨⟨nofun, fun h => hb.2 h.ascending⟩, rfl⟩

/-- A walk over the nodes reaches the tail when they ascend, and has then counted them. -/
theorem CoupledSet.yields_walk (follows : cb.Follows before) (keys : List T) :
    Yields (traverse (auditNode cb) (none, 0) keys)
      (fun walked => (walked.2 = true ↔ keys.IsChain (before · ·)) ∧
        (walked.2 = true → walked.1.2 = keys.length)) cb.Raises := by
  have hordered := MonitorSet.yields_ascending follows keys
  rw [ascending_eq] at hordered
  apply (hordered.of_map.and (yields_traverse_auditNode cb none 0 keys)).mono _ fun _ he => he.1
  rintro walked ⟨hchain, hcount⟩
  rw [Nat.zero_add] at hcount
  exact ⟨hchain, hcount⟩

/-- While writers are at work the counter is left out. -/
theorem CoupledSet.audits (follows : cb.Follows before)
    (transitive : ∀ a b c, before a b → before b c → before a c) (set : CoupledSet T)
    (atRest : Bool) :
    Audits cb.Raises set (audit cb atRest)
      (set.keys.Pairwise (before · ·) ∧ (atRest = true → set.count = set.keys.length)) := by
  have hkeys := isChain_iff_ascending transitive set.keys
  apply Audits.of_ends
  apply Ends.read_bind
  apply Ends.call_bind ((yields_walk follows set.keys).sparing set)
  rintro ⟨⟨last, seen⟩, reached⟩ ⟨hchain, hcount⟩
  rw [hkeys] at hchain
  refine .pure ⟨?_, rfl⟩
  cases reached with
  | true =>
    obtain rfl : seen = set.keys.length := hcount rfl
    have hascending := hchain.1 rfl
    cases atRest with
    | true =>
      simp only [hascending, true_and, forall_const]
      exact ⟨fun h => (of_decide_eq_true h).symm, fun h => decide_eq_true h.symm⟩
    | false => simp [hascending]
  | false => simpa using fun h => absurd (hchain.2 h) Bool.false_ne_true

end Sets

/-! ## Maps -/

/-- A callback failed. -/
def MapCallbacks.Fails (cb : MapCallbacks K V ε σ) (f : MapFailure ε) : Prop :=
  ∃ e, f = .callback e ∧ cb.Raises e

theorem LockedMap.audits {l : Locking} {cb : MapCallbacks K V ε σ} {hash : K → UInt64}
    {same : K → K → Bool} (lawful : LawfulKeys hash same) (follows : cb.Follows hash same)
    (map : LockedMap l K V) : Audits cb.Fails map (audit cb) (map.WellFormed hash same) :=
  .of_ends (ends_audit lawful follows map)

/-- In every state, reachable or not, the audits accept what is well-formed and nothing else: keys
of which each is before all later ones, entries at home with different keys, counters that count. -/
theorem audits_decide_well_formed {ε' σ' : Type} {scb : SetCallbacks T ε' σ'}
    {before : T → T → Bool} (transitive : ∀ a b c, before a b → before b c → before a c)
    (ordered : scb.Follows before) {mcb : MapCallbacks K V ε σ} {hash : K → UInt64}
    {same : K → K → Bool} (lawful : LawfulKeys hash same) (follows : mcb.Follows hash same) :
    (∀ set : MonitorSet T,
      Audits scb.Raises set (MonitorSet.audit scb) (InOrder before set.keys set.count)) ∧
    (∀ set : CoupledSet T,
      Audits scb.Raises set (CoupledSet.audit scb true) (InOrder before set.keys set.count) ∧
      Audits scb.Raises set (CoupledSet.audit scb false) (set.keys.Pairwise (before · ·))) ∧
    ∀ (l : Locking) (map : LockedMap l K V),
      Audits mcb.Fails map (LockedMap.audit mcb) (map.WellFormed hash same) := by
  refine ⟨MonitorSet.audits ordered transitive, fun set => ⟨?_, ?_⟩, fun l map => ?_⟩
  · have haudits := CoupledSet.audits ordered transitive set true
    have haccepted :
        (set.keys.Pairwise (before · ·) ∧ (true = true → set.count = set.keys.length)) ↔
          InOrder before set.keys set.count :=
      ⟨fun h => ⟨h.1, h.2 rfl⟩, fun h => ⟨h.ascending, fun _ => h.counted⟩⟩
    rwa [haccepted] at haudits
  · have haudits := CoupledSet.audits ordered transitive set false
    simpa using haudits
  · exact LockedMap.audits lawful follows map

/-- A map with equal keys in its two buckets, one of them astray. -/
def LockedMap.crooked {l : Locking} : LockedMap l Nat Nat where
  options := { buckets := 2, stripes := 2 }
  table := #[[(11, 1)], [(12, 2)]]
  count := 2

/-- Two keys of equal tens are not in order; a list that is in order is accepted, and the crooked
map is not. -/
theorem audits_decide_well_formed_byTens :
    ¬ InOrder byTens [12, 35, 31] 3 ∧ InOrder byTens [12, 24, 35] 3 ∧
      ¬ (LockedMap.crooked : StripedMap Nat Nat).WellFormed tensHash sameTens := by
  have hfollows : (.fused tensHash sameTens : MapCallbacks Nat Nat _ _).Follows tensHash sameTens :=
    MapCallbacks.fused_follows tensHash sameTens
  obtain ⟨hmonitor, hcoupled, hmap⟩ := audits_decide_well_formed byTens_strictWeakOrder.trans
    (SetCallbacks.fused_follows byTens) tens_lawful hfollows
  have hrejected : MonitorSet.audit (.fused byTens) ⟨⟨[12, 35, 31], 3⟩, none⟩ =
      .ok false ⟨⟨[12, 35, 31], 3⟩, none⟩ := rfl
  have haccepted : CoupledSet.audit (.fused byTens) true ⟨⟨[12, 24, 35], 3⟩, none⟩ =
      .ok true ⟨⟨[12, 24, 35], 3⟩, none⟩ := rfl
  have hastray : LockedMap.audit (.fused tensHash sameTens)
      ⟨(LockedMap.crooked : StripedMap Nat Nat), none⟩ = .ok false ⟨LockedMap.crooked, none⟩ := rfl
  refine ⟨fun h => ?_, ((hcoupled _).1.ends.of_ok haccepted).1.1 rfl, fun h => ?_⟩
  · exact Bool.noConfusion (((hmonitor _).ends.of_ok hrejected).1.2 h)
  · exact Bool.noConfusion (((hmap _ _).ends.of_ok hastray).1.2 h)

end LockedContainers
