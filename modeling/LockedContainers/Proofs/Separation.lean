import Mathlib.Logic.IsEmpty.Basic
import LockedContainers.Proofs.Interleaved

/-!
# Threads with keys of their own

A request about one key is answered by the value of that key and changes no
other. When every thread has keys of its own, its part of a log is a log of the
object by itself, so what a thread is answered and what becomes of its keys do
not depend on the requests of others that come between.
-/
namespace LockedContainers

variable {Thread C D K ν ε σ α β ρ : Type}

namespace SequentialObject

/-- The object with those of its requests that come from `request`. -/
def restrict (obj : SequentialObject D α β) (request : ρ → α) : SequentialObject D ρ β where
  accepts d r := obj.accepts d (request r)
  effect d r := obj.effect d (request r)

/-- Every request is about one key: the value of that key gives the answer, and no other changes. -/
structure Keyed (obj : SequentialObject D α β) (same : K → K → Bool) (key : α → K)
    (value : D → K → ν) (answer : α → ν → β) (after : α → ν → ν) : Prop where
  accepts : ∀ d r a, obj.accepts d r a ↔ a = answer r (value d (key r))
  effect : ∀ d r k,
    value (obj.effect d r) k = if same (key r) k then after r (value d k) else value d k

end SequentialObject

/-- Nothing in the log has failed. -/
def Answered (log : List (α × Except ε β)) : Prop := ∀ entry ∈ log, ∃ a, entry.2 = .ok a

theorem eq_of_prefix {log log' : List (α × β)} (h : log <+: log')
    (requests : log.map Prod.fst = log'.map Prod.fst) : log = log' :=
  h.eq_of_length (by simpa using congrArg List.length requests)

namespace SequentialObject.Keyed

variable {obj : SequentialObject D α β} {same : K → K → Bool} {key : α → K} {value : D → K → ν}
  {answer : α → ν → β} {after : α → ν → ν} (keyed : obj.Keyed same key value answer after)
  {excused : ε → Prop} {Own : K → Prop} {d d' e e' : D}
include keyed

theorem effect_congr {r : α} {k : K} (alike : value d k = value d' k) :
    value (obj.effect d r) k = value (obj.effect d' r) k := by
  rw [keyed.effect, keyed.effect, alike]

theorem effect_other {r : α} {k : K} (other : same (key r) k = false) :
    value (obj.effect d r) k = value d k := by
  rw [keyed.effect, other, if_neg Bool.false_ne_true]

/-- The same log makes the same of a key. -/
theorem value_eq {log : List (α × Except ε β)} (h : obj.Explains excused d log e)
    (h' : obj.Explains excused d' log e') {k : K} (alike : value d k = value d' k) :
    value e k = value e' k := by
  induction h generalizing d' with
  | nil =>
    cases h'
    exact alike
  | answer _ _ ih =>
    cases h' with
    | answer _ h' => exact ih h' (keyed.effect_congr alike)
  | failure _ _ ih =>
    cases h' with
    | failure _ h' => exact ih h' alike

/-- Logs of the same requests give the same answers. -/
theorem prefix_of_requests {log log' : List (α × Except ε β)} (h : obj.Explains excused d log e)
    (h' : obj.Explains excused d' log' e') (alike : ∀ k, Own k → value d k = value d' k)
    (own : ∀ entry ∈ log, Own (key entry.1)) (answered : Answered log) (answered' : Answered log')
    (requests : log.map Prod.fst <+: log'.map Prod.fst) : log <+: log' := by
  induction h generalizing d' log' with
  | nil => exact List.nil_prefix
  | failure _ _ _ =>
    obtain ⟨_, hfailed⟩ := answered _ List.mem_cons_self
    cases hfailed
  | @answer d _ r a log ha _ ih =>
    obtain ⟨hr, hown⟩ := List.forall_mem_cons.1 own
    cases h' with
    | nil => simp at requests
    | failure _ _ =>
      obtain ⟨_, hfailed⟩ := answered' _ List.mem_cons_self
      cases hfailed
    | @answer _ _ r' a' log' ha' h' =>
      rw [List.map_cons, List.map_cons, List.cons_prefix_cons] at requests
      obtain ⟨rfl, hrest⟩ := requests
      have hsame : a = a' := by
        rw [(keyed.accepts ..).1 ha, (keyed.accepts ..).1 ha', alike _ hr]
      subst hsame
      refine (List.prefix_cons_inj _).2 (ih h' (fun k hk => keyed.effect_congr (alike k hk)) hown
        ?_ ?_ hrest)
      · exact fun entry hentry => answered entry (List.mem_cons_of_mem _ hentry)
      · exact fun entry hentry => answered' entry (List.mem_cons_of_mem _ hentry)

/-- What a thread with keys of its own has in a log is a log by itself. -/
theorem own_part [DecidableEq Thread] {t : Thread} {log : List (Thread × α × Except ε β)}
    (h : obj.Explains excused d (log.map Prod.snd) e) (alike : ∀ k, Own k → value d k = value d' k)
    (own : ∀ entry ∈ log, entry.1 = t → Own (key entry.2.1))
    (apart : ∀ entry ∈ log, entry.1 ≠ t → ∀ k, Own k → same (key entry.2.1) k = false) :
    ∃ e', obj.Explains excused d' (Interleaving.logOf log t) e' ∧
      ∀ k, Own k → value e k = value e' k := by
  induction log generalizing d d' with
  | nil =>
    cases h
    exact ⟨d', .nil, alike⟩
  | cons entry log ih =>
    obtain ⟨hown, hrest⟩ := List.forall_mem_cons.1 own
    obtain ⟨hapart, hothers⟩ := List.forall_mem_cons.1 apart
    obtain ⟨t', r, outcome⟩ := entry
    by_cases ht : t' = t
    · subst ht
      rw [show (t', r, outcome) :: log = [(r, outcome)].map (t', ·) ++ log from rfl,
        Interleaving.logOf_append, Interleaving.logOf_self]
      cases h with
      | answer ha h =>
        obtain ⟨e', hlog, hvalues⟩ :=
          ih h (fun k hk => keyed.effect_congr (alike k hk)) hrest hothers
        refine ⟨e', .answer ((keyed.accepts ..).2 ?_) hlog, hvalues⟩
        rw [(keyed.accepts ..).1 ha, alike _ (hown rfl)]
      | failure he h =>
        obtain ⟨e', hlog, hvalues⟩ := ih h alike hrest hothers
        exact ⟨e', .failure he hlog, hvalues⟩
    · rw [show (t', r, outcome) :: log = [(r, outcome)].map (t', ·) ++ log from rfl,
        Interleaving.logOf_append, Interleaving.logOf_other (Ne.symm ht), List.nil_append]
      cases h with
      | answer _ h =>
        refine ih h (fun k hk => ?_) hrest hothers
        rw [keyed.effect_other (hapart ht k hk), alike k hk]
      | failure _ h => exact ih h alike hrest hothers

end SequentialObject.Keyed

/-- Every operation is one section. -/
def Sections.whole (operation : α → Guarded C ε σ β) : Sections C ε σ α β α where
  start := id
  request := id
  next r := .inl <$> operation r

theorem Sections.whole_refines {operation : α → Guarded C ε σ β} {obj : SequentialObject D α β}
    {excused : ε → Prop} {R : C → D → Prop}
    (step : ∀ c d r, R c d → Ends c (operation r)
      (fun a c' => obj.accepts d r a ∧ R c' (obj.effect d r)) (fun e c' => excused e ∧ R c' d)) :
    (Sections.whole operation).Refines obj excused R fun _ => True where
  start _ := ⟨trivial, rfl⟩
  next c d r h _ := .map (step c d r h)

/-- No two threads have requests for the same key. -/
def Apart (same : K → K → Bool) (key : α → K) (program : Thread → List α) : Prop :=
  ∀ t t', t ≠ t' → ∀ r ∈ program t, ∀ r' ∈ program t', same (key r) (key r') = false

/-- Whole operations in the order of a schedule of threads. -/
def interleave [DecidableEq Thread] (operation : α → Guarded C ε σ β) (program : Thread → List α)
    (shared : Shared C σ) (schedule : List Thread) : Interleaving Thread C ε σ α β α :=
  (Interleaving.begin shared program).run (.whole operation) schedule

/-- The thread has come to the end of its program. -/
def Interleaving.Completes [DecidableEq Thread] {τ : Type} (s : Interleaving Thread C ε σ α β τ)
    (program : Thread → List α) (t : Thread) : Prop :=
  (logOf s.log t).map Prod.fst = program t

/-- What the threads are answered and what they make of the keys does not depend on the schedule:
each is answered as when it is alone with the container. -/
structure Independent [DecidableEq Thread] (operation : α → Guarded C ε σ β) (excused : ε → Prop)
    (value : C → K → ν) (program : Thread → List α) (c : C) : Prop where
  /-- In company and alone, nothing fails without an excuse. -/
  failures : ∀ o schedule t o' r f,
    (r, .error f) ∈ Interleaving.logOf (interleave operation program ⟨c, o⟩ schedule).log t ++
      (serve operation (program t) ⟨c, o'⟩).1 → excused f
  alone : ∀ o schedule t o',
    let s := interleave operation program ⟨c, o⟩ schedule
    let own := Interleaving.logOf s.log t
    let solo := (serve operation (program t) ⟨c, o'⟩).1
    Answered own → Answered solo → own <+: solo ∧ (s.Completes program t → own = solo)
  final : ∀ o schedule o' schedule',
    let s := interleave operation program ⟨c, o⟩ schedule
    let s' := interleave operation program ⟨c, o'⟩ schedule'
    (∀ t, s.Completes program t ∧ s'.Completes program t) →
      Answered (s.log.map Prod.snd) → Answered (s'.log.map Prod.snd) →
        ∀ k, value s.shared.container k = value s'.shared.container k

/-- A thread has a key for its own when no other has a request for it. -/
def Owns (same : K → K → Bool) (key : α → K) (program : Thread → List α) (t : Thread) (k : K) :
    Prop :=
  ∀ t' ≠ t, ∀ r ∈ program t', same (key r) k = false

namespace Apart

variable {same : K → K → Bool} {key : α → K} {program : Thread → List α}
  (apart : Apart same key program)
include apart

theorem owns {t : Thread} {r : α} (hr : r ∈ program t) : Owns same key program t (key r) :=
  fun t' ht r' hr' => apart t' t ht r' hr' r hr

/-- At most one thread has requests for a key. -/
theorem exists_owner [Nonempty Thread] (equiv : Equivalence (same · ·)) (k : K) :
    ∃ t, Owns same key program t k := by
  by_contra hnone
  simp only [Owns, not_exists, not_forall, Bool.not_eq_false] at hnone
  obtain ⟨t, -, r, hr, hk⟩ := hnone (Classical.arbitrary Thread)
  obtain ⟨t', ht, r', hr', hk'⟩ := hnone t
  have hdiff := apart t' t ht r' hr' r hr
  rw [equiv.trans hk' (equiv.symm hk)] at hdiff
  exact Bool.noConfusion hdiff

end Apart

theorem interleave_of_isEmpty [DecidableEq Thread] [IsEmpty Thread]
    {operation : α → Guarded C ε σ β} {program : Thread → List α} {c : C} (o : σ) (schedule : List Thread) :
    (interleave operation program ⟨c, o⟩ schedule).shared = ⟨c, o⟩ := by
  cases schedule with
  | nil => rfl
  | cons t _ => exact isEmptyElim t

section Interleave
variable [DecidableEq Thread] {operation : α → Guarded C ε σ β} {obj : SequentialObject D α β}
  {same : K → K → Bool} {key : α → K} {value : D → K → ν} {answer : α → ν → β} {after : α → ν → ν}
  {excused : ε → Prop} {R : C → D → Prop} {program : Thread → List α} {c : C} {d : D}
  (keyed : obj.Keyed same key value answer after)
  (step : ∀ c d r, R c d → Ends c (operation r)
    (fun a c' => obj.accepts d r a ∧ R c' (obj.effect d r)) fun e c' => excused e ∧ R c' d)
  (start : R c d) (apart : Apart same key program)
include keyed step start apart

/-- Whatever the schedule, the part of a thread is a log by itself and makes of the thread's keys
what the threads make of them together. -/
theorem interleave_own_part (o : σ) (schedule : List Thread) (t : Thread) :
    let s := interleave operation program ⟨c, o⟩ schedule
    ∃ e e', R s.shared.container e ∧ obj.Explains excused d (Interleaving.logOf s.log t) e' ∧
      (∀ k, Owns same key program t k → value e k = value e' k) ∧
      (Interleaving.logOf s.log t).map Prod.fst <+: program t := by
  intro s
  obtain ⟨e, h⟩ : ∃ e, s.Explained (Sections.whole operation) obj excused R (fun _ => True)
      program d e :=
    (Interleaving.Explained.begin ⟨c, o⟩ start).run (Sections.whole_refines step) schedule
  have hmine {t' : Thread} {r : α} {outcome : Except ε β} (hentry : (t', r, outcome) ∈ s.log) :
      r ∈ program t' := by
    rw [← h.kept t']
    exact List.mem_append_left _ (List.mem_map_of_mem (Interleaving.mem_logOf.2 hentry))
  obtain ⟨e', hlog, hvalues⟩ := keyed.own_part (t := t) h.explains
    (fun k (_ : Owns same key program t k) => rfl)
    (fun entry hentry ht => ht ▸ apart.owns (hmine hentry))
    (fun entry hentry ht k hk => hk _ ht _ (hmine hentry))
  exact ⟨e, e', h.related, hlog, hvalues, ⟨_, h.kept t⟩⟩

theorem prefix_of_own {o : σ} {schedule : List Thread} {t : Thread} {log : List (α × Except ε β)}
    {e : D} (h : obj.Explains excused d log e)
    (answered : Answered (Interleaving.logOf (interleave operation program ⟨c, o⟩ schedule).log t))
    (answered' : Answered log) (requests : log.map Prod.fst = program t) :
    Interleaving.logOf (interleave operation program ⟨c, o⟩ schedule).log t <+: log := by
  obtain ⟨_, _, -, hlog, -, hinitial⟩ := interleave_own_part keyed step start apart o schedule t
  refine keyed.prefix_of_requests hlog h (fun k (_ : Owns same key program t k) => rfl)
    (fun entry hentry => apart.owns ?_) answered answered' (requests.symm ▸ hinitial)
  exact hinitial.subset (List.mem_map_of_mem hentry)

theorem value_of_complete [Nonempty Thread] (equiv : Equivalence (same · ·)) {o o' : σ}
    {schedule schedule' : List Thread} :
    let s := interleave operation program ⟨c, o⟩ schedule
    let s' := interleave operation program ⟨c, o'⟩ schedule'
    (∀ t, s.Completes program t ∧ s'.Completes program t) →
      Answered (s.log.map Prod.snd) → Answered (s'.log.map Prod.snd) →
        ∀ k, ∃ e e', R s.shared.container e ∧ R s'.shared.container e' ∧
          value e k = value e' k := by
  intro s s' complete answered answered' k
  obtain ⟨t, hk⟩ := apart.exists_owner equiv k
  have hown {log : List (Thread × α × Except ε β)} (h : Answered (log.map Prod.snd)) :
      Answered (Interleaving.logOf log t) :=
    fun entry hentry => h entry (List.mem_map_of_mem (Interleaving.mem_logOf.1 hentry))
  obtain ⟨e, own, hR, hlog, hvalue, -⟩ :=
    interleave_own_part keyed step start apart o schedule t
  obtain ⟨e', own', hR', hlog', hvalue', -⟩ :=
    interleave_own_part keyed step start apart o' schedule' t
  have hsame : Interleaving.logOf s.log t = Interleaving.logOf s'.log t :=
    eq_of_prefix (prefix_of_own keyed step start apart hlog' (hown answered) (hown answered')
      (complete t).2) ((complete t).1.trans (complete t).2.symm)
  refine ⟨e, e', hR, hR', ?_⟩
  rw [hvalue k hk, hvalue' k hk]
  exact keyed.value_eq hlog (hsame ▸ hlog') rfl

/-- Threads whose requests are about keys of their own are independent. -/
theorem independent_of_keyed (equiv : Equivalence (same · ·)) {shown : C → K → ν}
    (shows : ∀ c d k, R c d → shown c k = value d k) :
    Independent operation excused shown program c where
  failures o schedule t o' r f hf := by
    obtain ⟨_, _, -, hlog, -⟩ := interleave_own_part keyed step start apart o schedule t
    obtain ⟨_, hsolo, -⟩ := serve_explained obj step start o' (program t)
    rcases List.mem_append.1 hf with hf | hf
    · exact hlog.excuse hf
    · exact hsolo.excuse hf
  alone o schedule t o' := by
    intro s own solo answered answered'
    obtain ⟨_, hsolo, -⟩ := serve_explained obj step start o' (program t)
    have hrequests : solo.map Prod.fst = program t := serve_requests _ _ _
    have hinitial : own <+: solo :=
      prefix_of_own keyed step start apart hsolo answered answered' hrequests
    exact ⟨hinitial, fun complete => eq_of_prefix hinitial (complete.trans hrequests.symm)⟩
  final o schedule o' schedule' := by
    intro s s' complete answered answered' k
    rcases isEmpty_or_nonempty Thread with hempty | hnonempty
    · rw [show s.shared = ⟨c, o⟩ from interleave_of_isEmpty o schedule,
        show s'.shared = ⟨c, o'⟩ from interleave_of_isEmpty o' schedule']
    · obtain ⟨e, e', hR, hR', hvalue⟩ :=
        value_of_complete keyed step start apart equiv complete answered answered' k
      rw [shows _ _ k hR, shows _ _ k hR', hvalue]

end Interleave

end LockedContainers
