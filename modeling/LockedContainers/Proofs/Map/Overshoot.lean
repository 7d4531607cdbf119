import Mathlib.Data.Finset.Card
import Mathlib.Data.Finset.Range
import LockedContainers.Proofs.Map.Calm
import LockedContainers.Proofs.Map.Holders
import LockedContainers.Proofs.Map.Load
import LockedContainers.Proofs.Map.Solitary

/-!
# How far threads overshoot the threshold

An insertion reads the counter under its stripe and links its entry later, so
insertions under other stripes may pass the same reading. Under one stripe
there is one of them at a time: the counter, with those that have passed and
are not counted yet, never exceeds what the threshold allows by a stripe count.
-/
namespace LockedContainers

variable {Thread K V ε σ : Type}

theorem card_occupied_le_flatten (buckets : List (Bucket K V)) :
    ((Finset.range buckets.length).filter fun slot => buckets.getD slot [] ≠ []).card ≤
      buckets.flatten.length := by
  induction buckets using List.reverseRecOn with
  | nil => simp
  | append_singleton buckets b ih =>
    have hrest : ((Finset.range buckets.length).filter fun slot =>
        (buckets ++ [b]).getD slot [] ≠ []) =
        (Finset.range buckets.length).filter fun slot => buckets.getD slot [] ≠ [] := by
      apply Finset.filter_congr
      intro slot hslot
      rw [List.getD_eq_getElem?_getD, List.getElem?_append_left (Finset.mem_range.1 hslot),
        List.getD_eq_getElem?_getD]
    have hlast : (buckets ++ [b]).getD buckets.length [] = b := by simp
    rw [List.length_append, List.length_singleton, Finset.range_add_one, Finset.filter_insert,
      hrest, hlast, List.flatten_append, List.length_append, List.flatten_singleton]
    split
    · rename_i hb
      have hpos := List.length_pos_of_ne_nil hb
      have hinsert := Finset.card_insert_le buckets.length
        ((Finset.range buckets.length).filter fun slot => buckets.getD slot [] ≠ [])
      omega
    · omega

/-- The slots of the buckets that hold an entry. -/
def Table.occupied (table : Table K V) : Finset Nat :=
  (Finset.range table.size).filter fun slot => table.bucket slot ≠ []

theorem Table.card_occupied_le (table : Table K V) :
    table.occupied.card ≤ table.entries.length := by
  have hlist := card_occupied_le_flatten table.toList
  simpa [occupied, Table.bucket, Table.entries, Array.getD_eq_getD_getElem?,
    List.getD_eq_getElem?_getD] using hlist

theorem Table.mem_occupied {table : Table K V} {slot : Nat} (h : table.bucket slot ≠ []) :
    slot ∈ table.occupied := by
  refine Finset.mem_filter.2 ⟨Finset.mem_range.2 ?_, h⟩
  by_contra hsize
  exact h (bucket_of_size_le (Nat.not_lt.1 hsize))

/-- So many entries are, but for fewer than there are stripes, within the threshold. -/
structure MapOptions.NearlyFits (options : MapOptions) (entries buckets : Nat) : Prop where
  /-- As it is tested: the rounded entries do not exceed the rounded product. -/
  compared : options.exceeds (entries - (options.stripes.toNat - 1)) buckets = false
  /-- In whole numbers the entries are at most the whole part of the product and a stripe count less
  one, where binary64 counts one by one. Beyond that the rounding may admit more. -/
  bounded : ∀ m, options.allowance? buckets = some m →
    entries - (options.stripes.toNat - 1) ≤ 2 ^ 53 ∨ m < 2 ^ 53 →
      entries ≤ m + (options.stripes.toNat - 1)

theorem MapOptions.nearlyFits {options : MapOptions} {entries buckets : Nat}
    (positive : options.Positive)
    (fit : options.exceeds (entries - (options.stripes.toNat - 1)) buckets = false) :
    options.NearlyFits entries buckets where
  compared := fit
  bounded m allowed exact' := by
    have hbound := le_allowance positive fit allowed exact'
    omega

/-- Whether a request may change which keys are stored. -/
def MapRequest.IsUpdate : MapRequest K V → Prop
  | put _ _ => True
  | remove _ => True
  | _ => False

namespace StripeBank

namespace Stage

/-- An insertion that found room and is not counted. -/
def passed : Stage → Bool
  | linking => true
  | tallying => true
  | _ => false

def linked : Stage → Bool
  | tallying => true
  | _ => false

def unlinked : Stage → Bool
  | discounting => true
  | _ => false

end Stage

/-- How many of the first `S` stripes are at such a stage. -/
def tally (S : Nat) (marks : Nat → Stage) (p : Stage → Bool) : Nat :=
  ((Finset.range S).filter fun i => p (marks i)).card

section Tally
variable {S i : Nat} {marks : Nat → Stage} {p q : Stage → Bool}

theorem tally_le : tally S marks p ≤ S :=
  (Finset.card_filter_le _ _).trans_eq (Finset.card_range S)

theorem tally_mono (h : ∀ stage, p stage = true → q stage = true) :
    tally S marks p ≤ tally S marks q :=
  Finset.card_le_card (Finset.monotone_filter_right _ fun _ _ => h _)

theorem tally_eq_zero (h : ∀ i < S, p (marks i) = false) : tally S marks p = 0 := by
  rw [tally, Finset.card_eq_zero, Finset.filter_eq_empty_iff]
  intro i hi
  simp [h i (Finset.mem_range.1 hi)]

theorem tally_congr {marks' : Nat → Stage} (h : ∀ i < S, marks' i = marks i) :
    tally S marks' p = tally S marks p := by
  rw [tally, tally]
  congr 1
  apply Finset.filter_congr
  intro i hi
  rw [h i (Finset.mem_range.1 hi)]

theorem tally_succ : tally (S + 1) marks p = tally S marks p + (p (marks S)).toNat := by
  rw [tally, Finset.range_add_one, Finset.filter_insert]
  cases hp : p (marks S) with
  | false => rfl
  | true =>
    rw [if_pos rfl, Finset.card_insert_of_notMem (by simp)]
    rfl

/-- A change of stage at one stripe. -/
theorem tally_update (h : i < S) (stage : Stage) :
    tally S (Function.update marks i stage) p + (p (marks i)).toNat =
      tally S marks p + (p stage).toNat := by
  induction S with
  | zero => cases h
  | succ S ih =>
    rw [tally_succ, tally_succ]
    by_cases hlast : i = S
    · subst hlast
      have hrest : tally i (Function.update marks i stage) p = tally i marks p :=
        tally_congr fun j hj => Function.update_of_ne (Nat.ne_of_lt hj) _ _
      rw [hrest, Function.update_self]
      omega
    · have hrest := ih (by omega)
      rw [Function.update_of_ne (Ne.symm hlast)]
      omega

end Tally

/-- What is counted, what is stored and what has passed fit together. The numbers count the
insertions that have passed, those that are linked, and the removals that are unlinked. -/
structure Fitted (options : MapOptions) (map : StripedMap K V) (passed linked unlinked : Nat) :
    Prop where
  balance : map.count + linked = map.table.entries.length + unlinked
  within : options.exceeds (map.count + passed - (options.stripes.toNat - 1)) map.table.size = false

/-- A step at one stripe, or at none, keeps them fitted: an insertion passes only while all that
have passed are at other stripes. -/
theorem Shift.fitted {options : MapOptions} (positive : options.Positive)
    {map map' : StripedMap K V}
    {stage stage' : Stage} {passed passed' linked linked' unlinked unlinked' : Nat}
    (shift : Shift map map' stage stage') (fit : Fitted options map passed linked unlinked)
    (fixed : map.options = options) (size : map.table.size ≤ map'.table.size)
    (hpassed : passed' + stage.passed.toNat = passed + stage'.passed.toNat)
    (hlinked : linked' + stage.linked.toNat = linked + stage'.linked.toNat)
    (hunlinked : unlinked' + stage.unlinked.toNat = unlinked + stage'.unlinked.toNat)
    (few : passed' ≤ options.stripes.toNat) (stored : linked ≤ map.table.entries.length) :
    Fitted options map' passed' linked' unlinked' := by
  obtain ⟨hbalance, hwithin⟩ := fit
  have hless : ∀ n, n ≤ map.count + passed →
      options.exceeds (n - (options.stripes.toNat - 1)) map'.table.size = false :=
    fun n hn => MapOptions.exceeds_mono positive (Nat.sub_le_sub_right hn _) size hwithin
  cases shift with
  | pass room count entries =>
    -- With this insertion no more than a stripe count have passed, and the reading left room.
    simp only [Stage.passed, Stage.linked, Stage.unlinked, Bool.toNat_true, Bool.toNat_false]
      at hpassed hlinked hunlinked
    refine ⟨by omega, ?_⟩
    rw [LockedMap.isFull, fixed] at room
    exact MapOptions.exceeds_mono positive (by omega) size room
  | _ =>
    simp only [Stage.passed, Stage.linked, Stage.unlinked, Bool.toNat_true, Bool.toNat_false]
      at hpassed hlinked hunlinked
    exact ⟨by omega, hless _ (by omega)⟩

/-- Every stripe is marked with the stage of its holder, and what the marks count is fitted. -/
structure Balanced (options : MapOptions) (marks : Nat → Stage) (s : StripeRun Thread K V ε σ) :
    Prop where
  marked : ∀ t i, Holds options.stripes.toNat (s.clients t).task i →
    marks i = stageOf (s.clients t).task
  unmarked : ∀ i, s.shared.container.locked i = false → marks i = .idle
  fitted : Fitted options s.shared.container.map
    (tally options.stripes.toNat marks Stage.passed)
    (tally options.stripes.toNat marks Stage.linked)
    (tally options.stripes.toNat marks Stage.unlinked)

section Steps
variable {options : MapOptions} {keeper : Nat → Option Thread} {marks : Nat → Stage}
  {s : StripeRun Thread K V ε σ} {t : Thread} {task : Task K V ε}
  {pending : List (MapRequest K V)}

/-- A stripe that is marked has a holder at that stage. -/
theorem Balanced.holder (h : Balanced options marks s) (kept : Kept options keeper s) {i : Nat}
    (mark : marks i ≠ .idle) : ∃ t, ∃ task ∈ (s.clients t).task,
      Holds options.stripes.toNat (some task) i ∧ task.stage = marks i := by
  have hlocked : s.shared.container.locked i ≠ false := fun hfree => mark (h.unmarked i hfree)
  rw [Bool.ne_false_iff, kept.locked, Option.isSome_iff_exists] at hlocked
  obtain ⟨t, ht⟩ := hlocked
  have hholds := (kept.held t i).1 ht
  have hmark := h.marked t i hholds
  cases htask : (s.clients t).task with
  | none => exact absurd (htask ▸ hholds) not_holds_none
  | some task =>
    rw [htask] at hholds hmark
    exact ⟨t, task, htask, hholds, hmark.symm⟩

/-- An insertion that is linked and not counted has its entry in a bucket of its own stripe. -/
theorem Balanced.linked_le (h : Balanced options marks s) (kept : Kept options keeper s) :
    tally options.stripes.toNat marks Stage.linked ≤
      s.shared.container.map.table.entries.length := by
  -- A slot belongs to one stripe, so there are no more such stripes than slots in use.
  have hown : (Finset.range options.stripes.toNat).filter (fun i => (marks i).linked) ⊆
      s.shared.container.map.table.occupied.image (· % options.stripes.toNat) := by
    intro i hi
    obtain ⟨-, hlinked⟩ := Finset.mem_filter.1 hi
    have hmark : marks i ≠ .idle := by
      intro hidle
      rw [hidle] at hlinked
      cases hlinked
    obtain ⟨t, task, htask, hholds, hstage⟩ := h.holder kept hmark
    rw [← hstage] at hlinked
    cases task with
    | tallying put =>
      obtain ⟨slot, hstripe, hfull⟩ := kept.knows t _ htask
      refine Finset.mem_image.2 ⟨slot, Table.mem_occupied hfull, hstripe.trans ?_⟩
      exact ((holdsOnly_of_span rfl i).1 hholds).symm
    | _ => cases hlinked
  calc tally options.stripes.toNat marks Stage.linked
    _ ≤ (s.shared.container.map.table.occupied.image (· % options.stripes.toNat)).card :=
      Finset.card_le_card hown
    _ ≤ s.shared.container.map.table.occupied.card := Finset.card_image_le
    _ ≤ s.shared.container.map.table.entries.length := Table.card_occupied_le _

variable [DecidableEq Thread] {shared : Shared (StripeBank K V) σ} {out : Option (Task K V ε)}
  (done : List (MapRequest K V × Except (MapFailure ε) (MapAnswer V)))

/-- A stripe that a step takes was free. -/
theorem Regrip.held_or_free {locked locked' : Nat → Bool} {held held' : Nat → Prop}
    (h : Regrip locked held held' locked') {i : Nat} (hi : held' i) :
    held i ∨ locked i = false := by
  cases h with
  | same h => exact .inl ((h i).1 hi)
  | take j free h =>
    rcases (h i).1 hi with rfl | hheld
    · exact .inr free
    · exact .inl hheld
  | give j mine h => exact .inl ((h i).1 hi).2

/-- A stripe that is free after a step was free, or in hand. -/
theorem Regrip.held_or_free_of_free {locked locked' : Nat → Bool} {held held' : Nat → Prop}
    (h : Regrip locked held held' locked') {i : Nat} (hi : locked' i = false) :
    held i ∨ locked i = false := by
  cases h with
  | same h => exact .inr hi
  | take j free h =>
    by_cases hij : i = j
    · exact .inr (hij ▸ free)
    · rw [Function.update_of_ne hij] at hi
      exact .inr hi
  | give j mine h =>
    by_cases hij : i = j
    · exact .inl (hij ▸ mine)
    · rw [Function.update_of_ne hij] at hi
      exact .inr hi

/-- After a move of one thread every stripe is marked with the stage of its holder, when only the
stripes in its hands are marked anew. -/
theorem Balanced.marked_turn (h : Balanced options marks s) (kept : Kept options keeper s)
    (up : (s.clients t).upcoming Task.asked = some (task, pending)) {marks' : Nat → Stage}
    (mine : ∀ i, Holds options.stripes.toNat out i → marks' i = stageOf out)
    (others : ∀ i, ¬ Holds options.stripes.toNat (some task) i → marks' i = marks i)
    {t' : Thread} {i : Nat}
    (hi : Holds options.stripes.toNat
      ((s.turn t shared { task := out, pending } done).clients t').task i) :
    marks' i = stageOf ((s.turn t shared { task := out, pending } done).clients t').task := by
  by_cases ht : t' = t
  · subst ht
    simp only [Interleaving.turn, Function.update_self] at hi ⊢
    exact mine i hi
  · simp only [Interleaving.turn, Function.update_of_ne ht] at hi ⊢
    have hother : ¬ Holds options.stripes.toNat (some task) i :=
      fun hmine => ht (kept.exclusive hi ((holds_upcoming up _ i).2 hmine))
    exact (others i hother).trans (h.marked t' i hi)

/-- A move of one thread keeps the marks and the balance. -/
theorem Balanced.turn (positive : options.Positive) (h : Balanced options marks s)
    (kept : Kept options keeper s)
    (up : (s.clients t).upcoming Task.asked = some (task, pending))
    (move : Move options.stripes.toNat s.shared.container task shared.container out) :
    ∃ marks', Balanced options marks' (s.turn t shared { task := out, pending } done) := by
  have hsize : s.shared.container.map.table.size ≤ shared.container.map.table.size := by
    rcases move.grows with ⟨hsize, -⟩ | ⟨-, hdoubled⟩
    · exact Nat.le_of_eq hsize.symm
    · rw [hdoubled.size]
      exact Nat.le_mul_of_pos_right _ (by decide)
  have hstored := h.linked_le kept
  have hmark : ∀ i, Holds options.stripes.toNat (some task) i → marks i = task.stage := by
    intro i hi
    rw [← stageOf_upcoming up]
    exact h.marked t i ((holds_upcoming up _ i).2 hi)
  rcases move.staged with ⟨hstage, hstage'⟩ | ⟨i, hi, honly, honly', hlocked⟩
  · -- No update is under way at the stripes in hand or at free ones, so the marks stay.
    have hidle : ∀ j, Holds options.stripes.toNat (some task) j ∨
        s.shared.container.locked j = false → marks j = .idle := by
      rintro j (hheld | hfree)
      · rw [hmark j hheld, hstage]
      · exact h.unmarked j hfree
    have hshift := move.shift
    rw [hstage, hstage'] at hshift
    refine ⟨marks, ⟨fun t' j hj => ?_, fun j hfree => ?_, ?_⟩⟩
    · refine h.marked_turn done kept up (fun k hk => ?_) (fun _ _ => rfl) hj
      exact (hidle k (move.regrip.held_or_free hk)).trans hstage'.symm
    · exact hidle j (move.regrip.held_or_free_of_free hfree)
    · exact hshift.fitted positive h.fitted kept.fixed hsize rfl rfl rfl tally_le hstored
  · -- The one stripe in hand is marked with the stage that the update comes to.
    have hmine := (honly i).2 rfl
    have hbusy : s.shared.container.locked i = true := by
      rw [kept.locked, (kept.held t i).2 ((holds_upcoming up _ i).2 hmine)]
      rfl
    refine ⟨Function.update marks i (stageOf out), ⟨fun t' j hj => ?_, fun j hfree => ?_, ?_⟩⟩
    · refine h.marked_turn done kept up (fun k hk => ?_) (fun k hk => ?_) hj
      · rw [(honly' k).1 hk, Function.update_self]
      · exact Function.update_of_ne (fun hki => hk ((honly k).2 hki)) _ _
    · simp only [Interleaving.turn, hlocked] at hfree
      have hne : j ≠ i := by
        rintro rfl
        rw [hbusy] at hfree
        cases hfree
      rw [Function.update_of_ne hne]
      exact h.unmarked j hfree
    · have hupdate : ∀ p : Stage → Bool,
          tally options.stripes.toNat (Function.update marks i (stageOf out)) p +
            (p task.stage).toNat =
          tally options.stripes.toNat marks p + (p (stageOf out)).toNat := by
        intro p
        rw [← hmark i hmine]
        exact tally_update hi _
      exact move.shift.fitted positive h.fitted kept.fixed hsize (hupdate _) (hupdate _)
        (hupdate _) tally_le hstored

/-- The locks are kept and the counter is balanced, whoever holds what. -/
def Upheld (options : MapOptions) (s : StripeRun Thread K V ε σ) : Prop :=
  ∃ keeper marks, Kept options keeper s ∧ Balanced options marks s

omit [DecidableEq Thread] in
/-- A new map, before anyone begins. -/
theorem upheld_begin (positive : options.Positive) (stripes : 0 < options.stripes.toNat)
    (even : options.stripes.toNat ∣ options.buckets.toNat) (outside : σ)
    (program : Thread → List (MapRequest K V)) :
    Upheld options (Interleaving.begin
      ⟨{ map := { options, table := Table.vacant options.buckets.toNat } }, outside⟩ program :
        StripeRun Thread K V ε σ) := by
  have hnone : ∀ p : Stage → Bool, p .idle = false →
      tally options.stripes.toNat (fun _ => .idle) p = 0 := fun p hp => tally_eq_zero fun _ _ => hp
  refine ⟨fun _ => none, fun _ => .idle, ⟨rfl, stripes, ?_, fun _ => rfl, ?_, ?_⟩, ⟨?_, ?_, ?_⟩⟩
  · simpa [Interleaving.begin, Table.size_vacant] using even
  · simp [Interleaving.begin, Holds]
  · simp [Interleaving.begin]
  · simp [Interleaving.begin, Holds]
  · simp
  · rw [hnone _ rfl, hnone _ rfl, hnone _ rfl]
    refine ⟨by simp [Interleaving.begin, Table.entries_vacant], ?_⟩
    rw [Interleaving.begin, Nat.add_zero, Nat.zero_sub]
    exact MapOptions.exceeds_zero positive _

section Runs
variable (cb : MapCallbacks K V ε σ)

/-- Whoever takes the step, it is a move of that thread, or nothing happens. -/
theorem Upheld.step_cases (h : Upheld options s) (t : Thread) :
    s.step (sections cb) t = s ∨ ∃ task pending shared out done,
      (s.clients t).upcoming Task.asked = some (task, pending) ∧
        Move options.stripes.toNat s.shared.container task shared.container out ∧
        s.step (sections cb) t = s.turn t shared { task := out, pending } done := by
  obtain ⟨keeper, marks, kept, -⟩ := h
  exact Interleaving.step_cases fun task pending up => (kept.situated up).moves cb

theorem Upheld.step (positive : options.Positive) (h : Upheld options s) (t : Thread) :
    Upheld options (s.step (sections cb) t) := by
  rcases h.step_cases cb t with hsame | ⟨task, pending, shared, out, done, up, move, hstep⟩
  · rw [hsame]
    exact h
  · obtain ⟨keeper, marks, kept, balanced⟩ := h
    obtain ⟨keeper', kept'⟩ := kept.turn done up move
    obtain ⟨marks', balanced'⟩ := balanced.turn done positive kept up move
    rw [hstep]
    exact ⟨keeper', marks', kept', balanced'⟩

theorem Upheld.run (positive : options.Positive) (h : Upheld options s) (schedule : List Thread) :
    Upheld options (s.run (sections cb) schedule) := by
  induction schedule generalizing s with
  | nil => exact h
  | cons t rest ih => exact ih (h.step cb positive t)

end Runs

/-- What is stored and what is counted are nearly within the threshold, the counter is exact between
updates, and a step leaves the table as large as it is, or finds it full and doubles it. -/
structure Temperate (cb : MapCallbacks K V ε σ) (options : MapOptions)
    (s : StripeRun Thread K V ε σ) : Prop where
  entries : options.NearlyFits s.shared.container.map.table.entries.length
    s.shared.container.map.table.size
  counter : options.NearlyFits s.shared.container.map.count s.shared.container.map.table.size
  settled : (∀ t, ∀ task ∈ (s.clients t).task, ¬ task.request.IsUpdate) →
    s.shared.container.map.count = s.shared.container.map.table.entries.length
  grows : ∀ t, let next := (s.step (sections cb) t).shared.container.map
    (next.table.size = s.shared.container.map.table.size ∧
      next.growths = s.shared.container.map.growths) ∨
    options.exceeds (s.shared.container.map.count + 1) s.shared.container.map.table.size ∧
      LockedMap.Doubled s.shared.container.map next

theorem Task.isUpdate_of_stage {task : Task K V ε} (h : task.stage ≠ .idle) :
    task.request.IsUpdate := by
  cases task with
  | linking put slot => trivial
  | tallying put => trivial
  | discounting x key value => trivial
  | _ => exact absurd rfl h

theorem Upheld.temperate (cb : MapCallbacks K V ε σ) (positive : options.Positive)
    (h : Upheld options s) : Temperate cb options s := by
  have hstep := h.step_cases cb
  obtain ⟨keeper, marks, kept, balanced⟩ := h
  obtain ⟨hbalance, hwithin⟩ := balanced.fitted
  have hfew : tally options.stripes.toNat marks Stage.linked ≤
      tally options.stripes.toNat marks Stage.passed := by
    apply tally_mono
    intro stage hstage
    cases stage <;> first | rfl | cases hstage
  have hfit : ∀ n ≤ s.shared.container.map.count + tally options.stripes.toNat marks Stage.passed,
      options.NearlyFits n s.shared.container.map.table.size := by
    intro n hn
    apply MapOptions.nearlyFits positive
    exact MapOptions.exceeds_mono positive (Nat.sub_le_sub_right hn _) (Nat.le_refl _) hwithin
  refine ⟨hfit _ (by omega), hfit _ (Nat.le_add_right _ _), fun hrest => ?_, fun t => ?_⟩
  · have hidle : ∀ i, marks i = .idle := by
      intro i
      by_contra hmark
      obtain ⟨t, task, htask, -, hstage⟩ := balanced.holder kept hmark
      exact hrest t task htask (Task.isUpdate_of_stage (hstage ▸ hmark))
    rw [tally_eq_zero fun i _ => by rw [hidle i]; rfl,
      tally_eq_zero fun i _ => by rw [hidle i]; rfl] at hbalance
    exact hbalance
  · rcases hstep t with hsame | ⟨task, pending, shared, out, done, -, move, hturn⟩
    · rw [hsame]
      exact .inl ⟨rfl, rfl⟩
    · rw [hturn]
      rcases move.grows with hsize | ⟨hfull, hdoubled⟩
      · exact .inl hsize
      · rw [LockedMap.isFull, kept.fixed] at hfull
        exact .inr ⟨hfull, hdoubled⟩

end Steps

/-- What threads reach that share a new map. -/
theorem upheld_run [DecidableEq Thread] {cb : MapCallbacks K V ε σ} {options : MapOptions}
    {o o' : σ} {map : StripedMap K V} (made : StripedMap.make cb options o = .ok map o')
    (outside : σ) (program : Thread → List (MapRequest K V)) (schedule : List Thread) :
    map.options.Positive ∧ Upheld map.options
      ((Interleaving.begin ⟨{ map }, outside⟩ program).run (sections cb) schedule) := by
  have hmade := StripedMap.yields_make_vacant cb options o
  rw [made] at hmade
  obtain ⟨hcheck, -, -, rfl⟩ := hmade
  have hpositive : options.rounded.Positive :=
    show options.Positive from MapOptions.positive_of_check hcheck
  have hstripes : 0 < options.rounded.stripes.toNat :=
    show 0 < options.stripes.toNat from MapOptions.stripes_pos hcheck
  have hbegin := upheld_begin (ε := ε) (V := V) hpositive hstripes
    (Nat.dvd_of_mod_eq_zero options.rounded_even) outside program
  exact ⟨hpositive, hbegin.run cb hpositive schedule⟩

end StripeBank

/-- Whatever order the steps of the threads come in, a striped map holds and counts fewer entries
than one stripe count above its threshold, and it grows only when it is full. -/
theorem striped_map_temperate [DecidableEq Thread] {cb : MapCallbacks K V ε σ}
    {options : MapOptions} {o o' : σ} {map : StripedMap K V}
    (made : StripedMap.make cb options o = .ok map o') (outside : σ)
    (program : Thread → List (MapRequest K V)) (schedule : List Thread) :
    StripeBank.Temperate cb map.options
      ((Interleaving.begin ⟨{ map }, outside⟩ program).run (StripeBank.sections cb) schedule) := by
  obtain ⟨positive, upheld⟩ := StripeBank.upheld_run made outside program schedule
  exact upheld.temperate cb positive

/-- Two threads that insert under different stripes. -/
def twoInserters : Bool → List (MapRequest Nat Nat)
  | false => [.put 11 1]
  | true => [.put 20 2]

/-- Both read the counter before either links, and two entries are stored where the threshold allows
one: as many as one more stripe adds. -/
theorem striped_map_temperate_twoInserters :
    let schedule := List.replicate 5 false ++ List.replicate 5 true ++
      [false, true, false, true, false, true, false, true]
    let s := (Interleaving.begin ⟨{ map := LockedMap.ofTwo }, none⟩ twoInserters).run
      (StripeBank.sections (.fused tensHash sameTens)) schedule
    StripeBank.Temperate (.fused tensHash sameTens) { buckets := 2, stripes := 2 } s ∧
      s.shared.container.map.table.entries = [(20, 2), (11, 1)] ∧
      ({ buckets := 2, stripes := 2 } : MapOptions).allowance? 2 = some 1 :=
  ⟨striped_map_temperate (LockedMap.make_ofTwo (l := .striped) tensHash sameTens) none twoInserters _,
    by decide +kernel, by decide +kernel⟩

/-! ## More entries than binary64 can count -/

/-- Numbers that are their own hashes; nothing fails. -/
def MapCallbacks.faultless : MapCallbacks Nat Nat Unit Unit where
  hash k := pure (.ofNat k)
  equal a b := pure (a = b)
  copy := pure
  entryBytes := 8
  allocate _ := pure ()

theorem MapCallbacks.faultless_follows :
    faultless.Follows UInt64.ofNat (fun a b => decide (a = b)) where
  hash _ _ _ _ h := by
    cases h
    rfl
  equal _ _ _ _ _ h := by
    cases h
    rfl
  copy _ _ _ _ h := by
    cases h
    rfl

theorem MapCallbacks.faultless_calm (bytes : Nat) : faultless.Calm bytes where
  hash _ _ := trivial
  equal _ _ _ := trivial
  allocate _ _ _ := trivial

theorem plain_lawful : LawfulKeys UInt64.ofNat (fun a b => decide (a = b)) where
  refl a := by simp
  symm a b h := by simpa [eq_comm] using h
  trans a b c hab hbc := by
    simp only [decide_eq_true_eq] at *
    exact hab.trans hbc
  hash_eq a b h := by
    rw [of_decide_eq_true h]

/-- One entry for each of 2⁵³ buckets, under one stripe. -/
def MapOptions.vast : MapOptions where
  buckets := .ofNat (2 ^ 53)
  stripes := 1
  threshold := ⟨0x3ff0000000000000⟩

/-- One entry more rounds to as many as there are buckets. -/
theorem MapOptions.not_vast_exceeds : vast.exceeds (2 ^ 53 + 1) (2 ^ 53) = false := by
  decide +kernel

namespace StripedMap

def vast : StripedMap Nat Nat where
  options := .vast
  table := Table.vacant MapOptions.vast.buckets.toNat

/-- The first `n` numbers are stored, in a table that has not grown. -/
structure HoldsBelow (n : Nat) (map : StripedMap Nat Nat) : Prop where
  options : map.options = .vast
  size : map.table.size = 2 ^ 53
  stores : map.Stores UInt64.ofNat (fun a b => decide (a = b)) ((List.range n).map fun k => (k, k))

namespace HoldsBelow
variable {n : Nat} {map : StripedMap Nat Nat} (h : HoldsBelow n map)
include h

theorem not_isFull (few : n ≤ 2 ^ 53) : ¬ map.isFull := by
  have hcount : map.count = n := by simpa using h.stores.counted
  have hpositive : MapOptions.vast.Positive := MapOptions.positive_of_check (by decide +kernel)
  have hroom := MapOptions.exceeds_mono hpositive (Nat.succ_le_succ few) (Nat.le_refl _)
    MapOptions.not_vast_exceeds
  rw [LockedMap.isFull, h.options, h.size, hcount, hroom]
  exact Bool.false_ne_true

/-- The next number finds room. -/
theorem ends_put (few : n ≤ 2 ^ 53) :
    Ends map (StripedMap.put .faultless n n)
      (fun _ map' => HoldsBelow (n + 1) map') fun _ _ => False := by
  have hfull := h.not_isFull few
  have calm := MapCallbacks.faultless_calm
    (MapCallbacks.faultless.listBytes map.table.entries.length)
  have room : map.options.exceeds (map.count + 1) (map.table.size * 2 ^ 0) = false := by
    rw [Nat.pow_zero, Nat.mul_one, ← Bool.not_eq_true]
    exact hfull
  have hcalm : Ends map (StripedMap.put .faultless n n) (fun _ _ => True) fun _ _ => False :=
    ends_put_calm calm n h.stores.roomy room (fun hpos => absurd hpos (Nat.lt_irrefl 0))
      (Nat.le_refl _) (by decide)
  have hput := (StripedMap.ends_put plain_lawful MapCallbacks.faultless_follows h.stores n n).and
    (StripedMap.ends_put_any _ map n n)
  apply (hput.surely hcalm).mono _ fun _ _ hf => hf
  rintro v map' ⟨⟨-, hstores⟩, growths, grown, hgrown, hplaced, -⟩
  cases hgrown with
  | next full _ _ => exact absurd full hfull
  | none =>
    have habsent : ∀ e ∈ (List.range n).map fun k => (k, k), decide (e.1 = n) = false := by
      intro e he
      obtain ⟨k, hk, rfl⟩ := List.mem_map.1 he
      exact decide_eq_false (Nat.ne_of_lt (List.mem_range.1 hk))
    rw [Dictionary.put_eq_append habsent] at hstores
    refine ⟨?_, hplaced.size.trans h.size, ?_⟩
    · cases hplaced <;> exact h.options
    · rw [List.range_succ, List.map_append]
      exact hstores

/-- Number after number is put, as far as whole numbers are exact and once beyond that. -/
theorem serve_puts {count : Nat} (few : n + count ≤ 2 ^ 53 + 1) :
    let run := serve (MapRequest.perform .faultless)
      ((List.range' n count).map fun k => .put k k) ⟨map, ()⟩
    (∀ entry ∈ run.1, ∃ a, entry.2 = .ok a) ∧ HoldsBelow (n + count) run.2.container := by
  induction count generalizing n map with
  | zero => exact ⟨by simp [serve], h⟩
  | succ count ih =>
    obtain ⟨v, map', o, hrun, hholds⟩ := (h.ends_put (by omega)).answers ()
    have hperform : (MapRequest.put n n).perform .faultless ⟨map, ()⟩ =
        .ok (.value v) ⟨map', ()⟩ := by
      rw [MapRequest.perform, LockedMap.put, map_eq_pure_bind, bind_of_ok _ hrun]
      rfl
    obtain ⟨hanswered, hend⟩ := ih hholds (by omega)
    rw [List.range'_succ, List.map_cons, serve, hperform]
    refine ⟨List.forall_mem_cons.2 ⟨⟨_, rfl⟩, hanswered⟩, ?_⟩
    rw [Nat.add_right_comm] at hend
    exact hend

end HoldsBelow

theorem vast_holdsBelow : HoldsBelow 0 vast where
  options := rfl
  size := Table.size_vacant _
  stores := LockedMap.stores_vacant (by decide) fun _ => by decide

end StripedMap

/-- With one stripe the threshold would allow no entry more than it has buckets; but where entries
are too many for binary64 to count, one more is admitted. -/
theorem striped_map_overshoots :
    StripedMap.make .faultless .vast () = .ok StripedMap.vast () ∧
      ¬ ∀ (program : Unit → List (MapRequest Nat Nat)) (schedule : List Unit) (m : Nat),
        let map := ((Interleaving.begin ⟨{ map := StripedMap.vast }, ()⟩ program).run
          (StripeBank.sections .faultless) schedule).shared.container.map
        MapOptions.vast.allowance? map.table.size = some m →
          map.table.entries.length ≤ m + (MapOptions.vast.stripes.toNat - 1) := by
  constructor
  · have hcheck : MapOptions.vast.check = .ok () := by decide +kernel
    rw [StripedMap.make, MapOptions.require, hcheck]
    rfl
  · intro hbound
    have hall : 0 + (2 ^ 53 + 1) ≤ 2 ^ 53 + 1 := by omega
    obtain ⟨hanswered, hend⟩ := StripedMap.vast_holdsBelow.serve_puts hall
    obtain ⟨steps, hrun⟩ := StripeBank.exists_run_of_serve hanswered (t := ())
      (s := Interleaving.begin ⟨{ map := StripedMap.vast }, ()⟩ fun _ => _) rfl rfl
    have hallowed : MapOptions.vast.allowance? (2 ^ 53) = some (2 ^ 53) := by decide +kernel
    have hle := hbound _ _ (2 ^ 53) (by rw [hrun, hend.size]; exact hallowed)
    have hstripes : MapOptions.vast.stripes.toNat = 1 := rfl
    rw [hrun, hend.stores.entries.length_eq, List.length_map, List.length_range, hstripes] at hle
    omega

end LockedContainers
