import Mathlib.Data.List.Sigma
import Mathlib.Data.Nat.Bitwise
import LockedContainers.History.Search
import LockedContainers.Proofs.History.Order

/-!
# The search finds a legal order when there is one

A set of placed events with the state they lead to can be completed or not,
whatever came before. The candidates are the events that may come first in a
completion, so a search that fails has shown that there is none, for the pair
at hand and for every pair that it has entered on the way.
-/
namespace LockedContainers
namespace OrderSearch

variable {S : Type} {model : Model S} {history : List Event} {placed : UInt64} {state : S}
  {e : Event} {i j : Nat}

section Bits

theorem toNat_bit (h : i < maxEvents) : (bit i).toNat = 2 ^ i := by
  have hi : i < 64 := h
  have hmod : (UInt64.ofNat i).toNat % 64 = i := by
    rw [UInt64.toNat_ofNat']
    omega
  rw [bit, UInt64.toNat_shiftLeft, hmod, UInt64.toNat_one, Nat.one_shiftLeft]
  exact Nat.mod_eq_of_lt (Nat.pow_lt_pow_right (by decide) hi)

theorem and_bit_eq_zero (h : i < maxEvents) :
    placed &&& bit i = 0 ↔ placed.toNat.testBit i = false := by
  rw [← UInt64.toNat_inj, UInt64.toNat_and, toNat_bit h, Nat.and_two_pow]
  cases placed.toNat.testBit i <;> simp

/-- Placing one event leaves the bits of the others. -/
theorem or_bit_and_bit (placed : UInt64) (hi : i < maxEvents) (hj : j < maxEvents) :
    (placed ||| bit i) &&& bit j = 0 ↔ j ≠ i ∧ placed &&& bit j = 0 := by
  rw [and_bit_eq_zero hj, and_bit_eq_zero hj, UInt64.toNat_or, toNat_bit hi, Nat.testBit_or,
    Nat.testBit_two_pow]
  by_cases hij : i = j
  · simp [hij]
  · simp [hij, Ne.symm hij]

theorem toNat_full (short : history.length ≤ maxEvents) :
    (full history).toNat = 2 ^ history.length - 1 := by
  rw [full]
  split
  case isTrue hall =>
    rw [hall]
    rfl
  case isFalse hfew =>
    have hbit := toNat_bit (Nat.lt_of_le_of_ne short hfew)
    have hone : (1 : UInt64) ≤ bit history.length := by
      rw [UInt64.le_iff_toNat_le, hbit, UInt64.toNat_one]
      exact Nat.one_le_two_pow
    rw [UInt64.toNat_sub_of_le _ _ hone, hbit, UInt64.toNat_one]

theorem full_ne_zero (short : history.length ≤ maxEvents) (unfinished : history ≠ []) :
    0 ≠ full history := by
  have hpow : 2 ^ 1 ≤ 2 ^ history.length :=
    Nat.pow_le_pow_right (by decide) (List.length_pos_iff.2 unfinished)
  intro hzero
  have hfull := toNat_full short
  rw [← hzero, UInt64.toNat_zero] at hfull
  omega

end Bits

section Placing

theorem mem_unplaced {p : Event × Nat} :
    p ∈ unplaced history placed ↔ history[p.2]? = some p.1 ∧ placed &&& bit p.2 = 0 := by
  simp [unplaced, List.mem_filter, List.mem_zipIdx_iff_getElem?]

theorem lt_length_of_mem {p : Event × Nat} (h : p ∈ unplaced history placed) :
    p.2 < history.length :=
  (List.getElem?_eq_some_iff.1 (mem_unplaced.1 h).1).1

theorem mem_history {p : Event × Nat} (h : p ∈ unplaced history placed) : p.1 ∈ history :=
  List.mem_of_getElem? (mem_unplaced.1 h).1

theorem unplaced_zero : unplaced history 0 = history.zipIdx := by
  simp [unplaced]

/-- Placing an event takes it, and no other, from those that are unplaced. -/
theorem unplaced_place (short : history.length ≤ maxEvents)
    (h : (e, i) ∈ unplaced history placed) :
    (unplaced history placed).Perm ((e, i) :: unplaced history (placed ||| bit i)) := by
  have hnodup : (unplaced history placed).Nodup :=
    (List.Nodup.of_map Prod.snd (List.nodup_zipIdx_map_snd history)).filter _
  have hrest : unplaced history (placed ||| bit i) = (unplaced history placed).erase (e, i) := by
    rw [hnodup.erase_eq_filter, unplaced, unplaced, List.filter_filter]
    apply List.filter_congr
    rintro ⟨b, j⟩ hb
    have hbj : history[j]? = some b := List.mem_zipIdx_iff_getElem?.1 hb
    have hj : j < history.length := (List.getElem?_eq_some_iff.1 hbj).1
    have hi : i < history.length := lt_length_of_mem h
    have hsame : j = i ↔ (b, j) = (e, i) := by
      constructor
      · rintro rfl
        rw [Option.some.inj (hbj.symm.trans (mem_unplaced.1 h).1)]
      · intro heq
        exact congrArg Prod.snd heq
    have hbits := or_bit_and_bit placed (Nat.lt_of_lt_of_le hi short)
      (Nat.lt_of_lt_of_le hj short)
    rw [Bool.eq_iff_iff]
    simp only [decide_eq_true_eq, Bool.and_eq_true, bne_iff_ne, hbits, ne_eq, hsame]
  rw [hrest]
  exact List.perm_cons_erase h

theorem length_place (short : history.length ≤ maxEvents) {n : Nat}
    (left : (unplaced history placed).length = n + 1) (h : (e, i) ∈ unplaced history placed) :
    (unplaced history (placed ||| bit i)).length = n := by
  have hlength := (unplaced_place short h).length_eq
  rw [left, List.length_cons] at hlength
  omega

/-- No bits but those of events are set. -/
def Within (history : List Event) (placed : UInt64) : Prop :=
  placed.toNat < 2 ^ history.length

theorem Within.place (h : Within history placed) (short : history.length ≤ maxEvents)
    (hi : (e, i) ∈ unplaced history placed) : Within history (placed ||| bit i) := by
  have hlength : i < history.length := lt_length_of_mem hi
  rw [Within, UInt64.toNat_or, toNat_bit (Nat.lt_of_lt_of_le hlength short)]
  exact Nat.or_lt_two_pow h (Nat.pow_lt_pow_right (by decide) hlength)

/-- The search is at its end just when no event is left. -/
theorem eq_full_iff (short : history.length ≤ maxEvents) (within : Within history placed) :
    placed = full history ↔ (unplaced history placed).length = 0 := by
  have hbits : placed = full history ↔ ∀ i < history.length, placed.toNat.testBit i = true := by
    rw [← UInt64.toNat_inj, toNat_full short]
    constructor
    · intro heq i hi
      rw [heq, Nat.testBit_two_pow_sub_one, decide_eq_true hi]
    · intro hall
      apply Nat.eq_of_testBit_eq
      intro i
      rw [Nat.testBit_two_pow_sub_one]
      by_cases hi : i < history.length
      · rw [hall i hi, decide_eq_true hi]
      · have hpow : placed.toNat < 2 ^ i :=
          Nat.lt_of_lt_of_le within (Nat.pow_le_pow_right (by decide) (Nat.not_lt.1 hi))
        rw [Nat.testBit_lt_two_pow hpow, decide_eq_false hi]
  rw [hbits, List.length_eq_zero_iff, List.eq_nil_iff_forall_not_mem]
  constructor
  · rintro hall ⟨e, i⟩ hmem
    have hi := lt_length_of_mem hmem
    have hfree := (and_bit_eq_zero (Nat.lt_of_lt_of_le hi short)).1 (mem_unplaced.1 hmem).2
    rw [hall i hi] at hfree
    exact Bool.noConfusion hfree
  · intro hnone i hi
    by_contra hfree
    apply hnone (history[i], i)
    rw [Bool.not_eq_true] at hfree
    exact mem_unplaced.2
      ⟨List.getElem?_eq_getElem hi, (and_bit_eq_zero (Nat.lt_of_lt_of_le hi short)).2 hfree⟩

/-- A candidate is preceded by no event that is still to be placed. -/
theorem mem_candidates {p : Event × Nat} : p ∈ candidates history placed ↔
    p ∈ unplaced history placed ∧ ∀ q ∈ unplaced history placed, ¬ q.1.before p.1 := by
  have hbefore {returned : Event × Nat → Nat} (hreturned : ∀ q, returned q = q.1.returned)
      {horizon : Nat} (hmin : ((unplaced history placed).map returned).min? = some horizon) :
      (∀ q ∈ unplaced history placed, ¬ q.1.before p.1) ↔ p.1.invoked ≤ horizon := by
    obtain ⟨hmem, hle⟩ := List.min?_eq_some_iff.1 hmin
    constructor
    · intro h
      obtain ⟨q, hq, rfl⟩ := List.mem_map.1 hmem
      rw [hreturned]
      exact Nat.not_lt.1 (h q hq)
    · intro h q hq
      have hq' := hle _ (List.mem_map_of_mem hq)
      rw [hreturned] at hq'
      exact Nat.not_lt.2 (Nat.le_trans h hq')
  rw [candidates]
  split
  case h_1 hmin =>
    have hnil : unplaced history placed = [] := by simpa using List.min?_eq_none_iff.1 hmin
    simp [hnil]
  case h_2 horizon hmin =>
    rw [hbefore (fun _ => rfl) hmin]
    simp [List.mem_filter]

end Placing

/-- The events that are not placed have a legal order from the state. -/
def Completable (model : Model S) (history : List Event) (placed : UInt64) (state : S) : Prop :=
  ∃ order, LegalOrder model state ((unplaced history placed).map Prod.fst) order

theorem completable_of_all_placed (h : (unplaced history placed).length = 0) :
    Completable model history placed state := by
  rw [List.length_eq_zero_iff] at h
  refine ⟨[], ?_⟩
  rw [h]
  exact .nil

/-- A completion begins with a candidate that the model accepts, and then completes what that
leaves. -/
theorem completable_iff (short : history.length ≤ maxEvents)
    (timed : ∀ e ∈ history, e.invoked ≤ e.returned)
    (unfinished : (unplaced history placed).length ≠ 0) :
    Completable model history placed state ↔ ∃ p ∈ candidates history placed,
      (model.step state p.1).1 = true ∧
        Completable model history (placed ||| bit p.2) (model.step state p.1).2 := by
  constructor
  · rintro ⟨order, h⟩
    cases order with
    | nil =>
      have hlength := h.perm.length_eq
      rw [List.length_nil, List.length_map] at hlength
      exact absurd hlength.symm unfinished
    | cons e order =>
      obtain ⟨⟨e, i⟩, hp, rfl⟩ := List.mem_map.1 h.mem
      obtain ⟨haccepted, htail⟩ := h.tail ((unplaced_place short hp).map Prod.fst)
      have hfirst := h.first (timed _ (mem_history hp))
      refine ⟨(e, i), mem_candidates.2 ⟨hp, fun q hq => ?_⟩, haccepted, order, htail⟩
      exact hfirst q.1 (List.mem_map_of_mem hq)
  · rintro ⟨⟨e, i⟩, hp, haccepted, order, h⟩
    obtain ⟨hmem, hfirst⟩ := mem_candidates.1 hp
    have hperm := unplaced_place short hmem
    refine ⟨e :: order, h.cons (hperm.map Prod.fst) ?_ haccepted⟩
    intro b hb
    obtain ⟨q, hq, rfl⟩ := List.mem_map.1 hb
    exact hfirst q (hperm.mem_iff.2 (List.mem_cons_of_mem _ hq))

section TryEach
variable {α V : Type} {attempt : α → V → Bool × V} {options : List α} {v : V}

theorem exists_of_tryEach (h : (tryEach attempt options v).1 = true) :
    ∃ a ∈ options, ∃ w, (attempt a w).1 = true := by
  induction options generalizing v with
  | nil => simp [tryEach] at h
  | cons a rest ih =>
    cases hattempt : attempt a v with
    | mk found w =>
      cases found with
      | true => exact ⟨a, List.mem_cons_self, v, by rw [hattempt]⟩
      | false =>
        rw [tryEach, hattempt] at h
        obtain ⟨b, hb, hfound⟩ := ih h
        exact ⟨b, List.mem_cons_of_mem _ hb, hfound⟩

/-- When every attempt fails each has failed from where those before it led. -/
theorem tryEach_fails (kept : V → Prop) (hopeless : α → Prop) (start : kept v)
    (step : ∀ a ∈ options, ∀ w, kept w → (attempt a w).1 = false →
      hopeless a ∧ kept (attempt a w).2)
    (h : (tryEach attempt options v).1 = false) :
    (∀ a ∈ options, hopeless a) ∧ kept (tryEach attempt options v).2 := by
  induction options generalizing v with
  | nil => exact ⟨by simp, start⟩
  | cons a rest ih =>
    have ha := step a List.mem_cons_self v start
    cases hattempt : attempt a v with
    | mk found w =>
      rw [tryEach, hattempt] at h
      rw [hattempt] at ha
      cases found with
      | true => simp at h
      | false =>
        obtain ⟨hhopeless, hkept⟩ := ha rfl
        obtain ⟨hrest, hend⟩ := ih hkept (fun b hb => step b (List.mem_cons_of_mem _ hb)) h
        rw [tryEach, hattempt]
        exact ⟨List.forall_mem_cons.2 ⟨hhopeless, hrest⟩, hend⟩

end TryEach

section Explore
variable [BEq S] [Hashable S] {n : Nat} {visited visited' : Visited S}

/-- Only a completable pair is reported, whatever was visited before. -/
theorem completable_of_explore (short : history.length ≤ maxEvents)
    (timed : ∀ e ∈ history, e.invoked ≤ e.returned) (within : Within history placed)
    (left : (unplaced history placed).length = n)
    (found : (explore model history n placed state visited).1 = true) :
    Completable model history placed state := by
  induction n generalizing placed state visited with
  | zero => exact completable_of_all_placed left
  | succ n ih =>
    have hgoing : placed ≠ full history := fun hfull => by
      rw [(eq_full_iff short within).1 hfull] at left
      cases left
    rw [explore, if_neg hgoing] at found
    split at found
    · simp at found
    · obtain ⟨⟨e, i⟩, hp, w, hfound⟩ := exists_of_tryEach found
      rw [completable_iff short timed (by omega)]
      have hleft := length_place short left (mem_candidates.1 hp).1
      cases hstep : model.step state e with
      | mk accepted next =>
        simp only [hstep] at hfound
        cases accepted with
        | true =>
          have hnext := ih (within.place short (mem_candidates.1 hp).1) hleft hfound
          exact ⟨(e, i), hp, by simp [hstep], by simpa [hstep] using hnext⟩
        | false => simp at hfound

/-- No visited pair with at most `n` events to place can be completed. The pairs whose exploration is
still going on have more. -/
def Barren (model : Model S) (history : List Event) (n : Nat) (visited : Visited S) : Prop :=
  ∀ p ∈ visited, (unplaced history p.1).length ≤ n → ¬ Completable model history p.1 p.2

/-- What was visited since has at most `n` events to place and cannot be completed. -/
def Extends (model : Model S) (history : List Event) (n : Nat) (visited visited' : Visited S) :
    Prop :=
  ∀ p ∈ visited', p ∈ visited ∨
    (unplaced history p.1).length ≤ n ∧ ¬ Completable model history p.1 p.2

theorem Extends.refl : Extends model history n visited visited :=
  fun _ hp => .inl hp

theorem Extends.trans {visited'' : Visited S} (h : Extends model history n visited visited')
    (h' : Extends model history n visited' visited'') :
    Extends model history n visited visited'' := by
  intro p hp
  rcases h' p hp with hp | hp
  · exact h p hp
  · exact .inr hp

theorem Barren.extends (h : Barren model history n visited)
    (h' : Extends model history n visited visited') : Barren model history n visited' := by
  intro p hp hle
  rcases h' p hp with hp | hp
  · exact h p hp hle
  · exact hp.2

section Lawful
variable [LawfulBEq S]

/-- While a pair is explored it is visited, but has too many events to place to be counted on. -/
theorem Barren.insert (h : Barren model history (n + 1) visited)
    (left : (unplaced history placed).length = n + 1) (state : S) :
    Barren model history n (visited.insert (placed, state)) := by
  intro p hp hle
  rcases Std.HashSet.mem_insert.1 hp with heq | hp
  · rw [← eq_of_beq heq, left] at hle
    omega
  · exact h p hp (by omega)

/-- A pair that turns out to be dead may stay visited. -/
theorem Extends.of_insert (left : (unplaced history placed).length = n + 1)
    (dead : ¬ Completable model history placed state)
    (h : Extends model history n (visited.insert (placed, state)) visited') :
    Extends model history (n + 1) visited visited' := by
  intro p hp
  rcases h p hp with hp | ⟨hle, hp⟩
  · rcases Std.HashSet.mem_insert.1 hp with heq | hp
    · rw [← eq_of_beq heq]
      exact .inr ⟨Nat.le_of_eq left, dead⟩
    · exact .inl hp
  · exact .inr ⟨Nat.le_succ_of_le hle, hp⟩

/-- A search that fails has shown that nothing it visited can be completed. -/
theorem explore_fails (short : history.length ≤ maxEvents)
    (timed : ∀ e ∈ history, e.invoked ≤ e.returned) (within : Within history placed)
    (left : (unplaced history placed).length = n) (barren : Barren model history n visited)
    (failed : (explore model history n placed state visited).1 = false) :
    ¬ Completable model history placed state ∧
      Extends model history n visited (explore model history n placed state visited).2 := by
  induction n generalizing placed state visited with
  | zero => simp [explore, (eq_full_iff short within).2 left] at failed
  | succ n ih =>
    have hgoing : placed ≠ full history := by
      rintro rfl
      simp [explore] at failed
    by_cases hseen : visited.contains (placed, state) = true
    · rw [explore, if_neg hgoing, if_pos hseen]
      exact ⟨barren _ (Std.HashSet.mem_iff_contains.2 hseen) (Nat.le_of_eq left), .refl⟩
    · rw [explore, if_neg hgoing, if_neg hseen] at failed ⊢
      have hbarren := barren.insert left state
      -- the candidates tried so far have only added dead pairs to the visited ones
      have hall := tryEach_fails (Extends model history n (visited.insert (placed, state)))
        (fun p => (model.step state p.1).1 = true →
          ¬ Completable model history (placed ||| bit p.2) (model.step state p.1).2)
        .refl (by
          rintro ⟨e, i⟩ hp w hw hfailed
          have hleft := length_place short left (mem_candidates.1 hp).1
          cases hstep : model.step state e with
          | mk accepted next =>
            simp only [hstep] at hfailed ⊢
            cases accepted with
            | true =>
              have hwithin := within.place short (mem_candidates.1 hp).1
              obtain ⟨hdead, hnext⟩ := ih hwithin hleft (hbarren.extends hw) hfailed
              exact ⟨fun _ => hdead, hw.trans hnext⟩
            | false => exact ⟨by simp, hw⟩) failed
      have hdead : ¬ Completable model history placed state := by
        rw [completable_iff short timed (by omega)]
        rintro ⟨p, hp, haccepted, hcompletable⟩
        exact hall.1 p hp haccepted hcompletable
      exact ⟨hdead, hall.2.of_insert left hdead⟩

/-- A first search answers whether the history has a legal order. -/
theorem ask_make (short : history.length ≤ maxEvents)
    (timed : ∀ e ∈ history, e.invoked ≤ e.returned) :
    (ask { history, model }).1 = true ↔ ∃ order, LegalOrder model model.initial history order := by
  have hleft : (unplaced history 0).length = history.length := by
    rw [unplaced_zero, List.length_zipIdx]
  have hwithin : Within history 0 := Nat.two_pow_pos _
  have hevents : (unplaced history 0).map Prod.fst = history := by
    rw [unplaced_zero, List.zipIdx_map_fst]
  have hcompletable : Completable model history 0 model.initial ↔
      ∃ order, LegalOrder model model.initial history order := by
    rw [Completable, hevents]
  rw [← hcompletable]
  constructor
  · intro found
    exact completable_of_explore short timed hwithin hleft found
  · intro h
    by_contra hfailed
    rw [Bool.not_eq_true] at hfailed
    have hbarren : Barren model history history.length (∅ : Visited S) :=
      fun p hp => absurd hp Std.HashSet.not_mem_empty
    exact (explore_fails short timed hwithin hleft hbarren hfailed).1 h

end Lawful
end Explore
end OrderSearch

/-- A history of up to 64 events is answered, and positively just when it has a legal order; a longer
one is refused. -/
theorem linearizable_iff_exists_legalOrder {S : Type} [BEq S] [Hashable S] [LawfulBEq S]
    (model : Model S) (history : List Event)
    (timed : ∀ e ∈ history, e.invoked ≤ e.returned) :
    (history.length ≤ 64 → ∃ found, linearizable history model = .ok found ∧
      (found = true ↔ ∃ order, LegalOrder model model.initial history order)) ∧
    (64 < history.length → linearizable history model = .error .tooLong) := by
  constructor
  · intro short
    refine ⟨(OrderSearch.ask { history, model }).1, ?_, OrderSearch.ask_make short timed⟩
    rw [linearizable, OrderSearch.make, OrderSearch.maxEvents, if_neg (Nat.not_lt.2 short)]
    rfl
  · intro long
    rw [linearizable, OrderSearch.make, OrderSearch.maxEvents, if_pos long]
    rfl

/-- An addition that two look-ups overlap: the one that began first saw it, the other did not. -/
def overlapping : List Event :=
  [{ op := 2, key := 5, arg := 0, result := 1, invoked := 0, returned := 4 },
   { op := 2, key := 5, arg := 0, result := 0, invoked := 1, returned := 3 },
   { op := 0, key := 5, arg := 0, result := 1, invoked := 2, returned := 5 }]

/-- A look-up that began when the addition was over and did not see it. -/
def missing : Event :=
  { op := 2, key := 5, arg := 0, result := 0, invoked := 6, returned := 7 }

/-- The overlapping calls have a legal order, and with the late look-up they have none. -/
theorem linearizable_iff_exists_legalOrder_overlapping :
    (∃ order, LegalOrder bitSetModel bitSetModel.initial overlapping order) ∧
      ¬ ∃ order, LegalOrder bitSetModel bitSetModel.initial (overlapping ++ [missing]) order := by
  constructor
  · obtain ⟨found, hfound, hiff⟩ :=
      (linearizable_iff_exists_legalOrder bitSetModel overlapping (by decide)).1 (by decide)
    have hrun : linearizable overlapping bitSetModel = .ok true := by cbv
    rw [hrun] at hfound
    exact hiff.1 (Except.ok.inj hfound).symm
  · obtain ⟨found, hfound, hiff⟩ :=
      (linearizable_iff_exists_legalOrder bitSetModel (overlapping ++ [missing]) (by decide)).1
        (by decide)
    have hrun : linearizable (overlapping ++ [missing]) bitSetModel = .ok false := by cbv
    rw [hrun] at hfound
    intro h
    have htrue := hiff.2 h
    rw [← Except.ok.inj hfound] at htrue
    exact Bool.noConfusion htrue

end LockedContainers
