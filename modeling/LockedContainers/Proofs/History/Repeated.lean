import LockedContainers.Proofs.History.Search

/-!
# A search that is asked again

The pairs that a search has entered stay visited, those on the way to a success included. The pair
that every question begins with is one of them, so from the second question on the search fails
where it begins, unless there is nothing to place.
-/
namespace LockedContainers
namespace OrderSearch

/-- What every attempt keeps is kept, whether one succeeds or none. -/
theorem tryEach_keeps {α V : Type} {attempt : α → V → Bool × V} {options : List α} {v : V}
    (kept : V → Prop) (step : ∀ a w, kept w → kept (attempt a w).2) (start : kept v) :
    kept (tryEach attempt options v).2 := by
  induction options generalizing v with
  | nil => exact start
  | cons a rest ih =>
    have hattempt := step a v start
    rw [tryEach]
    cases hrun : attempt a v with
    | mk found w =>
      rw [hrun] at hattempt
      cases found with
      | true => exact hattempt
      | false => exact ih hattempt

variable {S : Type} [BEq S] [Hashable S] {model : Model S} {history : List Event} {n : Nat}
  {placed : UInt64} {state : S} {visited : Visited S} {search : OrderSearch S}

/-- The answers to so many questions, one after another. -/
def answers : Nat → OrderSearch S → List Bool
  | 0, _ => []
  | n + 1, search => search.ask.1 :: answers n search.ask.2

/-- However often it is asked, the search answers as it did at first. -/
def Steady (search : OrderSearch S) : Prop :=
  ∀ n, ∀ answer ∈ search.answers n, answer = search.ask.1

/-- Where there is nothing to place a question is answered at once. -/
theorem found_of_nil (empty : search.history = []) : search.ask.1 = true := by
  rw [ask, empty]
  rfl

theorem answers_of_nil (empty : search.history = []) (n : Nat) :
    answers n search = List.replicate n true := by
  induction n generalizing search with
  | zero => rfl
  | succ n ih =>
    have hlater := ih (show search.ask.2.history = [] from empty)
    rw [answers, found_of_nil empty, hlater, List.replicate_succ]

/-- A search that begins with a visited pair fails and stays as it is. -/
theorem ask_of_begun (short : search.history.length ≤ maxEvents) (unfinished : search.history ≠ [])
    (begun : (0, search.model.initial) ∈ search.visited) : search.ask = (false, search) := by
  obtain ⟨left, hleft⟩ := Nat.exists_eq_succ_of_ne_zero (List.length_eq_zero_iff.not.2 unfinished)
  rw [ask, hleft, explore, if_neg (full_ne_zero short unfinished),
    if_pos (Std.HashSet.mem_iff_contains.1 begun)]

theorem answers_of_begun (short : search.history.length ≤ maxEvents)
    (unfinished : search.history ≠ []) (begun : (0, search.model.initial) ∈ search.visited)
    (n : Nat) : answers n search = List.replicate n false := by
  induction n with
  | zero => rfl
  | succ n ih => rw [answers, ask_of_begun short unfinished begun, ih, List.replicate_succ]

section Lawful
variable [LawfulBEq S]

/-- Nothing that was visited is forgotten, and the pair that the search begins with is added. -/
theorem mem_explore {p : UInt64 × S}
    (h : p ∈ visited ∨ 0 < n ∧ placed ≠ full history ∧ p = (placed, state)) :
    p ∈ (explore model history n placed state visited).2 := by
  induction n generalizing placed state visited with
  | zero => exact h.resolve_right fun hself => Nat.lt_irrefl 0 hself.1
  | succ n ih =>
    rw [explore]
    split_ifs with hfull hseen
    · exact h.resolve_right fun hself => hself.2.1 hfull
    · rcases h with h | ⟨-, -, rfl⟩
      · exact h
      · exact Std.HashSet.mem_iff_contains.2 hseen
    · apply tryEach_keeps (p ∈ ·)
      · rintro ⟨e, i⟩ w hw
        dsimp only
        split
        · exact ih (.inl hw)
        · exact hw
      · rw [Std.HashSet.mem_insert, beq_iff_eq]
        exact h.symm.imp (fun hself => hself.2.2.symm) id

/-- A question leaves the pair that it begins with visited. -/
theorem begun_of_ask (short : search.history.length ≤ maxEvents)
    (unfinished : search.history ≠ []) : (0, search.model.initial) ∈ search.ask.2.visited :=
  mem_explore (.inr ⟨List.length_pos_iff.2 unfinished, full_ne_zero short unfinished, rfl⟩)

/-- From the second question on only a search without events succeeds. -/
theorem answers_succ (short : search.history.length ≤ maxEvents) (n : Nat) :
    answers (n + 1) search = search.ask.1 :: List.replicate n search.history.isEmpty := by
  by_cases hempty : search.history = []
  · rw [answers, answers_of_nil (show search.ask.2.history = [] from hempty), hempty]
    rfl
  · have hlater := answers_of_begun (show search.ask.2.history.length ≤ maxEvents from short)
      hempty (begun_of_ask short hempty) n
    rw [answers, hlater, List.isEmpty_eq_false_iff.2 hempty]

/-- Only a search that fails at first, or has nothing to place, can be asked again. -/
theorem steady_iff (short : search.history.length ≤ maxEvents) :
    search.Steady ↔ search.history = [] ∨ search.ask.1 = false := by
  have hlater : search.Steady ↔ search.history.isEmpty = search.ask.1 := by
    constructor
    · intro steady
      exact steady 2 _ (by simp [answers_succ short])
    · intro heq n answer hanswer
      cases n with
      | zero => simp [answers] at hanswer
      | succ n =>
        rw [answers_succ short, heq] at hanswer
        rcases List.mem_cons.1 hanswer with hfirst | hrest
        · exact hfirst
        · exact (List.mem_replicate.1 hrest).2
  rw [hlater]
  by_cases hempty : search.history = []
  · simp [found_of_nil hempty, hempty]
  · rw [List.isEmpty_eq_false_iff.2 hempty, eq_comm, or_iff_right hempty]

end Lawful
end OrderSearch

/-- Only its first question makes a search of up to 64 events look for a legal order. Every later one
is answered by whether there are no events, so the answers are the same just when there are none or
no order was found. -/
theorem later_searches_fail {S : Type} [BEq S] [Hashable S] [LawfulBEq S] (model : Model S)
    {history : List Event} (short : history.length ≤ 64) :
    ∃ search : OrderSearch S, OrderSearch.make history model = .ok search ∧
      (∀ n, search.answers (n + 1) = search.ask.1 :: List.replicate n history.isEmpty) ∧
      (search.Steady ↔ history = [] ∨ search.ask.1 = false) ∧
      ((∀ e ∈ history, e.invoked ≤ e.returned) →
        (search.ask.1 = true ↔ ∃ order, LegalOrder model model.initial history order)) := by
  refine ⟨{ history, model }, ?_, OrderSearch.answers_succ short, OrderSearch.steady_iff short,
    OrderSearch.ask_make short⟩
  rw [OrderSearch.make, OrderSearch.maxEvents, if_neg (Nat.not_lt.2 short)]

/-- The overlapping calls have a legal order, which only the first question finds. -/
theorem later_searches_fail_overlapping :
    overlapping.length ≤ 64 ∧
      ∃ search, OrderSearch.make overlapping bitSetModel = .ok search ∧
        search.answers 3 = [true, false, false] := by
  refine ⟨by decide, ?_⟩
  obtain ⟨search, hmade, hanswers, -⟩ :=
    later_searches_fail bitSetModel (show overlapping.length ≤ 64 by decide)
  refine ⟨search, hmade, ?_⟩
  have hnew : OrderSearch.make overlapping bitSetModel =
      .ok { history := overlapping, model := bitSetModel } := rfl
  obtain rfl := Except.ok.inj (hnew.symm.trans hmade)
  have hfound :
      ({ history := overlapping, model := bitSetModel } : OrderSearch UInt64).ask.1 = true := by
    cbv
  rw [hanswers, hfound]
  rfl

/-- One addition to an empty set. -/
def addition : Event := { op := 0, key := 1, arg := 0, result := 1, invoked := 0, returned := 1 }

/-- One addition is in order, and the second question denies it. -/
theorem second_search_denies :
    OrderSearch.make [addition] bitSetModel = .ok { history := [addition], model := bitSetModel } ∧
      ({ history := [addition], model := bitSetModel } : OrderSearch UInt64).answers 2 =
        [true, false] ∧
      ¬ ({ history := [addition], model := bitSetModel } : OrderSearch UInt64).Steady := by
  have hfirst :
      ({ history := [addition], model := bitSetModel } : OrderSearch UInt64).ask.1 = true := by
    cbv
  refine ⟨rfl, ?_, ?_⟩
  · rw [OrderSearch.answers_succ (by decide), hfirst]
    rfl
  · rw [OrderSearch.steady_iff (by decide), hfirst]
    decide

end LockedContainers
