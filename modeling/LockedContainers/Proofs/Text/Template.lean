import Mathlib.Data.List.Infix
import LockedContainers.Text.Template

/-!
# Cutting a template at its holes

A template falls in exactly one way into pieces that contain no hole and have a hole between each
two neighbours. Filling it writes the pieces with an argument in every gap, or with the hole itself
once the arguments are used up. A loop over positions that searches the template for one hole after
another comes to an end with the same text.
-/
namespace LockedContainers.Template

variable {c : Char} {s s' t t' first first' : List Char} {rest rest' args : List (List Char)}

/-- A pair of braces. -/
def hole : List Char := ['\x7b', '\x7d']

theorem hole_prefix_cons : hole <+: c :: t ↔ c = '\x7b' ∧ ['\x7d'] <+: t := by
  rw [hole, List.cons_prefix_cons, eq_comm]

section Infix

theorem hole_infix_iff : hole <:+: t ↔ ∃ i, hole <+: t.drop i := by
  rw [List.infix_iff_prefix_suffix]
  constructor
  · rintro ⟨u, hprefix, hsuffix⟩
    rw [List.suffix_iff_eq_drop.1 hsuffix] at hprefix
    exact ⟨_, hprefix⟩
  · rintro ⟨i, h⟩
    exact ⟨_, h, List.drop_suffix i t⟩

/-- The braces of a hole differ, so no other hole overlaps it: none begins before it and reaches into
it. -/
theorem not_begun_by_hole (free : ¬ hole <:+: c :: s) : ¬ hole <+: c :: (s ++ (hole ++ t)) := by
  rw [hole_prefix_cons]
  rintro ⟨rfl, hnext⟩
  cases s with
  | nil => simp [hole] at hnext
  | cons d s =>
    rw [List.cons_append, List.cons_prefix_cons] at hnext
    apply free
    rw [← hnext.1]
    exact ⟨[], s, rfl⟩

theorem not_infix_tail (free : ¬ hole <:+: c :: s) : ¬ hole <:+: s :=
  fun h => free (List.infix_cons h)

end Infix

section Fill

theorem fill_hole : fill (hole ++ t) args = args.headD hole ++ fill t args.tail := by
  cases args with
  | nil => rw [hole, List.cons_append, List.cons_append, List.nil_append, fill]; rfl
  | cons arg args => rw [hole, List.cons_append, List.cons_append, List.nil_append, fill]; rfl

theorem fill_cons (h : ¬ hole <+: c :: t) : fill (c :: t) args = c :: fill t args := by
  rw [hole_prefix_cons] at h
  rw [fill.eq_def]
  split <;> simp_all

/-- Up to the first hole a template is copied. -/
theorem fill_append_hole (free : ¬ hole <:+: s) :
    fill (s ++ (hole ++ t)) args = s ++ (args.headD hole ++ fill t args.tail) := by
  induction s with
  | nil => exact fill_hole
  | cons c s ih =>
    rw [List.cons_append, fill_cons (not_begun_by_hole free), ih (not_infix_tail free),
      List.cons_append]

theorem fill_of_holeFree (free : ¬ hole <:+: s) : fill s args = s := by
  induction s with
  | nil => rw [fill]
  | cons c s ih =>
    rw [fill_cons fun h => free h.isInfix, ih (not_infix_tail free)]

end Fill

/-- Pieces without a hole, which make up the template with a hole between each two. -/
structure Cut (template first : List Char) (rest : List (List Char)) : Prop where
  joined : hole.intercalate (first :: rest) = template
  holeFree : ∀ piece ∈ first :: rest, ¬ hole <:+: piece

namespace Cut

theorem of_holeFree (free : ¬ hole <:+: t) : Cut t t [] :=
  ⟨List.intercalate_singleton, by simpa using free⟩

theorem cons_hole (free : ¬ hole <:+: s) (h : Cut t first rest) :
    Cut (s ++ (hole ++ t)) s (first :: rest) where
  joined := by rw [List.intercalate_cons_cons, h.joined, List.append_assoc]
  holeFree := List.forall_mem_cons.2 ⟨free, h.holeFree⟩

theorem split (h : Cut t s (first :: rest)) :
    ∃ t', t = s ++ (hole ++ t') ∧ ¬ hole <:+: s ∧ Cut t' first rest := by
  obtain ⟨hfree, hrest⟩ := List.forall_mem_cons.1 h.holeFree
  refine ⟨hole.intercalate (first :: rest), ?_, hfree, rfl, hrest⟩
  rw [← h.joined, List.intercalate_cons_cons, List.append_assoc]

theorem eq_of_nil (h : Cut t s []) : t = s ∧ ¬ hole <:+: t := by
  obtain rfl : s = t := List.intercalate_singleton.symm.trans h.joined
  exact ⟨rfl, h.holeFree s List.mem_cons_self⟩

/-- In front of the first hole there is one text only. -/
theorem append_hole_inj (free : ¬ hole <:+: s) (free' : ¬ hole <:+: s')
    (h : s ++ (hole ++ t) = s' ++ (hole ++ t')) : s = s' ∧ t = t' := by
  induction s generalizing s' with
  | nil =>
    cases s' with
    | nil => exact ⟨rfl, List.append_cancel_left h⟩
    | cons c s' =>
      have hprefix : hole <+: c :: (s' ++ (hole ++ t')) := ⟨t, h⟩
      exact absurd hprefix (not_begun_by_hole free')
  | cons c s ih =>
    cases s' with
    | nil =>
      have hprefix : hole <+: c :: (s ++ (hole ++ t)) := ⟨t', h.symm⟩
      exact absurd hprefix (not_begun_by_hole free)
    | cons c' s' =>
      rw [List.cons_append, List.cons_append, List.cons.injEq] at h
      obtain ⟨rfl, ht⟩ := ih (not_infix_tail free) (not_infix_tail free') h.2
      exact ⟨by rw [h.1], ht⟩

theorem unique (h : Cut t first rest) (h' : Cut t first' rest') :
    first' = first ∧ rest' = rest := by
  induction rest generalizing t first first' rest' with
  | nil =>
    obtain ⟨rfl, hfree⟩ := h.eq_of_nil
    cases rest' with
    | nil => exact ⟨h'.eq_of_nil.1.symm, rfl⟩
    | cons piece rest' =>
      obtain ⟨u, rfl, -⟩ := h'.split
      exact absurd (List.infix_append' _ _ _) hfree
  | cons piece rest ih =>
    obtain ⟨u, rfl, hfree, hu⟩ := h.split
    cases rest' with
    | nil => exact absurd (List.infix_append' _ _ _) h'.eq_of_nil.2
    | cons piece' rest' =>
      obtain ⟨u', heq, hfree', hu'⟩ := h'.split
      obtain ⟨rfl, rfl⟩ := append_hole_inj hfree hfree' heq
      obtain ⟨rfl, rfl⟩ := ih hu hu'
      exact ⟨rfl, rfl⟩

end Cut

/-- What stands in the gap before a piece: the argument with the number of the gap or, when there are
fewer, the hole. -/
def filling (args : List (List Char)) (gap : Nat) : List Char := args.getD gap hole

/-- The pieces with the fillings of their gaps. -/
def weave (args : List (List Char)) (first : List Char) (rest : List (List Char)) : List Char :=
  first ++ rest.zipIdx.flatMap fun (piece, gap) => filling args gap ++ piece

theorem weave_cons {piece : List Char} : weave args first (piece :: rest) =
    first ++ (args.headD hole ++ weave args.tail piece rest) := by
  have hgap (gap : Nat) : filling args (gap + 1) = filling args.tail gap := by
    cases args <;> simp [filling]
  have hzero : filling args 0 = args.headD hole := by
    cases args <;> rfl
  rw [weave, weave, List.zipIdx_cons, List.flatMap_cons, List.zipIdx_succ, List.flatMap_map]
  simp only [hgap, hzero, List.append_assoc]

theorem fill_eq_weave (h : Cut t first rest) : fill t args = weave args first rest := by
  induction rest generalizing t first args with
  | nil =>
    obtain ⟨rfl, hfree⟩ := h.eq_of_nil
    rw [fill_of_holeFree hfree, weave]
    simp
  | cons piece rest ih =>
    obtain ⟨u, rfl, hfree, hu⟩ := h.split
    rw [fill_append_hole hfree, ih hu, weave_cons]

/-- Without arguments every gap is filled with the hole that is there. -/
theorem weave_nil (h : Cut t first rest) : weave [] first rest = t := by
  induction rest generalizing t first with
  | nil =>
    obtain ⟨rfl, -⟩ := h.eq_of_nil
    simp [weave]
  | cons piece rest ih =>
    obtain ⟨u, rfl, -, hu⟩ := h.split
    rw [weave_cons, List.tail_nil, ih hu]
    rfl

/-- Only as many arguments are used as there are gaps. -/
theorem weave_append {surplus : List (List Char)} (enough : rest.length ≤ args.length) :
    weave (args ++ surplus) first rest = weave args first rest := by
  induction rest generalizing first args with
  | nil => rfl
  | cons piece rest ih =>
    cases args with
    | nil => simp at enough
    | cons arg args =>
      rw [List.cons_append, weave_cons, weave_cons, List.tail_cons, List.tail_cons,
        ih (by simpa using enough)]
      rfl

section Scan

/-- The first position from `start` on where the template has a hole. -/
def holeFrom (template : List Char) (start : Nat) : Option Nat :=
  (List.range' start (template.length - start)).find? fun i => hole.isPrefixOf (template.drop i)

variable {template : List Char} {start i : Nat}

theorem holeFrom_eq_none (h : holeFrom template start = none) :
    ¬ hole <:+: template.drop start := by
  rw [hole_infix_iff]
  rintro ⟨i, hi⟩
  rw [List.drop_drop] at hi
  have hlt : start + i < template.length := by
    by_contra hge
    rw [List.drop_eq_nil_of_le (Nat.not_lt.1 hge)] at hi
    simp [hole] at hi
  have hnot := List.find?_range'_eq_none.1 h (start + i) (by omega) (by omega)
  rw [Bool.not_eq_true', ← Bool.not_eq_true, List.isPrefixOf_iff_prefix] at hnot
  exact hnot hi

/-- The text between the start and the hole that is found has no hole. -/
theorem holeFrom_eq_some (h : holeFrom template start = some i) :
    start ≤ i ∧ i < template.length ∧ ¬ hole <:+: (template.drop start).take (i - start) ∧
      template.drop start =
        (template.drop start).take (i - start) ++ (hole ++ template.drop (i + hole.length)) := by
  obtain ⟨hfound, hmem, hbefore⟩ := List.find?_range'_eq_some.1 h
  rw [List.isPrefixOf_iff_prefix] at hfound
  rw [List.mem_range'_1] at hmem
  have hrest : (template.drop start).drop (i - start) =
      hole ++ template.drop (i + hole.length) := by
    have hsplit := List.prefix_iff_eq_append.1 hfound
    rw [List.drop_drop] at hsplit
    rw [List.drop_drop, Nat.add_sub_cancel' hmem.1]
    exact hsplit.symm
  refine ⟨hmem.1, by omega, ?_, ?_⟩
  · rw [hole_infix_iff]
    rintro ⟨j, hj⟩
    have hshort := hj.length_le
    simp only [hole, List.length_drop, List.length_take, List.length_cons, List.length_nil] at hshort
    have hlong : hole <+: template.drop (start + j) := by
      rw [← List.drop_drop]
      exact hj.trans ((List.take_prefix _ _).drop j)
    have hnot := hbefore (start + j) (by omega) (by omega)
    rw [Bool.not_eq_true', ← Bool.not_eq_true, List.isPrefixOf_iff_prefix] at hnot
    exact hnot hlong
  · rw [← hrest, List.take_append_drop]

theorem fill_drop (h : holeFrom template start = some i) : fill (template.drop start) args =
    (template.drop start).take (i - start) ++
      (args.headD hole ++ fill (template.drop (i + hole.length)) args.tail) := by
  obtain ⟨-, -, hfree, hdrop⟩ := holeFrom_eq_some h
  exact (congrArg (fill · args) hdrop).trans (fill_append_hole hfree)

theorem lt_of_holeFrom (h : holeFrom template start = some i) :
    template.length - (i + hole.length) < template.length - start := by
  obtain ⟨hstart, hlt, -⟩ := holeFrom_eq_some h
  have hlength : hole.length = 2 := rfl
  omega

/-- Reads on from a position, with so many arguments used and this written; every hole that is found
moves the position past it. -/
def scan (template : List Char) (args : List (List Char)) (position used : Nat)
    (written : List Char) : List Char :=
  if position < template.length then
    match _h : holeFrom template position with
    | none => written ++ template.drop position
    | some i =>
      let copied := written ++ (template.drop position).take (i - position)
      if used < args.length then
        scan template args (i + hole.length) (used + 1) (copied ++ args.getD used hole)
      else scan template args (i + hole.length) used (copied ++ hole)
  else written
termination_by template.length - position
decreasing_by
  all_goals exact lt_of_holeFrom _h

/-- The loop fills what it has not read with the arguments that it has not used. -/
theorem scan_eq (template : List Char) (args : List (List Char)) (position used : Nat)
    (written : List Char) :
    scan template args position used written =
      written ++ fill (template.drop position) (args.drop used) := by
  fun_induction scan template args position used written with
  | case1 position used written _ h =>
    rw [fill_of_holeFree (holeFrom_eq_none h)]
  | case2 position used written _ i h copied hused ih =>
    have hargs : args.drop used = args.getD used hole :: args.drop (used + 1) := by
      rw [List.drop_eq_getElem_cons hused, List.getD_eq_getElem?_getD, List.getElem?_eq_getElem hused,
        Option.getD_some]
    rw [ih, fill_drop h, hargs]
    simp [copied]
  | case3 position used written _ i h copied hused ih =>
    have hargs : args.drop used = [] := List.drop_eq_nil_of_le (Nat.not_lt.1 hused)
    rw [ih, fill_drop h, hargs]
    simp [copied]
  | case4 position used written hend =>
    rw [List.drop_eq_nil_of_le (Nat.not_lt.1 hend), fill, List.append_nil]

end Scan

/-- The leftmost hole, and then what is after it, give a cut of every template. -/
theorem exists_cut (template : List Char) : ∃ first rest, Cut template first rest := by
  have hfrom (n start : Nat) (hn : template.length - start ≤ n) :
      ∃ first rest, Cut (template.drop start) first rest := by
    induction n generalizing start with
    | zero =>
      refine ⟨[], [], ?_⟩
      rw [List.drop_eq_nil_of_le (by omega)]
      exact .of_holeFree (by simp [hole])
    | succ n ih =>
      cases h : holeFrom template start with
      | none => exact ⟨_, _, .of_holeFree (holeFrom_eq_none h)⟩
      | some i =>
        obtain ⟨-, -, hfree, hdrop⟩ := holeFrom_eq_some h
        have hless := lt_of_holeFrom h
        obtain ⟨first, rest, hrest⟩ := ih (i + hole.length) (by omega)
        have hcut := hrest.cons_hole hfree
        rw [← hdrop] at hcut
        exact ⟨_, _, hcut⟩
  exact hfrom _ 0 (Nat.le_refl _)

/-- Every template has one cut at its holes, and formatting weaves the arguments between the pieces
as they are. The loop over positions ends with the same text, arguments beyond the holes are
ignored, and without arguments the template comes out as it is. -/
theorem format_weaves (template : String) (args : List String) :
    ∃ first rest, Cut template.toList first rest ∧
      (∀ first' rest', Cut template.toList first' rest' → first' = first ∧ rest' = rest) ∧
      format template args = String.ofList (weave (args.map String.toList) first rest) ∧
      scan template.toList (args.map String.toList) 0 0 [] = (format template args).toList ∧
      (∀ surplus, rest.length ≤ args.length →
        format template (args ++ surplus) = format template args) ∧
      format template [] = template := by
  obtain ⟨first, rest, hcut⟩ := exists_cut template.toList
  refine ⟨first, rest, hcut, fun _ _ h => hcut.unique h, ?_, ?_, ?_, ?_⟩
  · rw [format, fill_eq_weave hcut]
  · rw [scan_eq, format, String.toList_ofList]
    simp
  · intro surplus enough
    rw [format, format, fill_eq_weave hcut, fill_eq_weave hcut, List.map_append,
      weave_append (by simpa using enough)]
  · rw [format, fill_eq_weave hcut, List.map_nil, weave_nil hcut, String.ofList_toList]

/-- The hole within other braces is filled, and an argument that looks like a hole is not. -/
example : format "\x7b\x7b\x7d\x7d-\x7b\x7d-\x7b\x7d" ["\x7b\x7d", "a"] =
    "\x7b\x7b\x7d\x7d-a-\x7b\x7d" := by
  rfl

end LockedContainers.Template
