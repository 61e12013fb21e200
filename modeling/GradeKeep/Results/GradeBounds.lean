/-
Numeric bounds on the two computed grades, in exact arithmetic with halves rounded away from zero.

Results:
- `cgrade_error`: each level rounds once, to hundredths; through the weighted mean the two errors of at most 1/200 add
  up to at most 1/100 against the grade computed without rounding;
- `catgrade_between`: in every reachable state the category grade lies between two stored grades of the category's
  assignments, since each of them was computed from the credits stored next to it, rounding is monotone, and the ratio
  of sums is a mediant.
-/
import GradeKeep.Results.Convergence
import GradeKeep.Core.ListRatio

namespace GradeKeep.GradeBounds

open GradeKeep.SwiftDouble GradeKeep.Firestore GradeKeep.Schema GradeKeep.Listeners GradeKeep.Forms GradeKeep.System
open GradeKeep.HalfAway GradeKeep.ListRatio GradeKeep.WellFormed GradeKeep.Invariant GradeKeep.DirectRuns
open GradeKeep.Convergence

/-! ## Documents with their numbers -/

/-- an assignment document whose credits are numbers, the total positive -/
structure AssignmentData where
  document : Segment × Doc
  credit : ℚ
  totalcredit : ℚ
  typed : IsAssignment document.2
  credit_eq : document.2 Ass.credit.rawValue = some (.double (.num credit))
  totalcredit_eq : document.2 Ass.totalcredit.rawValue = some (.double (.num totalcredit))
  totalcredit_pos : 0 < totalcredit

/-- a category document with a weight that is a number, not negative, over its assignments -/
structure CategoryData where
  document : Segment × Doc
  weight : ℚ
  assignments : List AssignmentData
  typed : IsCategory document.2
  weight_eq : document.2 Cat.weight.rawValue = some (.double (.num weight))
  weight_nonneg : 0 ≤ weight
  /-- the stored grade is what the assignments listener writes -/
  grade_eq : ∃ rows catgrade, assignmentsListener (assignments.map (·.document)) = some (rows, catgrade) ∧
    document.2 Cat.grade.rawValue = some (.double catgrade)

/-- 100 * Σ credit / Σ total credit, 0 without assignments -/
def CategoryData.percentage (c : CategoryData) : ℚ :=
  if c.assignments = [] then 0 else 100 * (c.assignments.map (·.credit)).sum / (c.assignments.map (·.totalcredit)).sum

/-- the weighted mean of the percentages -/
def trueGrade (l : List CategoryData) : ℚ := (l.map fun c => c.weight * c.percentage).sum / (l.map (·.weight)).sum

/-! ## One level -/

theorem creditSum_data (l : List AssignmentData) :
    creditSum (l.map (·.document)) = .num (l.map (·.credit)).sum := by
  rw [creditSum, List.map_map, ← Double.sum_map_num]
  exact congrArg List.sum (List.map_congr_left fun a _ => field_eq a.credit_eq)

theorem totalcreditSum_data (l : List AssignmentData) :
    totalcreditSum (l.map (·.document)) = .num (l.map (·.totalcredit)).sum := by
  rw [totalcreditSum, List.map_map, ← Double.sum_map_num]
  exact congrArg List.sum (List.map_congr_left fun a _ => field_eq a.totalcredit_eq)

/-- what the assignments listener computes -/
theorem assignmentsListener_data (l : List AssignmentData) (hl : l ≠ []) :
    assignmentsListener (l.map (·.document)) = some ((l.map (·.document)).map assignmentOf,
      .num (hundredths (10000 * ((l.map (·.credit)).sum / (l.map (·.totalcredit)).sum)))) := by
  have hty : ∀ e ∈ l.map (·.document), IsAssignment e.2 := by
    intro e he
    obtain ⟨a, -, rfl⟩ := List.mem_map.1 he
    exact a.typed
  have hpos := sum_pos_of_pos l (·.totalcredit) hl fun a _ => a.totalcredit_pos
  rw [assignmentsListener_eq hty, creditSum_data, totalcreditSum_data, guardedGrade_num _ _ _ hpos.ne']

/-- the stored category grade is the percentage, rounded -/
theorem catgrade_eq (c : CategoryData) :
    c.document.2 Cat.grade.rawValue = some (.double (.num (hundredths (100 * c.percentage)))) := by
  obtain ⟨rows, catgrade, hlist, hgrade⟩ := c.grade_eq
  rw [hgrade]
  by_cases hl : c.assignments = []
  · rw [hl, List.map_nil] at hlist
    rw [assignmentsListener_eq (fun e he => absurd he List.not_mem_nil), Option.some.injEq, Prod.mk.injEq] at hlist
    have hzero : catgrade = 0 := hlist.2.symm.trans (guardedGrade_zero _ _)
    rw [hzero, CategoryData.percentage, if_pos hl, mul_zero, hundredths_zero]
    rfl
  · rw [assignmentsListener_data _ hl, Option.some.injEq, Prod.mk.injEq] at hlist
    rw [← hlist.2, CategoryData.percentage, if_neg hl]
    congr 4
    ring

/-- so it is within 1/200 of the percentage -/
theorem catgrade_error (c : CategoryData) :
    ∃ g : ℚ, c.document.2 Cat.grade.rawValue = some (.double (.num g)) ∧ |g - c.percentage| ≤ 1 / 200 := by
  have herr := abs_hundredths_sub_le (100 * c.percentage)
  rw [mul_div_cancel_left₀ _ (by norm_num : (100 : ℚ) ≠ 0)] at herr
  exact ⟨_, catgrade_eq c, herr⟩

/-! ## Both levels -/

/-- **Two roundings cost at most one hundredth.** For every list of categories with non-negative weights of positive
sum, each with any assignments of positive total credit, and with the grades the assignments listener writes: the
grade the categories listener then computes is a multiple of 1/100 within 1/100 of the unrounded grade. -/
theorem cgrade_error (l : List CategoryData) (hpos : 0 < (l.map (·.weight)).sum) :
    ∃ rows g, categoriesListener (l.map (·.document)) = some (rows, .num g) ∧ |g - trueGrade l| ≤ 1 / 100 ∧
      ∃ n : ℤ, g = n / 100 := by
  choose g hg herr using catgrade_error
  have hlisten := categoriesListener_num l (·.document) (·.weight) g (fun c _ => c.typed) (fun c _ => c.weight_eq)
    (fun c _ => hg c) hpos.ne'
  have hmean := abs_mean_sub_mean_le l (·.weight) g (·.percentage) (1 / 200) (fun c _ => c.weight_nonneg) hpos
    fun c _ => herr c
  have hround := abs_hundredths_sub_le (100 * ((l.map fun c => c.weight * g c).sum / (l.map (·.weight)).sum))
  rw [mul_div_cancel_left₀ _ (by norm_num : (100 : ℚ) ≠ 0)] at hround
  refine ⟨_, _, hlisten, ?_, _, rfl⟩
  rw [trueGrade]
  calc _ ≤ _ := abs_sub_le _ ((l.map fun c => c.weight * g c).sum / (l.map (·.weight)).sum) _
    _ ≤ 1 / 200 + 1 / 200 := add_le_add hround hmean
    _ = 1 / 100 := by norm_num

/-- an assignment as the form writes it -/
def AssignmentData.ofForm (id : Segment) (name : String) (credit : ℚ) (totalcredit : ℕ+) : AssignmentData where
  document := (id, assignmentFields name (.num credit) (.num totalcredit) (assGrade (.num credit) (.num totalcredit)))
  credit := credit
  totalcredit := totalcredit
  typed := (docOk_assignmentFields id id name (.num credit) (.num totalcredit)).1
  credit_eq := assignmentFields_credit _ _ _ _
  totalcredit_eq := assignmentFields_totalcredit _ _ _ _
  totalcredit_pos := Nat.cast_pos.2 totalcredit.pos

/-- a category over these assignments, as its listener grades it -/
def CategoryData.ofListener (id : Segment) (name : String) (weight : ℕ) (a : AssignmentData) (l : List AssignmentData) :
    CategoryData where
  document := (id, Doc.ofFields [("catname", .string name), ("weight", .double (.num weight)), ("catgrade",
    .double (.num (hundredths (10000 * (((a :: l).map (·.credit)).sum / ((a :: l).map (·.totalcredit)).sum)))))])
  weight := weight
  assignments := a :: l
  typed := ⟨⟨_, rfl⟩, ⟨_, rfl⟩, ⟨_, rfl⟩⟩
  weight_eq := rfl
  weight_nonneg := Nat.cast_nonneg weight
  grade_eq := ⟨_, _, assignmentsListener_data _ (List.cons_ne_nil _ _), rfl⟩

/-- two quizzes, of which the first was given this credit -/
def quizzes (credit : ℚ) : CategoryData :=
  .ofListener sampleCategory "Quizzes" 1 (.ofForm sampleAssignment "Q1" credit 3) [.ofForm secondAssignment "Q2" 2 4]

def exams : CategoryData :=
  .ofListener sampleCourse "Exams" 2 (.ofForm sampleAssignment "E1" 5 6)
    [.ofForm secondAssignment "E2" 4 6, .ofForm undrawn "E3" 1 7]

theorem cgrade_error_exams :
    ∃ rows g, categoriesListener [(quizzes 1).document, exams.document] = some (rows, .num g) ∧
      |g - trueGrade [quizzes 1, exams]| ≤ 1 / 100 ∧ ∃ n : ℤ, g = n / 100 := by
  have hpos : 0 < (List.map (·.weight) [quizzes 1, exams]).sum := by
    norm_num [quizzes, exams, CategoryData.ofListener]
  exact cgrade_error [quizzes 1, exams] hpos

/-! ## Between the assignments' grades -/

/-- an assignment as the forms leave it shows the rounded percentage of its own credits -/
theorem assgrade_eq (a : AssignmentData) {k j : Segment} (h : DocOk (.assignments k j) a.document.2) :
    a.document.2 Ass.grade.rawValue =
      some (.double (.num (hundredths (10000 * (a.credit / a.totalcredit))))) := by
  obtain ⟨-, c, t, hc, ht, hg⟩ := h
  rw [a.credit_eq, Option.some.injEq, Value.double.injEq] at hc
  rw [a.totalcredit_eq, Option.some.injEq, Value.double.injEq] at ht
  rw [hg, ← hc, ← ht, assGrade_num _ _ a.totalcredit_pos.ne', mul_div_assoc]

/-- **A category grade lies between its assignments' grades.** In every reachable state, for every category whose
assignments are not none and have positive total credits, and for the documents in any order: some stored assgrade is
at most the catgrade the assignments listener computes, and some is at least it. -/
theorem catgrade_between (E : Env) (s : St) (h : Reachable E s) (k j : Segment) (l : List AssignmentData) (hl : l ≠ [])
    (hdocs : (l.map (·.document)).Perm (docs s.store (Coll.path E.uid (.assignments k j)))) :
    ∃ rows g, assignmentsListener (l.map (·.document)) = some (rows, .num g) ∧
      (∃ a ∈ l, ∃ x, a.document.2 Ass.grade.rawValue = some (.double (.num x)) ∧ x ≤ g) ∧
      ∃ b ∈ l, ∃ y, b.document.2 Ass.grade.rawValue = some (.double (.num y)) ∧ g ≤ y := by
  have hok : ∀ a ∈ l, DocOk (.assignments k j) a.document.2 := fun a ha =>
    (reachable_inv h).store_ok.docOk (hdocs.mem_iff.1 (List.mem_map_of_mem ha))
  obtain ⟨a, ha, hle⟩ := exists_ratio_le l (·.credit) (·.totalcredit) hl fun a _ => a.totalcredit_pos
  obtain ⟨b, hb, hge⟩ := exists_le_ratio l (·.credit) (·.totalcredit) hl fun a _ => a.totalcredit_pos
  refine ⟨_, _, assignmentsListener_data l hl, ⟨a, ha, _, assgrade_eq a (hok a ha), ?_⟩,
    b, hb, _, assgrade_eq b (hok b hb), ?_⟩
  · apply hundredths_mono
    linarith
  · apply hundredths_mono
    linarith

/-- the assignments of the second session, with 1 of 1 and 1 of 2 -/
def fullCredit : AssignmentData := .ofForm sampleAssignment "L1" 1 1

def halfCredit : AssignmentData := .ofForm secondAssignment "L2" 1 2

/-- their category grade lies between 50 and 100 -/
theorem catgrade_between_pair :
    ∃ rows g, assignmentsListener [fullCredit.document, halfCredit.document] = some (rows, .num g) ∧
      (∃ a ∈ [fullCredit, halfCredit], ∃ x, a.document.2 Ass.grade.rawValue = some (.double (.num x)) ∧ x ≤ g) ∧
      ∃ b ∈ [fullCredit, halfCredit], ∃ y, b.document.2 Ass.grade.rawValue = some (.double (.num y)) ∧ g ≤ y := by
  have hdocs : [fullCredit.document, halfCredit.document] = pairAssignments := by decide +kernel
  obtain ⟨-, -, -, -, -, -, -, hassignments⟩ := pair_facts
  rw [← hdocs] at hassignments
  exact catgrade_between sampleEnv pair pair_reachable sampleCourse sampleCategory [fullCredit, halfCredit]
    (List.cons_ne_nil _ _) hassignments.symm

end GradeKeep.GradeBounds
