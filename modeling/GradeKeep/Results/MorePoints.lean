/-
More points never lower a grade.

Two courses with the same categories and assignments, the credits of the second at least those of the first. Credits may
have either sign, so a sum can cross 0, where the guards of the two listeners overwrite the quotient; but what a guard
writes is what the quotient would round to, so each of the three grades is a rounded quotient with the same positive
denominator in both courses.

Results:
- `assGrade_mono`, `percentage_mono`: the form's quotient and the assignments listener's, before it is rounded;
- `more_points`: every assgrade, every catgrade and the cgrade of the first course are at most those of the second.
-/
import GradeKeep.Results.GradeBounds

namespace GradeKeep.MorePoints

open GradeKeep.SwiftDouble GradeKeep.Firestore GradeKeep.Schema GradeKeep.Listeners GradeKeep.Forms GradeKeep.System
open GradeKeep.HalfAway GradeKeep.ListRatio GradeKeep.GradeBounds

/-- the stored grade is what the form computed -/
def Graded (a : AssignmentData) : Prop :=
  a.document.2 Ass.grade.rawValue = some (.double (assGrade (.num a.credit) (.num a.totalcredit)))

/-- two documents of one assignment, as the form writes them, the second with at least the credit -/
structure Improves (a a' : AssignmentData) : Prop where
  totalcredit : a'.totalcredit = a.totalcredit
  credit : a.credit ≤ a'.credit
  graded : Graded a
  graded' : Graded a'

/-- two documents of one category, each assignment of the second with at least the credit -/
structure CategoryImproves (c c' : CategoryData) : Prop where
  weight : c'.weight = c.weight
  assignments : List.Forall₂ Improves c.assignments c'.assignments

/-- the number in the field of the first document is at most the one in the second -/
def FieldLe (key : String) (d d' : Doc) : Prop :=
  ∃ x y : ℚ, d key = some (.double (.num x)) ∧ d' key = some (.double (.num y)) ∧ x ≤ y

/-! ## The three quotients -/

theorem assGrade_mono {a a' : AssignmentData} (h : Improves a a') :
    FieldLe Ass.grade.rawValue a.document.2 a'.document.2 := by
  have hpos := a.totalcredit_pos
  have hcredit := h.credit
  refine ⟨hundredths (10000 * a.credit / a.totalcredit), hundredths (10000 * a'.credit / a.totalcredit), ?_, ?_, ?_⟩
  · rw [h.graded, assGrade_num _ _ hpos.ne']
  · rw [h.graded', h.totalcredit, assGrade_num _ _ hpos.ne']
  · apply hundredths_mono
    gcongr

theorem credits_le {l l' : List AssignmentData} (h : List.Forall₂ Improves l l') :
    (l.map (·.credit)).sum ≤ (l'.map (·.credit)).sum ∧
      (l'.map (·.totalcredit)).sum = (l.map (·.totalcredit)).sum := by
  induction h with
  | nil => exact ⟨le_rfl, rfl⟩
  | cons ha _ ih =>
    simp only [List.map_cons, List.sum_cons]
    rw [ha.totalcredit, ih.2]
    exact ⟨add_le_add ha.credit ih.1, rfl⟩

theorem percentage_mono {c c' : CategoryData} (h : List.Forall₂ Improves c.assignments c'.assignments) :
    c.percentage ≤ c'.percentage := by
  have hnil : c'.assignments = [] ↔ c.assignments = [] := by
    rw [← List.length_eq_zero_iff, ← List.length_eq_zero_iff, h.length_eq]
  unfold CategoryData.percentage
  by_cases hl : c.assignments = []
  · rw [if_pos hl, if_pos (hnil.2 hl)]
  · obtain ⟨hle, htotal⟩ := credits_le h
    have hpos := sum_pos_of_pos c.assignments (·.totalcredit) hl fun a _ => a.totalcredit_pos
    rw [if_neg hl, if_neg (fun h' => hl (hnil.1 h')), htotal]
    gcongr

/-- the stored category grades -/
theorem catgrade_mono {c c' : CategoryData} (h : List.Forall₂ Improves c.assignments c'.assignments) :
    hundredths (100 * c.percentage) ≤ hundredths (100 * c'.percentage) := by
  apply hundredths_mono
  exact mul_le_mul_of_nonneg_left (percentage_mono h) (by norm_num)

/-- what the categories listener computes from the category grades that are stored -/
theorem cgrade_data (l : List CategoryData) (hpos : 0 < (l.map (·.weight)).sum) :
    categoriesListener (l.map (·.document)) = some ((l.map (·.document)).map categoryOf,
      .num (hundredths (100 * ((l.map fun c => c.weight * hundredths (100 * c.percentage)).sum /
        (l.map (·.weight)).sum)))) :=
  categoriesListener_num l (·.document) (·.weight) (fun c => hundredths (100 * c.percentage)) (fun c _ => c.typed)
    (fun c _ => c.weight_eq) (fun c _ => catgrade_eq c) hpos.ne'

/-! ## All three levels -/

/-- **More points never lower a grade.** For every two courses with the same categories, of non-negative weights of
positive sum, and the same assignments with the same positive total credits, where each credit in the first is at most
that in the second: every stored assgrade, every stored catgrade and the cgrade computed from them in the first are at
most the corresponding ones in the second. -/
theorem more_points (l l' : List CategoryData) (hpos : 0 < (l.map (·.weight)).sum)
    (h : List.Forall₂ CategoryImproves l l') :
    List.Forall₂ (fun c c' => FieldLe Cat.grade.rawValue c.document.2 c'.document.2 ∧
      List.Forall₂ (fun a a' => FieldLe Ass.grade.rawValue a.document.2 a'.document.2) c.assignments c'.assignments)
      l l' ∧
    ∃ rows g rows' g', categoriesListener (l.map (·.document)) = some (rows, .num g) ∧
      categoriesListener (l'.map (·.document)) = some (rows', .num g') ∧ g ≤ g' := by
  obtain ⟨hsum, hle⟩ := sum_le_sum l l' (·.weight) (fun c => hundredths (100 * c.percentage))
    (fun c _ => c.weight_nonneg) (h.imp fun c c' hc => ⟨hc.weight, catgrade_mono hc.assignments⟩)
  refine ⟨?_, ?_⟩
  · refine h.imp ?_
    intro c c' hc
    exact ⟨⟨_, _, catgrade_eq c, catgrade_eq c', catgrade_mono hc.assignments⟩,
      hc.assignments.imp fun a a' => assGrade_mono⟩
  · have hpos' : 0 < (l'.map (·.weight)).sum := by rwa [hsum]
    refine ⟨_, _, _, _, cgrade_data l hpos, cgrade_data l' hpos', hundredths_mono ?_⟩
    rw [hsum]
    gcongr

/-- an assignment that gains credit as the form writes it -/
theorem improves_ofForm (id : Segment) (name : String) {credit credit' : ℚ} (totalcredit : ℕ+)
    (hle : credit ≤ credit') : Improves (.ofForm id name credit totalcredit) (.ofForm id name credit' totalcredit) :=
  ⟨rfl, hle, assignmentFields_grade _ _ _ _, assignmentFields_grade _ _ _ _⟩

/-- the quizzes with a point in place of a penalty point, beside the exams, which stay as they are -/
theorem more_points_quizzes :
    List.Forall₂ (fun c c' => FieldLe Cat.grade.rawValue c.document.2 c'.document.2 ∧
      List.Forall₂ (fun a a' => FieldLe Ass.grade.rawValue a.document.2 a'.document.2) c.assignments c'.assignments)
      [quizzes (-1), exams] [quizzes 1, exams] ∧
    ∃ rows g rows' g', categoriesListener [(quizzes (-1)).document, exams.document] = some (rows, .num g) ∧
      categoriesListener [(quizzes 1).document, exams.document] = some (rows', .num g') ∧ g ≤ g' := by
  have hpos : 0 < (List.map (·.weight) [quizzes (-1), exams]).sum := by
    norm_num [quizzes, exams, CategoryData.ofListener]
  have hquizzes : CategoryImproves (quizzes (-1)) (quizzes 1) :=
    ⟨rfl, .cons (improves_ofForm _ _ _ (by norm_num)) (.cons (improves_ofForm _ _ _ le_rfl) .nil)⟩
  have hexams : CategoryImproves exams exams :=
    ⟨rfl, .cons (improves_ofForm _ _ _ le_rfl)
      (.cons (improves_ofForm _ _ _ le_rfl) (.cons (improves_ofForm _ _ _ le_rfl) .nil))⟩
  exact more_points [quizzes (-1), exams] [quizzes 1, exams] hpos (.cons hquizzes (.cons hexams .nil))

end GradeKeep.MorePoints
