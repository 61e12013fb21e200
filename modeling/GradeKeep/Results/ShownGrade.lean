/-
The grade the course list shows.

The categories listener writes the course grade under the key `cgrade`; the course list reads `course_grade`, which only
`addCoursePressed` writes, and always with 0. So the grade never arrives: in a settled state the course document holds
the weighted mean under the first key, and the cell shows 0.

Results:
- `cgrade_eq_weightedMean`: what the categories listener computes is round(100 * Σ w g / Σ w) / 100;
- `shown_grade_iff`: in every settled reachable state the shown grade is that mean exactly when the mean rounds to 0;
- `mean_not_shown`: a settled reachable state with mean 100 and 0 shown.
-/
import GradeKeep.Results.Convergence

namespace GradeKeep.ShownGrade

open GradeKeep.SwiftDouble GradeKeep.Firestore GradeKeep.Schema GradeKeep.Listeners GradeKeep.System GradeKeep.HalfAway
open GradeKeep.WellFormed GradeKeep.Invariant GradeKeep.DirectRuns GradeKeep.Convergence

/-! ## The weighted mean -/

/-- Σ w g over the categories -/
def gradeSum (documents : Snapshot) : Double :=
  (documents.map fun e => field Cat.weight.rawValue e * field Cat.grade.rawValue e).sum

/-- round(100 * Σ w g / Σ w) / 100 -/
def weightedMean (documents : Snapshot) : Double :=
  Double.round (.num 100 * gradeSum documents / weightSum documents) / .num 100

theorem weightedSum_eq (documents : Snapshot) : weightedSum documents = .num (1 / 10) * gradeSum documents := by
  unfold weightedSum gradeSum
  induction documents with
  | nil => simp [Double.zero_def]
  | cons e documents ih =>
    rw [List.map_cons, List.sum_cons, ih, List.map_cons, List.sum_cons]
    cases field Cat.weight.rawValue e <;> cases field Cat.grade.rawValue e <;>
      cases (documents.map fun e => field Cat.weight.rawValue e * field Cat.grade.rawValue e).sum <;> simp
    ring

/-- a number as Σ w g comes from numbers only -/
theorem isNum_weightSum {documents : Snapshot} (h : (gradeSum documents).IsNum) : (weightSum documents).IsNum := by
  unfold gradeSum at h
  unfold weightSum
  rw [Double.isNum_sum] at h ⊢
  intro x hx
  obtain ⟨e, he, rfl⟩ := List.mem_map.1 hx
  exact (Double.isNum_mul.1 (h _ (List.mem_map_of_mem he))).1

theorem cgrade_eq_weightedMean {documents : Snapshot} (h : weightSum documents ≠ 0) :
    guardedGrade (.num 1000) (weightedSum documents) (weightSum documents) = weightedMean documents := by
  unfold weightedMean
  rw [weightedSum_eq]
  cases hg : gradeSum documents with
  | nan => simp [guardedGrade, Double.zero_def]
  | num g =>
    obtain ⟨w, hw⟩ := Double.isNum_iff.1 (isNum_weightSum (by rw [hg]; simp))
    rw [hw, Double.zero_def, ne_eq, Double.num.injEq] at h
    rw [hw, Double.num_mul_num, guardedGrade_num _ _ _ h, Double.num_mul_num, Double.num_div_num h,
      Double.round_num_div_hundred]
    congr 2
    ring

/-- the mean rounds to 0: 200 |Σ w g| < |Σ w| -/
def MeanVanishes (documents : Snapshot) : Prop :=
  ∃ g w : ℚ, gradeSum documents = .num g ∧ weightSum documents = .num w ∧ 200 * |g| < |w|

theorem weightedMean_eq_zero_iff {documents : Snapshot} (h : weightSum documents ≠ 0) :
    weightedMean documents = 0 ↔ MeanVanishes documents := by
  unfold weightedMean MeanVanishes
  cases hg : gradeSum documents with
  | nan => simp [Double.zero_def]
  | num g =>
    obtain ⟨w, hw⟩ := Double.isNum_iff.1 (isNum_weightSum (by rw [hg]; simp))
    rw [hw, Double.zero_def, ne_eq, Double.num.injEq] at h
    have hpos : 0 < |w| := abs_pos.2 h
    rw [hw, Double.num_mul_num, Double.num_div_num h, Double.round_num_div_hundred, Double.zero_def,
      Double.num.injEq, hundredths_eq_zero_iff, abs_div, abs_mul, div_lt_iff₀ hpos]
    norm_num
    refine ⟨?_, ?_⟩
    · intro hlt
      linarith
    · intro hlt
      linarith

/-! ## The course list -/

/-- the claim for one state: the row of every course that has a live categories listener and a non-zero weight sum
shows the weighted mean of its categories -/
def ShowsMean (E : Env) (s : St) : Prop :=
  ∀ view ∈ s.views, view.coll = .courses → ∀ k, (s.store.lookup (Coll.doc E.uid .courses k)).isSome →
    (∃ v ∈ s.views, v.coll = .categories k) → weightSum (docs s.store (Coll.path E.uid (.categories k))) ≠ 0 →
    ∃ l course, view.rows = .courses l ∧ course ∈ l ∧ course.courseId = k ∧
      course.courseGrade = weightedMean (docs s.store (Coll.path E.uid (.categories k)))

/-- every row shows 0 -/
theorem row_grade {B : DocPath → Prop} {E : Env} {documents : Snapshot} (h : SnapshotOk E B .courses documents)
    {course : Course} (hc : course ∈ documents.filterMap courseOf) : course.courseGrade = 0 := by
  obtain ⟨e, he, hce⟩ := List.mem_filterMap.1 hc
  have hok : IsCourse e.2 ∧ e.2 "course_grade" = some (.double 0) := (h e he).2
  obtain ⟨name, -, hrow⟩ := courseOf_eq hok.1
  rw [hrow, Option.some.injEq] at hce
  rw [← hce]
  exact field_eq hok.2

/-- **The grade the course list shows.** In every settled reachable state, for every course with a live categories
listener and Σ w ≠ 0: the course document holds the weighted mean of the stored categories under `cgrade`, the course
list has a row for it, and the grade of that row is the mean exactly when the mean rounds to 0. -/
theorem shown_grade_iff (E : Env) (s : St) (h : Reachable E s) (hs : Settled E s) (view : View) (hview : view ∈ s.views)
    (hcoll : view.coll = .courses) (k : Segment) (d : Doc) (hd : s.store.lookup (Coll.doc E.uid .courses k) = some d)
    (hlive : ∃ v ∈ s.views, v.coll = .categories k)
    (hw : weightSum (docs s.store (Coll.path E.uid (.categories k))) ≠ 0) :
    d "cgrade" = some (.double (weightedMean (docs s.store (Coll.path E.uid (.categories k))))) ∧
    ∃ l, view.rows = .courses l ∧ (∃ course ∈ l, course.courseId = k) ∧ ∀ course ∈ l, course.courseId = k →
      (course.courseGrade = weightedMean (docs s.store (Coll.path E.uid (.categories k))) ↔
        MeanVanishes (docs s.store (Coll.path E.uid (.categories k)))) := by
  have hinv := reachable_inv h
  have hok := hinv.views_ok view hview
  have hsnap := hok.last _ (hs.last view hview)
  have hrows := hok.rows
  rw [hs.last view hview, Option.getD_some] at hrows
  rw [hcoll] at hrows hsnap
  refine ⟨?_, _, hrows, ?_, ?_⟩
  · rw [← cgrade_eq_weightedMean hw]
    exact grade_of_settled h hs rfl hd hlive
  · have hmem : (k, d) ∈ content E s.store .courses := (content_perm hinv .courses).mem_iff.2 (mem_docs.2 hd)
    have hcd : IsCourse d := (hsnap _ hmem).2.1
    obtain ⟨name, -, hrow⟩ := courseOf_eq (e := (k, d)) hcd
    exact ⟨_, List.mem_filterMap.2 ⟨_, hmem, hrow⟩, rfl⟩
  · intro course hc _
    rw [row_grade hsnap hc, eq_comm]
    exact weightedMean_eq_zero_iff hw

/-- the documents of the sample course's categories, as stored -/
def sampleCategories : Snapshot := docs sample.store (Coll.path uid (.categories sampleCourse))

/-- the course list shows the sample course with grade 0; its only category has grade 100 -/
theorem sample_shows_zero :
    (∃ view ∈ sample.views, view.coll = .courses ∧ view.rows = .courses [⟨sampleCourse, "CS", .num 0⟩]) ∧
    (sample.store.lookup (Coll.doc uid .courses sampleCourse)).isSome ∧
    (∃ v ∈ sample.views, v.coll = .categories sampleCourse) ∧ weightSum sampleCategories = .num 1 ∧
    weightedMean sampleCategories = .num 100 := by
  simp only [sampleCategories, sample, after_direct]
  decide +kernel

/-- one category with grade 100: the course list shows 0 -/
theorem mean_not_shown : ¬∀ E s, Reachable E s → Settled E s → ShowsMean E s := by
  intro h
  obtain ⟨⟨view, hview, hcoll, hrows⟩, hdoc, hlive, hw, hmean⟩ := sample_shows_zero
  have hw0 : weightSum sampleCategories ≠ 0 := by rw [hw]; decide
  obtain ⟨l, course, hl, hc, -, hgrade⟩ :=
    h sampleEnv sample sample_settled.1 sample_settled.2 view hview hcoll sampleCourse hdoc hlive hw0
  rw [hrows, Rows.courses.injEq] at hl
  subst hl
  rw [List.mem_singleton.1 hc] at hgrade
  have hbad : (.num 0 : Double) = .num 100 := hgrade.trans hmean
  exact absurd hbad (by decide)

/-- ... while the mean is in the course document -/
theorem shown_grade_iff_sample : ∃ view ∈ sample.views, ∃ l, view.rows = .courses l ∧
    (∃ course ∈ l, course.courseId = sampleCourse) ∧ ∀ course ∈ l, course.courseId = sampleCourse →
      (course.courseGrade = weightedMean sampleCategories ↔ MeanVanishes sampleCategories) := by
  obtain ⟨⟨view, hview, hcoll, -⟩, hdoc, hlive, hw, -⟩ := sample_shows_zero
  obtain ⟨d, hd⟩ := Option.isSome_iff_exists.1 hdoc
  have hw0 : weightSum sampleCategories ≠ 0 := by rw [hw]; decide
  exact ⟨view, hview, (shown_grade_iff sampleEnv sample sample_settled.1 sample_settled.2 view hview hcoll sampleCourse
    d hd hlive hw0).2⟩

end GradeKeep.ShownGrade
