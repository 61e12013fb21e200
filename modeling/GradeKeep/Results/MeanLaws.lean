/-
The course grade as a mean of the category grades.

On categories with non-negative weights of positive sum the categories listener computes round(100 * Σ w g / Σ w) / 100:
the factors 0.1 and 1000 cancel, and the guard on the numerator writes the 0 that the quotient would have given. The
laws of a weighted mean follow. It depends on the two sums only, so neither the order nor the scale of the weights nor a
category of weight 0 matters; and since every category grade is a whole number of hundredths, rounding does not leave
the range of the grades.

Results:
- `cgrade_eq`: the value;
- `cgrade_between`, `cgrade_perm`, `cgrade_scale`, `cgrade_weightless`, `cgrade_split`: the laws;
- `cgrade_mean_laws`: all of them together;
- `stored_grade_hundredths`: in every reachable state the stored category grades are hundredths, so the laws apply.
-/
import GradeKeep.Results.DirectRuns
import GradeKeep.Core.ListRatio

namespace GradeKeep.MeanLaws

open GradeKeep.SwiftDouble GradeKeep.Firestore GradeKeep.Schema GradeKeep.Listeners GradeKeep.Forms GradeKeep.HalfAway
open GradeKeep.ListRatio GradeKeep.System GradeKeep.WellFormed GradeKeep.Invariant GradeKeep.DirectRuns

/-- a category document whose weight is a number, not negative, and whose grade is a number of hundredths -/
structure GradedCategory where
  document : Segment × Doc
  weight : ℚ
  /-- the grade, in hundredths -/
  cents : ℤ
  typed : IsCategory document.2
  weight_eq : document.2 Cat.weight.rawValue = some (.double (.num weight))
  weight_nonneg : 0 ≤ weight
  grade_eq : document.2 Cat.grade.rawValue = some (.double (.num (cents / 100)))

def GradedCategory.grade (c : GradedCategory) : ℚ := c.cents / 100

/-- the grade the categories listener computes; `none` is a trap -/
def cgrade (l : List GradedCategory) : Option Double := (categoriesListener (l.map (·.document))).map (·.2)

/-- the mean before it is rounded -/
def mean (l : List GradedCategory) : ℚ := (l.map fun c => c.weight * c.grade).sum / (l.map (·.weight)).sum

theorem cgrade_eq (l : List GradedCategory) (hpos : 0 < (l.map (·.weight)).sum) :
    cgrade l = some (.num (hundredths (100 * mean l))) := by
  rw [cgrade, categoriesListener_num l (·.document) (·.weight) (·.grade) (fun c _ => c.typed)
    (fun c _ => c.weight_eq) (fun c _ => c.grade_eq) hpos.ne']
  rfl

/-- lists with the same two sums have the same grade -/
theorem cgrade_congr {l l' : List GradedCategory} (hpos : 0 < (l.map (·.weight)).sum)
    (hw : (l'.map (·.weight)).sum = (l.map (·.weight)).sum)
    (hg : (l'.map fun c => c.weight * c.grade).sum = (l.map fun c => c.weight * c.grade).sum) :
    cgrade l' = cgrade l := by
  rw [cgrade_eq l hpos, cgrade_eq l' (by rw [hw]; exact hpos), mean, mean, hw, hg]

/-! ## The laws -/

theorem cgrade_between (l : List GradedCategory) (hpos : 0 < (l.map (·.weight)).sum) :
    ∃ g, cgrade l = some (.num g) ∧ (∃ a ∈ l, 0 < a.weight ∧ a.grade ≤ g) ∧ ∃ b ∈ l, 0 < b.weight ∧ g ≤ b.grade := by
  obtain ⟨a, ha, hwa, hle⟩ := exists_le_mean l (·.weight) (·.grade) (fun c _ => c.weight_nonneg) hpos
  obtain ⟨b, hb, hwb, hge⟩ := exists_mean_le l (·.weight) (·.grade) (fun c _ => c.weight_nonneg) hpos
  -- rounding is monotone and keeps the two grades, which are hundredths
  have hcents : ∀ c : GradedCategory, hundredths (100 * c.grade) = c.grade := by
    intro c
    rw [GradedCategory.grade, mul_div_cancel₀ _ (by norm_num : (100 : ℚ) ≠ 0)]
    exact hundredths_intCast c.cents
  refine ⟨_, cgrade_eq l hpos, ⟨a, ha, hwa, ?_⟩, b, hb, hwb, ?_⟩
  · rw [← hcents a]
    apply hundredths_mono
    exact mul_le_mul_of_nonneg_left hle (by norm_num)
  · rw [← hcents b]
    apply hundredths_mono
    exact mul_le_mul_of_nonneg_left hge (by norm_num)

theorem cgrade_perm {l l' : List GradedCategory} (hpos : 0 < (l.map (·.weight)).sum) (h : l'.Perm l) :
    cgrade l' = cgrade l :=
  cgrade_congr hpos (h.map _).sum_eq (h.map _).sum_eq

/-- a category and the same with k times the weight -/
def Scaled (k : ℚ) (c c' : GradedCategory) : Prop := c'.weight = k * c.weight ∧ c'.cents = c.cents

theorem scaled_sums {k : ℚ} {l l' : List GradedCategory} (h : List.Forall₂ (Scaled k) l l') :
    (l'.map (·.weight)).sum = k * (l.map (·.weight)).sum ∧
      (l'.map fun c => c.weight * c.grade).sum = k * (l.map fun c => c.weight * c.grade).sum := by
  induction h with
  | nil => simp
  | @cons c c' l l' hc _ ih =>
    obtain ⟨hw, hg⟩ := ih
    have hgrade : c'.grade = c.grade := by rw [GradedCategory.grade, hc.2, GradedCategory.grade]
    refine ⟨?_, ?_⟩
    · rw [List.map_cons, List.sum_cons, hw, hc.1, List.map_cons, List.sum_cons, mul_add]
    · rw [List.map_cons, List.sum_cons, hg, hc.1, hgrade, List.map_cons, List.sum_cons, mul_add, mul_assoc]

theorem cgrade_scale {k : ℚ} (hk : 0 < k) {l l' : List GradedCategory} (hpos : 0 < (l.map (·.weight)).sum)
    (h : List.Forall₂ (Scaled k) l l') : cgrade l' = cgrade l := by
  obtain ⟨hw, hg⟩ := scaled_sums h
  have hpos' : 0 < (l'.map (·.weight)).sum := by rw [hw]; exact mul_pos hk hpos
  rw [cgrade_eq l hpos, cgrade_eq l' hpos', mean, mean, hw, hg, mul_div_mul_left _ _ hk.ne']

theorem weightless_sum {l zs : List GradedCategory} (hz : ∀ z ∈ zs, z.weight = 0) :
    ((l ++ zs).map (·.weight)).sum = (l.map (·.weight)).sum := by
  have hw : (zs.map (·.weight)).sum = 0 := by
    apply List.sum_eq_zero
    intro x hx
    obtain ⟨z, hmem, rfl⟩ := List.mem_map.1 hx
    exact hz z hmem
  rw [List.map_append, List.sum_append, hw, add_zero]

theorem cgrade_weightless {l zs : List GradedCategory} (hpos : 0 < (l.map (·.weight)).sum)
    (hz : ∀ z ∈ zs, z.weight = 0) : cgrade (l ++ zs) = cgrade l := by
  have hg : (zs.map fun c => c.weight * c.grade).sum = 0 := by
    apply List.sum_eq_zero
    intro x hx
    obtain ⟨z, hmem, rfl⟩ := List.mem_map.1 hx
    rw [hz z hmem, zero_mul]
  apply cgrade_congr hpos
  · exact weightless_sum hz
  · rw [List.map_append, List.sum_append, hg, add_zero]

/-- one category split into two of the same grade -/
theorem cgrade_split {pre post : List GradedCategory} {a b c : GradedCategory}
    (hpos : 0 < ((pre ++ a :: post).map (·.weight)).sum) (hb : b.cents = a.cents) (hc : c.cents = a.cents)
    (hw : b.weight + c.weight = a.weight) : cgrade (pre ++ b :: c :: post) = cgrade (pre ++ a :: post) := by
  apply cgrade_congr hpos
  · simp only [List.map_append, List.map_cons, List.sum_append, List.sum_cons, ← hw]
    ring
  · simp only [List.map_append, List.map_cons, List.sum_append, List.sum_cons, GradedCategory.grade, hb, hc, ← hw]
    ring

/-- **The course grade is a convex, scale-free mean.** For every list of categories with non-negative weights of
positive sum and grades in hundredths: the computed grade lies between two grades of categories that count; and it does
not change under a permutation, under a positive factor on all weights, when categories of weight 0 are added or
removed anywhere, nor when a category is split into two of the same grade whose weights add up to its weight. -/
theorem cgrade_mean_laws (l : List GradedCategory) (hpos : 0 < (l.map (·.weight)).sum) :
    (∃ g, cgrade l = some (.num g) ∧ (∃ a ∈ l, 0 < a.weight ∧ a.grade ≤ g) ∧
      ∃ b ∈ l, 0 < b.weight ∧ g ≤ b.grade) ∧
    (∀ l', l'.Perm l → cgrade l' = cgrade l) ∧
    (∀ k l', 0 < k → List.Forall₂ (Scaled k) l l' → cgrade l' = cgrade l) ∧
    (∀ zs l', (∀ z ∈ zs, z.weight = 0) → l'.Perm (l ++ zs) ∨ l.Perm (l' ++ zs) → cgrade l' = cgrade l) ∧
    (∀ pre post a b c, l = pre ++ a :: post → b.cents = a.cents → c.cents = a.cents →
      b.weight + c.weight = a.weight → cgrade (pre ++ b :: c :: post) = cgrade l) := by
  refine ⟨cgrade_between l hpos, ?_, ?_, ?_, ?_⟩
  · intro l' h
    exact cgrade_perm hpos h
  · intro k l' hk h
    exact cgrade_scale hk hpos h
  · intro zs l' hz h
    rcases h with h | h
    · have hpos' : 0 < ((l ++ zs).map (·.weight)).sum := by rwa [weightless_sum hz]
      rw [cgrade_perm hpos' h, cgrade_weightless hpos hz]
    · have hpos' : 0 < ((l' ++ zs).map (·.weight)).sum := by rwa [← (h.map _).sum_eq]
      rw [cgrade_perm hpos' h, cgrade_weightless (by rwa [weightless_sum hz] at hpos') hz]
  · rintro pre post a b c rfl hb hc hw
    exact cgrade_split hpos hb hc hw

/-- a category document of this weight and grade -/
def GradedCategory.ofFields (id : Segment) (name : String) (weight : ℚ) (cents : ℤ) (h : 0 ≤ weight) :
    GradedCategory where
  document := (id, Doc.ofFields [("catname", .string name), ("weight", .double (.num weight)),
    ("catgrade", .double (.num (cents / 100)))])
  weight := weight
  cents := cents
  typed := ⟨⟨_, rfl⟩, ⟨_, rfl⟩, ⟨_, rfl⟩⟩
  weight_eq := rfl
  weight_nonneg := h
  grade_eq := rfl

/-- 90 %, with weight w -/
def labs (w : ℚ) (h : 0 ≤ w) : GradedCategory := .ofFields sampleCategory "Labs" w 9000 h

/-- 60.5 %, with weight w -/
def tests (w : ℚ) (h : 0 ≤ w) : GradedCategory := .ofFields sampleAssignment "Tests" w 6050 h

/-- 100 % that do not count -/
def bonus : GradedCategory := .ofFields undrawn "Bonus" 0 10000 le_rfl

/-- labs of weight 1 and tests of weight 2: in the other order, with weights half as large again, with the bonus between
them, and with the tests split into two of weight 1/2 and 3/2 -/
theorem cgrade_mean_laws_sample :
    let l := [labs 1 zero_le_one, tests 2 zero_le_two]
    (∃ g, cgrade l = some (.num g) ∧ (∃ a ∈ l, 0 < a.weight ∧ a.grade ≤ g) ∧
      ∃ b ∈ l, 0 < b.weight ∧ g ≤ b.grade) ∧
    cgrade [tests 2 zero_le_two, labs 1 zero_le_one] = cgrade l ∧
    cgrade [labs (3 / 2) (by norm_num), tests 3 zero_le_three] = cgrade l ∧
    cgrade [labs 1 zero_le_one, bonus, tests 2 zero_le_two] = cgrade l ∧
    cgrade [labs 1 zero_le_one, tests (1 / 2) (by norm_num), tests (3 / 2) (by norm_num)] = cgrade l := by
  intro l
  have hpos : 0 < (l.map (·.weight)).sum := by norm_num [l, labs, tests, GradedCategory.ofFields]
  obtain ⟨hbetween, hperm, hscale, hweightless, hsplit⟩ := cgrade_mean_laws l hpos
  refine ⟨hbetween, hperm _ (List.Perm.swap _ _ _), ?_, ?_, ?_⟩
  · refine hscale (3 / 2) _ (by norm_num) (.cons ⟨?_, rfl⟩ (.cons ⟨?_, rfl⟩ .nil))
    · norm_num [labs, GradedCategory.ofFields]
    · norm_num [tests, GradedCategory.ofFields]
  · refine hweightless [bonus] _ (List.forall_mem_singleton.2 rfl) (Or.inl ?_)
    exact (List.Perm.swap _ _ []).cons _
  · refine hsplit [labs 1 zero_le_one] [] _ _ _ rfl rfl rfl ?_
    norm_num [tests, GradedCategory.ofFields]

/-! ## Stored category grades are hundredths -/

/-- the category grade among the fields, if it is a number, is one of hundredths -/
def Cents (d : Doc) : Prop := ∀ x, d Cat.grade.rawValue = some (.double (.num x)) → ∃ n : ℤ, x = n / 100

theorem cents_of_none {d : Doc} (h : d Cat.grade.rawValue = none) : Cents d := by
  intro x hx
  rw [h] at hx
  cases hx

theorem Cents.merge {data old : Doc} (hd : Cents data) (ho : Cents old) : Cents (data.merge old) := by
  intro x hx
  cases hkey : data Cat.grade.rawValue with
  | none => exact ho x ((Doc.merge_none hkey).symm.trans hx)
  | some v =>
    rw [Doc.merge_some hkey] at hx
    exact hd x (hkey.trans hx)

/-- the form gives a new category the grade 0 and leaves the grade out of every other request -/
theorem press_cents {f : Form} {r : Request} (h : f.press = some [r]) : Cents r.data := by
  obtain ⟨client, ref, body⟩ := f
  cases body with
  | course cname =>
    simp only [Form.press, addCoursePressed, Option.bind_eq_bind, Option.bind_eq_some_iff, Option.some.injEq,
      List.cons.injEq, and_true] at h
    obtain ⟨coll, -, rfl⟩ := h
    exact cents_of_none (by simp [Request.data, Cat.rawValue])
  | category g =>
    simp only [Form.press, Option.ite_none_right_eq_some] at h
    rcases NewCat.confirm_data h.2 with hr | hr
    · rw [hr]
      intro x hx
      have hzero : x = 0 := by simpa [NewCat.newCategory, Cat.rawValue, eq_comm] using hx
      exact ⟨0, by simp [hzero]⟩
    · rw [hr]
      exact cents_of_none (by simp [NewCat.editedCategory, Cat.rawValue])
  | assignment g =>
    simp only [Form.press, Option.ite_none_right_eq_some] at h
    obtain ⟨c, t, -, -, hr⟩ := NewAss.assignment_eq (NewAss.confirm_data h.2)
    rw [hr]
    exact cents_of_none (by simp [assignmentFields, Ass.rawValue, Cat.rawValue])

/-- the listeners write hundredths, if they write a number -/
theorem gradeWrites_cents {E : Env} {c : Coll} {documents : Snapshot} {w : Write} (hw : w ∈ gradeWrites E c documents) :
    ∀ d ∈ w.data, Cents d := by
  unfold gradeWrites at hw
  cases hc : c.owner E.uid with
  | none => simp [hc] at hw
  | some p =>
    simp only [hc, List.mem_singleton] at hw
    subst hw
    intro d hd
    cases hd
    cases c with
    | courses => cases hc
    | categories k => exact cents_of_none (by simp [gradeKey, Cat.rawValue])
    | assignments k j =>
      intro x hx
      simp only [gradeKey, Doc.ofFields_cons, if_true, Option.some.injEq, Value.double.injEq] at hx
      exact guardedGrade_hundredths hx

/-- **Every writer of a category grade leaves hundredths.** In every reachable state each stored category grade that is
a number is a whole number of hundredths. -/
theorem stored_grade_hundredths {E : Env} {s : St} (h : Reachable E s) {p : DocPath} {d : Doc}
    (hd : s.store.lookup p = some d) : Cents d := by
  obtain ⟨ops, hops⟩ := h
  have hstep : ∀ t t' o, Inv E t → Effect E (fun _ => Born t) t t' o → AllDocs Cents t → AllDocs Cents t' := by
    intro t t' o _ he hc
    refine he.allDocs (fun _ _ => Cents.merge) hc ?_ ?_
    · intro i id f r _ _ hpress
      exact press_cents hpress
    · intro i v documents rest _ _ _ w hw
      exact gradeWrites_cents hw
  exact ((inv_init E).run hstep (allDocs_init _) hops).2.stored p d hd

/-- the category of the second session, at 66.67 after the rounding -/
theorem stored_grade_hundredths_pair :
    pair.store.lookup (Coll.doc uid (.categories sampleCourse) sampleCategory) = some pairCategory ∧
      Cents pairCategory ∧ pairCategory "catgrade" = some (.double (.num (6667 / 100))) :=
  ⟨pair_category, stored_grade_hundredths pair_reachable pair_category, rfl⟩

end GradeKeep.MeanLaws
