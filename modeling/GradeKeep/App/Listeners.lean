/-
The three snapshot listeners that `viewDidLoad` adds, as functions of the documents a snapshot brings.

`coursesListener` rebuilds `courses`. `categoriesListener` rebuilds `categories` and computes the course grade it writes
to the course document; `assignmentsListener` rebuilds `assignments` and computes the category grade it writes to the
category document. The last two run the same loop (`accumulate`): append the row, add to two sums, trap on a failed
cast. Both then divide the sums, scale, round to hundredths, and overwrite the result with 0 when the first sum is 0
(`guardedGrade`).

`none` is a trap: a forced cast or unwrap that fails.

Results:
- `accumulate_some_iff`: the loop ends exactly when every cast succeeds, with the rows in order and the two sums;
- `coursesListener_eq`, `categoriesListener_eq`, `assignmentsListener_eq`: hence what each listener computes on
  documents of its type (`IsCourse`, `IsCategory`, `IsAssignment`);
- `guardedGrade_num`, `isNum_guardedGrade`: the value of the guarded quotient, and when it is a number.
-/
import GradeKeep.App.Schema

namespace GradeKeep.Listeners

open GradeKeep.SwiftDouble GradeKeep.Firestore GradeKeep.Schema GradeKeep.HalfAway

/-! ## Rows -/

/-- `struct Course` -/
structure Course where
  courseId : Segment
  courseName : String
  courseGrade : Double
deriving DecidableEq, Repr

/-- an element of `categories`, a `[Cat : Any]` -/
structure Category where
  id : Segment
  name : Value
  grade : Value
  weight : Value
deriving DecidableEq, Repr

/-- an element of `assignments`, an `[Ass : Any]` -/
structure Assignment where
  id : Segment
  name : Value
  credit : Value
  totalcredit : Value
  grade : Value
deriving DecidableEq, Repr

def courseOf (document : Segment × Doc) : Option Course := do
  let courseName ← (document.2 "course_name").bind Value.asString
  let courseGrade ← (document.2 "course_grade").bind Value.asDouble
  some ⟨document.1, courseName, courseGrade⟩

def categoryOf (document : Segment × Doc) : Category where
  id := document.1
  name := (document.2 Cat.name.rawValue).getD (.string "")
  grade := (document.2 Cat.grade.rawValue).getD (.double (.num 0))
  weight := (document.2 Cat.weight.rawValue).getD (.double (.num 0))

def assignmentOf (document : Segment × Doc) : Assignment where
  id := document.1
  name := (document.2 Ass.name.rawValue).getD (.string "")
  credit := (document.2 Ass.credit.rawValue).getD (.double (.num 0))
  totalcredit := (document.2 Ass.totalcredit.rawValue).getD (.double (.num 1))
  grade := (document.2 Ass.grade.rawValue).getD (.double (.num 0))

/-! ## Listeners -/

/-- the loop over the documents: the rows so far and the two sums; `none` when a cast fails -/
def accumulate {R : Type} (row : Segment × Doc → R) (term term' : R → Option Double) (documents : Snapshot) :
    Option (List R × Double × Double) :=
  documents.foldlM (fun a document => do
    let x ← term (row document)
    let y ← term' (row document)
    some (a.1 ++ [row document], a.2.1 + x, a.2.2 + y)) ([], 0, 0)

/-- `round(scale * (sum / total)) / 100`, or 0 when the sum is 0 -/
def guardedGrade (scale sum total : Double) : Double :=
  if sum = 0 then 0 else Double.round (scale * (sum / total)) / .num 100

def coursesListener (documents : Snapshot) : Option (List Course) := documents.mapM courseOf

/-- `0.1 * weight * grade` -/
def Category.term (category : Category) : Option Double := do
  let weight ← category.weight.asDouble
  let grade ← category.grade.asDouble
  some (.num (1 / 10) * weight * grade)

/-- the new `categories`, and `cgrade` -/
def categoriesListener (documents : Snapshot) : Option (List Category × Double) := do
  let (categories, sum, weightsum) ← accumulate categoryOf Category.term (·.weight.asDouble) documents
  some (categories, guardedGrade (.num 1000) sum weightsum)

/-- the new `assignments`, and `catgrade` -/
def assignmentsListener (documents : Snapshot) : Option (List Assignment × Double) := do
  let (assignments, creditsum, totalcreditsum) ←
    accumulate assignmentOf (·.credit.asDouble) (·.totalcredit.asDouble) documents
  some (assignments, guardedGrade (.num 10000) creditsum totalcreditsum)

/-! ## Documents of the right type -/

structure IsCourse (d : Doc) : Prop where
  name : ∃ s, d "course_name" = some (.string s)
  grade : ∃ x, d "course_grade" = some (.double x)

structure IsCategory (d : Doc) : Prop where
  name : ∃ s, d Cat.name.rawValue = some (.string s)
  weight : ∃ x, d Cat.weight.rawValue = some (.double x)
  grade : ∃ x, d Cat.grade.rawValue = some (.double x)

structure IsAssignment (d : Doc) : Prop where
  name : ∃ s, d Ass.name.rawValue = some (.string s)
  credit : ∃ x, d Ass.credit.rawValue = some (.double x)
  totalcredit : ∃ x, d Ass.totalcredit.rawValue = some (.double x)
  grade : ∃ x, d Ass.grade.rawValue = some (.double x)

/-- the type of the documents of a collection -/
def HasType : Coll → Doc → Prop
  | .courses, d => IsCourse d
  | .categories _, d => IsCategory d
  | .assignments _ _, d => IsAssignment d

/-- the number in a field; 0 where there is none -/
def field (key : String) (e : Segment × Doc) : Double := ((e.2 key).bind Value.asDouble).getD 0

theorem field_eq {key : String} {e : Segment × Doc} {x : Double} (h : e.2 key = some (.double x)) :
    field key e = x := by
  simp [field, h, Value.asDouble]

theorem asDouble_getD {key : String} {e : Segment × Doc} {v : Value} (h : ∃ x, e.2 key = some (.double x)) :
    ((e.2 key).getD v).asDouble = some (field key e) := by
  obtain ⟨x, hx⟩ := h
  rw [field_eq hx, hx]; rfl

/-! ## What the listeners compute -/

/-- the loop ends exactly when every cast succeeds, and then returns the rows in order and the two sums -/
theorem accumulate_some_iff {R : Type} {row : Segment × Doc → R} {term term' : R → Option Double} {documents : Snapshot}
    {b : List R × Double × Double} : accumulate row term term' documents = some b ↔
      ∃ xs ys, List.Forall₂ (fun e x => term (row e) = some x) documents xs ∧
        List.Forall₂ (fun e y => term' (row e) = some y) documents ys ∧ b = (documents.map row, xs.sum, ys.sum) := by
  -- from any accumulators on, the loop adds the rows and the terms of what is still to come
  have key : ∀ (l : Snapshot) (a b : List R × Double × Double), l.foldlM (fun a document => do
      let x ← term (row document)
      let y ← term' (row document)
      some (a.1 ++ [row document], a.2.1 + x, a.2.2 + y)) a = some b ↔
      ∃ xs ys, List.Forall₂ (fun e x => term (row e) = some x) l xs ∧
        List.Forall₂ (fun e y => term' (row e) = some y) l ys ∧
        b = (a.1 ++ l.map row, a.2.1 + xs.sum, a.2.2 + ys.sum) := by
    intro l
    induction l with
    | nil =>
      intro a b
      simp [eq_comm]
    | cons e l ih =>
      intro a b
      simp only [List.foldlM_cons, Option.bind_eq_bind, Option.bind_eq_some_iff, Option.some.injEq] at ih ⊢
      refine ⟨?_, ?_⟩
      · rintro ⟨_, ⟨x, hx, y, hy, rfl⟩, hb⟩
        obtain ⟨xs, ys, hxs, hys, rfl⟩ := (ih _ _).1 hb
        refine ⟨x :: xs, y :: ys, .cons hx hxs, .cons hy hys, ?_⟩
        simp [add_assoc]
      · rintro ⟨_, _, hterms, hterms', rfl⟩
        obtain ⟨x, xs, hx, hxs, rfl⟩ := List.forall₂_cons_left_iff.1 hterms
        obtain ⟨y, ys, hy, hys, rfl⟩ := List.forall₂_cons_left_iff.1 hterms'
        refine ⟨_, ⟨x, hx, y, hy, rfl⟩, (ih _ _).2 ⟨xs, ys, hxs, hys, ?_⟩⟩
        simp [add_assoc]
  have h := key documents ([], 0, 0) b
  simpa [accumulate] using h

theorem accumulate_eq {R : Type} {row : Segment × Doc → R} {term term' : R → Option Double} {documents : Snapshot}
    {x y : Segment × Doc → Double} (hx : ∀ e ∈ documents, term (row e) = some (x e))
    (hy : ∀ e ∈ documents, term' (row e) = some (y e)) :
    accumulate row term term' documents =
      some (documents.map row, (documents.map x).sum, (documents.map y).sum) := by
  refine accumulate_some_iff.2 ⟨documents.map x, documents.map y, ?_, ?_, rfl⟩
  · exact List.forall₂_map_right_iff.2 (List.forall₂_same.2 hx)
  · exact List.forall₂_map_right_iff.2 (List.forall₂_same.2 hy)

/-- a loop that ends has appended one row per document -/
theorem accumulate_rows {R : Type} {row : Segment × Doc → R} {term term' : R → Option Double} {documents : Snapshot}
    {rows : List R} {x y : Double} (h : accumulate row term term' documents = some (rows, x, y)) :
    rows = documents.map row := by
  obtain ⟨xs, ys, -, -, he⟩ := accumulate_some_iff.1 h
  exact congrArg Prod.fst he

theorem courseOf_eq {e : Segment × Doc} (h : IsCourse e.2) :
    ∃ s, e.2 "course_name" = some (.string s) ∧ courseOf e = some ⟨e.1, s, field "course_grade" e⟩ := by
  obtain ⟨⟨s, hs⟩, ⟨x, hx⟩⟩ := h
  refine ⟨s, hs, ?_⟩
  simp only [courseOf, hs, hx, Option.bind_some, Value.asString, Value.asDouble, field, Option.getD_some,
    Option.bind_eq_bind]

theorem coursesListener_eq {documents : Snapshot} (h : ∀ e ∈ documents, IsCourse e.2) :
    coursesListener documents = some (documents.filterMap courseOf) := by
  unfold coursesListener
  induction documents with
  | nil => rfl
  | cons e documents ih =>
    obtain ⟨s, -, hc⟩ := courseOf_eq (h e List.mem_cons_self)
    rw [List.mapM_cons, hc, ih fun e' he' => h e' (List.mem_cons_of_mem e he'), List.filterMap_cons, hc]; rfl

/-- the weighted sum of the category grades, and the sum of the weights -/
def weightedSum (documents : Snapshot) : Double :=
  (documents.map fun e => .num (1 / 10) * field Cat.weight.rawValue e * field Cat.grade.rawValue e).sum
def weightSum (documents : Snapshot) : Double := (documents.map (field Cat.weight.rawValue)).sum

theorem categoriesListener_eq {documents : Snapshot} (h : ∀ e ∈ documents, IsCategory e.2) :
    categoriesListener documents =
      some (documents.map categoryOf, guardedGrade (.num 1000) (weightedSum documents) (weightSum documents)) := by
  have hw : ∀ e ∈ documents, (categoryOf e).weight.asDouble = some (field Cat.weight.rawValue e) :=
    fun e he => asDouble_getD (h e he).weight
  have ht : ∀ e ∈ documents, (categoryOf e).term =
      some (.num (1 / 10) * field Cat.weight.rawValue e * field Cat.grade.rawValue e) := by
    intro e he
    have hg : (categoryOf e).grade.asDouble = some (field Cat.grade.rawValue e) := asDouble_getD (h e he).grade
    rw [Category.term, hw e he, hg]; rfl
  rw [categoriesListener, accumulate_eq ht hw]; rfl

/-- the sums of the credits and of the total credits -/
def creditSum (documents : Snapshot) : Double := (documents.map (field Ass.credit.rawValue)).sum
def totalcreditSum (documents : Snapshot) : Double := (documents.map (field Ass.totalcredit.rawValue)).sum

theorem assignmentsListener_eq {documents : Snapshot} (h : ∀ e ∈ documents, IsAssignment e.2) :
    assignmentsListener documents =
      some (documents.map assignmentOf,
        guardedGrade (.num 10000) (creditSum documents) (totalcreditSum documents)) := by
  have hc : ∀ e ∈ documents, (assignmentOf e).credit.asDouble = some (field Ass.credit.rawValue e) :=
    fun e he => asDouble_getD (h e he).credit
  have ht : ∀ e ∈ documents, (assignmentOf e).totalcredit.asDouble = some (field Ass.totalcredit.rawValue e) :=
    fun e he => asDouble_getD (h e he).totalcredit
  have hacc : accumulate assignmentOf (·.credit.asDouble) (·.totalcredit.asDouble) documents = _ :=
    accumulate_eq hc ht
  rw [assignmentsListener, hacc]; rfl

/-! ## The guarded quotient -/

/-- with a non-zero total the guard changes nothing: 0 / total rounds to 0 anyway -/
theorem guardedGrade_num (scale sum total : ℚ) (h : total ≠ 0) :
    guardedGrade (.num scale) (.num sum) (.num total) = .num (hundredths (scale * (sum / total))) := by
  unfold guardedGrade
  split_ifs with h0
  · simp only [Double.zero_def, Double.num.injEq] at h0
    simp [h0, Double.zero_def]
  · rw [Double.num_div_num h, Double.num_mul_num, Double.round_num_div_hundred]

theorem guardedGrade_zero (scale total : Double) : guardedGrade scale 0 total = 0 := if_pos rfl

/-- a number that the guarded quotient gives is one of hundredths -/
theorem guardedGrade_hundredths {scale : ℚ} {sum total : Double} {x : ℚ}
    (h : guardedGrade (.num scale) sum total = .num x) : ∃ n : ℤ, x = n / 100 := by
  unfold guardedGrade at h
  split_ifs at h with h0
  · rw [Double.zero_def, Double.num.injEq] at h
    exact ⟨0, by simp [← h]⟩
  · cases hq : Double.num scale * (sum / total) with
    | nan => simp [hq] at h
    | num q =>
      rw [hq, Double.round_num_div_hundred, Double.num.injEq] at h
      exact ⟨halfAway q, h.symm⟩

theorem isNum_guardedGrade {scale : ℚ} {sum total : Double} (hs : sum.IsNum) (ht : total.IsNum) :
    (guardedGrade (.num scale) sum total).IsNum ↔ sum = 0 ∨ total ≠ 0 := by
  unfold guardedGrade
  split_ifs with h0
  · simp [h0]
  · have h100 : (.num 100 : Double) ≠ 0 := by simp [Double.zero_def]
    rw [Double.isNum_div, Double.isNum_round, Double.isNum_mul, Double.isNum_div]
    simp [h0, hs, ht, h100]

/-! ## Lists of numbers -/

section Numbers

variable {ι : Type} (l : List ι) (document : ι → Segment × Doc) (w g : ι → ℚ)

theorem weightSum_num (hw : ∀ i ∈ l, (document i).2 Cat.weight.rawValue = some (.double (.num (w i)))) :
    weightSum (l.map document) = .num (l.map w).sum := by
  rw [weightSum, List.map_map, ← Double.sum_map_num]
  exact congrArg List.sum (List.map_congr_left fun i hi => field_eq (hw i hi))

theorem weightedSum_num (hw : ∀ i ∈ l, (document i).2 Cat.weight.rawValue = some (.double (.num (w i))))
    (hg : ∀ i ∈ l, (document i).2 Cat.grade.rawValue = some (.double (.num (g i)))) :
    weightedSum (l.map document) = .num ((l.map fun i => w i * g i).sum / 10) := by
  have hterm : ((l.map document).map fun e => .num (1 / 10) * field Cat.weight.rawValue e *
      field Cat.grade.rawValue e) = l.map fun i => Double.num (1 / 10 * (w i * g i)) := by
    rw [List.map_map]
    refine List.map_congr_left ?_
    intro i hi
    simp only [Function.comp_apply, field_eq (hw i hi), field_eq (hg i hi), Double.num_mul_num]
    rw [mul_assoc]
  rw [weightedSum, hterm, Double.sum_map_num, List.sum_map_mul_left]
  congr 1
  ring

/-- on numbers the categories listener computes the weighted mean, rounded to hundredths -/
theorem categoriesListener_num (hty : ∀ i ∈ l, IsCategory (document i).2)
    (hw : ∀ i ∈ l, (document i).2 Cat.weight.rawValue = some (.double (.num (w i))))
    (hg : ∀ i ∈ l, (document i).2 Cat.grade.rawValue = some (.double (.num (g i)))) (h : (l.map w).sum ≠ 0) :
    categoriesListener (l.map document) = some ((l.map document).map categoryOf,
      .num (hundredths (100 * ((l.map fun i => w i * g i).sum / (l.map w).sum)))) := by
  have hty' : ∀ e ∈ l.map document, IsCategory e.2 := by
    intro e he
    obtain ⟨i, hi, rfl⟩ := List.mem_map.1 he
    exact hty i hi
  rw [categoriesListener_eq hty', weightSum_num l document w hw, weightedSum_num l document w g hw hg,
    guardedGrade_num _ _ _ h]
  congr 4
  ring

end Numbers

end GradeKeep.Listeners
