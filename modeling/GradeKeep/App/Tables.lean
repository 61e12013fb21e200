/-
What the three table controllers draw: `numberOfRowsInSection` and `cellForRowAt`.

A label's text is optional. `"\(x!)"` interpolates a number as `String(x)` describes it. `none` is a trap: a row past
the end, or a forced unwrap after a cast that failed.

Results:
- `drawn_eq`: a table whose cells do not trap draws them in the order of its rows.
-/
import GradeKeep.App.System

namespace GradeKeep.Tables

open GradeKeep.Firestore GradeKeep.Schema GradeKeep.Listeners GradeKeep.System

/-- the texts of the labels in a cell -/
inductive Cell where
  | course (courseNameLabel : Option String) (courseGradeLabel : String)
  | category (catNameLabel : Option String) (catGradeLabel : String)
  | assignment (assNameLabel : Option String) (creditLabel totalcreditLabel assGradeLabel : String)
deriving DecidableEq, Repr

def courseCell (E : Env) (course : Course) : Option Cell :=
  some (.course (some course.courseName) (E.describe course.courseGrade ++ "%"))

def categoryCell (E : Env) (category : Category) : Option Cell := do
  let x ← category.grade.asDouble
  some (.category category.name.asString (E.describe x ++ "%"))

def assignmentCell (E : Env) (assignment : Assignment) : Option Cell := do
  let x ← assignment.credit.asDouble
  let y ← assignment.totalcredit.asDouble
  let z ← assignment.grade.asDouble
  some (.assignment assignment.name.asString (E.describe x) ("/" ++ E.describe y) (E.describe z ++ "%"))

/-- `tableView(_:numberOfRowsInSection:)` -/
def numberOfRows (v : View) : ℕ :=
  match v.rows with
  | .courses l => l.length
  | .categories l => l.length
  | .assignments l => l.length

/-- `tableView(_:cellForRowAt:)` -/
def cellForRowAt (E : Env) (v : View) (i : ℕ) : Option Cell :=
  match v.rows with
  | .courses l => l[i]?.bind (courseCell E)
  | .categories l => l[i]?.bind (categoryCell E)
  | .assignments l => l[i]?.bind (assignmentCell E)

/-- the whole table, drawn row by row -/
def drawn (E : Env) (v : View) : Option (List Cell) := (List.range (numberOfRows v)).mapM (cellForRowAt E v)

theorem numberOfRows_eq (v : View) : numberOfRows v = v.rows.ids.length := by
  unfold numberOfRows
  cases v.rows <;> exact (List.length_map _).symm

theorem mapM_eq_some {α β : Type} {f : α → Option β} {g : α → β} {l : List α} (h : ∀ a ∈ l, f a = some (g a)) :
    l.mapM f = some (l.map g) := by
  induction l with
  | nil => rfl
  | cons a l ih =>
    rw [List.mapM_cons, h a List.mem_cons_self, ih fun b hb => h b (List.mem_cons_of_mem a hb)]
    rfl

theorem drawn_eq {E : Env} {v : View} {cells : List Cell} (hlen : numberOfRows v = cells.length)
    (h : ∀ i < cells.length, cellForRowAt E v i = cells[i]?) : drawn E v = some cells := by
  have hcell : ∀ i ∈ List.range cells.length, cellForRowAt E v i = some (cells[i]?.getD (.course none "")) := by
    intro i hi
    have hi' := List.mem_range.1 hi
    rw [h i hi', List.getElem?_eq_getElem hi', Option.getD_some]
  rw [drawn, hlen, mapM_eq_some hcell]
  congr 1
  refine List.ext_getElem (by simp) ?_
  intro i h1 h2
  rw [List.getElem_map, List.getElem_range, List.getElem?_eq_getElem h2, Option.getD_some]

end GradeKeep.Tables
