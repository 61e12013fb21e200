/-
The add-course page (views/addCourse.html): a text field for the course name, a table of categories that starts with one
row, and three click handlers.

`#addCategory` appends a row whose two inputs are named by a counter, and counts up. The Delete button of an appended
row removes that row and counts down; the first row's button is disabled. `#addCourse` collects the texts of the name
inputs and of the weight inputs, each in document order, and posts one object: the course name under `_courseName`,
and each weight under its category's name.

The counter is an integer. `addedAt` is a ghost: no handler reads it.

Results:
- `run_invariant`: what the loaded page has and every event keeps, the page has after any events;
- `map_modifyRow`: typing leaves alone what is not a text;
- `posted_eq_fill`: the posted object is filled by one assignment for the course name and one for each row.
-/
import Mathlib.Tactic
import GradeKeep.Core.JsObject

namespace GradeKeep.AddCourse

open GradeKeep.JsObject

/-! ## The page -/

/-- a row of the category table -/
structure Row where
  /-- the name attributes of its two inputs -/
  nameAttr : String
  weightAttr : String
  /-- their texts -/
  name : String
  weight : String
  /-- how many appended rows the table had when this one was appended (ghost) -/
  addedAt : ℕ
deriving DecidableEq, Repr

structure Page where
  counter : ℤ
  courseName : String
  /-- the row whose Delete button is disabled -/
  first : Row
  /-- the rows appended, in document order -/
  added : List Row
deriving DecidableEq, Repr

namespace Page

def rows (p : Page) : List Row := p.first :: p.added

/-- the page as loaded -/
def load : Page := ⟨0, "", ⟨"categoryName", "categoryWeight", "", "", 0⟩, []⟩

/-- the row that `#addCategory` appends -/
def newRow (p : Page) : Row where
  nameAttr := "categoryName" ++ toString p.counter
  weightAttr := "categoryWeight" ++ toString p.counter
  name := ""
  weight := ""
  addedAt := p.added.length

/-- row i of the table changes -/
def modifyRow (p : Page) (f : Row → Row) : ℕ → Page
  | 0 => { p with first := f p.first }
  | i + 1 => { p with added := p.added.modify i f }

end Page

inductive Op where
  /-- a click on Add Category -/
  | add
  /-- a click on the Delete button of the i-th appended row -/
  | delete (i : ℕ)
  | typeCourseName (text : String)
  /-- a text is typed into the name input, or the weight input, of row i -/
  | typeName (i : ℕ) (text : String)
  | typeWeight (i : ℕ) (text : String)
deriving DecidableEq, Repr

/-- one event; a button that is not there is not clicked -/
def step (p : Page) : Op → Page
  | .add => { p with added := p.added ++ [p.newRow], counter := p.counter + 1 }
  | .delete i => if i < p.added.length then { p with added := p.added.eraseIdx i, counter := p.counter - 1 } else p
  | .typeCourseName text => { p with courseName := text }
  | .typeName i text => p.modifyRow (fun r => { r with name := text }) i
  | .typeWeight i text => p.modifyRow (fun r => { r with weight := text }) i

def run (ops : List Op) : Page := ops.foldl step .load

theorem run_concat (ops : List Op) (o : Op) : run (ops ++ [o]) = step (run ops) o := by
  rw [run, List.foldl_append]
  rfl

/-- **Invariants of the page.** -/
theorem run_invariant {P : Page → Prop} (hload : P .load) (hstep : ∀ p o, P p → P (step p o)) (ops : List Op) :
    P (run ops) := by
  induction ops using List.reverseRecOn with
  | nil => exact hload
  | append_singleton ops o ih =>
    rw [run_concat]
    exact hstep _ o ih

/-! ## Typing -/

theorem rows_modifyRow (p : Page) (f : Row → Row) (i : ℕ) : (p.modifyRow f i).rows = p.rows.modify i f := by
  cases i with
  | zero => rfl
  | succ i => simp [Page.rows, Page.modifyRow]

theorem map_modify_eq {α β : Type} {f : α → α} {g : α → β} (h : ∀ a, g (f a) = g a) (l : List α) (i : ℕ) :
    (l.modify i f).map g = l.map g := by
  induction l generalizing i with
  | nil => simp
  | cons a l ih =>
    cases i with
    | zero => simp [h]
    | succ i => simp [ih]

/-- typing changes nothing of a row but its texts -/
theorem map_modifyRow {β : Type} {f : Row → Row} {g : Row → β} (h : ∀ r, g (f r) = g r) (p : Page) (i : ℕ) :
    (p.modifyRow f i).rows.map g = p.rows.map g ∧ (p.modifyRow f i).added.map g = p.added.map g ∧
      (p.modifyRow f i).counter = p.counter := by
  refine ⟨?_, ?_, ?_⟩
  · rw [rows_modifyRow, map_modify_eq h]
  · cases i with
    | zero => rfl
    | succ i => exact map_modify_eq h p.added i
  · cases i <;> rfl

/-! ## The posted object -/

/-- the `data` that the click handler of `#addCourse` posts -/
def Page.posted (p : Page) : Object String :=
  let x := p.rows.map (·.name)
  let y := p.rows.map (·.weight)
  (x.zip y).foldl (fun data e => set data e.1 e.2) (set ∅ "_courseName" p.courseName)

/-- what the user entered into a row -/
def Row.entry (r : Row) : String × String := (r.name, r.weight)

/-- the entries of the form: the course name, then each row -/
def Page.entries (p : Page) : List (String × String) := ("_courseName", p.courseName) :: p.rows.map Row.entry

theorem posted_eq_fill (p : Page) : p.posted = fill p.entries := by
  have hzip : (p.rows.map (·.name)).zip (p.rows.map (·.weight)) = p.rows.map Row.entry := by
    rw [List.zip_map']
    rfl
  rw [Page.posted, hzip]
  rfl

end GradeKeep.AddCourse
