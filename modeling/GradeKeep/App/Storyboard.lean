/-
What users do on the three tables, down to the segues of the storyboard.

`System` has a row tapped, a form opened, a row deleted. Between the finger and these stand `performSegue`, which raises
when the storyboard has no segue of that identifier on the screen, and `prepare(for:sender:)`, which casts its sender to
a cell where it needs a row. A tapped cell is its own sender; the Edit action of a swipe asks the table for the cell of
its row (`cellForRow`), and there is one only while that row is on the screen. `none` is a trap.

Results:
- `act_reachable`: what users do is a run of the system.
-/
import GradeKeep.App.LocalViews
import GradeKeep.App.Tables

namespace GradeKeep.Storyboard

open GradeKeep.Schema GradeKeep.System GradeKeep.LocalViews GradeKeep.Tables

/-- the identifiers in the code -/
inductive Identifier where
  | catsegue
  | newcoursesegue
  | editcoursesegue
  | newcatsegue
  | editcatsegue
  | asssegue
  | newasssegue
  | editasssegue
deriving DecidableEq, Repr

/-- the segues the storyboard has, by the table they start from -/
def segues : Coll → List Identifier
  | .courses => [.catsegue, .newcoursesegue]
  | .categories _ => [.asssegue, .newcatsegue, .editcatsegue]
  | .assignments _ _ => [.editasssegue, .newasssegue]

/-- `prepare(for:sender:)` on view v, with the row of the cell that is the sender, if one is -/
def prepare (v : ℕ) : Identifier → Option ℕ → Option System.Op
  | .newcoursesegue, _ => some (.newForm v)
  | .newcatsegue, _ => some (.newForm v)
  | .newasssegue, _ => some (.newForm v)
  | .catsegue, some i => some (.segue v i)
  | .asssegue, some i => some (.segue v i)
  | .editcatsegue, some i => some (.editForm v i)
  | .editasssegue, some i => some (.editForm v i)
  | _, _ => none

/-- `performSegue(withIdentifier:sender:)` -/
def performSegue (v : ℕ) (c : Coll) (identifier : Identifier) (sender : Option ℕ) : Option System.Op :=
  if identifier ∈ segues c then prepare v identifier sender else none

/-- `tableView.cellForRow(at:)`, as the row of the cell: nil for a row that is not on the screen -/
def cellForRow (view : View) (onScreen : List ℕ) (i : ℕ) : Option ℕ :=
  if i ∈ onScreen ∧ i < numberOfRows view then some i else none

/-- the segue of the cells of a table -/
def cellSegue : Coll → Identifier
  | .courses => .catsegue
  | .categories _ => .asssegue
  | .assignments _ _ => .editasssegue

/-- the segue of the add button -/
def addSegue : Coll → Identifier
  | .courses => .newcoursesegue
  | .categories _ => .newcatsegue
  | .assignments _ _ => .newasssegue

/-- the segue that `editAction(at:)` performs; the course list has no such action -/
def editSegue : Coll → Option Identifier
  | .courses => none
  | .categories _ => some .editcatsegue
  | .assignments _ _ => some .editasssegue

/-- the menu of `addButtonPressed` -/
inductive MenuItem where
  | cancel
  | course
  | category
  | assignment
deriving DecidableEq, Repr

inductive Act where
  /-- the cell of row i is tapped -/
  | tap (v i : ℕ)
  | addButton (v : ℕ)
  | menu (v : ℕ) (item : MenuItem)
  /-- the handler that `editAction(at:)` builds runs for row i, while these rows are on the screen -/
  | editAction (v i : ℕ) (onScreen : List ℕ)
  /-- Delete of row i -/
  | deleteAction (v i : ℕ)
  /-- anything else that happens -/
  | op (o : LocalViews.Op)
deriving DecidableEq

def act (E : Env) (s : LocalViews.St) : Act → Option LocalViews.St
  | .tap v i => do
    let view ← s.base.views[v]?
    let o ← performSegue v view.coll (cellSegue view.coll) (some i)
    LocalViews.step E s (.base o)
  | .addButton v => do
    let view ← s.base.views[v]?
    let o ← performSegue v view.coll (addSegue view.coll) none
    LocalViews.step E s (.base o)
  | .menu v .course => do
    let view ← s.base.views[v]?
    let o ← performSegue v view.coll .editcoursesegue none
    LocalViews.step E s (.base o)
  -- the handlers of the other items are empty
  | .menu _ _ => some s
  | .editAction v i onScreen => do
    let view ← s.base.views[v]?
    let identifier ← editSegue view.coll
    let o ← performSegue v view.coll identifier (cellForRow view onScreen i)
    LocalViews.step E s (.base o)
  | .deleteAction v i => LocalViews.step E s (.base (.delete v i))
  | .op o => LocalViews.step E s o

/-- an act is a step, or does nothing -/
theorem act_step {E : Env} {s s' : LocalViews.St} {a : Act} (h : act E s a = some s') :
    s' = s ∨ ∃ o, LocalViews.step E s o = some s' := by
  cases a with
  | tap v i =>
    simp only [act, Option.bind_eq_bind, Option.bind_eq_some_iff] at h
    obtain ⟨view, -, o, -, hs⟩ := h
    exact Or.inr ⟨_, hs⟩
  | addButton v =>
    simp only [act, Option.bind_eq_bind, Option.bind_eq_some_iff] at h
    obtain ⟨view, -, o, -, hs⟩ := h
    exact Or.inr ⟨_, hs⟩
  | menu v item =>
    cases item with
    | course =>
      simp only [act, Option.bind_eq_bind, Option.bind_eq_some_iff] at h
      obtain ⟨view, -, o, -, hs⟩ := h
      exact Or.inr ⟨_, hs⟩
    | _ => exact Or.inl (Option.some.inj h).symm
  | editAction v i onScreen =>
    simp only [act, Option.bind_eq_bind, Option.bind_eq_some_iff] at h
    obtain ⟨view, -, identifier, -, o, -, hs⟩ := h
    exact Or.inr ⟨_, hs⟩
  | deleteAction v i => exact Or.inr ⟨.base (.delete v i), h⟩
  | op o => exact Or.inr ⟨o, h⟩

/-- **Acts are runs.** -/
theorem act_reachable {E : Env} {s s' : LocalViews.St} {a : Act} (h : LocalViews.Reachable E s)
    (ha : act E s a = some s') : LocalViews.Reachable E s' := by
  rcases act_step ha with rfl | ⟨o, hs⟩
  · exact h
  · exact h.step hs

end GradeKeep.Storyboard
