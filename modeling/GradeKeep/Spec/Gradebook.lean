/-
What the app is for: a gradebook that users edit one entry at a time, and whose grades follow from the entries.

An entry is what a user types into a form. A gradebook has the entries of each collection under their ids, of the kind
that the collection is made of. Users add, edit and remove entries (`Action`, `perform`); an edit of an entry that is no
longer there does nothing. A category's grade is the percentage of its credits, a course's grade the mean of its
categories' grades by weight, both to hundredths, and 0 while nothing was earned. There are no documents here, no
clients, no listeners and no messages.

Results:
- `perform_lookup_ne`, `add_lookup`, `edit_lookup`, `remove_lookup`: what an action does to each entry.
-/
import GradeKeep.App.Schema

namespace GradeKeep.Gradebook

open GradeKeep.SwiftDouble GradeKeep.HalfAway GradeKeep.Firestore GradeKeep.Schema

/-! ## Entries and actions -/

structure CourseEntry where
  name : String
deriving DecidableEq, Repr

structure CategoryEntry where
  name : String
  weight : Double
deriving DecidableEq, Repr

structure AssignmentEntry where
  name : String
  credit : Double
  totalcredit : Double
deriving DecidableEq, Repr

/-- what a user enters for c -/
abbrev Entry : Coll → Type
  | .courses => CourseEntry
  | .categories _ => CategoryEntry
  | .assignments _ _ => AssignmentEntry

abbrev Book := (c : Coll) → Finmap fun _ : Segment => Entry c

def empty : Book := fun _ => ∅

inductive Action where
  | add (c : Coll) (id : Segment) (entry : Entry c)
  | edit (c : Coll) (id : Segment) (entry : Entry c)
  | remove (c : Coll) (id : Segment)

namespace Action

def coll : Action → Coll
  | add c _ _ => c
  | edit c _ _ => c
  | remove c _ => c

def id : Action → Segment
  | add _ id _ => id
  | edit _ id _ => id
  | remove _ id => id

end Action

def perform (g : Book) : Action → Book
  | .add c id entry => Function.update g c ((g c).insert id entry)
  | .edit c id entry => if id ∈ g c then Function.update g c ((g c).insert id entry) else g
  | .remove c id => Function.update g c ((g c).erase id)

/-- the gradebook after these actions, one after the other -/
def performAll (actions : List Action) : Book := actions.foldl perform empty

variable (g : Book)

theorem add_lookup (c : Coll) (id : Segment) (entry : Entry c) :
    (perform g (.add c id entry) c).lookup id = some entry := by
  simp [perform]

theorem edit_lookup (c : Coll) (id : Segment) (entry : Entry c) :
    (perform g (.edit c id entry) c).lookup id = ((g c).lookup id).map fun _ => entry := by
  simp only [perform]
  split_ifs with h
  · obtain ⟨old, hold⟩ := Finmap.mem_iff.1 h
    simp [hold]
  · simp [Finmap.lookup_eq_none.2 h]

theorem remove_lookup (c : Coll) (id : Segment) : (perform g (.remove c id) c).lookup id = none := by
  simp [perform]

/-- entry id of c, when the c of the book is replaced by one that differs in entry i only -/
theorem update_lookup_ne {c c' : Coll} {m : Finmap fun _ : Segment => Entry c'} {i id : Segment}
    (h : ¬(c' = c ∧ i = id)) (hm : ∀ j, j ≠ i → m.lookup j = (g c').lookup j) :
    (Function.update g c' m c).lookup id = (g c).lookup id := by
  by_cases hc : c' = c
  · subst hc
    rw [Function.update_self]
    exact hm id fun e => h ⟨rfl, e.symm⟩
  · rw [Function.update_of_ne fun e => hc e.symm]

/-- **Frame.** An action changes its own entry only. -/
theorem perform_lookup_ne (a : Action) {c : Coll} {id : Segment} (h : ¬(a.coll = c ∧ a.id = id)) :
    (perform g a c).lookup id = (g c).lookup id := by
  cases a with
  | add c' i entry => exact update_lookup_ne g h fun j hj => Finmap.lookup_insert_of_ne _ hj
  | edit c' i entry =>
    simp only [perform]
    split_ifs
    · exact update_lookup_ne g h fun j hj => Finmap.lookup_insert_of_ne _ hj
    · rfl
  | remove c' i => exact update_lookup_ne g h fun j hj => Finmap.lookup_erase_ne hj

/-! ## Sequences of actions -/

/-- the action is on entry id of c -/
def Action.On (c : Coll) (id : Segment) (a : Action) : Bool := a.coll = c ∧ a.id = id

/-- what becomes of an entry depends on nothing else in the book -/
theorem perform_lookup_congr {g g' : Book} {c : Coll} {id : Segment} (h : (g c).lookup id = (g' c).lookup id)
    (a : Action) : (perform g a c).lookup id = (perform g' a c).lookup id := by
  by_cases ha : a.coll = c ∧ a.id = id
  · cases a with
    | add c' i entry =>
      obtain ⟨rfl, rfl⟩ := ha
      exact (add_lookup g c' i entry).trans (add_lookup g' c' i entry).symm
    | edit c' i entry =>
      obtain ⟨rfl, rfl⟩ := ha
      refine (edit_lookup g c' i entry).trans (Eq.trans ?_ (edit_lookup g' c' i entry).symm)
      exact congrArg _ h
    | remove c' i =>
      obtain ⟨rfl, rfl⟩ := ha
      exact (remove_lookup g c' i).trans (remove_lookup g' c' i).symm
  · rw [perform_lookup_ne g a ha, perform_lookup_ne g' a ha, h]

/-- nor on actions on other entries -/
theorem foldl_perform_filter {g g' : Book} {c : Coll} {id : Segment} (h : (g c).lookup id = (g' c).lookup id)
    (actions : List Action) : (actions.foldl perform g c).lookup id =
      ((actions.filter (Action.On c id)).foldl perform g' c).lookup id := by
  induction actions generalizing g g' with
  | nil => exact h
  | cons a actions ih =>
    rw [List.filter_cons, List.foldl_cons]
    split_ifs with ha
    · exact ih (perform_lookup_congr h a)
    · refine ih ((perform_lookup_ne g a ?_).trans h)
      simpa [Action.On] using ha

theorem performAll_congr {actions actions' : List Action} {c : Coll} {id : Segment}
    (h : actions.filter (Action.On c id) = actions'.filter (Action.On c id)) :
    (performAll actions c).lookup id = (performAll actions' c).lookup id := by
  rw [performAll, performAll, foldl_perform_filter rfl actions, foldl_perform_filter rfl actions', h]

/-! ## Grades -/

/-- to hundredths -/
def rounded (x : Double) : Double := Double.round (.num 100 * x) / .num 100

/-- the share that was earned; 0 of anything is 0 -/
def ratio (part whole : Double) : Double := if part = 0 then 0 else part / whole

def sumOver (c : Coll) (f : Segment → Entry c → Double) : Double := ((g c).entries.map fun e => f e.1 e.2).sum

/-- the percentage of a single assignment -/
def assgrade (entry : AssignmentEntry) : Double := rounded (.num 100 * (entry.credit / entry.totalcredit))

/-- the percentage of all credits in category j of course k -/
def catgrade (k j : Segment) : Double :=
  rounded (.num 100 * ratio (sumOver g (.assignments k j) fun _ entry => entry.credit)
    (sumOver g (.assignments k j) fun _ entry => entry.totalcredit))

/-- the mean of the grades of course k's categories, by weight -/
def cgrade (k : Segment) : Double :=
  rounded (ratio (sumOver g (.categories k) fun j entry => entry.weight * catgrade g k j)
    (sumOver g (.categories k) fun _ entry => entry.weight))

/-- the grade that follows from the entries below one; an assignment's own percentage is not among them -/
def derived : Coll → Segment → Option Double
  | .courses, k => some (cgrade g k)
  | .categories k, j => some (catgrade g k j)
  | .assignments _ _, _ => none

theorem rounded_num (q : ℚ) : rounded (.num q) = .num (hundredths (100 * q)) := by
  rw [rounded, Double.num_mul_num, Double.round_num_div_hundred]

theorem rounded_zero : rounded 0 = 0 := by
  rw [Double.zero_def, rounded_num, mul_zero, hundredths_zero]

end GradeKeep.Gradebook
