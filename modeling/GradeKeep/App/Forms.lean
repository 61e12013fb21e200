/-
The three forms: `NewCourseTableViewController`, `NewCatTableViewController` and `NewAssTableViewController`.

The category and the assignment form share their event loop, so it is written once, over the type F of their text
fields (`EditForm F`): `viewDidLoad` sets the button and, in edit mode, the texts; every change of a text field runs
`editDidBegin`, which sets the button from the texts. What the Confirm button writes differs and is written per form.

`none` is a trap: a forced unwrap of nil, or a path Firestore rejects.

Results:
- `EditForm.run_loaded`: in every state the event loop reaches, the mode and the holders are those it was opened with,
  and an enabled button means that no text is empty and, in edit mode, some text differs from its holder;
- `addCoursePressed_eq`, `confirm_new`, `confirm_edit` (of either form): the call a button makes;
- `NewAss.assignment_eq`, `NewAss.assignment_isSome_iff`: what the assignment form writes, and when it traps.
-/
import Mathlib.Data.Fintype.Defs
import GradeKeep.App.Listeners

namespace GradeKeep.Forms

open GradeKeep.SwiftDouble GradeKeep.Firestore GradeKeep.Schema GradeKeep.Listeners

inductive Mode where
  | new
  | edit
  | none
deriving DecidableEq, Repr

/-- a call to Firestore -/
inductive Request where
  | addDocument (coll : List Segment) (data : Doc)
  | updateData (p : DocPath) (data : Doc)

/-- the fields it sends -/
def Request.data : Request → Doc
  | .addDocument _ data => data
  | .updateData _ data => data

/-! ## The event loop of the category and the assignment form -/

structure EditForm (F : Type) where
  mode : Mode
  /-- the text fields -/
  text : F → String
  /-- the texts the form was opened with -/
  holder : F → String
  /-- `confirmButton.isEnabled` -/
  isEnabled : Bool

namespace EditForm

variable {F : Type} [DecidableEq F] [Fintype F]

/-- a form as its segue leaves it, after `viewDidLoad` -/
def load (mode : Mode) (holder : F → String) : EditForm F :=
  match mode with
  | .new => ⟨.new, fun _ => "", holder, false⟩
  | .edit => ⟨.edit, holder, holder, false⟩
  | .none => ⟨.none, fun _ => "", holder, true⟩

def textFieldsAreNew (f : EditForm F) : Bool := if ∀ i, f.text i = f.holder i then false else true

def textFieldsAreEmpty (f : EditForm F) : Bool := if ∃ i, f.text i = "" then true else false

def editDidBegin (f : EditForm F) : EditForm F :=
  if f.textFieldsAreEmpty || (f.mode = .edit && !f.textFieldsAreNew) then { f with isEnabled := false }
  else { f with isEnabled := true }

/-- the user changes a text field; the editingChanged handler runs -/
def change (f : EditForm F) (c : F × String) : EditForm F :=
  { f with text := Function.update f.text c.1 c.2 }.editDidBegin

def run (f : EditForm F) (changes : List (F × String)) : EditForm F := changes.foldl change f

/-- an enabled button vouches for the texts only this far -/
def Guarded (f : EditForm F) : Prop :=
  f.isEnabled = true → (∀ i, f.text i ≠ "") ∧ (f.mode = .edit → ∃ i, f.text i ≠ f.holder i)

omit [DecidableEq F] in
theorem editDidBegin_guarded (f : EditForm F) : f.editDidBegin.Guarded := by
  unfold Guarded editDidBegin
  split_ifs with h
  · simp
  · simp only [textFieldsAreEmpty, textFieldsAreNew, Bool.or_eq_true, Bool.and_eq_true, not_or, not_and] at h
    intro _
    refine ⟨?_, ?_⟩
    · intro i hi
      exact h.1 (if_pos ⟨i, hi⟩)
    · intro hm
      by_contra hall
      have hnew : ∀ i, f.text i = f.holder i := fun i => not_not.1 fun hi => hall ⟨i, hi⟩
      exact h.2 (by simpa using hm) (by simp [hnew])

omit [DecidableEq F] in
theorem editDidBegin_frame (f : EditForm F) :
    f.editDidBegin.mode = f.mode ∧ f.editDidBegin.holder = f.holder ∧ f.editDidBegin.text = f.text := by
  unfold editDidBegin
  split_ifs <;> exact ⟨rfl, rfl, rfl⟩

theorem change_frame (f : EditForm F) (c : F × String) :
    (f.change c).mode = f.mode ∧ (f.change c).holder = f.holder :=
  ⟨(editDidBegin_frame _).1, (editDidBegin_frame _).2.1⟩

theorem run_frame (f : EditForm F) (changes : List (F × String)) :
    (f.run changes).mode = f.mode ∧ (f.run changes).holder = f.holder := by
  induction changes generalizing f with
  | nil => exact ⟨rfl, rfl⟩
  | cons c changes ih =>
    obtain ⟨h1, h2⟩ := ih (f.change c)
    exact ⟨h1.trans (change_frame f c).1, h2.trans (change_frame f c).2⟩

theorem run_guarded (f : EditForm F) (changes : List (F × String)) (h : f.Guarded) : (f.run changes).Guarded := by
  induction changes generalizing f with
  | nil => exact h
  | cons c changes ih => exact ih _ (editDidBegin_guarded _)

omit [DecidableEq F] [Fintype F] in
theorem load_mode (mode : Mode) (holder : F → String) : (load mode holder).mode = mode := by cases mode <;> rfl

omit [DecidableEq F] [Fintype F] in
theorem load_holder (mode : Mode) (holder : F → String) : (load mode holder).holder = holder := by cases mode <;> rfl

/-- every state the event loop reaches from a form opened in mode new or edit -/
theorem run_loaded (mode : Mode) (holder : F → String) (hm : mode ≠ .none) (changes : List (F × String)) :
    ((load mode holder).run changes).mode = mode ∧ ((load mode holder).run changes).holder = holder ∧
      ((load mode holder).run changes).Guarded := by
  obtain ⟨h1, h2⟩ := run_frame (load mode holder) changes
  refine ⟨h1.trans (load_mode mode holder), h2.trans (load_holder mode holder), run_guarded _ _ ?_⟩
  cases mode with
  | new => intro h; simp [load] at h
  | edit => intro h; simp [load] at h
  | none => exact absurd rfl hm

end EditForm

/-! ## NewCourseTableViewController -/

/-- `addCoursePressed`, with the text of `cnameTextField` -/
def addCoursePressed (ref : String) (cname : String) : Option (List Request) := do
  let course := Doc.ofFields [("course_name", .string cname), ("course_grade", .double (.num 0))]
  let coll ← collection ref
  some [.addDocument coll course]

theorem addCoursePressed_eq {ref : String} {coll : List Segment} (h : collection ref = some coll) (cname : String) :
    addCoursePressed ref cname = some [.addDocument coll
      (Doc.ofFields [("course_name", .string cname), ("course_grade", .double (.num 0))])] := by
  simp only [addCoursePressed, h, Option.bind_eq_bind, Option.bind_some]

/-! ## NewCatTableViewController -/

inductive CatField where
  | catname
  | weight
deriving DecidableEq, Repr

instance : Fintype CatField := ⟨{.catname, .weight}, fun i => by cases i <;> decide⟩

abbrev NewCat := EditForm CatField

namespace NewCat

/-- `Double(weightTextField.text!)` -/
def catweight (f : NewCat) : Option Double := Double.ofText (f.text .weight)

/-- the `category` of mode new -/
def newCategory (f : NewCat) : Doc :=
  Doc.ofFields [(Cat.name.rawValue, .string (f.text .catname)),
    (Cat.weight.rawValue, .double (f.catweight.getD (.num 0))), (Cat.grade.rawValue, .double (.num 0))]

/-- the `category` of mode edit -/
def editedCategory (f : NewCat) : Doc :=
  Doc.ofFields [(Cat.name.rawValue, .string (f.text .catname)),
    (Cat.weight.rawValue, .double (f.catweight.getD (.num 0)))]

def confirmButtonPressed (f : NewCat) (ref : String) : Option (List Request) :=
  match f.mode with
  | .new => do
    let coll ← collection ref
    some [.addDocument coll f.newCategory]
  | .edit => do
    let p ← document ref
    some [.updateData p f.editedCategory]
  | .none => some []

variable {f : NewCat} {ref : String}

theorem confirm_new {coll : List Segment} (hm : f.mode = .new) (h : collection ref = some coll) :
    f.confirmButtonPressed ref = some [.addDocument coll f.newCategory] := by
  simp only [confirmButtonPressed, hm, h, Option.bind_eq_bind, Option.bind_some]

theorem confirm_edit {p : DocPath} (hm : f.mode = .edit) (h : document ref = some p) :
    f.confirmButtonPressed ref = some [.updateData p f.editedCategory] := by
  simp only [confirmButtonPressed, hm, h, Option.bind_eq_bind, Option.bind_some]

/-- whatever the ref is -/
theorem confirm_data {r : Request} (h : f.confirmButtonPressed ref = some [r]) :
    r.data = f.newCategory ∨ r.data = f.editedCategory := by
  unfold confirmButtonPressed at h
  cases hm : f.mode with
  | new =>
    simp only [hm, Option.bind_eq_bind, Option.bind_eq_some_iff, Option.some.injEq, List.cons.injEq, and_true] at h
    obtain ⟨coll, -, rfl⟩ := h
    exact Or.inl rfl
  | edit =>
    simp only [hm, Option.bind_eq_bind, Option.bind_eq_some_iff, Option.some.injEq, List.cons.injEq, and_true] at h
    obtain ⟨p, -, rfl⟩ := h
    exact Or.inr rfl
  | none => simp [hm] at h

end NewCat

/-! ## NewAssTableViewController -/

inductive AssField where
  | assname
  | credit
  | totalcredit
deriving DecidableEq, Repr

instance : Fintype AssField := ⟨{.assname, .credit, .totalcredit}, fun i => by cases i <;> decide⟩

abbrev NewAss := EditForm AssField

/-- `round( 10000 * credit! / totalcredit! ) / 100` -/
def assGrade (credit totalcredit : Double) : Double := Double.round (.num 10000 * credit / totalcredit) / .num 100

/-- an assignment's four fields -/
def assignmentFields (assname : String) (credit totalcredit grade : Double) : Doc :=
  Doc.ofFields [(Ass.name.rawValue, .string assname), (Ass.credit.rawValue, .double credit),
    (Ass.totalcredit.rawValue, .double totalcredit), (Ass.grade.rawValue, .double grade)]

namespace NewAss

/-- `Double(creditTextField.text!)` and `Double(totalcreditTextField.text!)` -/
def credit (f : NewAss) : Option Double := Double.ofText (f.text .credit)
def totalcredit (f : NewAss) : Option Double := Double.ofText (f.text .totalcredit)

/-- `assignment`: the two numbers are defaulted and, for the grade, force-unwrapped -/
def assignment (f : NewAss) : Option Doc := do
  let credit ← f.credit
  let totalcredit ← f.totalcredit
  some (assignmentFields (f.text .assname) (f.credit.getD (.num 0)) (f.totalcredit.getD (.num 1))
    (assGrade credit totalcredit))

def confirmButtonPressed (f : NewAss) (ref : String) : Option (List Request) := do
  let assignment ← f.assignment
  match f.mode with
  | .new => do
    let coll ← collection ref
    some [.addDocument coll assignment]
  | .edit => do
    let p ← document ref
    some [.updateData p assignment]
  | .none => some []

theorem assignment_eq {f : NewAss} {d : Doc} (h : f.assignment = some d) :
    ∃ c t, f.credit = some c ∧ f.totalcredit = some t ∧
      d = assignmentFields (f.text .assname) c t (assGrade c t) := by
  unfold assignment at h
  cases hc : f.credit with
  | none => simp [hc] at h
  | some c =>
    cases ht : f.totalcredit with
    | none => simp [hc, ht] at h
    | some t =>
      simp only [hc, ht, Option.bind_eq_bind, Option.bind_some, Option.getD_some, Option.some.injEq] at h
      exact ⟨c, t, rfl, rfl, h.symm⟩

theorem assignment_isSome_iff (f : NewAss) :
    f.assignment.isSome ↔ f.credit.isSome ∧ f.totalcredit.isSome := by
  unfold assignment
  cases f.credit <;> cases f.totalcredit <;> simp

variable {f : NewAss} {ref : String}

theorem confirm_new {coll : List Segment} (hm : f.mode = .new) (h : collection ref = some coll) :
    f.confirmButtonPressed ref = f.assignment.map fun assignment => [.addDocument coll assignment] := by
  unfold confirmButtonPressed
  cases f.assignment <;> simp [hm, h]

theorem confirm_edit {p : DocPath} (hm : f.mode = .edit) (h : document ref = some p) :
    f.confirmButtonPressed ref = f.assignment.map fun assignment => [.updateData p assignment] := by
  unfold confirmButtonPressed
  cases f.assignment <;> simp [hm, h]

theorem confirm_data {r : Request} (h : f.confirmButtonPressed ref = some [r]) : f.assignment = some r.data := by
  obtain ⟨assignment, ha, h⟩ := Option.bind_eq_some_iff.1 h
  cases hm : f.mode with
  | new =>
    simp only [hm, Option.bind_eq_bind, Option.bind_eq_some_iff, Option.some.injEq, List.cons.injEq, and_true] at h
    obtain ⟨coll, -, rfl⟩ := h
    exact ha
  | edit =>
    simp only [hm, Option.bind_eq_bind, Option.bind_eq_some_iff, Option.some.injEq, List.cons.injEq, and_true] at h
    obtain ⟨p, -, rfl⟩ := h
    exact ha
  | none => simp [hm] at h

end NewAss

/-! ## The fields of what the forms write -/

section Fields

variable (s : String) (c t g : Double)

@[simp] theorem assignmentFields_name : assignmentFields s c t g Ass.name.rawValue = some (.string s) := rfl
@[simp] theorem assignmentFields_credit : assignmentFields s c t g Ass.credit.rawValue = some (.double c) := rfl
@[simp] theorem assignmentFields_totalcredit :
    assignmentFields s c t g Ass.totalcredit.rawValue = some (.double t) := rfl
@[simp] theorem assignmentFields_grade : assignmentFields s c t g Ass.grade.rawValue = some (.double g) := rfl

end Fields

theorem assGrade_num (c t : ℚ) (h : t ≠ 0) :
    assGrade (.num c) (.num t) = .num (HalfAway.hundredths (10000 * c / t)) := by
  rw [assGrade, Double.num_mul_num, Double.num_div_num h, Double.round_num_div_hundred]

/-- the form's grade is a number exactly when it divides numbers by a non-zero number -/
theorem isNum_assGrade {c t : Double} : (assGrade c t).IsNum ↔ c.IsNum ∧ t.IsNum ∧ t ≠ 0 := by
  have h100 : (.num 100 : Double) ≠ 0 := by simp [Double.zero_def]
  unfold assGrade
  rw [Double.isNum_div, Double.isNum_round, Double.isNum_div, Double.isNum_mul]
  simp [h100]

end GradeKeep.Forms
