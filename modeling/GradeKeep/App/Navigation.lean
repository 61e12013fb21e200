/-
The screens a user can navigate to, each with the string `ref` it holds, as `prepare(for:sender:)` of the three table
controllers builds it, and the calls each screen makes with that string.

`System` names the collection of a view by `Coll` and computes its strings from it. Here a screen has nothing but the
string its segue gave it; nothing says yet that this string names anything. And here the cut of a ref counts Characters
as Swift does, where `System` counts scalars.

`none` is a trap, a path Firestore rejects, or an event the screen does not have.
-/
import GradeKeep.App.System
import GradeKeep.Core.Characters

namespace GradeKeep.Navigation

open GradeKeep.SwiftDouble GradeKeep.Firestore GradeKeep.Schema GradeKeep.Listeners GradeKeep.Forms GradeKeep.System
open GradeKeep.Characters

/-! ## Screens and segues -/

inductive Screen where
  /-- `CourseTableViewController`, the first screen; it has no ref -/
  | courseTable
  /-- `CategoryTableViewController` -/
  | categoryTable (ref : String)
  /-- `AssignmentTableViewController` -/
  | assignmentTable (ref : String)
  /-- `NewCourseTableViewController` -/
  | newCourse (ref : String)
  /-- `NewCatTableViewController` -/
  | newCat (ref : String) (mode : Mode)
  /-- `NewAssTableViewController` -/
  | newAss (ref : String) (mode : Mode)
deriving DecidableEq, Repr

/-- a segue by its identifier, with the id of the row it starts from -/
inductive Segue where
  | catsegue (course_id : Segment)
  | newcoursesegue
  | newcatsegue
  | editcatsegue (id : Segment)
  | asssegue (id : Segment)
  | newasssegue
  | editasssegue (id : Segment)
deriving DecidableEq, Repr

/-- `prepare(for:sender:)` of the screen the segue starts from -/
def prepare (u : Segment) : Screen → Segue → Option Screen
  | .courseTable, .catsegue course_id =>
    some (.categoryTable ("users/" ++ u.text ++ "/courses/" ++ course_id.text ++ "/categories/"))
  | .courseTable, .newcoursesegue => some (.newCourse ("users/" ++ u.text ++ "/courses/"))
  | .categoryTable ref, .newcatsegue => some (.newCat ref .new)
  | .categoryTable ref, .editcatsegue id => some (.newCat (ref ++ id.text) .edit)
  | .categoryTable ref, .asssegue id => some (.assignmentTable (ref ++ id.text ++ "/assignments/"))
  | .assignmentTable ref, .newasssegue => some (.newAss ref .new)
  | .assignmentTable ref, .editasssegue id => some (.newAss (ref ++ id.text) .edit)
  | _, _ => none

/-- a chain of segues from the course list -/
def navigate (u : Segment) (chain : List Segue) : Option Screen := chain.foldlM (prepare u) .courseTable

/-! ## What a screen does -/

/-- the path its `viewDidLoad` listens to -/
def Screen.listenerPath (u : Segment) : Screen → Option String
  | .courseTable => some ("users/" ++ u.text ++ "/courses")
  | .categoryTable ref => some ref
  | .assignmentTable ref => some ref
  | _ => none

-- the source spells this path out, with its one user id in it
example : Screen.courseTable.listenerPath uid = some "users/aFor7zG6JZaFhtiNZrtcnUSCSNi1/courses" := by decide

/-- `ref.substring(to: index)` of the two grade listeners, where `index` is 12 Characters before the end -/
def ownerPath (U : Unicode) (ref : String) : Option String := (dropLast U.cls 12 ref.toList).map String.ofList

/-- the path its listener updates -/
def Screen.gradePath (U : Unicode) : Screen → Option String
  | .categoryTable ref => ownerPath U ref
  | .assignmentTable ref => ownerPath U ref
  | _ => none

/-- the path a form in mode new adds to, and the one a form in mode edit updates -/
def Screen.newPath : Screen → Option String
  | .newCourse ref => some ref
  | .newCat ref .new => some ref
  | .newAss ref .new => some ref
  | _ => none

def Screen.editPath : Screen → Option String
  | .newCat ref .edit => some ref
  | .newAss ref .edit => some ref
  | _ => none

inductive Event where
  /-- the listener gets a snapshot -/
  | snapshot (documents : Snapshot)
  /-- Delete of the row of this id -/
  | delete (id : Segment)
  /-- the button, with these texts; `drawn` is the id that `addDocument` would draw -/
  | addCourse (cname : String) (drawn : Segment)
  | confirmCat (text : CatField → String) (drawn : Segment)
  | confirmAss (text : AssField → String) (drawn : Segment)

/-- a form in this mode with these texts; its button reads nothing else -/
def filled {F : Type} (mode : Mode) (text : F → String) : EditForm F := ⟨mode, text, text, true⟩

/-- the writes a screen issues -/
def Screen.issue (U : Unicode) (u : Segment) : Screen → Event → Option (List Write)
  | .courseTable, .snapshot documents => do
    let _ ← coursesListener documents
    some []
  | .courseTable, .delete id => some [.delete ⟨[users, u, coursesSeg], id⟩]
  | .categoryTable ref, .snapshot documents => do
    let (_, cgrade) ← categoriesListener documents
    let path ← ownerPath U ref
    let p ← document path
    some [.update p (Doc.ofFields [("cgrade", .double cgrade)])]
  | .categoryTable ref, .delete id => do
    let p ← document (ref ++ id.text)
    some [.delete p]
  | .assignmentTable ref, .snapshot documents => do
    let (_, catgrade) ← assignmentsListener documents
    let path ← ownerPath U ref
    let p ← document path
    some [.update p (Doc.ofFields [(Cat.grade.rawValue, .double catgrade)])]
  | .assignmentTable ref, .delete id => do
    let p ← document (ref ++ id.text)
    some [.delete p]
  | .newCourse ref, .addCourse cname drawn => do
    let requests ← addCoursePressed ref cname
    some (requests.map (requestWrite drawn))
  | .newCat ref mode, .confirmCat text drawn => do
    let requests ← NewCat.confirmButtonPressed (filled mode text) ref
    some (requests.map (requestWrite drawn))
  | .newAss ref mode, .confirmAss text drawn => do
    let requests ← NewAss.confirmButtonPressed (filled mode text) ref
    some (requests.map (requestWrite drawn))
  | _, _ => none

end GradeKeep.Navigation
