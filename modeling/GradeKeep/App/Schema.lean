/-
The app's data layout: which collections its screens listen to, the string refs the controllers build for them, and
the field keys.

All data hangs under one user: users/uid/courses holds the course documents, .../courses/k/categories the category
documents of course k, .../categories/j/assignments the assignment documents of category j. A controller keeps a
string `ref` to its collection, built by concatenation (`Coll.ref`), appends an id to it to name a document, and drops
its last 12 characters to name the document that owns the collection. `dropLast12` counts scalars; `Navigation` counts
Characters, as Swift does, and differs from it for ids that end in a mark which joins the slash after it.

Results (Firestore's path parsing applied to the strings the code builds, for ids of any length):
- `collection_listenerPath`, `collection_ref`: a listener's path and a ref name the collection;
- `document_ref_append`: ref ++ id names the document of that id in it;
- `owner_ref`: the ref without its last 12 scalars names the owning document, although the two suffixes it cuts have
  different lengths and the longer one leaves a trailing slash.
So the rest of the model may name collections by `Coll` and still pass the code's strings to Firestore.
-/
import GradeKeep.Core.Firestore

namespace GradeKeep.Schema

open GradeKeep.Firestore

/-- `CourseTableViewController.uid` -/
def uid : Segment := ⟨"aFor7zG6JZaFhtiNZrtcnUSCSNi1".toList, by decide⟩

/-- `enum Cat : String` -/
inductive Cat where
  | id
  | name
  | grade
  | weight
deriving DecidableEq, Repr

def Cat.rawValue : Cat → String
  | .id => "id"
  | .name => "catname"
  | .grade => "catgrade"
  | .weight => "weight"

/-- `enum Ass : String` -/
inductive Ass where
  | id
  | name
  | credit
  | totalcredit
  | grade
deriving DecidableEq, Repr

def Ass.rawValue : Ass → String
  | .id => "id"
  | .name => "assname"
  | .credit => "credit"
  | .totalcredit => "totalcredit"
  | .grade => "assgrade"

/-! ## Collections -/

def users : Segment := ⟨"users".toList, by decide⟩
def coursesSeg : Segment := ⟨"courses".toList, by decide⟩
def categoriesSeg : Segment := ⟨"categories".toList, by decide⟩
def assignmentsSeg : Segment := ⟨"assignments".toList, by decide⟩

/-- the collection a table view shows -/
inductive Coll where
  | courses
  /-- the categories of course k -/
  | categories (k : Segment)
  /-- the assignments of category j of course k -/
  | assignments (k j : Segment)
deriving DecidableEq

namespace Coll

def path (u : Segment) : Coll → List Segment
  | courses => [users, u, coursesSeg]
  | categories k => [users, u, coursesSeg, k, categoriesSeg]
  | assignments k j => [users, u, coursesSeg, k, categoriesSeg, j, assignmentsSeg]

def doc (u : Segment) (c : Coll) (id : Segment) : DocPath := ⟨c.path u, id⟩

/-- the document a collection hangs under -/
def owner (u : Segment) : Coll → Option DocPath
  | courses => none
  | categories k => some (courses.doc u k)
  | assignments k j => some ((categories k).doc u j)

/-- all documents above a collection -/
def ancestors (u : Segment) : Coll → List DocPath
  | courses => []
  | categories k => [courses.doc u k]
  | assignments k j => [courses.doc u k, (categories k).doc u j]

@[simp] theorem doc_coll (u : Segment) (c : Coll) (id : Segment) : (c.doc u id).coll = c.path u := rfl
@[simp] theorem doc_id (u : Segment) (c : Coll) (id : Segment) : (c.doc u id).id = id := rfl

theorem path_inj (u : Segment) (c c' : Coll) : c.path u = c'.path u ↔ c = c' := by
  cases c <;> cases c' <;> simp [path]

theorem doc_inj (u : Segment) (c c' : Coll) (i i' : Segment) : c.doc u i = c'.doc u i' ↔ c = c' ∧ i = i' := by
  simp [doc, path_inj]

theorem owner_mem_ancestors {u : Segment} {c : Coll} {p : DocPath} (h : c.owner u = some p) : p ∈ c.ancestors u := by
  cases c with
  | courses => cases h
  | categories k => simp only [owner, Option.some.injEq] at h; simp [ancestors, h]
  | assignments k j => simp only [owner, Option.some.injEq] at h; simp [ancestors, h]

theorem owner_inj {u : Segment} {c c' : Coll} {p : DocPath} (h : c.owner u = some p) (h' : c'.owner u = some p) :
    c = c' := by
  have he : c.owner u = c'.owner u := h.trans h'.symm
  cases c <;> cases c' <;> simp only [owner, Option.some.injEq, doc_inj, reduceCtorEq, false_and, true_and] at he h h'
  · exact congrArg _ he
  · obtain ⟨he1, he2⟩ := he
    rw [categories.injEq] at he1
    rw [he1, he2]

/-- the collection with this path -/
def ofPath (u : Segment) (path : List Segment) : Option Coll :=
  match path with
  | [_, _, _] => if path = courses.path u then some .courses else none
  | [_, _, _, k, _] => if path = (categories k).path u then some (.categories k) else none
  | [_, _, _, k, _, j, _] => if path = (assignments k j).path u then some (.assignments k j) else none
  | _ => none

theorem ofPath_path (u : Segment) (c : Coll) : ofPath u (c.path u) = some c := by
  cases c <;> simp [ofPath, path]

/-! ## The controllers' strings -/

/-- `ref` as `prepare(for:sender:)` builds it: newcoursesegue, catsegue and asssegue -/
def ref (u : Segment) : Coll → String
  | courses => "users/" ++ u.text ++ "/courses/"
  | categories k => "users/" ++ u.text ++ "/courses/" ++ k.text ++ "/categories/"
  | assignments k j => "users/" ++ u.text ++ "/courses/" ++ k.text ++ "/categories/" ++ j.text ++ "/assignments/"

/-- the path `viewDidLoad` listens to; the course list has no ref and spells its path out -/
def listenerPath (u : Segment) : Coll → String
  | courses => "users/" ++ u.text ++ "/courses"
  | c => c.ref u

/-- `order(by:)` of the three listeners -/
def orderKey : Coll → String
  | courses => "course_name"
  | categories _ => Cat.name.rawValue
  | assignments _ _ => Ass.name.rawValue

end Coll

/-- `ref.substring(to: ref.index(ref.startIndex, offsetBy: ref.count - 12))`, in scalars; a shorter ref traps -/
def dropLast12 (ref : String) : Option String :=
  if 12 ≤ ref.toList.length then some (String.ofList (ref.toList.take (ref.toList.length - 12))) else none

/-! ## What Firestore makes of the strings -/

namespace Coll

theorem toList_users : "users/".toList = users.1 ++ ['/'] := by decide
theorem toList_courses : "/courses/".toList = '/' :: coursesSeg.1 ++ ['/'] := by decide
theorem toList_categories : "/categories/".toList = '/' :: categoriesSeg.1 ++ ['/'] := by decide
theorem toList_assignments : "/assignments/".toList = '/' :: assignmentsSeg.1 ++ ['/'] := by decide

/-- a ref spells its collection's path, each segment ending in a slash -/
theorem ref_toList (u : Segment) (c : Coll) : (c.ref u).toList = joined (c.path u) := by
  cases c with
  | courses => simp [ref, path, joined, Segment.text, toList_users, toList_courses]
  | categories k => simp [ref, path, joined, Segment.text, toList_users, toList_courses, toList_categories]
  | assignments k j =>
    simp [ref, path, joined, Segment.text, toList_users, toList_courses, toList_categories, toList_assignments]

theorem path_ne_nil (u : Segment) (c : Coll) : c.path u ≠ [] := by cases c <;> simp [path]

theorem path_odd (u : Segment) (c : Coll) : (c.path u).length % 2 = 1 := by cases c <;> simp [path]

theorem collection_ref (u : Segment) (c : Coll) : collection (c.ref u) = some (c.path u) :=
  collection_of_resourcePath (resourcePath_joined (path_ne_nil u c) (ref_toList u c)) (path_odd u c)

theorem collection_listenerPath (u : Segment) (c : Coll) : collection (c.listenerPath u) = some (c.path u) := by
  cases c with
  | courses =>
    have h : (courses.listenerPath u).toList = joined [users, u] ++ coursesSeg.1 := by
      have hc : "/courses".toList = '/' :: coursesSeg.1 := by decide
      simp [listenerPath, joined, Segment.text, toList_users, hc]
    exact collection_of_resourcePath (resourcePath_joined_append (by simp) h) (path_odd u courses)
  | categories k => exact collection_ref u (categories k)
  | assignments k j => exact collection_ref u (assignments k j)

theorem document_ref_append (u : Segment) (c : Coll) (id : Segment) :
    document (c.ref u ++ id.text) = some (c.doc u id) := by
  have h : (c.ref u ++ id.text).toList = joined (c.path u) ++ id.1 := by
    rw [String.toList_append, ref_toList, Segment.text, String.toList_ofList]
  exact document_of_resourcePath (resourcePath_joined_append (path_ne_nil u c) h) (path_odd u c)

end Coll

theorem dropLast12_append {s t : List Char} {ref : String} (h : ref.toList = s ++ t) (ht : t.length = 12) :
    dropLast12 ref = some (String.ofList s) := by
  have hlen : ref.toList.length = s.length + 12 := by rw [h, List.length_append, ht]
  rw [dropLast12, if_pos (by omega), hlen, h]
  simp

/-- **The owner path.** For the category view the cut leaves users/uid/courses/k, for the assignment view
users/uid/courses/k/categories/j/ with a trailing slash; both name the owner. -/
theorem owner_ref (u : Segment) (c : Coll) (p : DocPath) (hp : c.owner u = some p) :
    ∃ path, dropLast12 (c.ref u) = some path ∧ document path = some p := by
  cases c with
  | courses => cases hp
  | categories k =>
    simp only [Coll.owner, Option.some.injEq] at hp
    subst hp
    have h : ((Coll.categories k).ref u).toList =
        (joined [users, u, coursesSeg] ++ k.1) ++ ('/' :: categoriesSeg.1 ++ ['/']) := by
      rw [Coll.ref_toList]
      simp [Coll.path, joined]
    refine ⟨_, dropLast12_append h (by decide), ?_⟩
    exact document_of_resourcePath (resourcePath_joined_append (Coll.path_ne_nil u _) String.toList_ofList)
      (Coll.path_odd u _)
  | assignments k j =>
    simp only [Coll.owner, Option.some.injEq] at hp
    subst hp
    have h : ((Coll.assignments k j).ref u).toList =
        joined [users, u, coursesSeg, k, categoriesSeg, j] ++ (assignmentsSeg.1 ++ ['/']) := by
      rw [Coll.ref_toList]
      simp [Coll.path, joined]
    refine ⟨_, dropLast12_append h (by decide), ?_⟩
    have hsegs : resourcePath (String.ofList (joined [users, u, coursesSeg, k, categoriesSeg, j])) =
        some ((Coll.categories k).path u ++ [j]) := resourcePath_joined (by simp) String.toList_ofList
    exact document_of_resourcePath hsegs (Coll.path_odd u (.categories k))

end GradeKeep.Schema
