/-
What the app's clients hold and send, when all goes well: documents of the type of their collection, snapshots of such
documents, forms that name a collection or a document, and writes whose fields keep the type.

Every document is of its collection's type (`DocOk`), since each writer's fields are (`DocOk` of an added document,
`UpdateOk` of an update). The other predicates are relative to a set B of documents known to exist or to have existed:
the collections of views and forms hang under documents of B, and rows, edits, updates and deletes name documents of B.

Results:
- `DocOk.merge`: an update of either kind keeps a document's type;
- `callback_eq`: on such documents a listener's callback does not trap, and what it returns;
- `FormOk.type`, `FormOk.press`: a form stays good when typed into, and what its button calls;
- `ViewOk.segue_rooted`, `ViewOk.newForm_ok`, `ViewOk.editForm_ok`, `ViewOk.delete_ok`: what a good view leads to.
-/
import GradeKeep.App.System

namespace GradeKeep.WellFormed

open GradeKeep.SwiftDouble GradeKeep.Firestore GradeKeep.Schema GradeKeep.Listeners GradeKeep.Forms GradeKeep.System

/-! ## Well-typed documents and updates -/

/-- a document as the app's writers leave it: typed, its grade what the form put there -/
def DocOk : Coll → Doc → Prop
  | .courses, d => IsCourse d ∧ d "course_grade" = some (.double 0)
  | .categories _, d => IsCategory d
  | .assignments _ _, d => IsAssignment d ∧ ∃ c t, d Ass.credit.rawValue = some (.double c) ∧
      d Ass.totalcredit.rawValue = some (.double t) ∧ d Ass.grade.rawValue = some (.double (assGrade c t))

/-- the key of the derived grade in the document that owns a collection -/
def gradeKey : Coll → String
  | .assignments _ _ => Cat.grade.rawValue
  | _ => "cgrade"

/-- the grade a listener computes from its documents -/
def gradeOf : Coll → Snapshot → Double
  | .courses, _ => 0
  | .categories _, documents => guardedGrade (.num 1000) (weightedSum documents) (weightSum documents)
  | .assignments _ _, documents => guardedGrade (.num 10000) (creditSum documents) (totalcreditSum documents)

/-- the fields an edit form sends -/
def EditOk : Coll → Doc → Prop
  | .courses, _ => False
  | .categories _, data => ∃ s x, data = Doc.ofFields [(Cat.name.rawValue, .string s), (Cat.weight.rawValue, .double x)]
  | .assignments _ _, data => ∃ s c t, data = assignmentFields s c t (assGrade c t)

/-- the fields of an update for a document of c: those of an edit, or the grade of a collection it owns -/
def UpdateOk (u : Segment) (p : DocPath) (c : Coll) (data : Doc) : Prop :=
  EditOk c data ∨ ∃ c' x, c'.owner u = some p ∧ data = Doc.ofFields [(gradeKey c', .double x)]

theorem DocOk.hasType {c : Coll} {d : Doc} (h : DocOk c d) : HasType c d := by
  cases c with
  | courses => exact h.1
  | categories k => exact h
  | assignments k j => exact h.1

theorem docOk_assignmentFields (k j : Segment) (s : String) (c t : Double) :
    DocOk (.assignments k j) (assignmentFields s c t (assGrade c t)) :=
  ⟨⟨⟨s, by simp⟩, ⟨c, by simp⟩, ⟨t, by simp⟩, ⟨_, assignmentFields_grade s c t _⟩⟩,
    ⟨c, t, by simp, by simp, by simp⟩⟩

/-- a field that the update does not name keeps its value -/
theorem ofFields_merge_ne {k key : String} {x : Value} {d : Doc} (h : k ≠ key) :
    (Doc.ofFields [(k, x)]).merge d key = d key :=
  Doc.merge_none (by simp [h])

/-- an edit keeps the type, whatever else the document holds -/
theorem DocOk.merge_edit {c : Coll} {data d : Doc} (hu : EditOk c data) (h : DocOk c d) : DocOk c (data.merge d) := by
  cases c with
  | courses => exact hu.elim
  | categories k =>
    obtain ⟨s, x, rfl⟩ := hu
    obtain ⟨g, hg⟩ := IsCategory.grade h
    refine ⟨⟨s, Doc.merge_some (by simp)⟩, ⟨x, Doc.merge_some (by simp [Cat.rawValue])⟩, ⟨g, ?_⟩⟩
    exact (Doc.merge_none (by simp [Cat.rawValue])).trans hg
  | assignments k j =>
    obtain ⟨s, c, t, rfl⟩ := hu
    refine ⟨⟨⟨s, ?_⟩, ⟨c, ?_⟩, ⟨t, ?_⟩, ⟨assGrade c t, ?_⟩⟩, c, t, ?_, ?_, ?_⟩ <;>
      exact Doc.merge_some (by simp)

/-- so does the update of a derived grade -/
theorem DocOk.merge_grade {u id : Segment} {c c' : Coll} {x : Double} {d : Doc} (hc : c'.owner u = some (c.doc u id))
    (h : DocOk c d) : DocOk c ((Doc.ofFields [(gradeKey c', .double x)]).merge d) := by
  cases c' with
  | courses => cases hc
  | categories k =>
    -- the owner is a course, and `cgrade` is not one of its typed fields
    simp only [Coll.owner, Option.some.injEq, Coll.doc_inj] at hc
    obtain ⟨rfl, rfl⟩ := hc
    obtain ⟨⟨⟨s, hs⟩, ⟨y, hy⟩⟩, h0⟩ := h
    have hne : gradeKey (.categories k) ≠ "course_name" ∧ gradeKey (.categories k) ≠ "course_grade" := by
      simp only [gradeKey]; decide
    exact ⟨⟨⟨s, (ofFields_merge_ne hne.1).trans hs⟩, ⟨y, (ofFields_merge_ne hne.2).trans hy⟩⟩,
      (ofFields_merge_ne hne.2).trans h0⟩
  | assignments k j =>
    simp only [Coll.owner, Option.some.injEq, Coll.doc_inj] at hc
    obtain ⟨rfl, rfl⟩ := hc
    obtain ⟨⟨s, hs⟩, ⟨y, hy⟩, -⟩ := h
    have hne : gradeKey (.assignments k j) ≠ Cat.name.rawValue ∧ gradeKey (.assignments k j) ≠ Cat.weight.rawValue := by
      simp only [gradeKey]; decide
    exact ⟨⟨s, (ofFields_merge_ne hne.1).trans hs⟩, ⟨y, (ofFields_merge_ne hne.2).trans hy⟩,
      ⟨x, Doc.merge_some (by simp [gradeKey])⟩⟩

theorem DocOk.merge {u id : Segment} {c : Coll} {data d : Doc} (hu : UpdateOk u (c.doc u id) c data) (h : DocOk c d) :
    DocOk c (data.merge d) := by
  rcases hu with hu | ⟨c', x, hc, rfl⟩
  · exact h.merge_edit hu
  · exact h.merge_grade hc

/-! ## What clients hold and send -/

section Ok

variable (E : Env) (B : DocPath → Prop)

/-- all documents above c are born -/
def Rooted (c : Coll) : Prop := ∀ p ∈ c.ancestors E.uid, B p

def SnapshotOk (c : Coll) (documents : Snapshot) : Prop := ∀ e ∈ documents, B (c.doc E.uid e.1) ∧ DocOk c e.2

/-- the rows the callback makes of its documents -/
def rowsOf : Coll → Snapshot → Rows
  | .courses, documents => .courses (documents.filterMap courseOf)
  | .categories _, documents => .categories (documents.map categoryOf)
  | .assignments _ _, documents => .assignments (documents.map assignmentOf)

/-- the update it issues -/
def gradeWrites (c : Coll) (documents : Snapshot) : List Write :=
  match c.owner E.uid with
  | none => []
  | some p => [.update p (Doc.ofFields [(gradeKey c, .double (gradeOf c documents))])]

/-- a store of typed documents, each under born ones -/
def StoreOk (store : Store) : Prop :=
  ∀ p d, store.lookup p = some d → ∃ c id, p = c.doc E.uid id ∧ Rooted E B c ∧ DocOk c d

structure ViewOk (v : View) : Prop where
  rooted : Rooted E B v.coll
  pending : ∀ documents ∈ v.pending, SnapshotOk E B v.coll documents
  last : ∀ documents, v.last = some documents → SnapshotOk E B v.coll documents
  rows : v.rows = rowsOf v.coll (v.last.getD [])

/-- the mode a form was opened in -/
def FormBody.mode : FormBody → Mode
  | .course _ => .new
  | .category f => f.mode
  | .assignment f => f.mode

/-- the form a view of c opens -/
def FormBody.For : Coll → FormBody → Prop
  | .courses, .course _ => True
  | .categories _, .category _ => True
  | .assignments _ _, .assignment _ => True
  | _, _ => False

/-- a form holds the ref of a collection it adds to, or of a document it edits -/
def FormOk (f : Form) : Prop :=
  ∃ c, FormBody.For c f.body ∧ Rooted E B c ∧ (FormBody.mode f.body = .new ∧ f.ref = c.ref E.uid ∨
    FormBody.mode f.body = .edit ∧ ∃ id, f.ref = c.ref E.uid ++ id.text ∧ B (c.doc E.uid id))

inductive WriteOk : Write → Prop where
  | add {c : Coll} {id : Segment} {data : Doc} (hroot : Rooted E B c) (hdata : DocOk c data) :
      WriteOk (.add (c.doc E.uid id) data)
  | update {c : Coll} {id : Segment} {data : Doc} (hborn : B (c.doc E.uid id))
      (hdata : UpdateOk E.uid (c.doc E.uid id) c data) : WriteOk (.update (c.doc E.uid id) data)
  | delete {c : Coll} {id : Segment} (hborn : B (c.doc E.uid id)) : WriteOk (.delete (c.doc E.uid id))

variable {E B} {B' : DocPath → Prop} (hB : ∀ p, B p → B' p)

theorem WriteOk.born_of_delete {w : Write} (hw : WriteOk E B w) (p : DocPath) (hp : w = .delete p) : B p := by
  cases hw with
  | delete hborn => exact Write.delete.inj hp ▸ hborn
  | _ => cases hp

include hB

theorem Rooted.mono {c : Coll} (h : Rooted E B c) : Rooted E B' c := fun p hp => hB p (h p hp)

theorem SnapshotOk.mono {c : Coll} {documents : Snapshot} (h : SnapshotOk E B c documents) :
    SnapshotOk E B' c documents :=
  fun e he => ⟨hB _ (h e he).1, (h e he).2⟩

theorem ViewOk.mono {v : View} (h : ViewOk E B v) : ViewOk E B' v :=
  ⟨h.rooted.mono hB, fun d hd => (h.pending d hd).mono hB, fun d hd => (h.last d hd).mono hB, h.rows⟩

theorem FormOk.mono {f : Form} (h : FormOk E B f) : FormOk E B' f := by
  obtain ⟨c, hf, hc, hm⟩ := h
  refine ⟨c, hf, hc.mono hB, hm.imp_right ?_⟩
  rintro ⟨hm, id, hr, hid⟩
  exact ⟨hm, id, hr, hB _ hid⟩

theorem WriteOk.mono {w : Write} (h : WriteOk E B w) : WriteOk E B' w := by
  cases h with
  | add hroot hdata => exact .add (hroot.mono hB) hdata
  | update hborn hdata => exact .update (hB _ hborn) hdata
  | delete hborn => exact .delete (hB _ hborn)

end Ok

/-! ## Rows and callbacks -/

section Rows

variable {E : Env} {B : DocPath → Prop}

/-- **No trap.** On well-typed documents the callback returns the rows and the update of the owner's grade. -/
theorem callback_eq {v : View} {documents : Snapshot} (h : ∀ e ∈ documents, HasType v.coll e.2) :
    v.callback E documents = some (rowsOf v.coll documents, gradeWrites E v.coll documents) := by
  unfold View.callback View.ref
  cases hc : v.coll with
  | courses =>
    rw [hc] at h
    simp only [coursesListener_eq h, Option.bind_eq_bind, Option.bind_some]; rfl
  | categories k =>
    rw [hc] at h
    obtain ⟨path, hpath, hdoc⟩ := owner_ref E.uid (.categories k) _ rfl
    simp only [categoriesListener_eq h, hpath, hdoc, Option.bind_eq_bind, Option.bind_some]; rfl
  | assignments k j =>
    rw [hc] at h
    obtain ⟨path, hpath, hdoc⟩ := owner_ref E.uid (.assignments k j) _ rfl
    simp only [assignmentsListener_eq h, hpath, hdoc, Option.bind_eq_bind, Option.bind_some]; rfl

/-- the rows show the documents of the snapshot, in its order -/
theorem rowsOf_ids {c : Coll} {documents : Snapshot} (h : ∀ e ∈ documents, HasType c e.2) :
    (rowsOf c documents).ids = documents.map (·.1) := by
  cases c with
  | courses =>
    induction documents with
    | nil => rfl
    | cons e documents ih =>
      obtain ⟨s, -, hc⟩ := courseOf_eq (h e List.mem_cons_self)
      have ih' := ih fun e' he' => h e' (List.mem_cons_of_mem e he')
      simp only [rowsOf, Rows.ids] at ih' ⊢
      rw [List.filterMap_cons, hc, List.map_cons, ih', List.map_cons]
  | categories k => simp [rowsOf, Rows.ids, categoryOf]
  | assignments k j => simp [rowsOf, Rows.ids, assignmentOf]

theorem ViewOk.ids_born {v : View} (h : ViewOk E B v) {id : Segment} (hid : id ∈ v.rows.ids) :
    B (v.coll.doc E.uid id) := by
  rw [h.rows] at hid
  cases hl : v.last with
  | none =>
    rw [hl] at hid
    cases hc : v.coll <;> simp [hc, rowsOf, Rows.ids] at hid
  | some documents =>
    have hok := h.last documents hl
    rw [hl, Option.getD_some, rowsOf_ids fun e he => (hok e he).2.hasType] at hid
    obtain ⟨e, he, rfl⟩ := List.mem_map.1 hid
    exact (hok e he).1

theorem ViewOk.segue_rooted {v : View} (h : ViewOk E B v) {i : ℕ} {c : Coll} (hs : v.segue i = some c) :
    Rooted E B c := by
  obtain ⟨client, coll, rows, pending, last⟩ := v
  cases coll with
  | courses =>
    cases rows with
    | courses l =>
      obtain ⟨course, hl, rfl⟩ := Option.map_eq_some_iff.1 hs
      have hid : course.courseId ∈ (Rows.courses l).ids := List.mem_map_of_mem (List.mem_of_getElem? hl)
      intro p hp
      rw [Coll.ancestors, List.mem_singleton] at hp
      subst hp
      exact h.ids_born hid
    | _ => cases hs
  | categories k =>
    cases rows with
    | categories l =>
      obtain ⟨category, hl, rfl⟩ := Option.map_eq_some_iff.1 hs
      have hid : category.id ∈ (Rows.categories l).ids := List.mem_map_of_mem (List.mem_of_getElem? hl)
      intro p hp
      rcases List.mem_cons.1 hp with rfl | hp
      · exact h.rooted _ List.mem_cons_self
      · rw [List.mem_singleton] at hp
        subst hp
        exact h.ids_born hid
    | _ => cases hs
  | assignments k j => cases rows <;> cases hs

/-! ## Forms -/

theorem newForm_client (v : View) : (v.newForm E).client = v.client := by
  unfold View.newForm
  cases v.coll <;> rfl

theorem editForm_client {v : View} {i : ℕ} {f : Form} (hf : v.editForm E i = some f) : f.client = v.client := by
  obtain ⟨client, coll, rows, pending, last⟩ := v
  cases coll with
  | courses => cases rows <;> cases hf
  | categories k =>
    cases rows with
    | categories l =>
      simp only [View.editForm, Option.bind_eq_bind, Option.bind_eq_some_iff, Option.some.injEq] at hf
      obtain ⟨category, -, name, -, weight, -, rfl⟩ := hf
      rfl
    | _ => cases hf
  | assignments k j =>
    cases rows with
    | assignments l =>
      simp only [View.editForm, Option.bind_eq_bind, Option.bind_eq_some_iff, Option.some.injEq] at hf
      obtain ⟨assignment, -, name, -, credit, -, totalcredit, -, rfl⟩ := hf
      rfl
    | _ => cases hf

theorem ViewOk.newForm_ok {v : View} (h : ViewOk E B v) : FormOk E B (v.newForm E) := by
  refine ⟨v.coll, ?_, h.rooted, Or.inl ?_⟩
  · unfold View.newForm
    cases v.coll <;> trivial
  · unfold View.newForm View.ref
    cases hc : v.coll <;> exact ⟨rfl, rfl⟩

theorem ViewOk.editForm_ok {v : View} (h : ViewOk E B v) {i : ℕ} {f : Form} (hf : v.editForm E i = some f) :
    FormOk E B f := by
  obtain ⟨client, coll, rows, pending, last⟩ := v
  cases coll with
  | courses => cases rows <;> cases hf
  | categories k =>
    cases rows with
    | categories l =>
      simp only [View.editForm, Option.bind_eq_bind, Option.bind_eq_some_iff, Option.some.injEq] at hf
      obtain ⟨category, hl, name, -, weight, -, rfl⟩ := hf
      have hid : category.id ∈ (Rows.categories l).ids := List.mem_map_of_mem (List.mem_of_getElem? hl)
      exact ⟨.categories k, trivial, h.rooted, Or.inr ⟨rfl, category.id, rfl, h.ids_born hid⟩⟩
    | _ => cases hf
  | assignments k j =>
    cases rows with
    | assignments l =>
      simp only [View.editForm, Option.bind_eq_bind, Option.bind_eq_some_iff, Option.some.injEq] at hf
      obtain ⟨assignment, hl, name, -, credit, -, totalcredit, -, rfl⟩ := hf
      have hid : assignment.id ∈ (Rows.assignments l).ids := List.mem_map_of_mem (List.mem_of_getElem? hl)
      exact ⟨.assignments k j, trivial, h.rooted, Or.inr ⟨rfl, assignment.id, rfl, h.ids_born hid⟩⟩
    | _ => cases hf

/-- typing changes neither the mode nor the ref of a form -/
theorem FormOk.type {f : Form} (h : FormOk E B f) {e : Edit} {body : FormBody} (hb : f.body.type e = some body) :
    FormOk E B { f with body := body } := by
  obtain ⟨client, ref, body'⟩ := f
  obtain ⟨c, hfor, hc, hm⟩ := h
  have key : (FormBody.For c body' → FormBody.For c body) ∧ FormBody.mode body = FormBody.mode body' := by
    cases body' <;> cases e <;> simp only [FormBody.type, Option.some.injEq, reduceCtorEq] at hb <;> subst hb
    · refine ⟨?_, rfl⟩
      intro h
      cases c <;> exact h
    · refine ⟨?_, (EditForm.change_frame _ _).1⟩
      intro h
      cases c <;> exact h
    · refine ⟨?_, (EditForm.change_frame _ _).1⟩
      intro h
      cases c <;> exact h
  refine ⟨c, key.1 hfor, hc, ?_⟩
  show FormBody.mode body = _ ∧ _ ∨ FormBody.mode body = _ ∧ _
  rw [key.2]
  exact hm

/-- the call a form's button makes: it adds a document of the form's collection, or edits the form's document -/
inductive RequestOk (E : Env) (B : DocPath → Prop) : Request → Prop where
  | add {c : Coll} {data : Doc} (hc : Rooted E B c) (hdata : DocOk c data) :
      RequestOk E B (.addDocument (c.path E.uid) data)
  | edit {c : Coll} {id : Segment} {data : Doc} (hborn : B (c.doc E.uid id)) (hdata : EditOk c data) :
      RequestOk E B (.updateData (c.doc E.uid id) data)

theorem docOk_newCategory (k : Segment) (g : NewCat) : DocOk (.categories k) g.newCategory :=
  ⟨⟨g.text .catname, by simp [NewCat.newCategory]⟩,
    ⟨g.catweight.getD (.num 0), by simp [NewCat.newCategory, Cat.rawValue]⟩,
    ⟨.num 0, by simp [NewCat.newCategory, Cat.rawValue]⟩⟩

theorem FormOk.press {f : Form} (h : FormOk E B f) {requests : List Request} (hp : f.press = some requests) :
    ∃ r, requests = [r] ∧ RequestOk E B r := by
  obtain ⟨client, ref, body⟩ := f
  obtain ⟨c, hfor, hc, hm⟩ := h
  cases body with
  | course cname =>
    cases c with
    | courses =>
      rcases hm with ⟨-, rfl⟩ | ⟨hm, -⟩
      · simp only [Form.press, addCoursePressed_eq (Coll.collection_ref E.uid .courses), Option.some.injEq] at hp
        subst hp
        exact ⟨_, rfl, .add hc ⟨⟨⟨cname, by simp⟩, ⟨.num 0, by simp⟩⟩, by simp [Double.zero_def]⟩⟩
      · cases hm
    | _ => exact hfor.elim
  | category g =>
    cases c with
    | categories k =>
      simp only [Form.press, Option.ite_none_right_eq_some] at hp
      rcases hm with ⟨hm, rfl⟩ | ⟨hm, id, rfl, hid⟩
      · rw [NewCat.confirm_new hm (Coll.collection_ref E.uid _), Option.some.injEq] at hp
        obtain ⟨-, rfl⟩ := hp
        exact ⟨_, rfl, .add hc (docOk_newCategory k g)⟩
      · rw [NewCat.confirm_edit hm (Coll.document_ref_append E.uid _ id), Option.some.injEq] at hp
        obtain ⟨-, rfl⟩ := hp
        exact ⟨_, rfl, .edit hid ⟨_, _, rfl⟩⟩
    | _ => exact hfor.elim
  | assignment g =>
    cases c with
    | assignments k j =>
      simp only [Form.press, Option.ite_none_right_eq_some] at hp
      rcases hm with ⟨hm, rfl⟩ | ⟨hm, id, rfl, hid⟩
      · rw [NewAss.confirm_new hm (Coll.collection_ref E.uid _), Option.map_eq_some_iff] at hp
        obtain ⟨-, data, hdata, rfl⟩ := hp
        obtain ⟨credit, total, -, -, rfl⟩ := NewAss.assignment_eq hdata
        exact ⟨_, rfl, .add hc (docOk_assignmentFields k j _ _ _)⟩
      · rw [NewAss.confirm_edit hm (Coll.document_ref_append E.uid _ id), Option.map_eq_some_iff] at hp
        obtain ⟨-, data, hdata, rfl⟩ := hp
        obtain ⟨credit, total, -, -, rfl⟩ := NewAss.assignment_eq hdata
        exact ⟨_, rfl, .edit hid ⟨_, _, _, rfl⟩⟩
    | _ => exact hfor.elim

/-- Delete names the document of a row -/
theorem ViewOk.delete_ok {v : View} (h : ViewOk E B v) {i : ℕ} {w : Write} (hd : v.delete E i = some w) :
    ∃ id, w = .delete (v.coll.doc E.uid id) ∧ B (v.coll.doc E.uid id) := by
  rw [View.delete_eq, Option.map_eq_some_iff] at hd
  obtain ⟨id, hid, rfl⟩ := hd
  exact ⟨id, rfl, h.ids_born (List.mem_of_getElem? hid)⟩

end Rows

/-! ## Writes and the store -/

theorem writeOk_gradeWrites {E : Env} {B : DocPath → Prop} {c : Coll} {documents : Snapshot} {w : Write}
    (hc : Rooted E B c) (hw : w ∈ gradeWrites E c documents) : WriteOk E B w := by
  unfold gradeWrites at hw
  cases hp : c.owner E.uid with
  | none => simp [hp] at hw
  | some p =>
    simp only [hp, List.mem_singleton] at hw
    obtain ⟨c', id, rfl⟩ : ∃ c' id, p = Coll.doc E.uid c' id := by
      cases c <;> simp only [Coll.owner, Option.some.injEq, reduceCtorEq] at hp <;> exact ⟨_, _, hp.symm⟩
    rw [hw]
    exact .update (hc _ (Coll.owner_mem_ancestors hp)) (Or.inr ⟨c, _, hp, rfl⟩)

/-- the documents stored in a collection are of its type -/
theorem StoreOk.docOk {E : Env} {B : DocPath → Prop} {store : Store} (h : StoreOk E B store) {c : Coll}
    {e : Segment × Doc} (he : e ∈ docs store (c.path E.uid)) : DocOk c e.2 := by
  obtain ⟨c', id, hp, -, hok⟩ := h _ _ (mem_docs.1 he)
  obtain ⟨rfl, rfl⟩ := (Coll.doc_inj E.uid c c' e.1 id).1 hp
  exact hok

/-- the content of a well-typed store is a good snapshot -/
theorem StoreOk.content {E : Env} {B B' : DocPath → Prop} {store : Store} (h : StoreOk E B store)
    (hB : ∀ p, (store.lookup p).isSome → B' p) (c : Coll) : SnapshotOk E B' c (content E store c) := by
  intro e he
  have hmem : e ∈ docs store (c.path E.uid) := (mem_orderBy.1 he).1
  refine ⟨hB _ ?_, h.docOk hmem⟩
  rw [Coll.doc, mem_docs.1 hmem]
  rfl

/-- a write keeps the type of its document -/
theorem WriteOk.result_docOk {E : Env} {B : DocPath → Prop} {w : Write} (hw : WriteOk E B w) {c : Coll} {id : Segment}
    (hp : w.path = c.doc E.uid id) (old : Option Doc) (hold : ∀ d ∈ old, DocOk c d) :
    ∀ d ∈ w.result old, DocOk c d := by
  intro d hd
  cases hw with
  | add hroot hdata =>
    obtain ⟨rfl, rfl⟩ := (Coll.doc_inj E.uid _ _ _ _).1 hp
    rw [← Option.some.inj hd]
    exact hdata
  | update hborn hdata =>
    obtain ⟨rfl, rfl⟩ := (Coll.doc_inj E.uid _ _ _ _).1 hp
    obtain ⟨d₀, hd₀, rfl⟩ := Option.map_eq_some_iff.1 hd
    exact (hold d₀ hd₀).merge hdata
  | delete hborn => cases hd

theorem StoreOk.apply {E : Env} {B B' : DocPath → Prop} {store : Store} {w : Write} (h : StoreOk E B store)
    (hw : WriteOk E B w) (hB : ∀ p, B p → B' p) : StoreOk E B' (w.apply store) := by
  intro p d hp
  rw [Write.lookup_apply] at hp
  split_ifs at hp with hpath
  · cases hw with
    | add hroot hdata =>
      simp only [Write.result, Option.some.injEq] at hp
      subst hp
      exact ⟨_, _, hpath, hroot.mono hB, hdata⟩
    | update hborn hdata =>
      obtain ⟨old, hold, rfl⟩ := Option.map_eq_some_iff.1 hp
      obtain ⟨c', id', he, hroot, hok⟩ := h p old hold
      obtain ⟨rfl, rfl⟩ := (Coll.doc_inj E.uid _ _ _ _).1 (hpath.symm.trans he)
      exact ⟨_, _, he, hroot.mono hB, hok.merge hdata⟩
    | delete hborn => cases hp
  · obtain ⟨c', id', he, hroot, hok⟩ := h p d hp
    exact ⟨c', id', he, hroot.mono hB, hok⟩

end GradeKeep.WellFormed
