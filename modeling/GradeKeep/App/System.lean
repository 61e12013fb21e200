/-
The running system: any number of clients of the app, all under one user, and the Firestore server between them.

A client (a number) holds loaded table views and open forms. A view is a controller with its array of rows and its
snapshot listener: the snapshots the server has queued for it and the one delivered last. Listeners are added when a
view loads and never removed, so duplicates and views of deleted documents stay live. What a client writes (forms,
deletes, and the updates its listeners issue from inside their callbacks) goes to the server through `flight`.

Assumptions on Firestore, built into `step`:
- writes are applied one at a time, each client's in the order issued (`takeWrite`);
- an applied write queues at most one snapshot, the collection's content at that moment, to each listener of the
  document's own collection and to no other. Which listeners are notified (`notify`) is left open: a snapshot may be
  skipped, and results that need every listener to catch up say so;
- `addDocument` draws an id that was never drawn before.
A listener is shown the server's contents only. The client's cache and its view of its own pending writes are left out
here; `LocalViews` adds them to this system.

The listeners cut their refs by scalars here (`dropLast12`). By Characters, as in Swift, the cut is the same for every
id that ends in no mark which Unicode prepends to what follows, such as the letters and digits of drawn ids
(`OpenScreens.callback_issue`).

A trap (`none` of a callback, a form or a path) ends the client, so it makes no step. The error branch of the listeners
(no documents in the snapshot) only prints and is left out. A form is dismissed with an animation after its button, so
it stays open here and may be typed into and confirmed again.

`deleted` is a ghost record of the deletes applied so far; no step reads it.
-/
import GradeKeep.Core.Trace
import GradeKeep.App.Forms

namespace GradeKeep.System

open GradeKeep.SwiftDouble GradeKeep.Firestore GradeKeep.Schema GradeKeep.Listeners GradeKeep.Forms

structure Env where
  uid : Segment
  /-- `String(_: Double)`, the text a number's holder gets -/
  describe : Double → String

/-! ## Table views -/

/-- the array a table view shows -/
inductive Rows where
  | courses (l : List Course)
  | categories (l : List Category)
  | assignments (l : List Assignment)
deriving DecidableEq, Repr

def Rows.ids : Rows → List Segment
  | courses l => l.map (·.courseId)
  | categories l => l.map (·.id)
  | assignments l => l.map (·.id)

def emptyRows : Coll → Rows
  | .courses => .courses []
  | .categories _ => .categories []
  | .assignments _ _ => .assignments []

structure View where
  client : ℕ
  coll : Coll
  rows : Rows
  /-- snapshots queued for the listener, oldest first -/
  pending : List Snapshot
  /-- the snapshot delivered last -/
  last : Option Snapshot

namespace View

variable (E : Env)

def ref (v : View) : String := v.coll.ref E.uid

/-- the listener's callback: the new rows, and the update it issues for the grade of the owning document -/
def callback (v : View) (documents : Snapshot) : Option (Rows × List Write) :=
  match v.coll with
  | .courses => do
    let courses ← coursesListener documents
    some (.courses courses, [])
  | .categories _ => do
    let (categories, cgrade) ← categoriesListener documents
    let path ← dropLast12 (v.ref E)
    let p ← document path
    some (.categories categories, [.update p (Doc.ofFields [("cgrade", .double cgrade)])])
  | .assignments _ _ => do
    let (assignments, catgrade) ← assignmentsListener documents
    let path ← dropLast12 (v.ref E)
    let p ← document path
    some (.assignments assignments, [.update p (Doc.ofFields [(Cat.grade.rawValue, .double catgrade)])])

/-- the oldest queued snapshot is delivered -/
def deliver (v : View) : Option (View × List Write) :=
  match v.pending with
  | [] => none
  | documents :: rest => do
    let (rows, writes) ← v.callback E documents
    some ({ v with rows := rows, pending := rest, last := some documents }, writes)

/-- the Delete of row i (`commit editingStyle`, or the handler `deleteAction(at:)` builds): the row's id is looked up
when this runs -/
def delete (v : View) (i : ℕ) : Option Write := do
  let id ← v.rows.ids[i]?
  match v.coll with
  | .courses => some (.delete ⟨[users, E.uid, coursesSeg], id⟩)
  | _ => do
    let p ← document (v.ref E ++ id.text)
    some (.delete p)

/-- either way the write deletes the document whose id is found in row i; past the end it traps -/
theorem delete_eq (v : View) (i : ℕ) : v.delete E i = v.rows.ids[i]?.map fun id => .delete (v.coll.doc E.uid id) := by
  unfold delete ref
  cases v.rows.ids[i]? with
  | none => rfl
  | some id =>
    cases v.coll with
    | courses => rfl
    | categories k => simp [Coll.document_ref_append]
    | assignments k j => simp [Coll.document_ref_append]

end View

/-! ## Open forms -/

inductive FormBody where
  | course (cname : String)
  | category (f : NewCat)
  | assignment (f : NewAss)

structure Form where
  client : ℕ
  ref : String
  body : FormBody

/-- a change of one text field -/
inductive Edit where
  | cname (text : String)
  | category (field : CatField) (text : String)
  | assignment (field : AssField) (text : String)
deriving DecidableEq, Repr

def FormBody.type : FormBody → Edit → Option FormBody
  | .course _, .cname text => some (.course text)
  | .category f, .category field text => some (.category (f.change (field, text)))
  | .assignment f, .assignment field text => some (.assignment (f.change (field, text)))
  | _, _ => none

/-- the button of a form can be pressed -/
def Form.isEnabled (f : Form) : Bool :=
  match f.body with
  | .course _ => true
  | .category g => g.isEnabled
  | .assignment g => g.isEnabled

/-- the button of a form; a disabled one does nothing -/
def Form.press (f : Form) : Option (List Request) :=
  match f.body with
  | .course cname => addCoursePressed f.ref cname
  | .category g => if g.isEnabled then g.confirmButtonPressed f.ref else none
  | .assignment g => if g.isEnabled then g.confirmButtonPressed f.ref else none

/-- the write a call puts in flight; `addDocument` names the document by the id drawn -/
def requestWrite (id : Segment) : Request → Write
  | .addDocument coll data => .add ⟨coll, id⟩ data
  | .updateData p data => .update p data

def catHolder (name weight : String) : CatField → String
  | .catname => name
  | .weight => weight

def assHolder (name credit totalcredit : String) : AssField → String
  | .assname => name
  | .credit => credit
  | .totalcredit => totalcredit

/-- `prepare(for:sender:)` with newcoursesegue, newcatsegue or newasssegue -/
def View.newForm (E : Env) (v : View) : Form :=
  match v.coll with
  | .courses => ⟨v.client, v.ref E, .course ""⟩
  | .categories _ => ⟨v.client, v.ref E, .category (.load .new (catHolder "" ""))⟩
  | .assignments _ _ => ⟨v.client, v.ref E, .assignment (.load .new (assHolder "" "" ""))⟩

/-- `prepare(for:sender:)` with editcatsegue or editasssegue, when the sender is the cell of row i -/
def View.editForm (E : Env) (v : View) (i : ℕ) : Option Form :=
  match v.coll, v.rows with
  | .categories _, .categories l => do
    let category ← l[i]?
    let name ← category.name.asString
    let weight ← category.weight.asDouble
    some ⟨v.client, v.ref E ++ category.id.text, .category (.load .edit (catHolder name (E.describe weight)))⟩
  | .assignments _ _, .assignments l => do
    let assignment ← l[i]?
    let name ← assignment.name.asString
    let credit ← assignment.credit.asDouble
    let totalcredit ← assignment.totalcredit.asDouble
    some ⟨v.client, v.ref E ++ assignment.id.text,
      .assignment (.load .edit (assHolder name (E.describe credit) (E.describe totalcredit)))⟩
  | _, _ => none

/-- the collection the next screen shows: `prepare(for:sender:)` with catsegue or asssegue on row i -/
def View.segue (v : View) (i : ℕ) : Option Coll :=
  match v.coll, v.rows with
  | .courses, .courses l => l[i]?.map fun course => .categories course.courseId
  | .categories k, .categories l => l[i]?.map fun category => .assignments k category.id
  | _, _ => none

/-! ## The system -/

structure St where
  store : Store
  /-- every id `addDocument` has drawn -/
  used : List Segment
  /-- the paths of the deletes applied so far (ghost) -/
  deleted : List DocPath
  /-- writes issued and not applied yet, with their client, oldest first -/
  flight : List (ℕ × Write)
  views : List View
  forms : List Form

inductive Op where
  /-- client c loads the course list -/
  | viewDidLoad (c : ℕ)
  /-- row i of view v is tapped and the next screen loads -/
  | segue (v i : ℕ)
  | newForm (v : ℕ)
  | editForm (v i : ℕ)
  | type (f : ℕ) (e : Edit)
  /-- the button of form f; id is what `addDocument` would draw -/
  | press (f : ℕ) (id : Segment)
  | delete (v i : ℕ)
  /-- the server applies c's oldest write and notifies those listed of the collection's views -/
  | apply (c : ℕ) (notify : List ℕ)
  /-- view v gets its oldest queued snapshot -/
  | deliver (v : ℕ)
deriving DecidableEq, Repr

def init : St := ⟨∅, [], [], [], [], []⟩

/-- the oldest write of client c, and the rest -/
def takeWrite (c : ℕ) : List (ℕ × Write) → Option (Write × List (ℕ × Write))
  | [] => none
  | e :: rest => if e.1 = c then some (e.2, rest) else (takeWrite c rest).map fun r => (r.1, e :: r.2)

/-- the current content of a collection, as its listener's query returns it -/
def content (E : Env) (store : Store) (c : Coll) : Snapshot := orderBy c.orderKey (docs store (c.path E.uid))

/-- a view loads: its listener is added and an initial snapshot queued -/
def load (E : Env) (s : St) (client : ℕ) (c : Coll) : Option St := do
  let path ← collection (c.listenerPath E.uid)
  some { s with views := s.views ++ [⟨client, c, emptyRows c, [orderBy c.orderKey (docs s.store path)], none⟩] }

/-- the deletes among the writes -/
def deletes : Write → List DocPath
  | .delete p => [p]
  | _ => []

/-- a queued snapshot for the views of the written collection that are notified -/
def notified (E : Env) (store : Store) (coll : List Segment) (notify : List ℕ) (i : ℕ) (v : View) : View :=
  if i ∈ notify ∧ v.coll.path E.uid = coll then { v with pending := v.pending ++ [content E store v.coll] } else v

def applied (E : Env) (s : St) (w : Write) (flight : List (ℕ × Write)) (notify : List ℕ) : St :=
  { s with
    store := w.apply s.store
    deleted := s.deleted ++ deletes w
    flight := flight
    views := s.views.mapIdx (notified E (w.apply s.store) w.path.coll notify) }

def step (E : Env) (s : St) : Op → Option St
  | .viewDidLoad c => load E s c .courses
  | .segue v i => do
    let view ← s.views[v]?
    let c ← view.segue i
    load E s view.client c
  | .newForm v => do
    let view ← s.views[v]?
    some { s with forms := s.forms ++ [view.newForm E] }
  | .editForm v i => do
    let view ← s.views[v]?
    let form ← view.editForm E i
    some { s with forms := s.forms ++ [form] }
  | .type f e => do
    let form ← s.forms[f]?
    let body ← form.body.type e
    some { s with forms := s.forms.set f { form with body := body } }
  | .press f id => do
    let form ← s.forms[f]?
    let requests ← form.press
    if id ∈ s.used then none
    else some { s with used := id :: s.used,
                       flight := s.flight ++ requests.map fun r => (form.client, requestWrite id r) }
  | .delete v i => do
    let view ← s.views[v]?
    let w ← view.delete E i
    some { s with flight := s.flight ++ [(view.client, w)] }
  | .apply c notify => do
    let (w, flight) ← takeWrite c s.flight
    some (applied E s w flight notify)
  | .deliver v => do
    let view ← s.views[v]?
    let (view', writes) ← view.deliver E
    some { s with views := s.views.set v view', flight := s.flight ++ writes.map fun w => (view.client, w) }

def run (E : Env) (s : St) (ops : List Op) : Option St := ops.foldlM (step E) s

def Reachable (E : Env) (s : St) : Prop := ∃ ops, run E init ops = some s

theorem load_eq (E : Env) (s : St) (client : ℕ) (c : Coll) :
    load E s client c =
      some { s with views := s.views ++ [⟨client, c, emptyRows c, [content E s.store c], none⟩] } := by
  rw [load, Coll.collection_listenerPath]; rfl

/-- a step, with what it found in the state and what it made of it -/
inductive Stepped (E : Env) (s : St) : Op → St → Prop where
  | viewDidLoad (c : ℕ) : Stepped E s (.viewDidLoad c)
      { s with views := s.views ++ [⟨c, .courses, emptyRows .courses, [content E s.store .courses], none⟩] }
  | segue (v i : ℕ) (view : View) (c : Coll) (hv : s.views[v]? = some view) (hc : view.segue i = some c) :
      Stepped E s (.segue v i)
        { s with views := s.views ++ [⟨view.client, c, emptyRows c, [content E s.store c], none⟩] }
  | newForm (v : ℕ) (view : View) (hv : s.views[v]? = some view) :
      Stepped E s (.newForm v) { s with forms := s.forms ++ [view.newForm E] }
  | editForm (v i : ℕ) (view : View) (form : Form) (hv : s.views[v]? = some view)
      (hform : view.editForm E i = some form) : Stepped E s (.editForm v i) { s with forms := s.forms ++ [form] }
  | type (f : ℕ) (e : Edit) (form : Form) (body : FormBody) (hform : s.forms[f]? = some form)
      (hbody : form.body.type e = some body) :
      Stepped E s (.type f e) { s with forms := s.forms.set f { form with body := body } }
  | press (f : ℕ) (id : Segment) (form : Form) (requests : List Request) (hform : s.forms[f]? = some form)
      (hpress : form.press = some requests) (hid : id ∉ s.used) : Stepped E s (.press f id)
        { s with used := id :: s.used,
                 flight := s.flight ++ requests.map fun r => (form.client, requestWrite id r) }
  | delete (v i : ℕ) (view : View) (w : Write) (hv : s.views[v]? = some view) (hw : view.delete E i = some w) :
      Stepped E s (.delete v i) { s with flight := s.flight ++ [(view.client, w)] }
  | apply (c : ℕ) (notify : List ℕ) (w : Write) (rest : List (ℕ × Write))
      (htake : takeWrite c s.flight = some (w, rest)) : Stepped E s (.apply c notify) (applied E s w rest notify)
  | deliver (v : ℕ) (view view' : View) (writes : List Write) (hv : s.views[v]? = some view)
      (hdeliver : view.deliver E = some (view', writes)) : Stepped E s (.deliver v)
        { s with views := s.views.set v view', flight := s.flight ++ writes.map fun w => (view.client, w) }

/-- **Step inversion**, before anything is known of the state. -/
theorem stepped {E : Env} {s s' : St} {o : Op} (h : step E s o = some s') : Stepped E s o s' := by
  cases o with
  | viewDidLoad c =>
    simp only [step, load_eq, Option.some.injEq] at h
    exact h ▸ .viewDidLoad c
  | segue v i =>
    simp only [step, load_eq, Option.bind_eq_bind, Option.bind_eq_some_iff, Option.some.injEq] at h
    obtain ⟨view, hv, c, hc, rfl⟩ := h
    exact .segue v i view c hv hc
  | newForm v =>
    simp only [step, Option.bind_eq_bind, Option.bind_eq_some_iff, Option.some.injEq] at h
    obtain ⟨view, hv, rfl⟩ := h
    exact .newForm v view hv
  | editForm v i =>
    simp only [step, Option.bind_eq_bind, Option.bind_eq_some_iff, Option.some.injEq] at h
    obtain ⟨view, hv, form, hform, rfl⟩ := h
    exact .editForm v i view form hv hform
  | type f e =>
    simp only [step, Option.bind_eq_bind, Option.bind_eq_some_iff, Option.some.injEq] at h
    obtain ⟨form, hform, body, hbody, rfl⟩ := h
    exact .type f e form body hform hbody
  | press f id =>
    simp only [step, Option.bind_eq_bind, Option.bind_eq_some_iff, Option.ite_none_left_eq_some, Option.some.injEq] at h
    obtain ⟨form, hform, requests, hpress, hid, rfl⟩ := h
    exact .press f id form requests hform hpress hid
  | delete v i =>
    simp only [step, Option.bind_eq_bind, Option.bind_eq_some_iff, Option.some.injEq] at h
    obtain ⟨view, hv, w, hw, rfl⟩ := h
    exact .delete v i view w hv hw
  | apply c notify =>
    simp only [step, Option.bind_eq_bind, Option.bind_eq_some_iff, Option.some.injEq] at h
    obtain ⟨⟨w, rest⟩, htake, rfl⟩ := h
    exact .apply c notify w rest htake
  | deliver v =>
    simp only [step, Option.bind_eq_bind, Option.bind_eq_some_iff, Option.some.injEq] at h
    obtain ⟨view, hv, ⟨view', writes⟩, hdeliver, rfl⟩ := h
    exact .deliver v view view' writes hv hdeliver

theorem run_cons (E : Env) (s : St) (o : Op) (ops : List Op) :
    run E s (o :: ops) = (step E s o).bind fun s' => run E s' ops := by
  simp [run, List.foldlM_cons]

theorem run_append (E : Env) (s : St) (a b : List Op) :
    run E s (a ++ b) = (run E s a).bind fun s' => run E s' b := by
  simp [run, List.foldlM_append]

/-- **Invariants of runs.** What the first state has and every step keeps, every reachable state has. -/
theorem run_induction {E : Env} {P : St → Prop} (hstep : ∀ s o s', P s → System.step E s o = some s' → P s')
    (s : St) (ops : List Op) (s' : St) (hs : P s) (h : run E s ops = some s') : P s' :=
  Trace.invariant hstep hs h

theorem Reachable.induction {E : Env} {P : St → Prop} (hinit : P init)
    (hstep : ∀ s o s', P s → System.step E s o = some s' → P s') {s : St} (h : Reachable E s) : P s := by
  obtain ⟨ops, hops⟩ := h
  exact run_induction hstep init ops s hinit hops

/-- P holds of every step the run takes -/
def EveryStep (E : Env) (P : St → Op → Prop) : St → List Op → Prop
  | _, [] => True
  | s, o :: ops => P s o ∧ ∀ s' ∈ step E s o, EveryStep E P s' ops

/-- Q holds in every state the run passes through -/
def EveryState (E : Env) (Q : St → Prop) : St → List Op → Prop
  | s, [] => Q s
  | s, o :: ops => Q s ∧ ∀ s' ∈ step E s o, EveryState E Q s' ops

instance EveryStep.decidable (E : Env) (P : St → Op → Prop) [∀ s o, Decidable (P s o)] :
    ∀ s ops, Decidable (EveryStep E P s ops)
  | _, [] => isTrue trivial
  | s, o :: ops =>
    have : ∀ s', Decidable (EveryStep E P s' ops) := fun s' => EveryStep.decidable E P s' ops
    inferInstanceAs (Decidable (P s o ∧ ∀ s' ∈ step E s o, EveryStep E P s' ops))

theorem EveryState.head {E : Env} {Q : St → Prop} {s : St} {ops : List Op} (h : EveryState E Q s ops) : Q s := by
  cases ops with
  | nil => exact h
  | cons o ops => exact h.1

/-- what `takeWrite` takes: the first entry of the client -/
theorem takeWrite_some {c : ℕ} {l rest : List (ℕ × Write)} {w : Write} (h : takeWrite c l = some (w, rest)) :
    ∃ pre post, l = pre ++ (c, w) :: post ∧ rest = pre ++ post ∧ ∀ e ∈ pre, e.1 ≠ c := by
  induction l generalizing w rest with
  | nil => simp [takeWrite] at h
  | cons e l ih =>
    rw [takeWrite] at h
    split_ifs at h with hc
    · simp only [Option.some.injEq, Prod.mk.injEq] at h
      obtain ⟨rfl, rfl⟩ := h
      exact ⟨[], l, by simp [← hc], rfl, by simp⟩
    · obtain ⟨⟨w', rest'⟩, hr, he⟩ := Option.map_eq_some_iff.1 h
      simp only [Prod.mk.injEq] at he
      obtain ⟨rfl, rfl⟩ := he
      obtain ⟨pre, post, rfl, rfl, hpre⟩ := ih hr
      refine ⟨e :: pre, post, rfl, rfl, ?_⟩
      intro x hx
      rcases List.mem_cons.1 hx with rfl | hx
      · exact hc
      · exact hpre x hx

theorem takeWrite_append {c : ℕ} {pre post : List (ℕ × Write)} {w : Write} (h : ∀ e ∈ pre, e.1 ≠ c) :
    takeWrite c (pre ++ (c, w) :: post) = some (w, pre ++ post) := by
  induction pre with
  | nil => exact if_pos rfl
  | cons e pre ih =>
    have ih' := ih fun e' he' => h e' (List.mem_cons_of_mem e he')
    rw [List.cons_append, takeWrite, if_neg (h e List.mem_cons_self), ih']
    rfl

/-- one entry of a list and the others -/
theorem mem_of_split {α : Type*} {l pre post : List α} {x : α} (h : l = pre ++ x :: post) (e : α) :
    e ∈ l ↔ e = x ∨ e ∈ pre ++ post := by
  rw [h, List.perm_middle.mem_iff, List.mem_cons]

/-- replacing an entry by one of the same image -/
theorem map_set_of_eq {α β : Type*} {g : α → β} {l : List α} {i : ℕ} {a b : α} (h : l[i]? = some a) (hg : g b = g a) :
    (l.set i b).map g = l.map g := by
  obtain ⟨hi, rfl⟩ := List.getElem?_eq_some_iff.1 h
  rw [List.map_set, hg, ← List.map_set, List.set_getElem_self]

/-- after a write each view is what it was, or has the new content of its collection queued last -/
theorem mem_applied_views {E : Env} {s : St} {w : Write} {flight : List (ℕ × Write)} {notify : List ℕ} {v : View}
    (h : v ∈ (applied E s w flight notify).views) : ∃ v₀ ∈ s.views, v = v₀ ∨
      v = { v₀ with pending := v₀.pending ++ [content E (w.apply s.store) v₀.coll] } := by
  obtain ⟨i, hi, rfl⟩ := List.mem_mapIdx.1 h
  refine ⟨s.views[i], List.getElem_mem hi, ?_⟩
  unfold notified
  split_ifs
  · exact Or.inr rfl
  · exact Or.inl rfl

/-! ## Two sessions -/

/-- Swift's texts of the numbers that the sessions show -/
def decimalText : Double → String
  | .num q => ([(0, "0.0"), (1, "1.0"), (2, "2.0"), (3, "3.0"), (50, "50.0"), (6667 / 100, "66.67"), (100, "100.0")] :
      List (ℚ × String)).lookup q |>.getD "nan"
  | .nan => "nan"

def sampleEnv : Env := ⟨uid, decimalText⟩

def sampleCourse : Segment := ⟨['k'], by decide⟩
def sampleCategory : Segment := ⟨['j'], by decide⟩
def sampleAssignment : Segment := ⟨['a'], by decide⟩
def secondAssignment : Segment := ⟨['b'], by decide⟩
/-- for the buttons of edit forms, which draw no id -/
def undrawn : Segment := ⟨['x'], by decide⟩
def undrawn₁ : Segment := ⟨['y'], by decide⟩
def undrawn₂ : Segment := ⟨['z'], by decide⟩

/-- one user adds a course; the course list shows it -/
def courseRun : List Op :=
  [.viewDidLoad 0, .newForm 0, .type 0 (.cname "CS"), .press 0 sampleCourse, .apply 0 [0], .deliver 0, .deliver 0]

/-- ... adds a category of weight 1 to it, whose grade reaches the course -/
def categoryOps : List Op :=
  [.segue 0 0, .newForm 1, .type 1 (.category .catname "Labs"), .type 1 (.category .weight "1"),
   .press 1 sampleCategory, .apply 0 [1], .deliver 1, .apply 0 [0], .deliver 0, .deliver 1, .apply 0 [0], .deliver 0]

/-- ... and an assignment with full credit to that -/
def assignmentOps : List Op :=
  [.segue 1 0, .newForm 2, .type 2 (.assignment .assname "L1"), .type 2 (.assignment .credit "1"),
   .type 2 (.assignment .totalcredit "1"), .press 2 sampleAssignment, .apply 0 [2], .deliver 2, .apply 0 [1],
   .deliver 1, .apply 0 [0], .deliver 0, .deliver 2, .apply 0 [1], .deliver 1, .apply 0 [0], .deliver 0]

/-- every write is applied and every snapshot delivered -/
def sampleRun : List Op := courseRun ++ categoryOps ++ assignmentOps

/-- client 1 opens the same three screens, whose listeners write both grades again, doubles the weight of the category
and adds an assignment with half credit; nothing of this has reached the server yet -/
def secondOps : List Op :=
  [.viewDidLoad 1, .deliver 3, .segue 3 0, .deliver 4, .editForm 4 0, .type 3 (.category .weight "2"),
   .press 3 undrawn, .segue 4 0, .deliver 5, .newForm 5, .type 4 (.assignment .assname "L2"),
   .type 4 (.assignment .credit "1"), .type 4 (.assignment .totalcredit "2"), .press 4 secondAssignment]

def pressedRun : List Op := sampleRun ++ secondOps

/-- the server catches up; the listeners of both clients write the new grades -/
def settleOps : List Op :=
  [.apply 1 [], .apply 1 [1, 4], .apply 1 [], .apply 1 [2, 5], .deliver 1, .deliver 4, .deliver 2, .deliver 5,
   .apply 0 [], .apply 0 [1, 4], .apply 1 [], .apply 1 [], .deliver 1, .deliver 4, .apply 0 [0, 3], .deliver 0,
   .deliver 3, .apply 1 []]

def pairRun : List Op := pressedRun ++ settleOps

/-- where a run of the sample environment ends -/
def after (ops : List Op) : St := (run sampleEnv init ops).getD init

def sample : St := after sampleRun

theorem run_init_after (ops : List Op) (h : (run sampleEnv init ops).isSome) :
    run sampleEnv init ops = some (after ops) := by
  obtain ⟨s, hs⟩ := Option.isSome_iff_exists.1 h
  rw [after, hs, Option.getD_some]

theorem reachable_after (ops : List Op) (h : (run sampleEnv init ops).isSome) : Reachable sampleEnv (after ops) :=
  ⟨ops, run_init_after ops h⟩

theorem run_after (a b : List Op) (h : (run sampleEnv init (a ++ b)).isSome) :
    run sampleEnv (after a) b = some (after (a ++ b)) := by
  have hab := run_init_after (a ++ b) h
  rw [run_append] at hab
  obtain ⟨s, hs, -⟩ := Option.bind_eq_some_iff.1 hab
  rw [hs, Option.bind_some] at hab
  rw [after, hs, Option.getD_some, hab]

end GradeKeep.System
