/-
The screens of the running system are the ends of chains of segues.

`System` names the collection of a table and computes its strings from that; `Navigation` has only the strings that
`prepare(for:sender:)` concatenates. Here the run itself is followed: each table and form that opens is recorded with
the segues that led to it, from the course list on, their ids read from the rows at the time of the tap (`Opened`).

Results:
- `View.segue_prepare`, `View.newForm_prepare`, `View.editForm_prepare`: what one segue of the system concatenates;
- `callback_issue`, `delete_issue`, `press_issue`: a table or form does what its screen does;
- `open_screens`: after every run each chain recorded ends at the screen that is there.
-/
import GradeKeep.Results.ScreenScope

namespace GradeKeep.OpenScreens

open GradeKeep.Firestore GradeKeep.Schema GradeKeep.Listeners GradeKeep.Forms GradeKeep.System GradeKeep.Navigation
open GradeKeep.Characters GradeKeep.ScreenScope

variable {E : Env}

/-! ## Tables and forms as screens -/

def tableScreen (E : Env) (v : View) : Screen :=
  match v.coll with
  | .courses => .courseTable
  | .categories _ => .categoryTable (v.ref E)
  | .assignments _ _ => .assignmentTable (v.ref E)

def formScreen (f : Form) : Screen :=
  match f.body with
  | .course _ => .newCourse f.ref
  | .category g => .newCat f.ref g.mode
  | .assignment g => .newAss f.ref g.mode

/-- the button of a form as an event -/
def formEvent (f : Form) (drawn : Segment) : Event :=
  match f.body with
  | .course cname => .addCourse cname drawn
  | .category g => .confirmCat g.text drawn
  | .assignment g => .confirmAss g.text drawn

/-- the place whose table a view shows -/
def tablePlace : Coll → Place
  | .courses => .courses
  | .categories k => .categories k
  | .assignments k j => .assignments k j

theorem tableScreen_eq (v : View) : tableScreen E v = (tablePlace v.coll).screen E.uid := by
  obtain ⟨client, coll, rows, pending, last⟩ := v
  cases coll <;> rfl

/-! ## What they do -/

theorem delete_issue (U : Unicode) (v : View) (i : ℕ) : (v.delete E i).map (fun w => [w]) =
    v.rows.ids[i]?.bind fun id => (tableScreen E v).issue U E.uid (.delete id) := by
  have htable : (tablePlace v.coll).table = some v.coll := by cases v.coll <;> rfl
  rw [View.delete_eq, tableScreen_eq]
  cases v.rows.ids[i]? with
  | none => rfl
  | some id => exact (issue_delete _ v.coll htable id).symm

/-- where Characters and scalars cut alike, the listener does too -/
theorem callback_issue {U : Unicode} {v : View} (hcut : CutOk U (tablePlace v.coll)) (documents : Snapshot) :
    (v.callback E documents).map (·.2) = (tableScreen E v).issue U E.uid (.snapshot documents) := by
  obtain ⟨client, coll, rows, pending, last⟩ := v
  have howner := (owner_iff U E.uid (tablePlace coll)).2 hcut
  cases coll with
  | courses =>
    simp only [View.callback, tableScreen, Screen.issue, Option.bind_eq_bind]
    cases coursesListener documents <;> rfl
  | categories k =>
    obtain ⟨path, hpath, hp⟩ := owner_ref E.uid (.categories k) _ rfl
    obtain ⟨path', hpath', hp'⟩ := Option.map_eq_some_iff.1 howner
    have hpath' : ownerPath U ((Coll.categories k).ref E.uid) = some path' := hpath'
    simp only [View.callback, View.ref, tableScreen, Screen.issue, hpath, hp, hpath', hp', Option.bind_eq_bind,
      Option.bind_some]
    cases categoriesListener documents <;> rfl
  | assignments k j =>
    obtain ⟨path, hpath, hp⟩ := owner_ref E.uid (.assignments k j) _ rfl
    obtain ⟨path', hpath', hp'⟩ := Option.map_eq_some_iff.1 howner
    have hpath' : ownerPath U ((Coll.assignments k j).ref E.uid) = some path' := hpath'
    simp only [View.callback, View.ref, tableScreen, Screen.issue, hpath, hp, hpath', hp', Option.bind_eq_bind,
      Option.bind_some]
    cases assignmentsListener documents <;> rfl

theorem press_issue (U : Unicode) (u : Segment) {f : Form} (hen : f.isEnabled) (drawn : Segment) :
    (formScreen f).issue U u (formEvent f drawn) = f.press.map (List.map (requestWrite drawn)) := by
  obtain ⟨client, ref, body⟩ := f
  cases body with
  | course cname =>
    show (addCoursePressed ref cname).bind _ = (addCoursePressed ref cname).map _
    cases addCoursePressed ref cname <;> rfl
  | category g =>
    have hpress : Form.press ⟨client, ref, .category g⟩ = g.confirmButtonPressed ref := if_pos hen
    rw [hpress]
    show (g.confirmButtonPressed ref).bind _ = (g.confirmButtonPressed ref).map _
    cases g.confirmButtonPressed ref <;> rfl
  | assignment g =>
    have hpress : Form.press ⟨client, ref, .assignment g⟩ = g.confirmButtonPressed ref := if_pos hen
    rw [hpress]
    show (g.confirmButtonPressed ref).bind _ = (g.confirmButtonPressed ref).map _
    cases g.confirmButtonPressed ref <;> rfl

/-- a table listens, deletes and updates as its screen does -/
structure ActsAs (U : Unicode) (E : Env) (v : View) (screen : Screen) : Prop where
  listens : screen.listenerPath E.uid = some (v.coll.listenerPath E.uid)
  deletes : ∀ i, (v.delete E i).map (fun w => [w]) = v.rows.ids[i]?.bind fun id => screen.issue U E.uid (.delete id)
  updates : CutOk U (tablePlace v.coll) →
    ∀ documents, (v.callback E documents).map (·.2) = screen.issue U E.uid (.snapshot documents)

theorem actsAs (U : Unicode) (E : Env) (v : View) : ActsAs U E v (tableScreen E v) where
  listens := by
    obtain ⟨client, coll, rows, pending, last⟩ := v
    cases coll <;> rfl
  deletes := delete_issue U v
  updates := callback_issue

/-! ## The segues of a run -/

/-- the segue of a tap on the row with this id -/
def tapped : Coll → Segment → Option Segue
  | .courses, k => some (.catsegue k)
  | .categories _, j => some (.asssegue j)
  | .assignments _ _, _ => none

def added : Coll → Segue
  | .courses => .newcoursesegue
  | .categories _ => .newcatsegue
  | .assignments _ _ => .newasssegue

def edited : Coll → Segment → Option Segue
  | .courses, _ => none
  | .categories _, id => some (.editcatsegue id)
  | .assignments _ _, id => some (.editasssegue id)

/-- the chains by which the tables and forms of a state were opened -/
structure Opened where
  views : List (List Segue)
  forms : List (List Segue)
deriving DecidableEq

/-- an op made in s opens a screen by one more segue, from the row that it names -/
def Opened.next (s : St) (opened : Opened) : Op → Option Opened
  | .viewDidLoad _ => some { opened with views := opened.views ++ [[]] }
  | .segue v i => do
    let view ← s.views[v]?
    let chain ← opened.views[v]?
    let id ← view.rows.ids[i]?
    let segue ← tapped view.coll id
    some { opened with views := opened.views ++ [chain ++ [segue]] }
  | .newForm v => do
    let view ← s.views[v]?
    let chain ← opened.views[v]?
    some { opened with forms := opened.forms ++ [chain ++ [added view.coll]] }
  | .editForm v i => do
    let view ← s.views[v]?
    let chain ← opened.views[v]?
    let id ← view.rows.ids[i]?
    let segue ← edited view.coll id
    some { opened with forms := opened.forms ++ [chain ++ [segue]] }
  | _ => some opened

/-- the chains after a run -/
def openedIn (E : Env) : St → Opened → List Op → Option Opened
  | _, opened, [] => some opened
  | s, opened, o :: ops => do
    let s' ← step E s o
    let opened' ← opened.next s o
    openedIn E s' opened' ops

/-- each chain ends at the screen that is there -/
structure AtEnds (E : Env) (s : St) (opened : Opened) : Prop where
  views : opened.views.map (navigate E.uid) = s.views.map fun v => some (tableScreen E v)
  forms : opened.forms.map (navigate E.uid) = s.forms.map fun f => some (formScreen f)

theorem navigate_concat (u : Segment) (chain : List Segue) (segue : Segue) :
    navigate u (chain ++ [segue]) = (navigate u chain).bind fun screen => prepare u screen segue := by
  rw [navigate, List.foldlM_append]
  show (navigate u chain).bind _ = _
  congr 1
  funext screen
  simp

/-! ### One segue -/

theorem View.segue_prepare {v : View} {i : ℕ} {c : Coll} (h : v.segue i = some c) (client : ℕ) (rows : Rows)
    (pending : List Snapshot) (last : Option Snapshot) : ∃ id segue, v.rows.ids[i]? = some id ∧
      tapped v.coll id = some segue ∧
      prepare E.uid (tableScreen E v) segue = some (tableScreen E ⟨client, c, rows, pending, last⟩) := by
  obtain ⟨client', coll, rows', pending', last'⟩ := v
  cases coll with
  | courses =>
    cases rows' with
    | courses l =>
      obtain ⟨course, hl, rfl⟩ := Option.map_eq_some_iff.1 h
      exact ⟨course.courseId, _, by simp [Rows.ids, hl], rfl, rfl⟩
    | _ => cases h
  | categories k =>
    cases rows' with
    | categories l =>
      obtain ⟨category, hl, rfl⟩ := Option.map_eq_some_iff.1 h
      exact ⟨category.id, _, by simp [Rows.ids, hl], rfl, rfl⟩
    | _ => cases h
  | assignments k j => cases rows' <;> cases h

theorem View.newForm_prepare (v : View) :
    prepare E.uid (tableScreen E v) (added v.coll) = some (formScreen (v.newForm E)) := by
  obtain ⟨client, coll, rows, pending, last⟩ := v
  cases coll <;> rfl

theorem View.editForm_prepare {v : View} {i : ℕ} {f : Form} (h : v.editForm E i = some f) : ∃ id segue,
    v.rows.ids[i]? = some id ∧ edited v.coll id = some segue ∧
      prepare E.uid (tableScreen E v) segue = some (formScreen f) := by
  obtain ⟨client, coll, rows, pending, last⟩ := v
  cases coll with
  | courses => cases rows <;> cases h
  | categories k =>
    cases rows with
    | categories l =>
      simp only [View.editForm, Option.bind_eq_bind, Option.bind_eq_some_iff, Option.some.injEq] at h
      obtain ⟨category, hl, name, -, weight, -, rfl⟩ := h
      exact ⟨category.id, _, by simp [Rows.ids, hl], rfl, rfl⟩
    | _ => cases h
  | assignments k j =>
    cases rows with
    | assignments l =>
      simp only [View.editForm, Option.bind_eq_bind, Option.bind_eq_some_iff, Option.some.injEq] at h
      obtain ⟨assignment, hl, name, -, credit, -, totalcredit, -, rfl⟩ := h
      exact ⟨assignment.id, _, by simp [Rows.ids, hl], rfl, rfl⟩
    | _ => cases h

/-- typing leaves the screen -/
theorem type_formScreen {f : Form} {e : Edit} {body : FormBody} (h : f.body.type e = some body) :
    formScreen { f with body := body } = formScreen f := by
  obtain ⟨client, ref, b⟩ := f
  cases b with
  | course cname => cases e <;> cases h; rfl
  | category g =>
    cases e with
    | category field text =>
      cases h
      simp only [formScreen, (EditForm.change_frame g (field, text)).1]
    | _ => cases h
  | assignment g =>
    cases e with
    | assignment field text =>
      cases h
      simp only [formScreen, (EditForm.change_frame g (field, text)).1]
    | _ => cases h

/-- a delivery leaves a view at its screen -/
theorem deliver_tableScreen {v v' : View} {writes : List Write} (h : v.deliver E = some (v', writes)) :
    tableScreen E v' = tableScreen E v := by
  unfold View.deliver at h
  cases hp : v.pending with
  | nil => simp [hp] at h
  | cons documents rest =>
    simp only [hp, Option.bind_eq_bind, Option.bind_eq_some_iff, Option.some.injEq, Prod.mk.injEq] at h
    obtain ⟨r, -, rfl, -⟩ := h
    rfl

theorem notified_tableScreen (store : Store) (coll : List Segment) (notify : List ℕ) (i : ℕ) (v : View) :
    tableScreen E (notified E store coll notify i v) = tableScreen E v := by
  unfold notified
  split_ifs <;> rfl

/-- what is found under an index of one list is found under it in the other -/
theorem AtEnds.chain {s : St} {opened : Opened} (h : AtEnds E s opened) {i : ℕ} {v : View}
    (hv : s.views[i]? = some v) :
    ∃ chain, opened.views[i]? = some chain ∧ navigate E.uid chain = some (tableScreen E v) := by
  have hi := congrArg (fun l : List (Option Screen) => l[i]?) h.views
  simp only [List.getElem?_map, hv, Option.map_some] at hi
  exact Option.map_eq_some_iff.1 hi

/-- one step of the run -/
theorem AtEnds.next {s s' : St} {opened : Opened} {o : Op} (h : AtEnds E s opened) (hs : step E s o = some s') :
    ∃ opened', opened.next s o = some opened' ∧ AtEnds E s' opened' := by
  cases stepped hs with
  | viewDidLoad c =>
    refine ⟨_, rfl, ?_, h.forms⟩
    rw [List.map_append, List.map_append, h.views]
    rfl
  | segue v i view c hv hc =>
    obtain ⟨chain, hchain, hnav⟩ := h.chain hv
    obtain ⟨id, segue, hid, htap, hprepare⟩ := View.segue_prepare (E := E) hc view.client (emptyRows c)
      [content E s.store c] none
    refine ⟨{ opened with views := opened.views ++ [chain ++ [segue]] }, ?_, ?_, h.forms⟩
    · simp only [Opened.next, hv, hchain, hid, htap, Option.bind_eq_bind, Option.bind_some]
    · rw [List.map_append, List.map_append, h.views, List.map_singleton, List.map_singleton, navigate_concat, hnav,
        Option.bind_some, hprepare]
  | newForm v view hv =>
    obtain ⟨chain, hchain, hnav⟩ := h.chain hv
    refine ⟨{ opened with forms := opened.forms ++ [chain ++ [added view.coll]] }, ?_, h.views, ?_⟩
    · simp only [Opened.next, hv, hchain, Option.bind_eq_bind, Option.bind_some]
    · rw [List.map_append, List.map_append, h.forms, List.map_singleton, List.map_singleton, navigate_concat, hnav,
        Option.bind_some, View.newForm_prepare]
  | editForm v i view form hv hform =>
    obtain ⟨chain, hchain, hnav⟩ := h.chain hv
    obtain ⟨id, segue, hid, hedit, hprepare⟩ := View.editForm_prepare hform
    refine ⟨{ opened with forms := opened.forms ++ [chain ++ [segue]] }, ?_, h.views, ?_⟩
    · simp only [Opened.next, hv, hchain, hid, hedit, Option.bind_eq_bind, Option.bind_some]
    · rw [List.map_append, List.map_append, h.forms, List.map_singleton, List.map_singleton, navigate_concat, hnav,
        Option.bind_some, hprepare]
  | type i e form body hform hbody =>
    have hscreen : some (formScreen { form with body := body }) = some (formScreen form) :=
      congrArg some (type_formScreen hbody)
    exact ⟨_, rfl, h.views, h.forms.trans (map_set_of_eq hform hscreen).symm⟩
  | press i id form requests hform hpress hid => exact ⟨_, rfl, h.views, h.forms⟩
  | delete v i view w hv hw => exact ⟨_, rfl, h.views, h.forms⟩
  | apply c notify w rest htake =>
    refine ⟨_, rfl, h.views.trans (List.ext_getElem? fun i => ?_), h.forms⟩
    simp only [applied, List.getElem?_map, List.getElem?_mapIdx, Option.map_map, Function.comp_def,
      notified_tableScreen]
  | deliver i v v' writes hv hdeliver =>
    have hscreen : some (tableScreen E v') = some (tableScreen E v) := congrArg some (deliver_tableScreen hdeliver)
    exact ⟨_, rfl, h.views.trans (map_set_of_eq hv hscreen).symm, h.forms⟩

/-- **The running system has no other screens.** Every run has recorded, for each table and each form, the segues that
led to it: the strings that `prepare` concatenates along them are those of the screen that is there. And what a table
or form does is what that screen does with its string; for the listener of a table, where its owner's id lets
Characters and scalars cut alike. -/
theorem open_screens (U : Unicode) (E : Env) (ops : List Op) (s : St) (h : run E init ops = some s) :
    ∃ opened, openedIn E init ⟨[], []⟩ ops = some opened ∧ AtEnds E s opened ∧
      (∀ v ∈ s.views, ActsAs U E v (tableScreen E v)) ∧
      ∀ f ∈ s.forms, f.isEnabled → ∀ drawn,
        (formScreen f).issue U E.uid (formEvent f drawn) = f.press.map (List.map (requestWrite drawn)) := by
  have key : ∀ ops s opened s', AtEnds E s opened → run E s ops = some s' →
      ∃ opened', openedIn E s opened ops = some opened' ∧ AtEnds E s' opened' := by
    intro ops
    induction ops with
    | nil =>
      intro s opened s' hends hr
      obtain rfl : s = s' := Option.some.inj hr
      exact ⟨opened, rfl, hends⟩
    | cons o ops ih =>
      intro s opened s' hends hr
      rw [run_cons] at hr
      obtain ⟨t, ht, hr⟩ := Option.bind_eq_some_iff.1 hr
      obtain ⟨opened₁, hnext, hends₁⟩ := hends.next ht
      obtain ⟨opened', hopened, hends'⟩ := ih t opened₁ s' hends₁ hr
      refine ⟨opened', ?_, hends'⟩
      rw [openedIn, ht, Option.bind_eq_bind, Option.bind_some, hnext, Option.bind_eq_bind, Option.bind_some, hopened]
  obtain ⟨opened, hopened, hends⟩ := key ops init ⟨[], []⟩ s ⟨rfl, rfl⟩ h
  exact ⟨opened, hopened, hends, fun v _ => actsAs U E v, fun f _ hen drawn => press_issue U E.uid hen drawn⟩

/-- all tables and forms of a session, and the form for its assignment opened again -/
theorem open_screens_sample : AtEnds sampleEnv (after (sampleRun ++ [.editForm 2 0]))
    ⟨[[], [.catsegue sampleCourse], [.catsegue sampleCourse, .asssegue sampleCategory]],
      [[.newcoursesegue], [.catsegue sampleCourse, .newcatsegue],
        [.catsegue sampleCourse, .asssegue sampleCategory, .newasssegue],
        [.catsegue sampleCourse, .asssegue sampleCategory, .editasssegue sampleAssignment]]⟩ := by
  have hrun : (run sampleEnv init (sampleRun ++ [.editForm 2 0])).isSome ∧
      openedIn sampleEnv init ⟨[], []⟩ (sampleRun ++ [.editForm 2 0]) = some
        ⟨[[], [.catsegue sampleCourse], [.catsegue sampleCourse, .asssegue sampleCategory]],
          [[.newcoursesegue], [.catsegue sampleCourse, .newcatsegue],
            [.catsegue sampleCourse, .asssegue sampleCategory, .newasssegue],
            [.catsegue sampleCourse, .asssegue sampleCategory, .editasssegue sampleAssignment]]⟩ := by
    decide +kernel
  obtain ⟨opened, hopened, hends, -⟩ :=
    open_screens sampleUnicode sampleEnv _ _ (run_init_after (sampleRun ++ [.editForm 2 0]) hrun.1)
  rw [hrun.2] at hopened
  rw [Option.some.inj hopened]
  exact hends

end GradeKeep.OpenScreens
