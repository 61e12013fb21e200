/-
Where the app crashes.

Forced casts, forced unwraps, array indices, paths and `performSegue` can all trap. What the app offers in a reachable
state (`Offered`) is a cell to tap, the actions of a swiped row, the add button and its menu, a text field of an open
form, an enabled button, a write of a client, a snapshot of the server or from the cache. Of these four things trap
(`Crash`): the button of an assignment form whose credit or total credit is no number; Delete when its row is no longer
there; Edit when its row has no cell on the screen, for `sender as! UITableViewCell` then casts nil; and the Course item
of the add menu, whose segue the storyboard does not have.

Results:
- `press_eq_none_iff`: when the button of a form traps;
- `editForm_eq_none_iff`: when opening an edit form does;
- `segue_isSome`, `cellForRowAt_isSome`: tapping and drawing a row do not;
- `traps_iff`: what traps of all that is offered.
-/
import GradeKeep.App.Storyboard
import GradeKeep.Results.LocalKnowledge

namespace GradeKeep.Traps

open GradeKeep.SwiftDouble GradeKeep.Firestore GradeKeep.Schema GradeKeep.Listeners GradeKeep.Forms GradeKeep.System
open GradeKeep.LocalViews GradeKeep.WellFormed GradeKeep.Tables GradeKeep.Storyboard GradeKeep.LocalKnowledge

/-! ## What the app offers -/

/-- the form has the text field -/
def HasField : FormBody → Edit → Prop
  | .course _, .cname _ => True
  | .category _, .category _ _ => True
  | .assignment _, .assignment _ _ => True
  | _, _ => False

/-- of a client's base, the server and the network -/
def OfferedOp (s : LocalViews.St) : LocalViews.Op → Prop
  | .base (.viewDidLoad _) => True
  | .base (.type f e) => ∃ form, s.base.forms[f]? = some form ∧ HasField form.body e
  | .base (.press f id) => ∃ form, s.base.forms[f]? = some form ∧ form.isEnabled ∧ id ∉ s.base.used
  | .base (.apply c _) => ∃ e ∈ s.base.flight, e.1 = c
  | .base (.deliver v) => ∃ view, s.base.views[v]? = some view ∧ view.pending ≠ []
  | .fromCache v picks => (∃ view, s.base.views[v]? = some view) ∧ (picks.map (·.id)).Nodup
  -- rows are tapped and forms opened through the storyboard
  | _ => False

/-- what users, the server and the network can do in s; a swipe action may run late, so its row may be gone -/
def Offered (s : LocalViews.St) : Act → Prop
  | .tap v i => ∃ view, s.base.views[v]? = some view ∧ i < numberOfRows view
  | .addButton v => ∃ view, s.base.views[v]? = some view
  | .menu v _ => ∃ view, s.base.views[v]? = some view ∧ view.coll = .courses
  | .editAction v _ _ => ∃ view, s.base.views[v]? = some view ∧ view.coll ≠ .courses
  | .deleteAction v _ => ∃ view, s.base.views[v]? = some view
  | .op o => OfferedOp s o

inductive Crash (s : LocalViews.St) : Act → Prop where
  /-- the button of an assignment form, with a text that is no number -/
  | noNumber (f : ℕ) (id : Segment) (form : Form) (g : NewAss) (hf : s.base.forms[f]? = some form)
      (hg : form.body = .assignment g) (h : g.credit = none ∨ g.totalcredit = none) :
      Crash s (.op (.base (.press f id)))
  /-- Delete of a row past the end -/
  | rowGone (v i : ℕ) (view : View) (hv : s.base.views[v]? = some view) (h : numberOfRows view ≤ i) :
      Crash s (.deleteAction v i)
  /-- Edit of a row without a cell on the screen -/
  | noCell (v i : ℕ) (onScreen : List ℕ) (view : View) (hv : s.base.views[v]? = some view)
      (h : i ∉ onScreen ∨ numberOfRows view ≤ i) : Crash s (.editAction v i onScreen)
  /-- Course in the menu of the add button -/
  | noSegue (v : ℕ) : Crash s (.menu v .course)

/-! ## Rows -/

variable {E : Env} {B : DocPath → Prop} {s : LocalViews.St}

/-- a view has the rows of the documents it saw last, which are of its type -/
theorem rows_of_view {v : View} (h : ViewOk E B v) : ∃ documents, (∀ e ∈ documents, HasType v.coll e.2) ∧
    v.rows = rowsOf v.coll documents ∧ numberOfRows v = documents.length := by
  have hty : ∀ e ∈ v.last.getD [], HasType v.coll e.2 := by
    cases hl : v.last with
    | none => exact fun e he => absurd he List.not_mem_nil
    | some documents => exact fun e he => ((h.last documents hl) e he).2.hasType
  refine ⟨v.last.getD [], hty, h.rows, ?_⟩
  rw [numberOfRows_eq, h.rows, rowsOf_ids hty, List.length_map]

theorem segue_isSome {v : View} (h : ViewOk E B v) {i : ℕ} (hi : i < numberOfRows v)
    (hc : ∀ k j, v.coll ≠ .assignments k j) : ∃ c, v.segue i = some c := by
  obtain ⟨documents, hty, hrows, -⟩ := rows_of_view h
  obtain ⟨client, coll, rows, pending, last⟩ := v
  cases coll with
  | courses =>
    obtain rfl : rows = .courses (documents.filterMap courseOf) := hrows
    exact ⟨_, congrArg (Option.map _) (List.getElem?_eq_getElem hi)⟩
  | categories k =>
    obtain rfl : rows = .categories (documents.map categoryOf) := hrows
    exact ⟨_, congrArg (Option.map _) (List.getElem?_eq_getElem hi)⟩
  | assignments k j => exact absurd rfl (hc k j)

/-- an edit form opens exactly for the rows there are -/
theorem editForm_eq_none_iff {v : View} (h : ViewOk E B v) (hc : v.coll ≠ .courses) (i : ℕ) :
    v.editForm E i = none ↔ numberOfRows v ≤ i := by
  obtain ⟨documents, hty, hrows, hlen⟩ := rows_of_view h
  rw [hlen]
  obtain ⟨client, coll, rows, pending, last⟩ := v
  cases coll with
  | courses => exact absurd rfl hc
  | categories k =>
    obtain rfl : rows = .categories (documents.map categoryOf) := hrows
    by_cases hi : i < documents.length
    · have he := hty _ (List.getElem_mem hi)
      obtain ⟨name, hname⟩ := he.name
      have hn : (categoryOf documents[i]).name.asString = some name := by simp [categoryOf, hname, Value.asString]
      have hw : (categoryOf documents[i]).weight.asDouble = _ := asDouble_getD he.weight
      simp only [View.editForm, List.getElem?_map, List.getElem?_eq_getElem hi, Option.map_some, Option.bind_eq_bind,
        Option.bind_some, hn, hw, reduceCtorEq, false_iff, not_le]
      exact hi
    · simp only [View.editForm, List.getElem?_map, List.getElem?_eq_none (not_lt.1 hi), Option.map_none,
        Option.bind_eq_bind, Option.bind_none, true_iff]
      exact not_lt.1 hi
  | assignments k j =>
    obtain rfl : rows = .assignments (documents.map assignmentOf) := hrows
    by_cases hi : i < documents.length
    · have he := hty _ (List.getElem_mem hi)
      obtain ⟨name, hname⟩ := he.name
      have hn : (assignmentOf documents[i]).name.asString = some name := by simp [assignmentOf, hname, Value.asString]
      have hcr : (assignmentOf documents[i]).credit.asDouble = _ := asDouble_getD he.credit
      have ht : (assignmentOf documents[i]).totalcredit.asDouble = _ := asDouble_getD he.totalcredit
      simp only [View.editForm, List.getElem?_map, List.getElem?_eq_getElem hi, Option.map_some, Option.bind_eq_bind,
        Option.bind_some, hn, hcr, ht, reduceCtorEq, false_iff, not_le]
      exact hi
    · simp only [View.editForm, List.getElem?_map, List.getElem?_eq_none (not_lt.1 hi), Option.map_none,
        Option.bind_eq_bind, Option.bind_none, true_iff]
      exact not_lt.1 hi

/-- every row is drawn -/
theorem cellForRowAt_isSome {v : View} (h : ViewOk E B v) {i : ℕ} (hi : i < numberOfRows v) :
    (cellForRowAt E v i).isSome := by
  obtain ⟨documents, hty, hrows, hlen⟩ := rows_of_view h
  obtain ⟨client, coll, rows, pending, last⟩ := v
  cases coll with
  | courses =>
    obtain rfl : rows = .courses (documents.filterMap courseOf) := hrows
    have hi' : i < (documents.filterMap courseOf).length := hi
    simp only [cellForRowAt, List.getElem?_eq_getElem hi', Option.bind_some, courseCell, Option.isSome_some]
  | categories k =>
    obtain rfl : rows = .categories (documents.map categoryOf) := hrows
    have hi' : i < documents.length := hlen ▸ hi
    have hg : (categoryOf documents[i]).grade.asDouble = _ := asDouble_getD (hty _ (List.getElem_mem hi')).grade
    simp only [cellForRowAt, List.getElem?_map, List.getElem?_eq_getElem hi', Option.map_some, Option.bind_some,
      categoryCell, hg, Option.bind_eq_bind, Option.isSome_some]
  | assignments k j =>
    obtain rfl : rows = .assignments (documents.map assignmentOf) := hrows
    have hi' : i < documents.length := hlen ▸ hi
    have he := hty _ (List.getElem_mem hi')
    have hcr : (assignmentOf documents[i]).credit.asDouble = _ := asDouble_getD he.credit
    have ht : (assignmentOf documents[i]).totalcredit.asDouble = _ := asDouble_getD he.totalcredit
    have hg : (assignmentOf documents[i]).grade.asDouble = _ := asDouble_getD he.grade
    simp only [cellForRowAt, List.getElem?_map, List.getElem?_eq_getElem hi', Option.map_some, Option.bind_some,
      assignmentCell, hcr, ht, hg, Option.bind_eq_bind, Option.isSome_some]

/-! ## Buttons -/

theorem assignment_eq_none_iff (g : NewAss) : g.assignment = none ↔ g.credit = none ∨ g.totalcredit = none := by
  unfold NewAss.assignment
  cases g.credit <;> cases g.totalcredit <;> simp

/-- **Buttons that trap.** -/
theorem press_eq_none_iff {f : Form} (h : FormOk E B f) (hen : f.isEnabled) :
    f.press = none ↔ ∃ g, f.body = .assignment g ∧ (g.credit = none ∨ g.totalcredit = none) := by
  obtain ⟨client, ref, body⟩ := f
  obtain ⟨c, hfor, -, hm⟩ := h
  cases body with
  | course cname =>
    cases c with
    | courses =>
      rcases hm with ⟨-, rfl⟩ | ⟨hm, -⟩
      · simp [Form.press, addCoursePressed_eq (Coll.collection_ref E.uid .courses)]
      · cases hm
    | _ => exact hfor.elim
  | category g =>
    have hpress : Form.press ⟨client, ref, .category g⟩ = g.confirmButtonPressed ref := if_pos hen
    cases c with
    | categories k =>
      rw [hpress]
      rcases hm with ⟨hm, rfl⟩ | ⟨hm, id, rfl, -⟩
      · simp [NewCat.confirm_new hm (Coll.collection_ref E.uid (.categories k))]
      · simp [NewCat.confirm_edit hm (Coll.document_ref_append E.uid (.categories k) id)]
    | _ => exact hfor.elim
  | assignment g =>
    have hpress : Form.press ⟨client, ref, .assignment g⟩ = g.confirmButtonPressed ref := if_pos hen
    cases c with
    | assignments k j =>
      have hnone : g.confirmButtonPressed ref = none ↔ g.assignment = none := by
        rcases hm with ⟨hm, rfl⟩ | ⟨hm, id, rfl, -⟩
        · rw [NewAss.confirm_new hm (Coll.collection_ref E.uid (.assignments k j)), Option.map_eq_none_iff]
        · rw [NewAss.confirm_edit hm (Coll.document_ref_append E.uid (.assignments k j) id), Option.map_eq_none_iff]
      rw [hpress, hnone, assignment_eq_none_iff]
      refine ⟨fun hg => ⟨g, rfl, hg⟩, ?_⟩
      rintro ⟨g', hg', hnum⟩
      rwa [FormBody.assignment.inj hg']
    | _ => exact hfor.elim

/-! ## Steps -/

/-- typing into a field that the form has does not trap -/
theorem type_isSome {body : FormBody} {e : Edit} (h : HasField body e) : ∃ body', body.type e = some body' := by
  cases body <;> cases e <;> first | exact ⟨_, rfl⟩ | exact h.elim

theorem takeWrite_isSome {c : ℕ} {flight : List (ℕ × Write)} (h : ∃ e ∈ flight, e.1 = c) :
    ∃ r, takeWrite c flight = some r := by
  induction flight with
  | nil =>
    obtain ⟨e, he, -⟩ := h
    exact absurd he List.not_mem_nil
  | cons e flight ih =>
    rw [takeWrite]
    split_ifs with hc
    · exact ⟨_, rfl⟩
    · obtain ⟨e', he', hc'⟩ := h
      obtain ⟨r, hr⟩ := ih ⟨e', (List.mem_cons.1 he').resolve_left fun heq => hc (heq ▸ hc'), hc'⟩
      exact ⟨_, congrArg (Option.map _) hr⟩

theorem deliver_isSome {v : View} (h : ViewOk E B v) (hp : v.pending ≠ []) : ∃ r, v.deliver E = some r := by
  obtain ⟨documents, rest, hpending⟩ := List.exists_cons_of_ne_nil hp
  have hty : ∀ e ∈ documents, HasType v.coll e.2 := fun e he =>
    (h.pending documents (by rw [hpending]; exact List.mem_cons_self) e he).2.hasType
  simp only [View.deliver, hpending, callback_eq hty, Option.bind_eq_bind, Option.bind_some]
  exact ⟨_, rfl⟩

/-- a step of the system in which nothing traps -/
theorem step_base_eq_none_iff {o : System.Op} :
    LocalViews.step E s (.base o) = none ↔ System.step E s.base o = none := by
  rw [LocalViews.step]
  cases System.step E s.base o <;> simp

theorem op_eq_none_iff (h : Knowledge E s) {o : LocalViews.Op} (ho : OfferedOp s o) :
    LocalViews.step E s o = none ↔ Crash s (.op o) := by
  cases o with
  | fromCache v picks =>
    obtain ⟨⟨view, hv⟩, hnodup⟩ := ho
    refine iff_of_false ?_ (fun hc => by cases hc)
    simp [LocalViews.step, hv, hnodup]
  | base o =>
    rw [step_base_eq_none_iff]
    cases o with
    | viewDidLoad c =>
      refine iff_of_false ?_ (fun hc => by cases hc)
      simp [System.step, load_eq]
    | type f e =>
      obtain ⟨form, hf, hfield⟩ := ho
      obtain ⟨body, hbody⟩ := type_isSome hfield
      refine iff_of_false ?_ (fun hc => by cases hc)
      simp [System.step, hf, hbody]
    | apply c notify =>
      obtain ⟨r, hr⟩ := takeWrite_isSome ho
      refine iff_of_false ?_ (fun hc => by cases hc)
      simp [System.step, hr]
    | deliver v =>
      obtain ⟨view, hv, hp⟩ := ho
      obtain ⟨r, hr⟩ := deliver_isSome (h.views_ok view (List.mem_of_getElem? hv)) hp
      refine iff_of_false ?_ (fun hc => by cases hc)
      simp [System.step, hv, hr]
    | press f id =>
      obtain ⟨form, hf, hen, hid⟩ := ho
      have hnone : System.step E s.base (.press f id) = none ↔ form.press = none := by
        simp only [System.step, hf, Option.bind_eq_bind, Option.bind_some]
        cases form.press <;> simp [hid]
      rw [hnone, press_eq_none_iff (h.forms_ok form (List.mem_of_getElem? hf)) hen]
      refine ⟨?_, ?_⟩
      · rintro ⟨g, hg, hnum⟩
        exact .noNumber f id form g hf hg hnum
      · intro hc
        cases hc with
        | noNumber _ _ form' g hf' hg hnum =>
          rw [Option.some.inj (hf.symm.trans hf')]
          exact ⟨g, hg, hnum⟩
    | segue v i => exact ho.elim
    | newForm v => exact ho.elim
    | editForm v i => exact ho.elim
    | delete v i => exact ho.elim

/-- a tapped cell is its own sender -/
theorem tap_isSome (h : Knowledge E s) {v i : ℕ} {view : View} (hv : s.base.views[v]? = some view)
    (hi : i < numberOfRows view) : act E s (.tap v i) ≠ none := by
  have hok := h.views_ok view (List.mem_of_getElem? hv)
  have hsegue : ∀ {o : System.Op}, performSegue v view.coll (cellSegue view.coll) (some i) = some o →
      System.step E s.base o ≠ none → act E s (.tap v i) ≠ none := by
    intro o ho hstep
    simp only [act, hv, ho, Option.bind_eq_bind, Option.bind_some, ne_eq, step_base_eq_none_iff]
    exact hstep
  cases hc : view.coll with
  | courses =>
    refine hsegue (o := .segue v i) (by rw [hc]; rfl) ?_
    obtain ⟨c, hnext⟩ := segue_isSome hok hi (by simp [hc])
    simp [System.step, hv, hnext, load_eq]
  | categories k =>
    refine hsegue (o := .segue v i) (by rw [hc]; rfl) ?_
    obtain ⟨c, hnext⟩ := segue_isSome hok hi (by simp [hc])
    simp [System.step, hv, hnext, load_eq]
  | assignments k j =>
    refine hsegue (o := .editForm v i) (by rw [hc]; rfl) ?_
    have hform := mt (editForm_eq_none_iff hok (by simp [hc]) i).1 (not_le.2 hi)
    obtain ⟨form, hform⟩ := Option.ne_none_iff_exists'.1 hform
    simp [System.step, hv, hform]

theorem addButton_isSome {v : ℕ} {view : View} (hv : s.base.views[v]? = some view) : act E s (.addButton v) ≠ none := by
  have hsegue : performSegue v view.coll (addSegue view.coll) none = some (.newForm v) := by
    cases view.coll <;> rfl
  simp [act, hv, hsegue, step_base_eq_none_iff, System.step]

/-- the Edit action needs a cell for its row -/
theorem editAction_eq_none_iff (h : Knowledge E s) {v i : ℕ} {onScreen : List ℕ} {view : View}
    (hv : s.base.views[v]? = some view) (hc : view.coll ≠ .courses) :
    act E s (.editAction v i onScreen) = none ↔ i ∉ onScreen ∨ numberOfRows view ≤ i := by
  have hact : act E s (.editAction v i onScreen) =
      (cellForRow view onScreen i).bind fun i => LocalViews.step E s (.base (.editForm v i)) := by
    simp only [act, hv, Option.bind_eq_bind, Option.bind_some]
    cases hcoll : view.coll with
    | courses => exact absurd hcoll hc
    | _ => cases cellForRow view onScreen i <;> rfl
  rw [hact, cellForRow]
  split_ifs with hcell
  · obtain ⟨hon, hi⟩ := hcell
    have hform := mt (editForm_eq_none_iff (h.views_ok view (List.mem_of_getElem? hv)) hc i).1 (not_le.2 hi)
    obtain ⟨form, hform⟩ := Option.ne_none_iff_exists'.1 hform
    refine iff_of_false ?_ ?_
    · simp [step_base_eq_none_iff, System.step, hv, hform]
    · rintro (hoff | hgone)
      · exact hoff hon
      · exact absurd hi (not_lt.2 hgone)
  · refine iff_of_true rfl ?_
    rwa [not_and_or, not_lt] at hcell

theorem deleteAction_eq_none_iff {v i : ℕ} {view : View} (hv : s.base.views[v]? = some view) :
    act E s (.deleteAction v i) = none ↔ numberOfRows view ≤ i := by
  have hnone : act E s (.deleteAction v i) = none ↔ view.delete E i = none := by
    rw [act, step_base_eq_none_iff]
    simp only [System.step, hv, Option.bind_eq_bind, Option.bind_some]
    cases view.delete E i <;> simp
  rw [hnone, View.delete_eq, Option.map_eq_none_iff, List.getElem?_eq_none_iff, ← numberOfRows_eq]

/-- what traps of all that is offered -/
theorem act_eq_none_iff (h : Knowledge E s) {a : Act} (ha : Offered s a) : act E s a = none ↔ Crash s a := by
  cases a with
  | tap v i =>
    obtain ⟨view, hv, hi⟩ := ha
    exact iff_of_false (tap_isSome h hv hi) (fun hc => by cases hc)
  | addButton v =>
    obtain ⟨view, hv⟩ := ha
    exact iff_of_false (addButton_isSome hv) (fun hc => by cases hc)
  | menu v item =>
    obtain ⟨view, hv, hcoll⟩ := ha
    cases item with
    | course =>
      refine iff_of_true ?_ (.noSegue v)
      simp only [act, hv, hcoll, Option.bind_eq_bind, Option.bind_some]
      rfl
    | _ => exact iff_of_false (by simp [act]) (fun hc => by cases hc)
  | editAction v i onScreen =>
    obtain ⟨view, hv, hc⟩ := ha
    rw [editAction_eq_none_iff h hv hc]
    refine ⟨.noCell v i onScreen view hv, ?_⟩
    intro hcrash
    cases hcrash with
    | noCell _ _ _ view' hv' hcell => rwa [Option.some.inj (hv.symm.trans hv')]
  | deleteAction v i =>
    obtain ⟨view, hv⟩ := ha
    rw [deleteAction_eq_none_iff hv]
    refine ⟨.rowGone v i view hv, ?_⟩
    intro hcrash
    cases hcrash with
    | rowGone _ _ view' hv' hgone => rwa [Option.some.inj (hv.symm.trans hv')]
  | op o => exact op_eq_none_iff h ha

end GradeKeep.Traps
