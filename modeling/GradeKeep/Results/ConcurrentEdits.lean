/-
Two edit sessions on one document, from any two clients, in any interleaving.

An edit form is filled from its client's row when it opens, and its button writes every text field, also those the user
left alone. `updateData` merges, so the grade that a listener keeps in the document survives; but of two sessions the
one whose update is applied later decides every field it shows. It writes back what its row showed, and with it undoes
whatever the other session changed in the meantime, without an error on either side.

`EditKind` is what the category form and the assignment form have in common: the texts, the key each is stored under,
and how each is read. `Session` is one edit session found in a run.

Results:
- `field_of_last`: in a run whose last write to decide the record's fields is an update, the document holds what that
  update gave them;
- `Session.writes`, `Session.holder_eq`: what a session writes, and what its holders are;
- `later_edit_wins`: of two sessions on disjoint fields the later one decides every field, and the changes of the
  earlier one are kept exactly when the later session's row already showed them; an assignment's grade fits its credits
  anyway;
- `rename_lost`: a rename undone by a change of the weight.
-/
import GradeKeep.Results.DirectRuns

namespace GradeKeep.ConcurrentEdits

open GradeKeep.SwiftDouble GradeKeep.Firestore GradeKeep.Schema GradeKeep.Listeners GradeKeep.Forms GradeKeep.System
open GradeKeep.WellFormed GradeKeep.Invariant GradeKeep.DirectRuns

/-! ## The records that forms edit -/

/-- the text a form's holder gets for a value of its row -/
def holderText (E : Env) : Value → String
  | .string s => s
  | .double x => E.describe x

/-- a number's holder text parses back to it -/
def ReadsBack (E : Env) (v : Value) : Prop := ∀ x, v = .double x → Double.ofText (E.describe x) = some x

instance (E : Env) (v : Value) : Decidable (ReadsBack E v) :=
  match v with
  | .string _ => isTrue fun x h => by cases h
  | .double x => decidable_of_iff (Double.ofText (E.describe x) = some x)
    ⟨fun h y hy => Value.double.inj hy ▸ h, fun h => h x rfl⟩

/-- a kind of record with an edit form over the text fields F -/
structure EditKind (F : Type) [DecidableEq F] [Fintype F] where
  coll : Coll
  body : EditForm F → FormBody
  /-- the key a text field is stored under -/
  key : F → String
  /-- the value of a text; `none` if it is not valid -/
  value : F → String → Option Value
  /-- the id and the values of row i -/
  row : Rows → ℕ → Option (Segment × (F → Value))
  body_injective : ∀ g g', body g = body g' → g = g'
  type_body : ∀ g e b, FormBody.type (body g) e = some b → ∃ c, b = body (g.change c)
  /-- the form opens with the texts of its row -/
  editForm_body : ∀ (E : Env) (v : View) (i : ℕ) (f : Form) (id : Segment) (shown : F → Value), v.coll = coll →
    v.editForm E i = some f → row v.rows i = some (id, shown) →
    f.body = body (.load .edit fun j => holderText E (shown j)) ∧
      ∀ j, ReadsBack E (shown j) → value j (holderText E (shown j)) = some (shown j)
  /-- its button sends every text -/
  press_data : ∀ (f : Form) (g : EditForm F) (r : Request), f.body = body g → f.press = some [r] →
    ∀ j x, value j (g.text j) = some x → r.data (key j) = some x

/-! ### Categories -/

def catKey : CatField → String
  | .catname => Cat.name.rawValue
  | .weight => Cat.weight.rawValue

def catValue : CatField → String → Option Value
  | .catname, text => some (.string text)
  | .weight, text => (Double.ofText text).map .double

def catShown (category : Category) : CatField → Value
  | .catname => category.name
  | .weight => category.weight

def catRow : Rows → ℕ → Option (Segment × (CatField → Value))
  | .categories l, i => l[i]?.map fun category => (category.id, catShown category)
  | _, _ => none

theorem category_editForm (E : Env) (v : View) (i : ℕ) (f : Form) (id : Segment) (shown : CatField → Value)
    {k : Segment} (hc : v.coll = .categories k) (hf : v.editForm E i = some f)
    (hrow : catRow v.rows i = some (id, shown)) :
    f.body = .category (.load .edit fun j => holderText E (shown j)) ∧
      ∀ j, ReadsBack E (shown j) → catValue j (holderText E (shown j)) = some (shown j) := by
  obtain ⟨client, coll, rows, pending, last⟩ := v
  subst hc
  cases rows with
  | categories l =>
    simp only [View.editForm, Option.bind_eq_bind, Option.bind_eq_some_iff, Option.some.injEq] at hf
    obtain ⟨category, hi, name, hname, weight, hweight, rfl⟩ := hf
    rw [Value.asString_eq_some] at hname
    rw [Value.asDouble_eq_some] at hweight
    simp only [catRow, hi, Option.map_some, Option.some.injEq, Prod.mk.injEq] at hrow
    obtain ⟨-, rfl⟩ := hrow
    have htexts : catHolder name (E.describe weight) = fun j => holderText E (catShown category j) := by
      funext j
      cases j <;> simp [catHolder, catShown, hname, hweight, holderText]
    refine ⟨congrArg (fun h => FormBody.category (.load .edit h)) htexts, ?_⟩
    intro j hread
    cases j with
    | catname => simp [catShown, hname, holderText, catValue]
    | weight => simp [catShown, hweight, holderText, catValue, hread weight hweight]
  | courses l => cases hrow
  | assignments l => cases hrow

theorem category_press (f : Form) (g : NewCat) (r : Request) (hg : f.body = .category g) (h : f.press = some [r])
    (j : CatField) (x : Value) (hx : catValue j (g.text j) = some x) : r.data (catKey j) = some x := by
  simp only [Form.press, hg, Option.ite_none_right_eq_some] at h
  have hdata := NewCat.confirm_data h.2
  cases j with
  | catname =>
    rw [← hx]
    rcases hdata with hr | hr <;> rw [hr] <;> rfl
  | weight =>
    obtain ⟨w, hw, rfl⟩ := Option.map_eq_some_iff.1 hx
    rcases hdata with hr | hr <;> rw [hr] <;>
      simp [NewCat.newCategory, NewCat.editedCategory, NewCat.catweight, catKey, Cat.rawValue, hw]

def categoryKind (k : Segment) : EditKind CatField where
  coll := .categories k
  body := .category
  key := catKey
  value := catValue
  row := catRow
  body_injective _ _ h := FormBody.category.inj h
  type_body g e b h := by
    cases e with
    | category field text => exact ⟨(field, text), (Option.some.inj h).symm⟩
    | cname text => cases h
    | assignment field text => cases h
  editForm_body E v i f id shown hc hf hrow := category_editForm E v i f id shown hc hf hrow
  press_data f g r hg h := category_press f g r hg h

/-! ### Assignments -/

def assKey : AssField → String
  | .assname => Ass.name.rawValue
  | .credit => Ass.credit.rawValue
  | .totalcredit => Ass.totalcredit.rawValue

def assValue : AssField → String → Option Value
  | .assname, text => some (.string text)
  | .credit, text => (Double.ofText text).map .double
  | .totalcredit, text => (Double.ofText text).map .double

def assShown (assignment : Assignment) : AssField → Value
  | .assname => assignment.name
  | .credit => assignment.credit
  | .totalcredit => assignment.totalcredit

def assRow : Rows → ℕ → Option (Segment × (AssField → Value))
  | .assignments l, i => l[i]?.map fun assignment => (assignment.id, assShown assignment)
  | _, _ => none

theorem assignment_editForm (E : Env) (v : View) (i : ℕ) (f : Form) (id : Segment) (shown : AssField → Value)
    {k j : Segment} (hc : v.coll = .assignments k j) (hf : v.editForm E i = some f)
    (hrow : assRow v.rows i = some (id, shown)) :
    f.body = .assignment (.load .edit fun j => holderText E (shown j)) ∧
      ∀ j, ReadsBack E (shown j) → assValue j (holderText E (shown j)) = some (shown j) := by
  obtain ⟨client, coll, rows, pending, last⟩ := v
  subst hc
  cases rows with
  | assignments l =>
    simp only [View.editForm, Option.bind_eq_bind, Option.bind_eq_some_iff, Option.some.injEq] at hf
    obtain ⟨assignment, hi, name, hname, credit, hcredit, totalcredit, htotal, rfl⟩ := hf
    rw [Value.asString_eq_some] at hname
    rw [Value.asDouble_eq_some] at hcredit htotal
    simp only [assRow, hi, Option.map_some, Option.some.injEq, Prod.mk.injEq] at hrow
    obtain ⟨-, rfl⟩ := hrow
    have htexts : assHolder name (E.describe credit) (E.describe totalcredit) =
        fun j => holderText E (assShown assignment j) := by
      funext j
      cases j <;> simp [assHolder, assShown, hname, hcredit, htotal, holderText]
    refine ⟨congrArg (fun h => FormBody.assignment (.load .edit h)) htexts, ?_⟩
    intro j hread
    cases j with
    | assname => simp [assShown, hname, holderText, assValue]
    | credit => simp [assShown, hcredit, holderText, assValue, hread credit hcredit]
    | totalcredit => simp [assShown, htotal, holderText, assValue, hread totalcredit htotal]
  | courses l => cases hrow
  | categories l => cases hrow

theorem assignment_press (f : Form) (g : NewAss) (r : Request) (hg : f.body = .assignment g) (h : f.press = some [r])
    (j : AssField) (x : Value) (hx : assValue j (g.text j) = some x) : r.data (assKey j) = some x := by
  simp only [Form.press, hg, Option.ite_none_right_eq_some] at h
  obtain ⟨c, t, hc, ht, hr⟩ := NewAss.assignment_eq (NewAss.confirm_data h.2)
  rw [hr]
  cases j with
  | assname => rw [← hx]; rfl
  | credit =>
    obtain ⟨y, hy, rfl⟩ := Option.map_eq_some_iff.1 hx
    have hcy : c = y := Option.some.inj (hc.symm.trans hy)
    rw [← hcy]; rfl
  | totalcredit =>
    obtain ⟨y, hy, rfl⟩ := Option.map_eq_some_iff.1 hx
    have hty : t = y := Option.some.inj (ht.symm.trans hy)
    rw [← hty]; rfl

def assignmentKind (k j : Segment) : EditKind AssField where
  coll := .assignments k j
  body := .assignment
  key := assKey
  value := assValue
  row := assRow
  body_injective _ _ h := FormBody.assignment.inj h
  type_body g e b h := by
    cases e with
    | assignment field text => exact ⟨(field, text), (Option.some.inj h).symm⟩
    | cname text => cases h
    | category field text => cases h
  editForm_body E v i f id shown hc hf hrow := assignment_editForm E v i f id shown hc hf hrow
  press_data f g r hg h := assignment_press f g r hg h

/-! ## The writes a run applies -/

/-- the write a step applies, if it applies one -/
def written (s : St) : Op → List Write
  | .apply c _ => ((takeWrite c s.flight).map (·.1)).toList
  | _ => []

/-- the writes the run applies, in order -/
def appliedWrites (E : Env) : St → List Op → List Write
  | _, [] => []
  | s, o :: ops => written s o ++ ((step E s o).map fun s' => appliedWrites E s' ops).getD []

/-- a step leaves under p what the write it applies there makes of it -/
theorem step_lookup {E : Env} {s s' : St} {o : Op} (h : Inv E s) (hs : step E s o = some s') (p : DocPath) :
    s'.store.lookup p = Write.results ((written s o).filter (·.path = p)) (s.store.lookup p) := by
  have hlocal : Local o → written s o = [] := by
    intro ho
    cases o with
    | apply c notify => exact ho.elim
    | _ => rfl
  cases step_effect h hs with
  | load o client c ho hc he => rw [he, hlocal ho]; rfl
  | form o forms ho hf he => rw [he, hlocal ho]; rfl
  | add i f c id data hf hpress hc hdata hid he => rw [he]; rfl
  | edit i f c id new data hf hpress hborn hdata he => rw [he]; rfl
  | remove o client c ho id hborn he => rw [he, hlocal ho]; rfl
  | apply c w pre post notify hflight hpre he =>
    have htake : written s (.apply c notify) = [w] := by
      rw [written, hflight, takeWrite_append hpre]
      rfl
    rw [he, htake, applied, Write.lookup_apply]
    by_cases hp : w.path = p
    · rw [if_pos hp.symm, List.filter_cons_of_pos (by simpa using hp)]
      rfl
    · rw [if_neg fun e => hp e.symm, List.filter_cons_of_neg (by simpa using hp)]
      rfl
  | deliver i v documents rest hv hpending he => rw [he]; rfl

theorem run_lookup {E : Env} {s t : St} {ops : List Op} (h : Inv E s) (hrun : run E s ops = some t) (p : DocPath) :
    t.store.lookup p = Write.results ((appliedWrites E s ops).filter (·.path = p)) (s.store.lookup p) := by
  induction ops generalizing s with
  | nil =>
    have hst : s = t := Option.some.inj hrun
    rw [hst]; rfl
  | cons o ops ih =>
    rw [run_cons] at hrun
    obtain ⟨s', hs, hrun⟩ := Option.bind_eq_some_iff.1 hrun
    rw [ih ((step_effect h hs).inv h) hrun, step_lookup h hs, appliedWrites, hs, Option.map_some, Option.getD_some,
      List.filter_append, Write.results_append]

variable {F : Type} [DecidableEq F] [Fintype F]

/-- the write decides a text field of the record, as every write of a form or of a Delete does; the update of a grade
that a listener issues does not -/
def EditKind.edits (K : EditKind F) : Write → Bool
  | .update _ data => decide (∃ j, (data (K.key j)).isSome = true)
  | _ => true

/-- the users' writes to the document of this id, in the order the run applies them -/
def EditKind.userWrites (K : EditKind F) (E : Env) (s : St) (ops : List Op) (id : Segment) : List Write :=
  ((appliedWrites E s ops).filter (·.path = K.coll.doc E.uid id)).filter K.edits

theorem EditKind.edits_eq_false {K : EditKind F} {w : Write} (h : K.edits w = false) :
    (∃ p data, w = .update p data) ∧ ∀ j, w.decides (K.key j) = false := by
  cases w with
  | add p data => cases h
  | update p data =>
    have hall : ∀ j, data (K.key j) = none := by simpa [EditKind.edits] using h
    exact ⟨⟨p, data, rfl⟩, fun j => by rw [Write.decides, hall j]; rfl⟩
  | delete p => cases h

/-- when the users' writes in a run are all updates, a document stored before is stored after, and holds in each text
field what the last of them gave it -/
theorem field_of_last {K : EditKind F} {E : Env} {s t : St} {ops : List Op} {id : Segment} (h : Inv E s)
    (hrun : run E s ops = some t) (hstored : (s.store.lookup (K.coll.doc E.uid id)).isSome) {ws : List Write}
    {q : DocPath} {data : Doc} (hws : ∀ w ∈ ws, ∃ p data, w = Write.update p data)
    (hwrites : K.userWrites E s ops id = ws ++ [.update q data]) :
    ∃ d, t.store.lookup (K.coll.doc E.uid id) = some d ∧
      ∀ j x, data (K.key j) = some x → d (K.key j) = some x := by
  have hlookup := run_lookup h hrun (K.coll.doc E.uid id)
  rw [EditKind.userWrites] at hwrites
  set L := (appliedWrites E s ops).filter (·.path = K.coll.doc E.uid id)
  have hupdates : ∀ w ∈ L, ∃ p data, w = Write.update p data := by
    intro w hw
    cases hedit : K.edits w with
    | true =>
      have hmem : w ∈ ws ++ [.update q data] := hwrites ▸ List.mem_filter.2 ⟨hw, hedit⟩
      rcases List.mem_append.1 hmem with hmem | hmem
      · exact hws w hmem
      · exact ⟨q, data, List.mem_singleton.1 hmem⟩
    | false => exact (EditKind.edits_eq_false hedit).1
  obtain ⟨d, hd⟩ := Option.isSome_iff_exists.1 (Write.results_isSome hupdates hstored)
  refine ⟨d, hlookup.trans hd, ?_⟩
  intro j x hx
  -- the last user's write, with only grade updates after it
  obtain ⟨a, b, hL, -, hb⟩ := List.filter_eq_append_iff.1 hwrites
  obtain ⟨b₁, b₂, hb', -, -, hb₂⟩ := List.filter_eq_cons_iff.1 hb
  have hundecided : ∀ w ∈ b₂, w.decides (K.key j) = false := by
    intro w hw
    have hedit : K.edits w = false := by simpa using List.filter_eq_nil_iff.1 hb₂ w hw
    exact (EditKind.edits_eq_false hedit).2 j
  rw [hL, hb', ← List.append_assoc] at hd
  exact Write.results_last hx hundecided hd

/-! ## Forms during a run -/

/-- what a step makes of an open form -/
theorem step_body {E : Env} {s s' : St} {o : Op} (hs : step E s o = some s') {n : ℕ} {f : Form}
    (hf : s.forms[n]? = some f) :
    ∃ f', s'.forms[n]? = some f' ∧ (f'.body = f.body ∨ ∃ e, f.body.type e = some f'.body) := by
  have hlt := (List.getElem?_eq_some_iff.1 hf).1
  cases stepped hs with
  | newForm v view hv => exact ⟨f, (List.getElem?_append_left hlt).trans hf, Or.inl rfl⟩
  | editForm v i view form hv hform => exact ⟨f, (List.getElem?_append_left hlt).trans hf, Or.inl rfl⟩
  | type i e form body hform hbody =>
    by_cases hi : i = n
    · subst hi
      have hff : form = f := Option.some.inj (hform.symm.trans hf)
      subst hff
      exact ⟨_, List.getElem?_set_self hlt, Or.inr ⟨e, hbody⟩⟩
    · exact ⟨f, (List.getElem?_set_ne hi).trans hf, Or.inl rfl⟩
  | _ => exact ⟨f, hf, Or.inl rfl⟩

/-- an open edit form keeps the texts it was opened with -/
theorem EditKind.run_holder (K : EditKind F) {E : Env} {s s' : St} {ops : List Op} (hrun : run E s ops = some s')
    {n : ℕ} {f : Form} {g : EditForm F} (hf : s.forms[n]? = some f) (hg : f.body = K.body g) :
    ∃ f' g', s'.forms[n]? = some f' ∧ f'.body = K.body g' ∧ g'.holder = g.holder := by
  refine run_induction (P := fun s => ∃ f' g', s.forms[n]? = some f' ∧ f'.body = K.body g' ∧ g'.holder = g.holder)
    ?_ s ops s' ⟨f, g, hf, hg, rfl⟩ hrun
  intro s o s' h hs
  obtain ⟨f, g, hf, hg, hh⟩ := h
  obtain ⟨f', hf', hbody | ⟨e, hbody⟩⟩ := step_body hs hf
  · exact ⟨f', g, hf', hbody.trans hg, hh⟩
  · rw [hg] at hbody
    obtain ⟨c, hc⟩ := K.type_body g e _ hbody
    exact ⟨f', g.change c, hf', hc, (EditForm.change_frame g c).2.trans hh⟩

/-! ## Sessions -/

/-- an edit session on the document of this id, found in the run of `ops` from s -/
structure Session (K : EditKind F) (E : Env) (s : St) (ops : List Op) (id : Segment) where
  /-- what happens before the form opens, until its button is pressed, and afterwards -/
  pre : List Op
  mid : List Op
  post : List Op
  /-- the view and the row the form is opened on, and the state then -/
  view : ℕ
  row : ℕ
  opened : St
  v : View
  shown : F → Value
  /-- the state, the form and the fields it sends when the button is pressed -/
  pressed : St
  f : Form
  form : EditForm F
  data : Doc
  drawn : Segment
  ops_eq : ops = pre ++ .editForm view row :: (mid ++ .press opened.forms.length drawn :: post)
  run_pre : run E s pre = some opened
  view_eq : opened.views[view]? = some v
  coll_eq : v.coll = K.coll
  row_eq : K.row v.rows row = some (id, shown)
  run_mid : run E opened (.editForm view row :: mid) = some pressed
  form_eq : pressed.forms[opened.forms.length]? = some f
  body_eq : f.body = K.body form
  press_eq : f.press = some [.updateData (K.coll.doc E.uid id) data]

namespace Session

variable {K : EditKind F} {E : Env} {s : St} {ops : List Op} {id : Segment} (S : Session K E s ops id)

def client : ℕ := S.v.client

/-- the write its button puts in flight -/
def write : Write := .update (K.coll.doc E.uid id) S.data

/-- the user left another text in the field than the form was opened with -/
def Changes (j : F) : Prop := S.form.text j ≠ S.form.holder j

instance (j : F) : Decidable (S.Changes j) := inferInstanceAs (Decidable (_ ≠ _))

/-- the texts the user changed are valid -/
def Valid : Prop := ∀ j, S.Changes j → (K.value j (S.form.text j)).isSome

instance : Decidable S.Valid := inferInstanceAs (Decidable (∀ j, S.Changes j → _))

/-- the form opened with the texts of its client's row, and they are its holders still -/
theorem holder_eq (j : F) : S.form.holder j = holderText E (S.shown j) ∧
    (ReadsBack E (S.shown j) → K.value j (holderText E (S.shown j)) = some (S.shown j)) := by
  have hrun := S.run_mid
  rw [run_cons] at hrun
  obtain ⟨s', hs, hrun⟩ := Option.bind_eq_some_iff.1 hrun
  obtain ⟨v, form, hv, hform, rfl⟩ : ∃ v form, S.opened.views[S.view]? = some v ∧ v.editForm E S.row = some form ∧
      s' = { S.opened with forms := S.opened.forms ++ [form] } := by
    cases stepped hs with
    | editForm _ _ v form hv hform => exact ⟨v, form, hv, hform, rfl⟩
  have hvv : v = S.v := Option.some.inj (hv.symm.trans S.view_eq)
  subst hvv
  obtain ⟨hbody, hread⟩ := K.editForm_body E S.v S.row form id S.shown S.coll_eq hform S.row_eq
  have hlast : (S.opened.forms ++ [form])[S.opened.forms.length]? = some form := by simp
  obtain ⟨f', g', hf', hg', hholder⟩ := K.run_holder hrun hlast hbody
  have hff : f' = S.f := Option.some.inj (hf'.symm.trans S.form_eq)
  have hgg : g' = S.form := K.body_injective _ _ (hg'.symm.trans (hff ▸ S.body_eq))
  rw [← hgg, hholder, EditForm.load_holder]
  exact ⟨rfl, hread j⟩

/-- **What a session writes**: the new value of a field it changed, the shown value of every other -/
theorem writes (hvalid : S.Valid) (hread : ∀ j, ReadsBack E (S.shown j)) (j : F) :
    (S.Changes j → S.data (K.key j) = K.value j (S.form.text j)) ∧
      (¬S.Changes j → S.data (K.key j) = some (S.shown j)) := by
  have hpress := K.press_data S.f S.form _ S.body_eq S.press_eq j
  refine ⟨?_, ?_⟩
  · intro hj
    obtain ⟨x, hx⟩ := Option.isSome_iff_exists.1 (hvalid j hj)
    exact (hpress x hx).trans hx.symm
  · intro hj
    obtain ⟨hholder, hback⟩ := S.holder_eq j
    have htext : S.form.text j = holderText E (S.shown j) := (not_not.1 hj).trans hholder
    exact hpress _ (htext ▸ hback (hread j))

end Session

/-- **The later edit wins.** Let two edit sessions on one stored document, each from a row its client shows, change
disjoint fields to valid texts, and let their updates be the users' writes to the document that a run applies, the
second after the first. The document then holds the second session's new values, in every other field what the second
session's row showed when its form opened, and so the new values of the first session exactly if that row showed them
already. An assignment's grade is the one of its stored credit and total credit. -/
theorem later_edit_wins (K : EditKind F) (E : Env) (s t : St) (ops : List Op) (id : Segment) (hs : Reachable E s)
    (hrun : run E s ops = some t) (hstored : (s.store.lookup (K.coll.doc E.uid id)).isSome)
    (S₁ S₂ : Session K E s ops id) (hvalid : S₂.Valid)
    (hread : ∀ j, ReadsBack E (S₂.shown j)) (hdisjoint : ∀ j, ¬(S₁.Changes j ∧ S₂.Changes j))
    (hwrites : K.userWrites E s ops id = [S₁.write, S₂.write]) :
    ∃ d, t.store.lookup (K.coll.doc E.uid id) = some d ∧
      (∀ j, S₂.Changes j → d (K.key j) = K.value j (S₂.form.text j)) ∧
      (∀ j, ¬S₂.Changes j → d (K.key j) = some (S₂.shown j)) ∧
      ((∀ j, S₁.Changes j → d (K.key j) = K.value j (S₁.form.text j)) ↔
        ∀ j, S₁.Changes j → some (S₂.shown j) = K.value j (S₁.form.text j)) ∧
      (∀ k i, K.coll = .assignments k i → ∃ c t, d Ass.credit.rawValue = some (.double c) ∧
        d Ass.totalcredit.rawValue = some (.double t) ∧ d Ass.grade.rawValue = some (.double (assGrade c t))) := by
  have hinv := reachable_inv hs
  have hfirst : ∀ w ∈ [S₁.write], ∃ p data, w = Write.update p data :=
    fun w hw => ⟨_, _, List.mem_singleton.1 hw⟩
  obtain ⟨d, hd, hfields⟩ := field_of_last hinv hrun hstored hfirst hwrites
  have hnew : ∀ j, S₂.Changes j → d (K.key j) = K.value j (S₂.form.text j) := by
    intro j hj
    obtain ⟨x, hx⟩ := Option.isSome_iff_exists.1 (hvalid j hj)
    rw [hx]
    exact hfields j x (((S₂.writes hvalid hread j).1 hj).trans hx)
  have hold : ∀ j, ¬S₂.Changes j → d (K.key j) = some (S₂.shown j) :=
    fun j hj => hfields j _ ((S₂.writes hvalid hread j).2 hj)
  have hfield : ∀ j, S₁.Changes j → d (K.key j) = some (S₂.shown j) := fun j hj => hold j fun h => hdisjoint j ⟨hj, h⟩
  refine ⟨d, hd, hnew, hold, forall₂_congr fun j hj => by rw [hfield j hj], ?_⟩
  intro k i hk
  have hinvt : Inv E t := run_induction (fun _ _ _ h hs => step_inv h hs) s ops t hinv hrun
  have hok := hinvt.store_ok.docOk (e := (id, d)) (mem_docs.2 hd)
  rw [hk] at hok
  exact hok.2

/-! ## A rename undone -/

deriving instance DecidableEq for Write, Request

/-- the form of this kind in a form's body, if it is one -/
abbrev EditKind.Finds (K : EditKind F) : Type := ∀ body, Option { g : EditForm F // body = K.body g }

def categoryForm (k : Segment) : (categoryKind k).Finds
  | .category g => some ⟨g, rfl⟩
  | _ => none

def assignmentForm (k j : Segment) : (assignmentKind k j).Finds
  | .assignment g => some ⟨g, rfl⟩
  | _ => none

/-- the session whose form opens after `pre` and is confirmed after `mid`, if the run has one there -/
def findSession (K : EditKind F) (find : K.Finds) (E : Env) (s : St) (ops : List Op) (id : Segment)
    (pre mid post : List Op) (view row : ℕ) (drawn : Segment) : Option (Session K E s ops id) :=
  match run_pre : run E s pre with
  | none => none
  | some opened =>
  match view_eq : opened.views[view]? with
  | none => none
  | some v =>
  match row_eq : K.row v.rows row with
  | none => none
  | some (id', shown) =>
  match run_mid : run E opened (.editForm view row :: mid) with
  | none => none
  | some pressed =>
  match form_eq : pressed.forms[opened.forms.length]? with
  | none => none
  | some f =>
  match find f.body, press_eq : f.press with
  | some form, some [.updateData p data] =>
    if h : ops = pre ++ .editForm view row :: (mid ++ .press opened.forms.length drawn :: post) ∧
        v.coll = K.coll ∧ id' = id ∧ p = K.coll.doc E.uid id then
      some ⟨pre, mid, post, view, row, opened, v, shown, pressed, f, form.1, data, drawn, h.1, run_pre, view_eq, h.2.1,
        h.2.2.1 ▸ row_eq, run_mid, form_eq, form.2, h.2.2.2 ▸ press_eq⟩
    else none
  | _, _ => none

/-- clients 0 and 1 come to show the same category, "Labs" of weight 1 -/
def setupOps : List Op :=
  [.viewDidLoad 0, .newForm 0, .type 0 (.cname "CS"), .press 0 sampleCourse, .apply 0 [0], .deliver 0, .deliver 0,
   .segue 0 0, .newForm 1, .type 1 (.category .catname "Labs"), .type 1 (.category .weight "1"),
   .press 1 sampleCategory, .apply 0 [1], .deliver 1, .deliver 1, .viewDidLoad 1, .deliver 2, .segue 2 0, .deliver 3]

def bothShow : St := after setupOps

/-- both open the category; 0 types another name and confirms, 1 another weight and confirms; all writes are applied -/
def editOps : List Op :=
  [.editForm 1 0, .editForm 3 0, .type 2 (.category .catname "Lab"), .type 3 (.category .weight "2"), .press 2 undrawn,
   .press 3 undrawn₁, .apply 0 [], .apply 0 [], .apply 0 [], .apply 1 [], .apply 1 []]

def findRename : Option (Session (categoryKind sampleCourse) sampleEnv bothShow editOps sampleCategory) :=
  findSession _ (categoryForm sampleCourse) sampleEnv bothShow editOps sampleCategory [] ((editOps.drop 1).take 3)
    (editOps.drop 5) 1 0 undrawn

def findReweigh : Option (Session (categoryKind sampleCourse) sampleEnv bothShow editOps sampleCategory) :=
  findSession _ (categoryForm sampleCourse) sampleEnv bothShow editOps sampleCategory (editOps.take 1)
    ((editOps.drop 2).take 3) (editOps.drop 6) 3 0 undrawn₁

theorem sessions_found : findRename.isSome ∧ findReweigh.isSome := by decide +kernel

def rename : Session (categoryKind sampleCourse) sampleEnv bothShow editOps sampleCategory :=
  findRename.get sessions_found.1

def reweigh : Session (categoryKind sampleCourse) sampleEnv bothShow editOps sampleCategory :=
  findReweigh.get sessions_found.2

/-- the category both edit -/
def labs : DocPath := (categoryKind sampleCourse).coll.doc sampleEnv.uid sampleCategory

def bothDone : St := (run sampleEnv bothShow editOps).getD init

/-- all that is computed of this run -/
theorem editOps_facts :
    (run sampleEnv init setupOps).isSome ∧ (run sampleEnv bothShow editOps).isSome ∧
    (Store.find bothShow.store labs).isSome ∧ rename.client = 0 ∧ reweigh.client = 1 ∧ rename.Valid ∧ reweigh.Valid ∧
    (∀ j, ReadsBack sampleEnv (rename.shown j)) ∧ (∀ j, ReadsBack sampleEnv (reweigh.shown j)) ∧
    (∀ j, ¬(rename.Changes j ∧ reweigh.Changes j)) ∧
    (categoryKind sampleCourse).userWrites sampleEnv bothShow editOps sampleCategory = [rename.write, reweigh.write] ∧
    rename.Changes .catname ∧ rename.form.text .catname = "Lab" ∧
    (Store.find bothDone.store labs).bind (fun d => d Cat.name.rawValue) = some (.string "Labs") := by
  decide +kernel

theorem run_getD {E : Env} {s : St} {ops : List Op} (h : (run E s ops).isSome) :
    run E s ops = some ((run E s ops).getD init) := by
  obtain ⟨t, ht⟩ := Option.isSome_iff_exists.1 h
  rw [ht, Option.getD_some]

theorem bothShow_reachable : Reachable sampleEnv bothShow := reachable_after _ editOps_facts.1

/-- **A rename is lost.** Two clients edit one category, the first its name, the second its weight, from rows that show
the same category; each holder parses back, each text is valid, and both updates are applied. The category keeps its
old name. -/
theorem rename_lost :
    Reachable sampleEnv bothShow ∧ run sampleEnv bothShow editOps = some bothDone ∧ rename.client ≠ reweigh.client ∧
    rename.Valid ∧ reweigh.Valid ∧
    (∀ j, ReadsBack sampleEnv (rename.shown j)) ∧ (∀ j, ReadsBack sampleEnv (reweigh.shown j)) ∧
    (∀ j, ¬(rename.Changes j ∧ reweigh.Changes j)) ∧
    (categoryKind sampleCourse).userWrites sampleEnv bothShow editOps sampleCategory = [rename.write, reweigh.write] ∧
    ∃ d, bothDone.store.lookup labs = some d ∧ rename.Changes .catname ∧
      d (catKey .catname) ≠ catValue .catname (rename.form.text .catname) := by
  obtain ⟨-, hrun, -, hc₀, hc₁, hv₀, hv₁, hr₀, hr₁, hdisjoint, hwrites, hchanges, htext, hname⟩ := editOps_facts
  obtain ⟨d, hd, hname⟩ := Option.bind_eq_some_iff.1 hname
  refine ⟨bothShow_reachable, run_getD hrun, ?_, hv₀, hv₁, hr₀, hr₁, hdisjoint, hwrites, d, ?_, hchanges, ?_⟩
  · rw [hc₀, hc₁]
    decide
  · exact (Store.find_eq_lookup _ _).symm.trans hd
  · rw [htext, catKey, hname, catValue]
    decide

/-! ## Credits undone -/

/-- both clients of the second session open its assignment of 1 of 2; 0 types another credit and confirms, 1 another
total credit and confirms -/
def creditOps : List Op :=
  [.editForm 2 1, .editForm 5 1, .type 5 (.assignment .credit "2"), .type 6 (.assignment .totalcredit "3"),
   .press 5 undrawn₁, .press 6 undrawn₂, .apply 0 [], .apply 1 []]

def findRecredit :
    Option (Session (assignmentKind sampleCourse sampleCategory) sampleEnv pair creditOps secondAssignment) :=
  findSession _ (assignmentForm sampleCourse sampleCategory) sampleEnv pair creditOps secondAssignment []
    ((creditOps.drop 1).take 3) (creditOps.drop 5) 2 1 undrawn₁

def findRetotal :
    Option (Session (assignmentKind sampleCourse sampleCategory) sampleEnv pair creditOps secondAssignment) :=
  findSession _ (assignmentForm sampleCourse sampleCategory) sampleEnv pair creditOps secondAssignment
    (creditOps.take 1) ((creditOps.drop 2).take 3) (creditOps.drop 6) 5 1 undrawn₂

theorem credit_sessions_found : findRecredit.isSome ∧ findRetotal.isSome := by decide +kernel

def recredit : Session (assignmentKind sampleCourse sampleCategory) sampleEnv pair creditOps secondAssignment :=
  findRecredit.get credit_sessions_found.1

def retotal : Session (assignmentKind sampleCourse sampleCategory) sampleEnv pair creditOps secondAssignment :=
  findRetotal.get credit_sessions_found.2

def credited : St := (run sampleEnv pair creditOps).getD init

/-- the assignment both edit -/
def half : DocPath := (assignmentKind sampleCourse sampleCategory).coll.doc sampleEnv.uid secondAssignment

/-- all that is computed of this run -/
theorem creditOps_facts :
    (run sampleEnv pair creditOps).isSome ∧ (Store.find pair.store half).isSome ∧ retotal.Valid ∧
    (∀ j, ReadsBack sampleEnv (retotal.shown j)) ∧ (∀ j, ¬(recredit.Changes j ∧ retotal.Changes j)) ∧
    (assignmentKind sampleCourse sampleCategory).userWrites sampleEnv pair creditOps secondAssignment =
      [recredit.write, retotal.write] ∧
    recredit.Changes .credit ∧ ¬retotal.Changes .credit ∧ retotal.Changes .totalcredit := by
  decide +kernel

/-- of the two pairs of sessions the later one wins: the rename is undone, and so is the credit -/
theorem later_edit_wins_both :
    (∃ d, bothDone.store.lookup labs = some d ∧
      (∀ j, reweigh.Changes j → d (catKey j) = catValue j (reweigh.form.text j)) ∧
      ∀ j, ¬reweigh.Changes j → d (catKey j) = some (reweigh.shown j)) ∧
    recredit.Changes .credit ∧ ∃ d, credited.store.lookup half = some d ∧
      d (assKey .credit) = some (retotal.shown .credit) ∧
      d (assKey .totalcredit) = assValue .totalcredit (retotal.form.text .totalcredit) ∧
      ∃ c t, d "credit" = some (.double c) ∧ d "totalcredit" = some (.double t) ∧
        d "assgrade" = some (.double (assGrade c t)) := by
  refine ⟨?_, ?_⟩
  · obtain ⟨-, hrun, hstored, -, -, -, hvalid, -, hread, hdisjoint, hwrites, -⟩ := editOps_facts
    rw [Store.find_eq_lookup] at hstored
    obtain ⟨d, hd, hnew, hold, -⟩ := later_edit_wins (categoryKind sampleCourse) sampleEnv bothShow bothDone editOps
      sampleCategory bothShow_reachable (run_getD hrun) hstored rename reweigh hvalid hread hdisjoint hwrites
    exact ⟨d, hd, hnew, hold⟩
  · obtain ⟨hrun, hstored, hvalid, hread, hdisjoint, hwrites, hcredit, hkept, htotal⟩ := creditOps_facts
    rw [Store.find_eq_lookup] at hstored
    obtain ⟨d, hd, hnew, hold, -, hgrade⟩ := later_edit_wins (assignmentKind sampleCourse sampleCategory) sampleEnv pair
      credited creditOps secondAssignment pair_reachable (run_getD hrun) hstored recredit retotal hvalid hread hdisjoint
      hwrites
    have hnew' : ∀ j, retotal.Changes j → d (assKey j) = assValue j (retotal.form.text j) := hnew
    exact ⟨hcredit, d, hd, hold .credit hkept, hnew' .totalcredit htotal, hgrade sampleCourse sampleCategory rfl⟩

end GradeKeep.ConcurrentEdits
