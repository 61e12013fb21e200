/-
What users see of the gradebook.

In a settled state a table has one row for each entry of its collection in the gradebook the users made, ordered by
name. A category's cell shows its name and the percentage of its credits, an assignment's its name, its credits and its
own percentage. A course's cell shows 0, whatever the grade of the course is: the listener of the categories does not
write the field that the course list reads.

Results:
- `documents_eq`: the content of a collection that is kept up to date, as entries;
- `drawn_documents`: a table of such documents draws the cells of their entries (`shown`);
- `tables_show_gradebook`: the tables of a settled state.
-/
import GradeKeep.App.Tables
import GradeKeep.Core.Query
import GradeKeep.Results.Rendering

namespace GradeKeep.ShownTables

open GradeKeep.SwiftDouble GradeKeep.Firestore GradeKeep.Schema GradeKeep.Listeners GradeKeep.Forms GradeKeep.System
open GradeKeep.WellFormed GradeKeep.Invariant GradeKeep.DirectRuns GradeKeep.Gradebook GradeKeep.Records GradeKeep.Trace
open GradeKeep.Convergence GradeKeep.Refinement GradeKeep.Rendering GradeKeep.Tables

/-! ## Cells -/

def entryName : (c : Coll) → Entry c → String
  | .courses, entry => entry.name
  | .categories _, entry => entry.name
  | .assignments _ _, entry => entry.name

/-- the cell of an entry with this grade -/
def shown (E : Env) : (c : Coll) → Entry c → Option Double → Cell
  | .courses, entry, _ => .course (some entry.name) (E.describe 0 ++ "%")
  | .categories _, entry, grade => .category (some entry.name) (E.describe (grade.getD 0) ++ "%")
  | .assignments _ _, entry, _ => .assignment (some entry.name) (E.describe entry.credit)
      ("/" ++ E.describe entry.totalcredit) (E.describe (assgrade entry) ++ "%")

abbrev Item (c : Coll) := Sigma fun _ : Segment => Entry c

/-- the document that keeps an entry of g -/
def documentOf (g : Book) (c : Coll) (x : Item c) : Segment × Doc := (x.1, encode c x.2 (derived g c x.1))

theorem encode_name (c : Coll) (entry : Entry c) (grade : Option Double) :
    encode c entry grade c.orderKey = some (.string (entryName c entry)) := by
  cases c with
  | courses => exact (encode_ne entry grade (by decide)).trans rfl
  | categories k => exact (encode_ne entry grade (by simp only [ownKey, Coll.orderKey]; decide)).trans rfl
  | assignments k j => exact (encode_ne entry grade (by simp only [ownKey, Coll.orderKey]; decide)).trans rfl

/-- the course list reads the field that the form wrote -/
theorem courseOf_document (g : Book) (x : Item .courses) :
    courseOf (documentOf g .courses x) = some ⟨x.1, x.2.name, 0⟩ := by
  have hname : encode .courses x.2 (derived g .courses x.1) "course_name" = some (.string x.2.name) :=
    encode_name .courses x.2 _
  have hgrade : encode .courses x.2 (derived g .courses x.1) "course_grade" = some (.double 0) :=
    (encode_ne x.2 _ (by decide)).trans rfl
  simp only [courseOf, documentOf, hname, hgrade, Option.bind_some, Value.asString, Value.asDouble, Option.bind_eq_bind]

theorem categoryCell_document (E : Env) (g : Book) (k : Segment) (x : Item (.categories k)) :
    categoryCell E (categoryOf (documentOf g (.categories k) x)) =
      some (shown E (.categories k) x.2 (derived g (.categories k) x.1)) := by
  have hname : encode (.categories k) x.2 (derived g (.categories k) x.1) Cat.name.rawValue =
      some (.string x.2.name) := encode_name (.categories k) x.2 _
  have hgrade : encode (.categories k) x.2 (derived g (.categories k) x.1) Cat.grade.rawValue =
      some (.double (catgrade g k x.1)) := encode_ownKey (.categories k) x.2 _
  simp only [categoryCell, categoryOf, documentOf, hname, hgrade, Option.getD_some, Value.asString, Value.asDouble,
    Option.bind_eq_bind, Option.bind_some, shown]
  rfl

theorem assignmentCell_document (E : Env) (g : Book) (k j : Segment) (x : Item (.assignments k j)) :
    assignmentCell E (assignmentOf (documentOf g (.assignments k j) x)) =
      some (shown E (.assignments k j) x.2 (derived g (.assignments k j) x.1)) := by
  have hname : encode (.assignments k j) x.2 (derived g (.assignments k j) x.1) Ass.name.rawValue =
      some (.string x.2.name) := encode_name (.assignments k j) x.2 _
  have hcredit := entryOf_credit (entryOf_encode (.assignments k j) x.2 (derived g (.assignments k j) x.1))
  have htotal := entryOf_totalcredit (entryOf_encode (.assignments k j) x.2 (derived g (.assignments k j) x.1))
  have hgrade : encode (.assignments k j) x.2 (derived g (.assignments k j) x.1) Ass.grade.rawValue =
      some (.double (assGrade x.2.credit x.2.totalcredit)) :=
    (encode_ne x.2 _ (by simp only [ownKey]; decide)).trans rfl
  simp only [assignmentCell, assignmentOf, documentOf, hname, hcredit, htotal, hgrade, Option.getD_some,
    Value.asString, Value.asDouble, Option.bind_eq_bind, Option.bind_some, shown, assGrade_percent]

/-- a table of documents that keep entries of g draws the cells of the entries -/
theorem drawn_documents (E : Env) (g : Book) {v : View} {c : Coll} {items : List (Item c)}
    (hrows : v.rows = rowsOf c (items.map (documentOf g c))) :
    drawn E v = some (items.map fun x => shown E c x.2 (derived g c x.1)) := by
  cases c with
  | courses =>
    have hcourses : (items.map (documentOf g .courses)).filterMap courseOf =
        items.map fun x => ⟨x.1, x.2.name, 0⟩ := by
      rw [List.filterMap_map, ← List.filterMap_eq_map]
      exact List.filterMap_congr fun x _ => courseOf_document g x
    rw [rowsOf, hcourses] at hrows
    refine drawn_eq (by simp [numberOfRows, hrows]) ?_
    intro i _
    simp only [cellForRowAt, hrows, List.getElem?_map]
    cases items[i]? <;> rfl
  | categories k =>
    rw [rowsOf] at hrows
    refine drawn_eq (by simp [numberOfRows, hrows]) ?_
    intro i _
    simp only [cellForRowAt, hrows, List.getElem?_map]
    cases items[i]? with
    | none => rfl
    | some x => exact categoryCell_document E g k x
  | assignments k j =>
    rw [rowsOf] at hrows
    refine drawn_eq (by simp [numberOfRows, hrows]) ?_
    intro i _
    simp only [cellForRowAt, hrows, List.getElem?_map]
    cases items[i]? with
    | none => rfl
    | some x => exact assignmentCell_document E g k j x

/-! ## Content as entries -/

variable {E : Env} {s : St} {g : Book}

/-- documents that keep entries of g are determined by the entries -/
theorem documents_eq {c : Coll} {documents : Snapshot}
    (h : ∀ e ∈ documents, ∃ entry, e.2 = encode c entry (derived g c e.1)) :
    documents = (entriesOf c documents).map (documentOf g c) := by
  induction documents with
  | nil => rfl
  | cons e documents ih =>
    obtain ⟨entry, he⟩ := h e List.mem_cons_self
    have ih' := ih fun e' he' => h e' (List.mem_cons_of_mem e he')
    have hentry : entryOf c e.2 = some entry := by rw [he, entryOf_encode]
    have hcons : entriesOf c (e :: documents) = ⟨e.1, entry⟩ :: entriesOf c documents := by
      rw [entriesOf, List.filterMap_cons, hentry]
      rfl
    rw [hcons, List.map_cons, ← ih', documentOf, ← he]

/-- entries in the order in which queries return their documents -/
def InOrder (c : Coll) (x y : Item c) : Prop :=
  entryName c x.2 < entryName c y.2 ∨ entryName c x.2 = entryName c y.2 ∧ x.1.text ≤ y.1.text

theorem inOrder_iff (g : Book) (c : Coll) (x y : Item c) :
    sortKey c.orderKey (documentOf g c x) ≤ sortKey c.orderKey (documentOf g c y) ↔ InOrder c x y := by
  simp only [sortKey, documentOf, encode_name, Option.getD_some, Value.rank, Prod.Lex.toLex_le_toLex,
    Prod.Lex.toLex_lt_toLex, InOrder]
  simp

/-- the content of a collection whose documents are kept up to date -/
theorem content_eq (h : Reachable E s) (hs : Settled E s) (hg : Represents E s.store g) {c : Coll}
    (hk : AllKept E s c) :
    content E s.store c = (entriesOf c (content E s.store c)).map (documentOf g c) := by
  apply documents_eq
  intro e he
  have hstored := mem_docs.1 ((content_perm (reachable_inv h) c).mem_iff.1 he)
  have hd := document_of_kept h hs hg (hk.kept e.1)
  obtain ⟨entry, -, hentry⟩ := Option.map_eq_some_iff.1 (hd.symm.trans hstored)
  exact ⟨entry, hentry.symm⟩

theorem entriesOf_content (h : Reachable E s) (hg : Represents E s.store g) (c : Coll) :
    (entriesOf c (content E s.store c) : Multiset _) = (g c).entries := by
  rw [← entriesOf_docs hg c]
  exact Multiset.coe_eq_coe.2 ((content_perm (reachable_inv h) c).filterMap _)

/-- a view whose documents are kept up to date shows the entries of its collection -/
theorem view_shows (h : Reachable E s) (hs : Settled E s) (hg : Represents E s.store g) {v : View} (hv : v ∈ s.views)
    (hk : AllKept E s v.coll) :
    ∃ items : List (Item v.coll), (items : Multiset _) = (g v.coll).entries ∧ items.Pairwise (InOrder v.coll) ∧
      drawn E v = some (items.map fun x => shown E v.coll x.2 (derived g v.coll x.1)) := by
  have hcontent := content_eq h hs hg hk
  have hrows := rows_of_settled (reachable_inv h) hs hv
  refine ⟨entriesOf v.coll (content E s.store v.coll), entriesOf_content h hg v.coll, ?_, ?_⟩
  · have hsorted : (content E s.store v.coll).Pairwise _ := orderBy_pairwise _
    rw [hcontent, List.pairwise_map] at hsorted
    exact hsorted.imp fun hxy => (inOrder_iff g v.coll _ _).1 hxy
  · rw [hcontent] at hrows
    exact drawn_documents E g hrows

/-- **The tables of a settled state** show the gradebook that the users made, one row for each entry, in the order of
their names. -/
theorem tables_show_gradebook (E : Env) (ops : List Op) (s : St) (h : run E init ops = some s) (hs : Settled E s) :
    ∃ actions : List (ℕ × Action),
      (∀ client, ofSender client (labels (step E) (confirmed E) init ops) = ofSender client actions) ∧
      ∀ v ∈ s.views, AllKept E s v.coll →
        ∃ items : List (Item v.coll), (items : Multiset _) = (performAll (actions.map (·.2)) v.coll).entries ∧
          items.Pairwise (InOrder v.coll) ∧
          drawn E v = some (items.map fun x =>
            shown E v.coll x.2 (derived (performAll (actions.map (·.2))) v.coll x.1)) :=
  ⟨history E ops, confirmed_of_settled h hs, fun _ hv hk => view_shows ⟨ops, h⟩ hs (represents_history h) hv hk⟩

/-- the assignments the second client sees -/
theorem tables_show_gradebook_pair : ∃ actions : List (ℕ × Action),
    (∀ client, ofSender client (labels (step sampleEnv) (confirmed sampleEnv) init pairRun) =
      ofSender client actions) ∧
    ∃ v ∈ pair.views, v.client = 1 ∧ v.coll = .assignments sampleCourse sampleCategory ∧
      drawn sampleEnv v = some [.assignment (some "L1") "1.0" "/1.0" "100.0%",
        .assignment (some "L2") "1.0" "/2.0" "50.0%"] ∧
      ∃ items : List (Item v.coll), (items : Multiset _) = (performAll (actions.map (·.2)) v.coll).entries ∧
        items.Pairwise (InOrder v.coll) ∧
        drawn sampleEnv v = some (items.map fun x =>
          shown sampleEnv v.coll x.2 (derived (performAll (actions.map (·.2))) v.coll x.1)) := by
  have hview : ∃ v ∈ pair.views, v.client = 1 ∧ v.coll = .assignments sampleCourse sampleCategory ∧
      drawn sampleEnv v = some [.assignment (some "L1") "1.0" "/1.0" "100.0%",
        .assignment (some "L2") "1.0" "/2.0" "50.0%"] := by
    decide +kernel
  obtain ⟨v, hv, hclient, hcoll, hcells⟩ := hview
  obtain ⟨actions, hactions, htables⟩ :=
    tables_show_gradebook sampleEnv pairRun pair pair_run pair_settled
  refine ⟨actions, hactions, v, hv, hclient, hcoll, hcells, htables v hv ?_⟩
  rw [hcoll]
  exact fun _ _ => trivial

end GradeKeep.ShownTables
