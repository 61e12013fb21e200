/-
A settled store shows the gradebook.

Once nothing is in flight and every listener is up to date, the gradebook in the store is the one the users made, with
the actions of each client performed in its order and none missing; and the grades kept in the documents are the grades
of that gradebook, as far as somebody listens to what they are computed from (`Kept`).

The listeners scale by 1000 what they have weighed by 0.1, and by 10000 at once; the gradebook knows percentages only.

Results:
- `guardedGrade_percent`, `guardedGrade_mean`: either listener's formula is a rounded ratio;
- `gradeOf_assignments`, `gradeOf_categories`: what the listeners compute from the documents is the gradebook's grade;
- `settled_rendering`: the documents of a settled store.
-/
import GradeKeep.Results.Convergence
import GradeKeep.Results.Refinement

namespace GradeKeep.Rendering

open GradeKeep.SwiftDouble GradeKeep.Firestore GradeKeep.Schema GradeKeep.Listeners GradeKeep.Forms GradeKeep.System
open GradeKeep.WellFormed GradeKeep.Invariant GradeKeep.Gradebook GradeKeep.Records GradeKeep.Trace
open GradeKeep.Convergence GradeKeep.Refinement GradeKeep.DirectRuns

/-! ## The formulas -/

theorem guardedGrade_percent (part whole : Double) :
    guardedGrade (.num 10000) part whole = rounded (.num 100 * ratio part whole) := by
  have hzero : Double.num 100 * 0 = 0 := by simp [Double.zero_def]
  unfold guardedGrade ratio
  split_ifs with h0
  · rw [hzero, rounded_zero]
  · have hscale : Double.num 10000 * (part / whole) = .num 100 * (.num 100 * (part / whole)) := by
      rw [← Double.num_mul_assoc, Double.num_mul_num]
      norm_num
    rw [rounded, ← hscale]

theorem guardedGrade_mean (part whole : Double) :
    guardedGrade (.num 1000) (.num (1 / 10) * part) whole = rounded (ratio part whole) := by
  have hzero : Double.num (1 / 10) * part = 0 ↔ part = 0 := by
    cases part <;> simp [Double.zero_def]
  have hscale : Double.num 1000 * (.num (1 / 10) * part / whole) = .num 100 * (part / whole) := by
    cases part with
    | nan => simp
    | num a =>
      cases whole with
      | nan => simp
      | num b =>
        by_cases hb : b = 0
        · simp [hb]
        · calc Double.num 1000 * (.num (1 / 10) * .num a / .num b) = .num (1000 * (1 / 10 * a / b)) := by
                rw [Double.num_mul_num, Double.num_div_num hb, Double.num_mul_num]
            _ = .num (100 * (a / b)) := by congr 1; ring
            _ = .num 100 * (.num a / .num b) := by rw [Double.num_div_num hb, Double.num_mul_num]
  unfold guardedGrade ratio
  by_cases h0 : part = 0
  · rw [if_pos (hzero.2 h0), if_pos h0, rounded_zero]
  · rw [if_neg (mt hzero.1 h0), if_neg h0, rounded, hscale]

/-- the form's formula for a single assignment -/
theorem assGrade_percent (entry : AssignmentEntry) : assGrade entry.credit entry.totalcredit = assgrade entry := by
  unfold assGrade assgrade rounded
  cases entry.credit with
  | nan => simp
  | num a =>
    cases entry.totalcredit with
    | nan => simp
    | num b =>
      by_cases hb : b = 0
      · simp [hb]
      · rw [Double.num_mul_num, Double.num_div_num hb, Double.num_div_num hb, Double.num_mul_num, Double.num_mul_num]
        congr 3
        ring

/-! ## Sums over documents -/

/-- the entries in a list of documents -/
def entriesOf (c : Coll) (documents : Snapshot) : List (Sigma fun _ : Segment => Entry c) :=
  documents.filterMap fun e => (entryOf c e.2).map (Sigma.mk e.1)

theorem entriesOf_nodup {c : Coll} {documents : Snapshot} (h : (documents.map Prod.fst).Nodup) :
    (entriesOf c documents).Nodup := by
  have hsub : ((entriesOf c documents).map Sigma.fst).Sublist (documents.map Prod.fst) := by
    clear h
    induction documents with
    | nil => exact .slnil
    | cons e documents ih =>
      rw [entriesOf, List.filterMap_cons]
      cases entryOf c e.2 with
      | none => exact ih.cons _
      | some entry => exact ih.cons_cons _
  exact (hsub.nodup h).of_map _

variable {E : Env} {s : St} {g : Book}

/-- the entries in the stored documents are those of the gradebook -/
theorem entriesOf_docs (hg : Represents E s.store g) (c : Coll) :
    (entriesOf c (docs s.store (c.path E.uid)) : Multiset _) = (g c).entries := by
  refine (Multiset.Nodup.ext ?_ (g c).nodup_entries).2 ?_
  · exact Multiset.coe_nodup.2 (entriesOf_nodup (docs_nodup _ _))
  · rintro ⟨id, entry⟩
    rw [Multiset.mem_coe, ← Finmap.lookup_eq_some_iff, hg c id, Option.bind_eq_some_iff]
    simp only [entriesOf, List.mem_filterMap, Option.map_eq_some_iff, Sigma.mk.injEq]
    refine ⟨?_, ?_⟩
    · rintro ⟨e, he, entry', hentry, rfl, hheq⟩
      rw [← eq_of_heq hheq]
      exact ⟨e.2, mem_docs.1 he, hentry⟩
    · rintro ⟨d, hd, hentry⟩
      exact ⟨(id, d), mem_docs.2 hd, entry, hentry, rfl, HEq.rfl⟩

theorem sum_docs (hg : Represents E s.store g) (c : Coll) (F : Segment × Doc → Double) (f : Segment → Entry c → Double)
    (h : ∀ e ∈ docs s.store (c.path E.uid), ∃ entry, entryOf c e.2 = some entry ∧ F e = f e.1 entry) :
    ((docs s.store (c.path E.uid)).map F).sum = sumOver g c f := by
  have hmap : ∀ documents : Snapshot, (∀ e ∈ documents, ∃ entry, entryOf c e.2 = some entry ∧ F e = f e.1 entry) →
      (entriesOf c documents).map (fun e => f e.1 e.2) = documents.map F := by
    intro documents hd
    induction documents with
    | nil => rfl
    | cons e documents ih =>
      obtain ⟨entry, hentry, hF⟩ := hd e List.mem_cons_self
      rw [List.map_cons, ← ih fun e' he' => hd e' (List.mem_cons_of_mem e he'), entriesOf, List.filterMap_cons, hentry,
        hF]
      rfl
  rw [sumOver, ← entriesOf_docs hg c, Multiset.map_coe, Multiset.sum_coe, hmap _ h]

/-- the documents of a collection have entries -/
theorem entryOf_docs (hr : Recorded E s) {c : Coll} {e : Segment × Doc} (he : e ∈ docs s.store (c.path E.uid)) :
    ∃ entry, entryOf c e.2 = some entry := by
  obtain ⟨entry, grade, -, hd⟩ := hr.stored c e.1 e.2 (mem_docs.1 he)
  exact ⟨entry, by rw [hd, entryOf_encode]⟩

theorem gradeOf_assignments (hr : Recorded E s) (hg : Represents E s.store g) (k j : Segment) :
    gradeOf (.assignments k j) (docs s.store (Coll.path E.uid (.assignments k j))) = catgrade g k j := by
  have hc : creditSum (docs s.store (Coll.path E.uid (.assignments k j))) =
      sumOver g (.assignments k j) fun _ entry => entry.credit := by
    refine sum_docs hg (.assignments k j) _ _ ?_
    intro e he
    obtain ⟨entry, hentry⟩ := entryOf_docs hr he
    exact ⟨entry, hentry, field_eq (entryOf_credit hentry)⟩
  have ht : totalcreditSum (docs s.store (Coll.path E.uid (.assignments k j))) =
      sumOver g (.assignments k j) fun _ entry => entry.totalcredit := by
    refine sum_docs hg (.assignments k j) _ _ ?_
    intro e he
    obtain ⟨entry, hentry⟩ := entryOf_docs hr he
    exact ⟨entry, hentry, field_eq (entryOf_totalcredit hentry)⟩
  rw [gradeOf, hc, ht, guardedGrade_percent, catgrade]

/-- provided the categories keep their grades -/
theorem gradeOf_categories (hr : Recorded E s) (hg : Represents E s.store g) (k : Segment)
    (hkept : ∀ j d, s.store.lookup (Coll.doc E.uid (.categories k) j) = some d →
      d Cat.grade.rawValue = some (.double (catgrade g k j))) :
    gradeOf (.categories k) (docs s.store (Coll.path E.uid (.categories k))) = cgrade g k := by
  have hw : weightSum (docs s.store (Coll.path E.uid (.categories k))) =
      sumOver g (.categories k) fun _ entry => entry.weight := by
    refine sum_docs hg (.categories k) _ _ ?_
    intro e he
    obtain ⟨entry, hentry⟩ := entryOf_docs hr he
    exact ⟨entry, hentry, field_eq (entryOf_weight hentry)⟩
  have hsum : ((docs s.store (Coll.path E.uid (.categories k))).map fun e =>
      field Cat.weight.rawValue e * field Cat.grade.rawValue e).sum =
        sumOver g (.categories k) fun j entry => entry.weight * catgrade g k j := by
    refine sum_docs hg (.categories k) _ _ ?_
    intro e he
    obtain ⟨entry, hentry⟩ := entryOf_docs hr he
    refine ⟨entry, hentry, ?_⟩
    rw [field_eq (entryOf_weight hentry), field_eq (hkept e.1 e.2 (mem_docs.1 he))]
  have hs : weightedSum (docs s.store (Coll.path E.uid (.categories k))) =
      .num (1 / 10) * sumOver g (.categories k) fun j entry => entry.weight * catgrade g k j := by
    calc _ = ((docs s.store (Coll.path E.uid (.categories k))).map fun e =>
            .num (1 / 10) * (field Cat.weight.rawValue e * field Cat.grade.rawValue e)).sum := by
          simp only [weightedSum, Double.num_mul_assoc]
      _ = .num (1 / 10) * ((docs s.store (Coll.path E.uid (.categories k))).map fun e =>
            field Cat.weight.rawValue e * field Cat.grade.rawValue e).sum := by rw [Double.sum_num_mul]
      _ = _ := by rw [hsum]
  rw [gradeOf, hs, hw, guardedGrade_mean, cgrade]

/-! ## Settled states -/

/-- all that the grade in a document is computed from has a listener -/
def Kept (E : Env) (s : St) : Coll → Segment → Prop
  | .courses, k => (∃ v ∈ s.views, v.coll = .categories k) ∧
      ∀ e ∈ docs s.store (Coll.path E.uid (.categories k)), ∃ v ∈ s.views, v.coll = .assignments k e.1
  | .categories k, j => ∃ v ∈ s.views, v.coll = .assignments k j
  | .assignments _ _, _ => True

instance (E : Env) (s : St) : (c : Coll) → (id : Segment) → Decidable (Kept E s c id)
  | .courses, k => inferInstanceAs (Decidable ((∃ v ∈ s.views, v.coll = .categories k) ∧
      ∀ e ∈ docs s.store (Coll.path E.uid (.categories k)), ∃ v ∈ s.views, v.coll = .assignments k e.1))
  | .categories k, j => inferInstanceAs (Decidable (∃ v ∈ s.views, v.coll = .assignments k j))
  | .assignments _ _, _ => inferInstanceAs (Decidable True)

/-- every document of c is kept so -/
def AllKept (E : Env) (s : St) (c : Coll) : Prop := ∀ e ∈ docs s.store (c.path E.uid), Kept E s c e.1

instance (E : Env) (s : St) (c : Coll) : Decidable (AllKept E s c) :=
  inferInstanceAs (Decidable (∀ e ∈ docs s.store (c.path E.uid), Kept E s c e.1))

theorem AllKept.kept {c : Coll} (h : AllKept E s c) (id : Segment) (d : Doc)
    (hd : s.store.lookup (c.doc E.uid id) = some d) : Kept E s c id :=
  h (id, d) (mem_docs.2 hd)

/-- a view of a settled state shows the content of its collection -/
theorem rows_of_settled (h : Inv E s) (hs : Settled E s) {v : View} (hv : v ∈ s.views) :
    v.rows = rowsOf v.coll (content E s.store v.coll) := by
  rw [(h.views_ok v hv).rows, hs.last v hv, Option.getD_some]

theorem category_of_settled (h : Reachable E s) (hs : Settled E s) (hg : Represents E s.store g) {k j : Segment}
    {d : Doc} (hd : s.store.lookup (Coll.doc E.uid (.categories k) j) = some d)
    (hv : ∃ v ∈ s.views, v.coll = .assignments k j) : d Cat.grade.rawValue = some (.double (catgrade g k j)) := by
  rw [← gradeOf_assignments (reachable_recorded h) hg k j]
  exact grade_of_settled h hs rfl hd hv

theorem course_of_settled (h : Reachable E s) (hs : Settled E s) (hg : Represents E s.store g) {k : Segment}
    {d : Doc} (hd : s.store.lookup (Coll.doc E.uid .courses k) = some d) (hk : Kept E s .courses k) :
    d "cgrade" = some (.double (cgrade g k)) := by
  have hkept : ∀ j d', s.store.lookup (Coll.doc E.uid (.categories k) j) = some d' →
      d' Cat.grade.rawValue = some (.double (catgrade g k j)) := by
    intro j d' hd'
    exact category_of_settled h hs hg hd' (hk.2 (j, d') (mem_docs.2 hd'))
  rw [← gradeOf_categories (reachable_recorded h) hg k hkept]
  exact grade_of_settled h hs rfl hd hk.1

/-- the grade in a document is the gradebook's -/
theorem grade_of_kept (h : Reachable E s) (hs : Settled E s) (hg : Represents E s.store g) {c : Coll} {id : Segment}
    (hk : Kept E s c id) {entry : Entry c} {grade : Option Double} (hgrade : Graded c grade)
    (hd : s.store.lookup (c.doc E.uid id) = some (encode c entry grade)) : grade = derived g c id := by
  have hown := encode_ownKey c entry grade
  have hinj : Function.Injective (Option.map Value.double) := Option.map_injective fun x y e => Value.double.inj e
  cases c with
  | courses => exact hinj (hown.symm.trans (course_of_settled h hs hg hd hk))
  | categories k => exact hinj (hown.symm.trans (category_of_settled h hs hg hd hk))
  | assignments k j => exact hgrade

theorem document_of_kept (h : Reachable E s) (hs : Settled E s) (hg : Represents E s.store g) {c : Coll} {id : Segment}
    (hk : ∀ d, s.store.lookup (c.doc E.uid id) = some d → Kept E s c id) :
    s.store.lookup (c.doc E.uid id) = ((g c).lookup id).map fun entry => encode c entry (derived g c id) := by
  rw [hg c id]
  cases hd : s.store.lookup (c.doc E.uid id) with
  | none => rfl
  | some d =>
    obtain ⟨entry, grade, hgrade, rfl⟩ := (reachable_recorded h).stored c id d hd
    rw [Option.bind_some, entryOf_encode, Option.map_some, grade_of_kept h hs hg (hk _ hd) hgrade hd]

/-- all that was confirmed has been performed -/
theorem confirmed_of_settled {ops : List Op} (h : run E init ops = some s) (hs : Settled E s) (client : ℕ) :
    ofSender client (labels (step E) (confirmed E) init ops) = ofSender client (history E ops) := by
  have hnone : ofSender client (onTheWay E s.flight) = [] := by rw [hs.flight]; rfl
  rw [accounted_history h client, hnone, List.append_nil]

/-- **A settled store shows the gradebook.** It is the gradebook of everything that was confirmed; each document holds
its entry and the grade that follows from the entries below it, if all of these have listeners. -/
theorem settled_rendering (E : Env) (ops : List Op) (s : St) (h : run E init ops = some s) (hs : Settled E s) :
    ∃ actions : List (ℕ × Action),
      (∀ client, ofSender client (labels (step E) (confirmed E) init ops) = ofSender client actions) ∧
      ∀ c id, Kept E s c id → s.store.lookup (c.doc E.uid id) =
        ((performAll (actions.map (·.2)) c).lookup id).map fun entry =>
          encode c entry (derived (performAll (actions.map (·.2))) c id) := by
  refine ⟨history E ops, confirmed_of_settled h hs, ?_⟩
  intro c id hk
  exact document_of_kept ⟨ops, h⟩ hs (represents_history h) fun _ _ => hk

/-- in the sample session, for the category added in it -/
theorem settled_rendering_sample : ∃ actions : List (ℕ × Action),
    (∀ client, ofSender client (labels (step sampleEnv) (confirmed sampleEnv) init sampleRun) =
      ofSender client actions) ∧
    sample.store.lookup (Coll.doc uid (.categories sampleCourse) sampleCategory) =
      ((performAll (actions.map (·.2)) (.categories sampleCourse)).lookup sampleCategory).map fun entry =>
        encode (.categories sampleCourse) entry
          (derived (performAll (actions.map (·.2))) (.categories sampleCourse) sampleCategory) := by
  have hview : ∃ v ∈ sample.views, v.coll = .assignments sampleCourse sampleCategory := by
    rw [sample, after_direct]
    decide +kernel
  obtain ⟨actions, hactions, hdocs⟩ := settled_rendering sampleEnv sampleRun sample sampleRun_ends sample_settled.2
  exact ⟨actions, hactions, hdocs (.categories sampleCourse) sampleCategory hview⟩

end GradeKeep.Rendering
