/-
Division by zero. The assignment form divides by the total credit it was given without looking at it. The two grade
listeners do guard their quotient, but test the sum they divide, not the sum they divide by. A zero total credit, or
total credits or weights that cancel, thus put a value that is no number into the store, and the listeners average it
into the levels above.

Results:
- `press_num`, `numDoc_grade`: what a confirmed form and a delivered snapshot write, and when it is a number;
- `allDocs_of_divisionOk`, `divisionOk_of_grades`: the two directions for one step;
- `grades_are_numbers_iff`: in a run whose typed numbers are finite, every grade is a number in every state exactly when
  no total credit typed is 0 and no snapshot delivered has total credits, or weights, that cancel under a sum that does
  not;
- `typed_zero_total`: a run that stores an assignment without a grade.
-/
import GradeKeep.Results.DirectRuns

namespace GradeKeep.Division

open GradeKeep.SwiftDouble GradeKeep.Firestore GradeKeep.Schema GradeKeep.Listeners GradeKeep.Forms GradeKeep.System
open GradeKeep.WellFormed GradeKeep.Invariant

/-! ## Documents of numbers -/

/-- the fields under the keys K hold numbers where they hold doubles -/
def NumDoc (K : String → Prop) (d : Doc) : Prop := ∀ key x, K key → d key = some (.double x) → x.IsNum

def gradeKeys : List String := [Ass.grade.rawValue, Cat.grade.rawValue, "cgrade"]

/-- the keys of the grades -/
def IsGrade (key : String) : Prop := key ∈ gradeKeys

/-- any key -/
def AnyKey (_ : String) : Prop := True

theorem NumDoc.of_any {K : String → Prop} {d : Doc} (h : NumDoc AnyKey d) : NumDoc K d :=
  fun key x _ hx => h key x trivial hx

theorem numDoc_ofFields {K : String → Prop} {fields : List (String × Value)}
    (h : ∀ f ∈ fields, ∀ x, f.2 = .double x → x.IsNum) : NumDoc K (Doc.ofFields fields) := by
  induction fields with
  | nil => intro key x _ hx; cases hx
  | cons f fields ih =>
    intro key x hk hx
    obtain ⟨k, v⟩ := f
    rw [Doc.ofFields_cons] at hx
    split_ifs at hx with hkey
    · exact h (k, v) List.mem_cons_self x (Option.some.inj hx)
    · exact ih (fun f hf => h f (List.mem_cons_of_mem _ hf)) key x hk hx

theorem NumDoc.merge {K : String → Prop} {data old : Doc} (hd : NumDoc K data) (ho : NumDoc K old) :
    NumDoc K (data.merge old) := by
  intro key x hk hx
  cases hkey : data key with
  | none => exact ho key x hk ((Doc.merge_none hkey).symm.trans hx)
  | some v =>
    rw [Doc.merge_some hkey] at hx
    exact hd key x hk (hkey.trans hx)

/-- every grade, stored or on its way, is a number -/
structure GradesNum (s : St) : Prop where
  stored : ∀ p d, s.store.lookup p = some d → NumDoc IsGrade d
  written : ∀ e ∈ s.flight, ∀ d ∈ e.2.data, NumDoc IsGrade d

/-- where all doubles are numbers, the grades are -/
theorem GradesNum.of_allDocs {s : St} (h : AllDocs (NumDoc AnyKey) s) : GradesNum s :=
  ⟨fun p d hd => (h.stored p d hd).of_any, fun e he d hd => (h.written e he d hd).of_any⟩

/-! ## What the forms write -/

/-- the numbers a form parses -/
def numbers : FormBody → List (Option Double)
  | .course _ => []
  | .category g => [g.catweight]
  | .assignment g => [g.credit, g.totalcredit]

/-- the total credit an assignment form parses is not zero -/
def TotalOk : FormBody → Prop
  | .assignment g => g.totalcredit ≠ some 0
  | _ => True

instance (body : FormBody) : Decidable (TotalOk body) :=
  match body with
  | .course _ => isTrue trivial
  | .category _ => isTrue trivial
  | .assignment g => inferInstanceAs (Decidable (g.totalcredit ≠ some 0))

theorem numDoc_assignmentFields {name : String} {c t : Double} (hc : c.IsNum) (ht : t.IsNum) (h0 : t ≠ 0) :
    NumDoc AnyKey (assignmentFields name c t (assGrade c t)) := by
  refine numDoc_ofFields ?_
  intro f hf x hx
  have hg : (assGrade c t).IsNum := isNum_assGrade.2 ⟨hc, ht, h0⟩
  simp only [List.mem_cons, List.not_mem_nil, or_false] at hf
  rcases hf with rfl | rfl | rfl | rfl
  · cases hx
  · cases hx; exact hc
  · cases hx; exact ht
  · cases hx; exact hg

/-- a category form's numbers: the weight, or the default 0 -/
theorem numDoc_category {g : NewCat} (h : g.catweight ≠ some .nan) {d : Doc}
    (hd : d = g.newCategory ∨ d = g.editedCategory) : NumDoc AnyKey d := by
  have hw : (g.catweight.getD (.num 0)).IsNum := by
    cases hg : g.catweight with
    | none => simp
    | some x => rw [hg] at h; exact fun hx => h (congrArg some hx)
  rcases hd with rfl | rfl
  · refine numDoc_ofFields ?_
    intro f hf x hx
    simp only [List.mem_cons, List.not_mem_nil, or_false] at hf
    rcases hf with rfl | rfl | rfl
    · cases hx
    · cases hx; exact hw
    · cases hx; simp
  · refine numDoc_ofFields ?_
    intro f hf x hx
    simp only [List.mem_cons, List.not_mem_nil, or_false] at hf
    rcases hf with rfl | rfl
    · cases hx
    · cases hx; exact hw

/-- a form that parses finite numbers writes numbers exactly when its total credit is not zero -/
theorem press_num {f : Form} {r : Request} (hp : f.press = some [r]) (hfin : ∀ n ∈ numbers f.body, n ≠ some .nan) :
    (TotalOk f.body → NumDoc AnyKey r.data) ∧ (NumDoc IsGrade r.data → TotalOk f.body) := by
  obtain ⟨client, ref, body⟩ := f
  cases body with
  | course cname =>
    simp only [Form.press, addCoursePressed, Option.bind_eq_bind, Option.bind_eq_some_iff, Option.some.injEq,
      List.cons.injEq, and_true] at hp
    obtain ⟨coll, -, rfl⟩ := hp
    refine ⟨fun _ => numDoc_ofFields ?_, fun _ => trivial⟩
    intro f hf x hx
    simp only [List.mem_cons, List.not_mem_nil, or_false] at hf
    rcases hf with rfl | rfl
    · cases hx
    · cases hx; simp
  | category g =>
    have hfin' : g.catweight ≠ some .nan := hfin _ List.mem_cons_self
    simp only [Form.press, Option.ite_none_right_eq_some] at hp
    exact ⟨fun _ => numDoc_category hfin' (NewCat.confirm_data hp.2), fun _ => trivial⟩
  | assignment g =>
    simp only [Form.press, Option.ite_none_right_eq_some] at hp
    obtain ⟨c, t, hc, ht, hr⟩ := NewAss.assignment_eq (NewAss.confirm_data hp.2)
    have hcn : c.IsNum := fun e => hfin _ List.mem_cons_self (by rw [hc, e])
    have htn : t.IsNum := fun e => hfin _ (List.mem_cons_of_mem _ List.mem_cons_self) (by rw [ht, e])
    have htot : TotalOk (.assignment g) ↔ t ≠ 0 := by simp [TotalOk, ht]
    rw [hr, htot]
    refine ⟨?_, ?_⟩
    · intro h0
      exact numDoc_assignmentFields hcn htn h0
    · intro hnum
      have hgrade : (assGrade c t).IsNum :=
        hnum Ass.grade.rawValue _ (by simp [IsGrade, gradeKeys]) (assignmentFields_grade _ _ _ _)
      exact (isNum_assGrade.1 hgrade).2.2

/-! ## What the listeners write -/

/-- the sum a listener divides by is not zero, or the guard replaces the quotient -/
def DivisorsOk : Coll → Snapshot → Prop
  | .courses, _ => True
  | .categories _, documents => weightedSum documents = 0 ∨ weightSum documents ≠ 0
  | .assignments _ _, documents => creditSum documents = 0 ∨ totalcreditSum documents ≠ 0

instance (c : Coll) (documents : Snapshot) : Decidable (DivisorsOk c documents) :=
  match c with
  | .courses => isTrue trivial
  | .categories _ => inferInstanceAs (Decidable (weightedSum documents = 0 ∨ weightSum documents ≠ 0))
  | .assignments _ _ => inferInstanceAs (Decidable (creditSum documents = 0 ∨ totalcreditSum documents ≠ 0))

theorem isNum_field {key : String} {e : Segment × Doc} (h : NumDoc AnyKey e.2) : (field key e).IsNum := by
  unfold field
  cases hv : e.2 key with
  | none => simp
  | some v =>
    cases v with
    | string t => simp [Value.asDouble]
    | double x => exact h key x trivial hv

theorem isNum_sum_map {documents : Snapshot} {f : Segment × Doc → Double} (h : ∀ e ∈ documents, (f e).IsNum) :
    ((documents.map f).sum).IsNum := by
  rw [Double.isNum_sum]
  intro x hx
  obtain ⟨e, he, rfl⟩ := List.mem_map.1 hx
  exact h e he

theorem isNum_weightedSum {documents : Snapshot} (h : ∀ e ∈ documents, NumDoc AnyKey e.2) :
    (weightedSum documents).IsNum :=
  isNum_sum_map fun e he =>
    Double.isNum_mul.2 ⟨Double.isNum_mul.2 ⟨Double.isNum_num _, isNum_field (h e he)⟩, isNum_field (h e he)⟩

/-- on documents of numbers a listener computes a number exactly when it does not divide by zero unguarded -/
theorem isNum_grade {documents : Snapshot} (c : Coll) (h : ∀ e ∈ documents, NumDoc AnyKey e.2) :
    (gradeOf c documents).IsNum ↔ DivisorsOk c documents := by
  cases c with
  | courses => simp [gradeOf, DivisorsOk]
  | categories k =>
    exact isNum_guardedGrade (isNum_weightedSum h) (isNum_sum_map fun e he => isNum_field (h e he))
  | assignments k j =>
    exact isNum_guardedGrade (isNum_sum_map fun e he => isNum_field (h e he))
      (isNum_sum_map fun e he => isNum_field (h e he))

theorem gradeKey_isGrade (c : Coll) : IsGrade (gradeKey c) := by
  cases c <;> simp [IsGrade, gradeKeys, gradeKey]

theorem gradeWrites_num {E : Env} {c : Coll} {documents : Snapshot} (h : ∀ e ∈ documents, NumDoc AnyKey e.2) :
    (DivisorsOk c documents → ∀ w ∈ gradeWrites E c documents, ∀ d ∈ w.data, NumDoc AnyKey d) ∧
    ((∀ w ∈ gradeWrites E c documents, ∀ d ∈ w.data, NumDoc IsGrade d) → DivisorsOk c documents) := by
  unfold gradeWrites
  cases hc : c.owner E.uid with
  | none =>
    -- the course list computes no grade
    have hok : DivisorsOk c documents := by
      cases c with
      | courses => trivial
      | _ => cases hc
    exact ⟨fun _ w hw => absurd hw List.not_mem_nil, fun _ => hok⟩
  | some p =>
    refine ⟨?_, ?_⟩
    · intro hok w hw d hd
      rw [List.mem_singleton.1 hw] at hd
      cases hd
      refine numDoc_ofFields ?_
      intro f hf x hx
      rw [List.mem_singleton.1 hf] at hx
      cases hx
      exact (isNum_grade c h).2 hok
    · intro hnum
      have hd := hnum _ List.mem_cons_self _ rfl
      exact (isNum_grade c h).1 (hd (gradeKey c) _ (gradeKey_isGrade c) (by simp))

/-! ## Runs -/

/-- the numbers a confirmed form parses are finite -/
def FiniteInput (s : St) : Op → Prop
  | .press i _ => ∀ f ∈ s.forms[i]?, ∀ n ∈ numbers f.body, n ≠ some .nan
  | _ => True

/-- an assignment form is confirmed with a total credit other than 0; a snapshot is delivered whose total credits, or
weights, add up to 0 only if the credits, or the weighted grades, do -/
def DivisionOk (s : St) : Op → Prop
  | .press i _ => ∀ f ∈ s.forms[i]?, TotalOk f.body
  | .deliver i => ∀ v ∈ s.views[i]?, ∀ documents ∈ v.pending.head?, DivisorsOk v.coll documents
  | _ => True

instance (s : St) (o : Op) : Decidable (FiniteInput s o) :=
  match o with
  | .press i _ => inferInstanceAs (Decidable (∀ f ∈ s.forms[i]?, ∀ n ∈ numbers f.body, n ≠ some .nan))
  | .viewDidLoad _ | .segue _ _ | .newForm _ | .editForm _ _ | .type _ _ | .delete _ _ | .apply _ _ | .deliver _ =>
    isTrue trivial

instance (s : St) (o : Op) : Decidable (DivisionOk s o) :=
  match o with
  | .press i _ => inferInstanceAs (Decidable (∀ f ∈ s.forms[i]?, TotalOk f.body))
  | .deliver i =>
    inferInstanceAs (Decidable (∀ v ∈ s.views[i]?, ∀ documents ∈ v.pending.head?, DivisorsOk v.coll documents))
  | .viewDidLoad _ | .segue _ _ | .newForm _ | .editForm _ _ | .type _ _ | .delete _ _ | .apply _ _ => isTrue trivial

/-- a step that divides by no zero leaves numbers everywhere -/
theorem allDocs_of_divisionOk {E : Env} {B : ℕ → DocPath → Prop} {s s' : St} {o : Op} (he : Effect E B s s' o)
    (hn : AllDocs (NumDoc AnyKey) s) (hfin : FiniteInput s o) (hok : DivisionOk s o) :
    AllDocs (NumDoc AnyKey) s' := by
  refine he.allDocs (fun _ _ => NumDoc.merge) hn ?_ ?_
  · rintro i id f r rfl hf hpress
    exact (press_num hpress (hfin f hf)).1 (hok f hf)
  · rintro i v documents rest rfl hv hpending
    have hdocs := hn.queued v (List.mem_of_getElem? hv) documents (by rw [hpending]; exact List.mem_cons_self)
    exact (gradeWrites_num hdocs).1 (hok v hv documents (by rw [hpending]; rfl))

/-- the grades a step leaves on their way tell whether it divided by zero -/
theorem divisionOk_of_grades {E : Env} {B : ℕ → DocPath → Prop} {s s' : St} {o : Op} (he : Effect E B s s' o)
    (hn : AllDocs (NumDoc AnyKey) s) (hfin : FiniteInput s o) (hg : GradesNum s') : DivisionOk s o := by
  have hlocal : Local o → DivisionOk s o := by
    intro ho
    cases o <;> trivial
  have hform : ∀ i id f r, o = .press i id → s.forms[i]? = some f → f.press = some [r] → NumDoc IsGrade r.data →
      DivisionOk s o := by
    rintro i id f r rfl hf hpress hnum f' hf'
    rw [Option.mem_def, hf, Option.some.injEq] at hf'
    exact hf' ▸ (press_num hpress (hfin f hf)).2 hnum
  cases he with
  | load o client c ho hc hs => exact hlocal ho
  | form o forms ho hf hs => exact hlocal ho
  | remove o client c ho id hborn hs => exact hlocal ho
  | apply c w pre post notify hflight hpre hs => trivial
  | add i f c id data hf hpress hc hdata hid hs =>
    subst hs
    exact hform i _ f _ rfl hf hpress ((List.forall_mem_append.1 hg.written).2 _ List.mem_cons_self data rfl)
  | edit i f c id new data hf hpress hborn hdata hs =>
    subst hs
    exact hform i _ f _ rfl hf hpress ((List.forall_mem_append.1 hg.written).2 _ List.mem_cons_self data rfl)
  | deliver i v documents rest hv hpending hs =>
    subst hs
    have hdocs := hn.queued v (List.mem_of_getElem? hv) documents (by rw [hpending]; exact List.mem_cons_self)
    have hok : DivisionOk s (.deliver i) ↔ DivisorsOk v.coll documents := by
      simp [DivisionOk, hv, hpending]
    rw [hok]
    apply (gradeWrites_num (E := E) hdocs).2
    intro w hw
    exact (List.forall_mem_append.1 hg.written).2 _ (List.mem_map_of_mem hw)

theorem run_num {E : Env} {s s' : St} {ops : List Op} (h : Inv E s) (hn : AllDocs (NumDoc AnyKey) s)
    (hr : run E s ops = some s') (hfin : EveryStep E FiniteInput s ops) :
    EveryStep E DivisionOk s ops ↔ EveryState E GradesNum s ops := by
  induction ops generalizing s with
  | nil => exact ⟨fun _ => .of_allDocs hn, fun _ => trivial⟩
  | cons o ops ih =>
    rw [run_cons] at hr
    obtain ⟨t, ht, hr⟩ := Option.bind_eq_some_iff.1 hr
    have he := step_effect h ht
    have hdiv := allDocs_of_divisionOk he hn hfin.1
    have hgrades := divisionOk_of_grades he hn hfin.1
    have hnext : ∀ {P : St → Prop}, (∀ t' ∈ step E s o, P t') ↔ P t := by simp [ht]
    simp only [EveryStep, EveryState, hnext]
    have ih' := fun hnt => ih (he.inv h) hnt hr (hfin.2 t ht)
    refine ⟨?_, ?_⟩
    · intro hok
      exact ⟨.of_allDocs hn, (ih' (hdiv hok.1)).1 hok.2⟩
    · intro hok
      have hhead : GradesNum t := hok.2.head
      exact ⟨hgrades hhead, (ih' (hdiv (hgrades hhead))).2 hok.2⟩

/-- **Grades are numbers.** In a run whose confirmed forms hold finite numbers, every assgrade, catgrade and cgrade
stored or on its way is a number in every state, exactly when no assignment form is confirmed with a total credit of 0,
no snapshot delivered has assignments whose total credits cancel while their credits do not, and none has categories
whose weights cancel while their weighted grades do not. -/
theorem grades_are_numbers_iff (E : Env) (ops : List Op) (s : St) (hr : run E init ops = some s)
    (hfin : EveryStep E FiniteInput init ops) :
    EveryState E GradesNum init ops ↔ EveryStep E DivisionOk init ops :=
  (run_num (inv_init E) (allDocs_init _) hr hfin).symm

/-- the sample session confirms a form of each kind, and its listeners compute both grades -/
theorem grades_are_numbers_iff_sample :
    EveryState sampleEnv GradesNum init sampleRun ∧ EveryStep sampleEnv DivisionOk init sampleRun := by
  have hrun : (run sampleEnv init sampleRun).isSome ∧ EveryStep sampleEnv FiniteInput init sampleRun ∧
      EveryStep sampleEnv DivisionOk init sampleRun := by
    decide +kernel
  obtain ⟨hrun, hfin, hok⟩ := hrun
  exact ⟨(grades_are_numbers_iff sampleEnv _ _ (run_init_after _ hrun) hfin).2 hok, hok⟩

/-- an assignment with credit 5 of 0 -/
def zeroTotalRun : List Op :=
  courseRun ++ categoryOps ++ [.segue 1 0, .newForm 2, .type 2 (.assignment .assname "L1"),
    .type 2 (.assignment .credit "5"), .type 2 (.assignment .totalcredit "0"), .press 2 sampleAssignment, .apply 0 [2]]

/-- the form accepts it, and the stored assgrade is no number -/
theorem typed_zero_total : ¬∀ E ops s, run E init ops = some s → EveryStep E FiniteInput init ops →
    ∀ p d, s.store.lookup p = some d → NumDoc IsGrade d := by
  intro h
  have hrun : (run sampleEnv init zeroTotalRun).isSome ∧ EveryStep sampleEnv FiniteInput init zeroTotalRun ∧
      ((after zeroTotalRun).store.lookup (Coll.doc uid (.assignments sampleCourse sampleCategory)
        sampleAssignment)).bind (fun d => d "assgrade") = some (.double .nan) := by
    decide +kernel
  obtain ⟨hrun, hfin, hnan⟩ := hrun
  obtain ⟨d, hd, hx⟩ := Option.bind_eq_some_iff.1 hnan
  have hnum := h sampleEnv zeroTotalRun _ (run_init_after _ hrun) hfin _ d hd
  exact hnum "assgrade" .nan (by simp [IsGrade, gradeKeys, Ass.rawValue]) hx rfl

end GradeKeep.Division
