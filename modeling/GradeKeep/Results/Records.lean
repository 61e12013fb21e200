/-
What the stored documents are: each is the encoding of one entry and, once a listener has written it, a grade.

`encode` lays an entry out as its form writes it; `entryOf` reads it back. Every add of the app writes an encoded entry
with its first grade, every edit an encoded entry without one, every listener a grade alone (`RecordWrite`), and merging
these gives an encoded entry with a grade again. So a document never has a field that its kind does not have, and it is
determined by its entry and its grade.

Results:
- `entryOf_encode`, `encode_injective`: the round trip;
- `merge_edit`, `merge_grade`: what an edit and a listener make of an encoded entry;
- `press_record`: what a form's button writes is the encoding of the entry typed into it;
- `step_recorded`, `reachable_recorded`: in every reachable state each document is such an encoding;
- `stored_record`: of which entry and which grade, it tells.
-/
import GradeKeep.Results.DirectRuns
import GradeKeep.Spec.Gradebook

namespace GradeKeep.Records

open GradeKeep.SwiftDouble GradeKeep.Firestore GradeKeep.Schema GradeKeep.Listeners GradeKeep.Forms GradeKeep.System
open GradeKeep.WellFormed GradeKeep.Invariant GradeKeep.DirectRuns GradeKeep.Gradebook

/-! ## Encoding -/

/-- the fields an entry's form writes in either mode -/
def fields : (c : Coll) → Entry c → List (String × Value)
  | .courses, entry =>
    [("course_name", .string entry.name), ("course_grade", .double (.num 0))]
  | .categories _, entry =>
    [(Cat.name.rawValue, .string entry.name),
      (Cat.weight.rawValue, .double entry.weight)]
  | .assignments _ _, entry =>
    [(Ass.name.rawValue, .string entry.name),
      (Ass.credit.rawValue, .double entry.credit),
      (Ass.totalcredit.rawValue, .double entry.totalcredit),
      (Ass.grade.rawValue, .double (assGrade entry.credit entry.totalcredit))]

/-- the key under which listeners keep a grade in the documents of c -/
def ownKey : Coll → String
  | .courses => "cgrade"
  | .categories _ => Cat.grade.rawValue
  | .assignments _ _ => ""

/-- the collection under a document -/
def child : Coll → Segment → Option Coll
  | .courses, k => some (.categories k)
  | .categories k, j => some (.assignments k j)
  | .assignments _ _, _ => none

def gradeDoc (c : Coll) (grade : Option Double) : Doc :=
  match grade with
  | none => Doc.ofFields []
  | some x => Doc.ofFields [(ownKey c, .double x)]

def encode (c : Coll) (entry : Entry c) (grade : Option Double) : Doc :=
  (Doc.ofFields (fields c entry)).merge (gradeDoc c grade)

/-- the grade a form gives a new document -/
def firstGrade : Coll → Option Double
  | .courses => none
  | .categories _ => some (.num 0)
  | .assignments _ _ => none

/-- which documents have a grade of a listener: a category always does, a course from its first one on -/
def Graded : Coll → Option Double → Prop
  | .courses, _ => True
  | .categories _, grade => grade.isSome
  | .assignments _ _, grade => grade = none

/-- the entry in a document -/
def entryOf : (c : Coll) → Doc → Option (Entry c)
  | .courses, d => do
    let name ← (d "course_name").bind Value.asString
    some ⟨name⟩
  | .categories _, d => do
    let name ← (d Cat.name.rawValue).bind Value.asString
    let weight ← (d Cat.weight.rawValue).bind Value.asDouble
    some ⟨name, weight⟩
  | .assignments _ _, d => do
    let name ← (d Ass.name.rawValue).bind Value.asString
    let credit ← (d Ass.credit.rawValue).bind Value.asDouble
    let totalcredit ← (d Ass.totalcredit.rawValue).bind Value.asDouble
    some ⟨name, credit, totalcredit⟩

/-- a collection hangs under a document of another -/
theorem owner_doc {u : Segment} {c : Coll} {p : DocPath} (h : c.owner u = some p) : ∃ c' id, p = Coll.doc u c' id := by
  cases c <;> simp only [Coll.owner, Option.some.injEq, reduceCtorEq] at h <;> exact ⟨_, _, h.symm⟩

theorem child_owner {u : Segment} {c c' : Coll} {id : Segment} :
    c'.owner u = some (c.doc u id) ↔ child c id = some c' := by
  cases c' with
  | courses => cases c <;> simp [Coll.owner, child]
  | categories k => cases c <;> simp [Coll.owner, child, Coll.doc_inj, eq_comm]
  | assignments k j =>
    cases c with
    | categories k' =>
      simp only [Coll.owner, child, Coll.doc_inj, Option.some.injEq, Coll.categories.injEq, Coll.assignments.injEq]
      exact ⟨fun h => ⟨h.1.symm, h.2.symm⟩, fun h => ⟨h.1.symm, h.2.symm⟩⟩
    | _ => simp [Coll.owner, child, Coll.doc_inj]

theorem ownKey_eq {c c' : Coll} {id : Segment} (h : child c id = some c') : ownKey c = gradeKey c' := by
  cases c <;> simp only [child, Option.some.injEq, reduceCtorEq] at h <;> subst h <;> rfl

theorem graded_firstGrade (c : Coll) : Graded c (firstGrade c) := by
  cases c with
  | courses => trivial
  | categories k => exact rfl
  | assignments k j => exact rfl

theorem graded_some {c c' : Coll} {id : Segment} (h : child c id = some c') (x : Double) : Graded c (some x) := by
  cases c with
  | courses => trivial
  | categories k => exact rfl
  | assignments k j => cases h

/-! ## Round trip -/

theorem gradeDoc_ne {c : Coll} {grade : Option Double} {key : String} (h : key ≠ ownKey c) :
    gradeDoc c grade key = none := by
  cases grade with
  | none => rfl
  | some x => simp [gradeDoc, Ne.symm h]

theorem gradeDoc_ownKey (c : Coll) (grade : Option Double) : gradeDoc c grade (ownKey c) = grade.map .double := by
  cases grade with
  | none => rfl
  | some x => simp [gradeDoc]

/-- no form of c writes the key that listeners write -/
theorem fields_ownKey (c : Coll) (entry : Entry c) : Doc.ofFields (fields c entry) (ownKey c) = none := by
  cases c <;> simp [fields, ownKey, Cat.rawValue, Ass.rawValue]

/-- which keys a form writes does not depend on the texts -/
theorem fields_isSome (c : Coll) (entry entry' : Entry c) (key : String) :
    (Doc.ofFields (fields c entry) key).isSome = (Doc.ofFields (fields c entry') key).isSome := by
  cases c <;> simp only [fields, Doc.ofFields_cons, Doc.ofFields_nil] <;> split_ifs <;> rfl

theorem encode_ownKey (c : Coll) (entry : Entry c) (grade : Option Double) :
    encode c entry grade (ownKey c) = grade.map .double := by
  rw [encode, Doc.merge_lookup, fields_ownKey, gradeDoc_ownKey, Option.none_or]

theorem encode_ne {c : Coll} {key : String} (entry : Entry c) (grade : Option Double) (h : key ≠ ownKey c) :
    encode c entry grade key = Doc.ofFields (fields c entry) key := by
  rw [encode, Doc.merge_lookup, gradeDoc_ne h, Option.or_none]

theorem entryOf_encode (c : Coll) (entry : Entry c) (grade : Option Double) :
    entryOf c (encode c entry grade) = some entry := by
  cases c with
  | courses =>
    have h1 : encode .courses entry grade "course_name" = some (.string entry.name) :=
      (encode_ne entry grade (by decide)).trans rfl
    simp only [entryOf, h1, Option.bind_some, Value.asString, Option.bind_eq_bind]
  | categories k =>
    have h1 : encode (.categories k) entry grade Cat.name.rawValue = some (.string entry.name) :=
      (encode_ne entry grade (by simp only [ownKey]; decide)).trans rfl
    have h2 : encode (.categories k) entry grade Cat.weight.rawValue = some (.double entry.weight) :=
      (encode_ne entry grade (by simp only [ownKey]; decide)).trans rfl
    simp only [entryOf, h1, h2, Option.bind_some, Value.asString, Value.asDouble, Option.bind_eq_bind]
  | assignments k j =>
    have h1 : encode (.assignments k j) entry grade Ass.name.rawValue =
        some (.string entry.name) :=
      (encode_ne entry grade (by simp only [ownKey]; decide)).trans rfl
    have h2 : encode (.assignments k j) entry grade Ass.credit.rawValue =
        some (.double entry.credit) :=
      (encode_ne entry grade (by simp only [ownKey]; decide)).trans rfl
    have h3 : encode (.assignments k j) entry grade Ass.totalcredit.rawValue =
        some (.double entry.totalcredit) :=
      (encode_ne entry grade (by simp only [ownKey]; decide)).trans rfl
    simp only [entryOf, h1, h2, h3, Option.bind_some, Value.asString, Value.asDouble, Option.bind_eq_bind]

theorem entryOf_weight {k : Segment} {d : Doc} {entry : CategoryEntry} (h : entryOf (.categories k) d = some entry) :
    d Cat.weight.rawValue = some (.double entry.weight) := by
  simp only [entryOf, Option.bind_eq_bind, Option.bind_eq_some_iff, Value.asDouble_eq_some, Option.some.injEq] at h
  obtain ⟨-, -, weight, ⟨v, hv, rfl⟩, rfl⟩ := h
  exact hv

theorem entryOf_credit {k j : Segment} {d : Doc} {entry : AssignmentEntry}
    (h : entryOf (.assignments k j) d = some entry) : d Ass.credit.rawValue = some (.double entry.credit) := by
  simp only [entryOf, Option.bind_eq_bind, Option.bind_eq_some_iff, Value.asDouble_eq_some, Option.some.injEq] at h
  obtain ⟨-, -, credit, ⟨v, hv, rfl⟩, -, -, rfl⟩ := h
  exact hv

theorem entryOf_totalcredit {k j : Segment} {d : Doc} {entry : AssignmentEntry}
    (h : entryOf (.assignments k j) d = some entry) :
    d Ass.totalcredit.rawValue = some (.double entry.totalcredit) := by
  simp only [entryOf, Option.bind_eq_bind, Option.bind_eq_some_iff, Value.asDouble_eq_some, Option.some.injEq] at h
  obtain ⟨-, -, -, -, totalcredit, ⟨v, hv, rfl⟩, rfl⟩ := h
  exact hv

/-- a document tells its entry and its grade -/
theorem encode_injective {c : Coll} {entry entry' : Entry c} {grade grade' : Option Double}
    (h : encode c entry grade = encode c entry' grade') : entry = entry' ∧ grade = grade' := by
  refine ⟨?_, ?_⟩
  · have he := congrArg (entryOf c) h
    rw [entryOf_encode, entryOf_encode] at he
    exact Option.some.inj he
  · have hg := congrArg (fun d : Doc => d (ownKey c)) h
    simp only [encode_ownKey] at hg
    exact Option.map_injective (fun x y e => Value.double.inj e) hg

/-- an edit replaces the entry and keeps the grade -/
theorem merge_edit (c : Coll) (new old : Entry c) (grade : Option Double) :
    (encode c new none).merge (encode c old grade) = encode c new grade := by
  apply Finmap.ext_lookup
  intro key
  show (encode c new none).merge (encode c old grade) key = encode c new grade key
  rw [Doc.merge_lookup]
  by_cases hkey : key = ownKey c
  · subst hkey
    rw [encode_ownKey, encode_ownKey, encode_ownKey]
    rfl
  · rw [encode_ne _ _ hkey, encode_ne _ _ hkey, encode_ne _ _ hkey]
    have hsome := fields_isSome c new old key
    cases hnew : Doc.ofFields (fields c new) key with
    | some x => rfl
    | none =>
      rw [hnew, Option.isSome_none, eq_comm, Option.isSome_eq_false_iff, Option.isNone_iff_eq_none] at hsome
      rw [hsome]
      rfl

/-- a listener replaces the grade and keeps the entry -/
theorem merge_grade (c : Coll) (entry : Entry c) (grade : Option Double) (x : Double) :
    (Doc.ofFields [(ownKey c, .double x)]).merge (encode c entry grade) = encode c entry (some x) := by
  apply Finmap.ext_lookup
  intro key
  show (gradeDoc c (some x)).merge (encode c entry grade) key = encode c entry (some x) key
  rw [Doc.merge_lookup]
  by_cases hkey : key = ownKey c
  · subst hkey
    rw [encode_ownKey, encode_ownKey, gradeDoc_ownKey]
    rfl
  · rw [encode_ne _ _ hkey, encode_ne _ _ hkey, gradeDoc_ne hkey, Option.none_or]

/-! ## What the app writes -/

/-- the entry that a form of c has in its text fields -/
def typed : (c : Coll) → FormBody → Option (Entry c)
  | .courses, .course cname => some ⟨cname⟩
  | .categories _, .category g => some ⟨g.text .catname, g.catweight.getD (.num 0)⟩
  | .assignments _ _, .assignment g => do
    let credit ← g.credit
    let totalcredit ← g.totalcredit
    some ⟨g.text .assname, credit, totalcredit⟩
  | _, _ => none

theorem encode_none (c : Coll) (entry : Entry c) : encode c entry none = Doc.ofFields (fields c entry) := by
  rw [encode, gradeDoc, ← Doc.ofFields_append, List.append_nil]

theorem encode_some (c : Coll) (entry : Entry c) (x : Double) :
    encode c entry (some x) = Doc.ofFields (fields c entry ++ [(ownKey c, .double x)]) := by
  rw [encode, gradeDoc, ← Doc.ofFields_append]

variable {E : Env}

/-- **What a button writes.** It adds the entry typed into the form with its first grade, or sends the entry alone. -/
theorem press_record {B : DocPath → Prop} {f : Form} {r : Request} (h : FormOk E B f) (hp : f.press = some [r]) :
    ∃ c entry, Rooted E B c ∧ typed c f.body = some entry ∧
      (FormBody.mode f.body = .new ∧ f.ref = c.ref E.uid ∧
          r = .addDocument (c.path E.uid) (encode c entry (firstGrade c)) ∨
        FormBody.mode f.body = .edit ∧ ∃ id, f.ref = c.ref E.uid ++ id.text ∧ B (c.doc E.uid id) ∧
          r = .updateData (c.doc E.uid id) (encode c entry none)) := by
  obtain ⟨client, ref, body⟩ := f
  obtain ⟨c, hfor, hc, hm⟩ := h
  cases body with
  | course cname =>
    cases c with
    | courses =>
      rcases hm with ⟨hm, rfl⟩ | ⟨hm, -⟩
      · simp only [Form.press, addCoursePressed_eq (Coll.collection_ref E.uid .courses), Option.some.injEq,
          List.cons.injEq, and_true] at hp
        exact ⟨.courses, ⟨cname⟩, hc, rfl, Or.inl ⟨hm, rfl, by rw [← hp, firstGrade, encode_none]; rfl⟩⟩
      · cases hm
    | _ => exact hfor.elim
  | category g =>
    cases c with
    | categories k =>
      simp only [Form.press, Option.ite_none_right_eq_some] at hp
      refine ⟨.categories k, ⟨g.text .catname, g.catweight.getD (.num 0)⟩, hc, rfl, ?_⟩
      rcases hm with ⟨hm, rfl⟩ | ⟨hm, id, rfl, hid⟩
      · rw [NewCat.confirm_new hm (Coll.collection_ref E.uid _)] at hp
        simp only [Option.some.injEq, List.cons.injEq, and_true] at hp
        exact Or.inl ⟨hm, rfl, by rw [← hp.2, firstGrade, encode_some]; rfl⟩
      · rw [NewCat.confirm_edit hm (Coll.document_ref_append E.uid _ id)] at hp
        simp only [Option.some.injEq, List.cons.injEq, and_true] at hp
        exact Or.inr ⟨hm, id, rfl, hid, by rw [← hp.2, encode_none]; rfl⟩
    | _ => exact hfor.elim
  | assignment g =>
    cases c with
    | assignments k j =>
      simp only [Form.press, Option.ite_none_right_eq_some] at hp
      have hdata := NewAss.confirm_data hp.2
      obtain ⟨credit, total, hcr, htot, hfields⟩ := NewAss.assignment_eq hdata
      have hencode : encode (.assignments k j) ⟨g.text .assname, credit, total⟩ none = r.data := by
        rw [encode_none, hfields]
        rfl
      refine ⟨.assignments k j, ⟨g.text .assname, credit, total⟩, hc, ?_, ?_⟩
      · simp only [typed, hcr, htot, Option.bind_eq_bind, Option.bind_some]
      · rcases hm with ⟨hm, rfl⟩ | ⟨hm, id, rfl, hid⟩
        · rw [NewAss.confirm_new hm (Coll.collection_ref E.uid _), hdata, Option.map_some] at hp
          refine Or.inl ⟨hm, rfl, ?_⟩
          rw [firstGrade, hencode]
          exact (List.cons.inj (Option.some.inj hp.2)).1.symm
        · rw [NewAss.confirm_edit hm (Coll.document_ref_append E.uid _ id), hdata, Option.map_some] at hp
          refine Or.inr ⟨hm, id, rfl, hid, ?_⟩
          rw [hencode]
          exact (List.cons.inj (Option.some.inj hp.2)).1.symm
    | _ => exact hfor.elim

inductive RecordWrite (E : Env) : Write → Prop where
  | add (c : Coll) (id : Segment) (entry : Entry c) :
      RecordWrite E (.add (c.doc E.uid id) (encode c entry (firstGrade c)))
  | edit (c : Coll) (id : Segment) (entry : Entry c) :
      RecordWrite E (.update (c.doc E.uid id) (encode c entry none))
  | grade (c c' : Coll) (id : Segment) (x : Double) (h : child c id = some c') :
      RecordWrite E (.update (c.doc E.uid id) (Doc.ofFields [(ownKey c, .double x)]))
  | delete (c : Coll) (id : Segment) : RecordWrite E (.delete (c.doc E.uid id))

/-- every document is an encoded entry with a grade or without, and every write on its way keeps that -/
structure Recorded (E : Env) (s : St) : Prop where
  stored : ∀ c id d, s.store.lookup (Coll.doc E.uid c id) = some d →
    ∃ entry grade, Graded c grade ∧ d = encode c entry grade
  flight : ∀ e ∈ s.flight, RecordWrite E e.2

/-- what a listener issues is the update of a grade -/
theorem mem_gradeWrites {c : Coll} {documents : Snapshot} {w : Write} (hw : w ∈ gradeWrites E c documents) :
    ∃ c' id, child c' id = some c ∧
      w = .update (c'.doc E.uid id) (Doc.ofFields [(ownKey c', .double (gradeOf c documents))]) := by
  unfold gradeWrites at hw
  cases hp : c.owner E.uid with
  | none => simp [hp] at hw
  | some p =>
    simp only [hp, List.mem_singleton] at hw
    obtain ⟨c', id, rfl⟩ := owner_doc hp
    have hchild := child_owner.1 hp
    exact ⟨c', id, hchild, by rw [hw, ownKey_eq hchild]⟩

theorem recordWrite_gradeWrites {c : Coll} {documents : Snapshot} {w : Write} (hw : w ∈ gradeWrites E c documents) :
    RecordWrite E w := by
  obtain ⟨c', id, hchild, rfl⟩ := mem_gradeWrites hw
  exact .grade c' c id _ hchild

theorem Recorded.apply {s : St} {w : Write} (h : Recorded E s) (hw : RecordWrite E w) (c : Coll) (id : Segment)
    (d : Doc) (hd : (w.apply s.store).lookup (c.doc E.uid id) = some d) :
    ∃ entry grade, Graded c grade ∧ d = encode c entry grade := by
  rw [Write.lookup_apply] at hd
  split_ifs at hd with hpath
  · cases hw with
    | add c' id' entry =>
      obtain ⟨rfl, rfl⟩ := (Coll.doc_inj E.uid _ _ _ _).1 hpath
      exact ⟨entry, firstGrade c, graded_firstGrade c, (Option.some.inj hd).symm⟩
    | edit c' id' entry =>
      obtain ⟨rfl, rfl⟩ := (Coll.doc_inj E.uid _ _ _ _).1 hpath
      obtain ⟨old, hold, rfl⟩ := Option.map_eq_some_iff.1 hd
      obtain ⟨entry', grade, hgrade, rfl⟩ := h.stored c id old hold
      exact ⟨entry, grade, hgrade, merge_edit c entry entry' grade⟩
    | grade c' c'' id' x hchild =>
      obtain ⟨rfl, rfl⟩ := (Coll.doc_inj E.uid _ _ _ _).1 hpath
      obtain ⟨old, hold, rfl⟩ := Option.map_eq_some_iff.1 hd
      obtain ⟨entry, grade, -, rfl⟩ := h.stored c id old hold
      exact ⟨entry, some x, graded_some hchild x, merge_grade c entry grade x⟩
    | delete c' id' => cases hd
  · exact h.stored c id d hd

theorem step_recorded {s s' : St} {o : Op} (h : Inv E s) (he : Effect E (fun _ => Born s) s s' o) (hr : Recorded E s) :
    Recorded E s' := by
  have hsend : ∀ {e : ℕ × Write}, RecordWrite E e.2 → ∀ e' ∈ s.flight ++ [e], RecordWrite E e'.2 := by
    intro e hw
    exact List.forall_mem_append.2 ⟨hr.flight, List.forall_mem_singleton.2 hw⟩
  cases he with
  | load o client c ho hc hs => exact hs ▸ ⟨hr.stored, hr.flight⟩
  | form o forms ho hf hs => exact hs ▸ ⟨hr.stored, hr.flight⟩
  | add i f c id data hf hpress hc hdata hid hs =>
    subst hs
    refine ⟨hr.stored, hsend ?_⟩
    obtain ⟨c', entry, -, -, ⟨-, -, hreq⟩ | ⟨-, id', -, -, hreq⟩⟩ :=
      press_record (h.forms_ok f (List.mem_of_getElem? hf)) hpress
    · obtain ⟨hpath, hdata⟩ := Request.addDocument.inj hreq
      obtain rfl := (Coll.path_inj E.uid _ _).1 hpath
      exact hdata ▸ .add c id entry
    · cases hreq
  | edit i f c id new data hf hpress hborn hdata hs =>
    subst hs
    refine ⟨hr.stored, hsend ?_⟩
    obtain ⟨c', entry, -, -, ⟨-, -, hreq⟩ | ⟨-, id', -, -, hreq⟩⟩ :=
      press_record (h.forms_ok f (List.mem_of_getElem? hf)) hpress
    · cases hreq
    · obtain ⟨hdoc, hdata⟩ := Request.updateData.inj hreq
      obtain ⟨rfl, rfl⟩ := (Coll.doc_inj E.uid _ _ _ _).1 hdoc
      exact hdata ▸ .edit c id entry
  | remove o client c ho id hborn hs =>
    subst hs
    exact ⟨hr.stored, hsend (.delete c id)⟩
  | apply c w pre post notify hflight hpre hs =>
    subst hs
    have hw : RecordWrite E w := hr.flight (c, w) ((mem_of_split hflight _).2 (Or.inl rfl))
    refine ⟨fun c' id d hd => hr.apply hw c' id d hd, ?_⟩
    intro e he
    exact hr.flight e ((mem_of_split hflight e).2 (Or.inr he))
  | deliver i v documents rest hv hpending hs =>
    subst hs
    refine ⟨hr.stored, List.forall_mem_append.2 ⟨hr.flight, ?_⟩⟩
    intro e he
    obtain ⟨w, hw, rfl⟩ := List.mem_map.1 he
    exact recordWrite_gradeWrites hw

theorem recorded_init (E : Env) : Recorded E init :=
  ⟨fun c id d hd => by simp [init] at hd, fun e he => by simp [init] at he⟩

theorem reachable_recorded {s : St} (h : Reachable E s) : Recorded E s := by
  obtain ⟨ops, hops⟩ := h
  exact ((inv_init E).run (fun t t' _ ht he hr => step_recorded ht he hr) (recorded_init E) hops).2

/-- **Exact documents.** A document of a reachable state has the fields of one entry of its collection and, where there
is one, a listener's grade, and no others; so it is one entry's and has one grade. -/
theorem stored_record (E : Env) (s : St) (h : Reachable E s) (p : DocPath) (d : Doc) (hd : s.store.lookup p = some d) :
    ∃ c id entry grade, (p = Coll.doc E.uid c id ∧ Graded c grade ∧ d = encode c entry grade) ∧
      ∀ entry' grade', d = encode c entry' grade' → entry' = entry ∧ grade' = grade := by
  obtain ⟨c, id, rfl, -⟩ := (reachable_inv h).store_ok p d hd
  obtain ⟨entry, grade, hgrade, rfl⟩ := (reachable_recorded h).stored c id d hd
  refine ⟨c, id, entry, grade, ⟨rfl, hgrade, rfl⟩, ?_⟩
  intro entry' grade' he
  obtain ⟨h1, h2⟩ := encode_injective he
  exact ⟨h1.symm, h2.symm⟩

/-- a document that the form added, an edit changed and two listeners graded -/
theorem stored_record_pair :
    pair.store.lookup (Coll.doc uid (.categories sampleCourse) sampleCategory) = some pairCategory ∧
    ∃ c id entry grade, (Coll.doc uid (.categories sampleCourse) sampleCategory = Coll.doc uid c id ∧ Graded c grade ∧
        pairCategory = encode c entry grade) ∧
      ∀ entry' grade', pairCategory = encode c entry' grade' → entry' = entry ∧ grade' = grade :=
  ⟨pair_category, stored_record sampleEnv pair pair_reachable _ pairCategory pair_category⟩

end GradeKeep.Records
