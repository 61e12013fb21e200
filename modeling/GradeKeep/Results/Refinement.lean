/-
The running system refines the gradebook.

Users see forms and rows; what they confirm becomes a write, the write waits for the server, and the server applies the
writes of all clients in some order, along with the grades that listeners write in between. Yet the entries in the store
are those of a gradebook on which the confirmed actions were performed one at a time. `Represents` is the abstraction,
`confirmed` the actions users confirm in a step (the entry typed into a form, the row deleted), `performed` the one
whose write the server applies, `onTheWay` the ones in flight.

Results:
- `represents_apply`: applying a write performs its action; the update of a grade performs none;
- `step_moved`: a step confirms actions or performs one client's oldest;
- `refines_gradebook`: so in every run the store represents the gradebook after a history of confirmed actions, in which
  each client's actions are the ones it confirmed, each once and in its order, up to those still on the way.
-/
import GradeKeep.Core.Trace
import GradeKeep.Results.Records

namespace GradeKeep.Refinement

open GradeKeep.SwiftDouble GradeKeep.Firestore GradeKeep.Schema GradeKeep.Listeners GradeKeep.Forms GradeKeep.System
open GradeKeep.WellFormed GradeKeep.Invariant GradeKeep.Gradebook GradeKeep.Records GradeKeep.Trace
open GradeKeep.DirectRuns

/-! ## The abstraction -/

/-- the user's action that a write carries out; the update of a grade carries out none -/
def actionOf (E : Env) : Write → Option Action
  | .add p data => do
    let c ← Coll.ofPath E.uid p.coll
    let entry ← entryOf c data
    some (.add c p.id entry)
  | .update p data => do
    let c ← Coll.ofPath E.uid p.coll
    let entry ← entryOf c data
    some (.edit c p.id entry)
  | .delete p => do
    let c ← Coll.ofPath E.uid p.coll
    some (.remove c p.id)

/-- what the button of a form asks for; id is what `addDocument` would draw -/
def pressed (E : Env) (f : Form) (id : Segment) : Option Action :=
  match FormBody.mode f.body with
  | .new => do
    let path ← collection f.ref
    let c ← Coll.ofPath E.uid path
    let entry ← typed c f.body
    some (.add c id entry)
  | .edit => do
    let p ← document f.ref
    let c ← Coll.ofPath E.uid p.coll
    let entry ← typed c f.body
    some (.edit c p.id entry)
  | .none => none

/-- the actions users confirm in a step, each with its client -/
def confirmed (E : Env) (s : St) : Op → List (ℕ × Action)
  | .press f id => (s.forms[f]?.bind fun form => (pressed E form id).map fun a => (form.client, a)).toList
  | .delete v i => (s.views[v]?.bind fun view =>
      view.rows.ids[i]?.map fun id => (view.client, .remove view.coll id)).toList
  | _ => []

/-- the action the server performs in a step -/
def performed (E : Env) (s : St) : Op → List (ℕ × Action)
  | .apply c _ => ((takeWrite c s.flight).bind fun r => (actionOf E r.1).map fun a => (c, a)).toList
  | _ => []

/-- the actions in flight -/
def onTheWay (E : Env) (flight : List (ℕ × Write)) : List (ℕ × Action) :=
  flight.filterMap fun e => (actionOf E e.2).map fun a => (e.1, a)

/-- the entries in the store are those of the gradebook -/
def Represents (E : Env) (store : Store) (g : Book) : Prop :=
  ∀ c id, (g c).lookup id = (store.lookup (c.doc E.uid id)).bind (entryOf c)

variable {E : Env}

theorem actionOf_add (c : Coll) (id : Segment) (entry : Entry c) (grade : Option Double) :
    actionOf E (.add (c.doc E.uid id) (encode c entry grade)) = some (.add c id entry) := by
  simp only [actionOf, Coll.doc_coll, Coll.doc_id, Coll.ofPath_path, entryOf_encode, Option.bind_eq_bind,
    Option.bind_some]

theorem actionOf_edit (c : Coll) (id : Segment) (entry : Entry c) (grade : Option Double) :
    actionOf E (.update (c.doc E.uid id) (encode c entry grade)) = some (.edit c id entry) := by
  simp only [actionOf, Coll.doc_coll, Coll.doc_id, Coll.ofPath_path, entryOf_encode, Option.bind_eq_bind,
    Option.bind_some]

theorem actionOf_delete (c : Coll) (id : Segment) : actionOf E (.delete (c.doc E.uid id)) = some (.remove c id) := by
  simp only [actionOf, Coll.doc_coll, Coll.doc_id, Coll.ofPath_path, Option.bind_eq_bind, Option.bind_some]

/-- a grade alone is no entry -/
theorem actionOf_grade (c : Coll) (id : Segment) (x : Double) :
    actionOf E (.update (c.doc E.uid id) (Doc.ofFields [(ownKey c, .double x)])) = none := by
  have hentry : entryOf c (Doc.ofFields [(ownKey c, .double x)]) = none := by
    cases c <;> simp [entryOf, ownKey, Cat.rawValue, Ass.rawValue]
  simp only [actionOf, Coll.doc_coll, Coll.ofPath_path, hentry, Option.bind_eq_bind, Option.bind_some, Option.bind_none]

theorem actionOf_gradeWrites {c : Coll} {documents : Snapshot} {w : Write} (hw : w ∈ gradeWrites E c documents) :
    actionOf E w = none := by
  obtain ⟨c', id, -, rfl⟩ := mem_gradeWrites hw
  exact actionOf_grade c' id _

/-! ## One step -/

/-- an entry is performed on together with its document, or neither is -/
theorem represents_at (c : Coll) (id : Segment) {store store' : Store} {g g' : Book} (h : Represents E store g)
    (hne : ∀ c' id', ¬(c = c' ∧ id = id') → (g' c').lookup id' = (g c').lookup id' ∧
      store'.lookup (c'.doc E.uid id') = store.lookup (c'.doc E.uid id'))
    (hself : (g' c).lookup id = (store'.lookup (c.doc E.uid id)).bind (entryOf c)) : Represents E store' g' := by
  intro c' id'
  by_cases he : c = c' ∧ id = id'
  · obtain ⟨rfl, rfl⟩ := he
    exact hself
  · rw [(hne c' id' he).1, (hne c' id' he).2]
    exact h c' id'

theorem lookup_apply_doc (store : Store) {w : Write} {c : Coll} {id : Segment} (hw : w.path = c.doc E.uid id) :
    (w.apply store).lookup (c.doc E.uid id) = w.result (store.lookup (c.doc E.uid id)) := by
  rw [← hw]
  exact Write.lookup_apply_self store w

theorem lookup_apply_other (store : Store) {w : Write} {c c' : Coll} {id id' : Segment}
    (hw : w.path = c.doc E.uid id) (h : ¬(c = c' ∧ id = id')) :
    (w.apply store).lookup (c'.doc E.uid id') = store.lookup (c'.doc E.uid id') := by
  refine Write.lookup_apply_ne _ _ ?_
  rw [hw]
  intro he
  rw [Coll.doc_inj] at he
  exact h ⟨he.1.symm, he.2.symm⟩

/-- **The server performs actions.** -/
theorem represents_apply {s : St} {g : Book} {w : Write} (h : Represents E s.store g) (hr : Recorded E s)
    (hw : RecordWrite E w) : Represents E (w.apply s.store) ((actionOf E w).toList.foldl perform g) := by
  cases hw with
  | add c id entry =>
    rw [actionOf_add]
    refine represents_at c id h (fun c' id' hne => ⟨perform_lookup_ne g (.add c id entry) hne,
      lookup_apply_other s.store rfl hne⟩) ?_
    rw [lookup_apply_doc s.store rfl, Write.result, Option.bind_some, entryOf_encode]
    exact add_lookup g c id entry
  | edit c id entry =>
    rw [actionOf_edit]
    refine represents_at c id h (fun c' id' hne => ⟨perform_lookup_ne g (.edit c id entry) hne,
      lookup_apply_other s.store rfl hne⟩) ?_
    refine (edit_lookup g c id entry).trans ?_
    rw [lookup_apply_doc s.store rfl, Write.result, h c id]
    cases hold : s.store.lookup (c.doc E.uid id) with
    | none => rfl
    | some old =>
      obtain ⟨entry', grade, -, rfl⟩ := hr.stored c id old hold
      rw [Option.map_some, Option.bind_some, Option.bind_some, merge_edit, entryOf_encode, entryOf_encode,
        Option.map_some]
  | grade c c' id x hchild =>
    rw [actionOf_grade]
    refine represents_at c id h (fun c' id' hne => ⟨rfl, lookup_apply_other s.store rfl hne⟩) ?_
    refine (h c id).trans ?_
    rw [lookup_apply_doc s.store rfl, Write.result]
    cases hold : s.store.lookup (c.doc E.uid id) with
    | none => rfl
    | some old =>
      obtain ⟨entry, grade, -, rfl⟩ := hr.stored c id old hold
      rw [Option.map_some, Option.bind_some, Option.bind_some, merge_grade, entryOf_encode, entryOf_encode]
  | delete c id =>
    rw [actionOf_delete]
    refine represents_at c id h (fun c' id' hne => ⟨perform_lookup_ne g (.remove c id) hne,
      lookup_apply_other s.store rfl hne⟩) ?_
    rw [lookup_apply_doc s.store rfl, Write.result, Option.bind_none]
    exact remove_lookup g c id

theorem performed_local {s : St} {o : Op} (ho : Local o) : performed E s o = [] := by
  cases o with
  | apply c notify => exact ho.elim
  | _ => rfl

theorem step_represents {s s' : St} {o : Op} {g : Book} (h : Inv E s) (hr : Recorded E s)
    (hg : Represents E s.store g) (hs : step E s o = some s') :
    Represents E s'.store ((performed E s o).foldl (fun g a => perform g a.2) g) := by
  cases step_effect h hs with
  | load o client c ho hc he => subst he; rw [performed_local ho]; exact hg
  | form o forms ho hf he => subst he; rw [performed_local ho]; exact hg
  | add i f c id data hf hpress hc hdata hid he => subst he; exact hg
  | edit i f c id new data hf hpress hborn hdata he => subst he; exact hg
  | remove o client c ho id hborn he => subst he; rw [performed_local ho]; exact hg
  | apply c w pre post notify hflight hpre he =>
    subst he
    have hw : RecordWrite E w := hr.flight (c, w) ((mem_of_split hflight _).2 (Or.inl rfl))
    have hperf : (performed E s (.apply c notify)).foldl (fun g a => perform g a.2) g =
        (actionOf E w).toList.foldl perform g := by
      rw [performed, hflight, takeWrite_append hpre, Option.bind_some]
      cases actionOf E w <;> rfl
    rw [hperf]
    exact represents_apply hg hr hw
  | deliver i v documents rest hv hpending he => subst he; exact hg

/-- what the button of a form asks for is what its write carries out -/
theorem pressed_eq {B : DocPath → Prop} {f : Form} {r : Request} (h : FormOk E B f) (hp : f.press = some [r])
    (id : Segment) : ∃ a, pressed E f id = some a ∧ actionOf E (requestWrite id r) = some a := by
  obtain ⟨c, entry, -, hentry, ⟨hm, href, rfl⟩ | ⟨hm, i, href, -, rfl⟩⟩ := press_record h hp
  · refine ⟨.add c id entry, ?_, actionOf_add c id entry _⟩
    simp only [pressed, hm, href, Coll.collection_ref, Coll.ofPath_path, hentry, Option.bind_eq_bind, Option.bind_some]
  · refine ⟨.edit c i entry, ?_, actionOf_edit c i entry _⟩
    simp only [pressed, hm, href, Coll.document_ref_append, Coll.doc_coll, Coll.doc_id, Coll.ofPath_path, hentry,
      Option.bind_eq_bind, Option.bind_some]

theorem onTheWay_append (a b : List (ℕ × Write)) : onTheWay E (a ++ b) = onTheWay E a ++ onTheWay E b :=
  List.filterMap_append

/-- a step of which the users and the server's actions see nothing -/
theorem moved_same {flight flight' : List (ℕ × Action)} (h : flight' = flight) : Moved flight flight' [] [] :=
  .send (h.trans (List.append_nil flight).symm) rfl

/-- **Actions on their way.** A step confirms some, or performs the oldest one of a client. -/
theorem step_moved {s s' : St} {o : Op} (h : Inv E s) (hs : step E s o = some s') :
    Moved (onTheWay E s.flight) (onTheWay E s'.flight) (confirmed E s o) (performed E s o) := by
  have he := step_effect h hs
  cases stepped hs with
  | viewDidLoad c => exact moved_same rfl
  | segue v i view c hv hc => exact moved_same rfl
  | newForm v view hv => exact moved_same rfl
  | editForm v i view form hv hform => exact moved_same rfl
  | type f e form body hform hbody => exact moved_same rfl
  | press f id form requests hform hpress hid =>
    have hok := h.forms_ok form (List.mem_of_getElem? hform)
    obtain ⟨r, rfl, -⟩ := hok.press hpress
    obtain ⟨a, hpressed, haction⟩ := pressed_eq hok hpress id
    have hconf : confirmed E s (.press f id) = [(form.client, a)] := by
      simp only [confirmed, hform, hpressed, Option.bind_some, Option.map_some, Option.toList_some]
    refine .send ?_ rfl
    rw [onTheWay_append, hconf]
    simp only [onTheWay, List.map_singleton, List.filterMap_cons, List.filterMap_nil, haction, Option.map_some]
  | delete v i view w hv hw =>
    rw [View.delete_eq] at hw
    obtain ⟨id, hid, rfl⟩ := Option.map_eq_some_iff.1 hw
    have hconf : confirmed E s (.delete v i) = [(view.client, .remove view.coll id)] := by
      simp only [confirmed, hv, hid, Option.bind_some, Option.map_some, Option.toList_some]
    refine .send ?_ rfl
    rw [onTheWay_append, hconf]
    simp only [onTheWay, List.filterMap_cons, List.filterMap_nil, actionOf_delete, Option.map_some]
  | apply c notify w rest htake =>
    obtain ⟨pre, post, hflight, rfl, hpre⟩ := takeWrite_some htake
    have hsplit : onTheWay E s.flight =
        onTheWay E pre ++ (((actionOf E w).map fun a => (c, a)).toList ++ onTheWay E post) := by
      rw [hflight, onTheWay_append]
      congr 1
      simp only [onTheWay, List.filterMap_cons]
      cases actionOf E w <;> rfl
    have hperf : performed E s (.apply c notify) = ((actionOf E w).map fun a => (c, a)).toList := by
      rw [performed, htake, Option.bind_some]
    cases ha : actionOf E w with
    | none =>
      rw [hperf, ha]
      refine moved_same ?_
      rw [hsplit, ha]
      exact onTheWay_append pre post
    | some a =>
      rw [hperf, hsplit, ha]
      refine .take c a (onTheWay E pre) (onTheWay E post) rfl ?_ (onTheWay_append pre post) rfl rfl
      intro e hmem
      obtain ⟨e', he', hsome⟩ := List.mem_filterMap.1 hmem
      obtain ⟨a', -, rfl⟩ := Option.map_eq_some_iff.1 hsome
      exact hpre e' he'
  | deliver v view view' writes hv hdeliver =>
    cases he with
    | deliver i v documents rest hv' hpending hs' =>
      refine moved_same ?_
      rw [hs', onTheWay_append]
      refine (congrArg _ ?_).trans (List.append_nil _)
      refine List.filterMap_eq_nil_iff.2 ?_
      intro e hmem
      obtain ⟨w, hw, rfl⟩ := List.mem_map.1 hmem
      rw [actionOf_gradeWrites hw, Option.map_none]
    | load o client c ho hc hs' => exact ho.elim
    | form o forms ho hf hs' => exact ho.elim
    | remove o client c ho id hborn hs' => exact ho.elim

/-! ## Runs -/

/-- what the server has performed by the end of a run, oldest first -/
def history (E : Env) (ops : List Op) : List (ℕ × Action) := labels (step E) (performed E) init ops

theorem represents_init (E : Env) : Represents E init.store empty := fun _ _ => rfl

/-- the simulation: every step performs the actions it is labelled with -/
theorem represents_history {s : St} {ops : List Op} (h : run E init ops = some s) :
    Represents E s.store (performAll ((history E ops).map (·.2))) := by
  have hsim : ∀ t o t' (g : Book), Inv E t ∧ Recorded E t ∧ Represents E t.store g → step E t o = some t' →
      Inv E t' ∧ Recorded E t' ∧
        Represents E t'.store ((performed E t o).foldl (fun g a => perform g a.2) g) := by
    rintro t o t' g ⟨hinv, hrec, hg⟩ hs
    exact ⟨step_inv hinv hs, step_recorded hinv (step_effect hinv hs) hrec, step_represents hinv hrec hg hs⟩
  have hrun := simulates hsim ⟨inv_init E, recorded_init E, represents_init E⟩ h
  rw [performAll, List.foldl_map]
  exact hrun.2.2

theorem accounted_history {s : St} {ops : List Op} (h : run E init ops = some s) :
    Accounted (labels (step E) (confirmed E) init ops) (history E ops) (onTheWay E s.flight) := by
  have hnone : Accounted [] [] (onTheWay E init.flight) := fun _ => rfl
  have hrun := accounted_run (fun _ _ _ ht hs => ⟨step_inv ht hs, step_moved ht hs⟩) (inv_init E) h hnone
  rwa [List.nil_append, List.nil_append] at hrun

/-- **The store is a gradebook.** After any run its entries are those of the gradebook on which a history of actions was
performed one at a time; of each client the history has the actions it confirmed, in its order, but for the last ones,
which are on their way. -/
theorem refines_gradebook (E : Env) (ops : List Op) (s : St) (h : run E init ops = some s) :
    ∃ actions : List (ℕ × Action), Represents E s.store (performAll (actions.map (·.2))) ∧
      ∀ client, ofSender client (labels (step E) (confirmed E) init ops) =
        ofSender client actions ++ ofSender client (onTheWay E s.flight) :=
  ⟨history E ops, represents_history h, accounted_history h⟩

theorem sampleRun_ends : run sampleEnv init sampleRun = some sample := by
  refine run_init_after sampleRun ?_
  rw [run_init_direct]
  decide +kernel

theorem refines_gradebook_sample : ∃ actions : List (ℕ × Action),
    Represents sampleEnv sample.store (performAll (actions.map (·.2))) ∧
      ∀ client, ofSender client (labels (step sampleEnv) (confirmed sampleEnv) init sampleRun) =
        ofSender client actions ++ ofSender client (onTheWay sampleEnv sample.flight) :=
  refines_gradebook sampleEnv sampleRun sample sampleRun_ends

end GradeKeep.Refinement
