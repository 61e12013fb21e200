/-
Where everything that is shown or stored comes from, also with the cache and local writes in play.

A listener may be shown documents that no store ever had: an add that is still on its way, an edit over a stale copy.
And what it computes from them is written, stored and shown to others. Yet nothing is made up. A document is `Sourced`
when its entry was confirmed by a user, for that very document, and its grade is the form's first one, or what the
listener's formula gives for documents that are themselves sourced, so in the end for confirmed entries.

Results:
- `SourcedWrite.result`: writes of sourced data keep documents sourced;
- `cached_shown`: a cached snapshot shows sourced documents;
- `step_sourced`: a step confirms what it sources;
- `all_sourced`: so in every run all that is shown, stored or written is sourced.
-/
import GradeKeep.Results.LocalKnowledge
import GradeKeep.Results.Refinement

namespace GradeKeep.Provenance

open GradeKeep.SwiftDouble GradeKeep.Firestore GradeKeep.Schema GradeKeep.Forms GradeKeep.System GradeKeep.LocalViews
open GradeKeep.WellFormed GradeKeep.Invariant GradeKeep.Gradebook GradeKeep.Records GradeKeep.Refinement
open GradeKeep.LocalKnowledge GradeKeep.Trace

/-- the actions users confirm in a step -/
def confirmedIn (E : Env) (s : LocalViews.St) : LocalViews.Op → List (ℕ × Action)
  | .base o => confirmed E s.base o
  | .fromCache _ _ => []

/-- some user confirmed the entry for document id of c -/
def Confirmed (actions : List (ℕ × Action)) (c : Coll) (id : Segment) (entry : Entry c) : Prop :=
  ∃ client, (client, .add c id entry) ∈ actions ∨ (client, .edit c id entry) ∈ actions

inductive Sourced (actions : List (ℕ × Action)) : Coll → Segment → Doc → Prop where
  /-- an entry with the grade its form gave it -/
  | entered {c : Coll} {id : Segment} {entry : Entry c} (h : Confirmed actions c id entry) :
      Sourced actions c id (encode c entry (firstGrade c))
  /-- an entry with the grade of these documents below it -/
  | graded {c c' : Coll} {id : Segment} {entry : Entry c} {documents : Snapshot} (h : Confirmed actions c id entry)
      (hchild : child c id = some c') (hnodup : (documents.map Prod.fst).Nodup)
      (hdocuments : ∀ e ∈ documents, Sourced actions c' e.1 e.2) :
      Sourced actions c id (encode c entry (some (gradeOf c' documents)))

/-- a snapshot of sourced documents, each once -/
structure Shown (actions : List (ℕ × Action)) (c : Coll) (documents : Snapshot) : Prop where
  nodup : (documents.map Prod.fst).Nodup
  sourced : ∀ e ∈ documents, Sourced actions c e.1 e.2

inductive SourcedWrite (E : Env) (actions : List (ℕ × Action)) : Write → Prop where
  | add {c : Coll} {id : Segment} {entry : Entry c} (h : Confirmed actions c id entry) :
      SourcedWrite E actions (.add (c.doc E.uid id) (encode c entry (firstGrade c)))
  | edit {c : Coll} {id : Segment} {entry : Entry c} (h : Confirmed actions c id entry) :
      SourcedWrite E actions (.update (c.doc E.uid id) (encode c entry none))
  | grade {c c' : Coll} {id : Segment} {documents : Snapshot} (hchild : child c id = some c')
      (h : Shown actions c' documents) :
      SourcedWrite E actions (.update (c.doc E.uid id) (Doc.ofFields [(ownKey c, .double (gradeOf c' documents))]))
  | delete (c : Coll) (id : Segment) : SourcedWrite E actions (.delete (c.doc E.uid id))

/-! ## More actions -/

section Mono

variable {a a' : List (ℕ × Action)} (hsub : ∀ x ∈ a, x ∈ a')
include hsub

theorem Confirmed.mono {c : Coll} {id : Segment} {entry : Entry c} (h : Confirmed a c id entry) :
    Confirmed a' c id entry := by
  obtain ⟨client, h⟩ := h
  exact ⟨client, h.imp (hsub _) (hsub _)⟩

theorem Sourced.mono {c : Coll} {id : Segment} {d : Doc} (h : Sourced a c id d) : Sourced a' c id d := by
  induction h with
  | entered h => exact .entered (h.mono hsub)
  | graded h hchild hnodup _ ih => exact .graded (h.mono hsub) hchild hnodup ih

theorem Shown.mono {c : Coll} {documents : Snapshot} (h : Shown a c documents) : Shown a' c documents :=
  ⟨h.nodup, fun e he => (h.sourced e he).mono hsub⟩

theorem SourcedWrite.mono {E : Env} {w : Write} (h : SourcedWrite E a w) : SourcedWrite E a' w := by
  cases h with
  | add h => exact .add (h.mono hsub)
  | edit h => exact .edit (h.mono hsub)
  | grade hchild h => exact .grade hchild (h.mono hsub)
  | delete c id => exact .delete c id

end Mono

/-! ## Writes -/

variable {E : Env} {actions : List (ℕ × Action)}

theorem Sourced.edit {c : Coll} {id : Segment} {d : Doc} (h : Sourced actions c id d) {entry : Entry c}
    (hentry : Confirmed actions c id entry) : Sourced actions c id ((encode c entry none).merge d) := by
  cases h with
  | entered h =>
    rw [merge_edit]
    exact .entered hentry
  | graded h hchild hnodup hdocuments =>
    rw [merge_edit]
    exact .graded hentry hchild hnodup hdocuments

theorem Sourced.grade {c c' : Coll} {id : Segment} {d : Doc} (h : Sourced actions c id d) {documents : Snapshot}
    (hchild : child c id = some c') (hdocuments : Shown actions c' documents) :
    Sourced actions c id ((Doc.ofFields [(ownKey c, .double (gradeOf c' documents))]).merge d) := by
  cases h with
  | entered h =>
    rw [merge_grade]
    exact .graded h hchild hdocuments.nodup hdocuments.sourced
  | graded h _ _ _ =>
    rw [merge_grade]
    exact .graded h hchild hdocuments.nodup hdocuments.sourced

/-- **A sourced write keeps its document sourced.** -/
theorem SourcedWrite.result {w : Write} (hw : SourcedWrite E actions w) {c : Coll} {id : Segment}
    (hp : w.path = c.doc E.uid id) (old : Option Doc) (hold : ∀ d ∈ old, Sourced actions c id d) :
    ∀ d ∈ w.result old, Sourced actions c id d := by
  intro d hd
  cases hw with
  | add h =>
    obtain ⟨rfl, rfl⟩ := (Coll.doc_inj E.uid _ _ _ _).1 hp
    rw [← Option.some.inj hd]
    exact .entered h
  | edit h =>
    obtain ⟨rfl, rfl⟩ := (Coll.doc_inj E.uid _ _ _ _).1 hp
    obtain ⟨d₀, hd₀, rfl⟩ := Option.map_eq_some_iff.1 hd
    exact (hold d₀ hd₀).edit h
  | grade hchild h =>
    obtain ⟨rfl, rfl⟩ := (Coll.doc_inj E.uid _ _ _ _).1 hp
    obtain ⟨d₀, hd₀, rfl⟩ := Option.map_eq_some_iff.1 hd
    exact (hold d₀ hd₀).grade hchild h
  | delete c' id' => cases hd

/-! ## The invariant -/

structure AllSourced (E : Env) (actions : List (ℕ × Action)) (s : LocalViews.St) : Prop where
  stores : ∀ store ∈ s.stores, ∀ c id d, store.lookup (c.doc E.uid id) = some d → Sourced actions c id d
  issued : ∀ e ∈ s.issued, SourcedWrite E actions e.2
  pending : ∀ v ∈ s.base.views, ∀ documents ∈ v.pending, Shown actions v.coll documents
  last : ∀ v ∈ s.base.views, ∀ documents, v.last = some documents → Shown actions v.coll documents

variable {s : LocalViews.St} {t : System.St}

theorem content_shown {store : Store} {c : Coll}
    (h : ∀ c id d, store.lookup (c.doc E.uid id) = some d → Sourced actions c id d) :
    Shown actions c (content E store c) :=
  ⟨orderBy_nodup (docs_nodup _ _), fun e he => h c e.1 e.2 (mem_docs.1 (mem_orderBy.1 he).1)⟩

theorem cached_shown (h : AllSourced E actions s) (v : View) {picks : List Pick} (hnodup : (picks.map (·.id)).Nodup) :
    Shown actions v.coll (cached E s v picks) := by
  refine ⟨cached_nodup hnodup, ?_⟩
  intro e he
  obtain ⟨pick, hversion⟩ := mem_cached he
  refine version_keeps (P := Sourced actions v.coll e.1) ?_ ?_ e.2 hversion
  · exact fun store hstore d hd => h.stores store hstore v.coll e.1 d hd
  · exact fun w hissued hp => (h.issued _ hissued).result hp

/-- what a button issues was confirmed with it -/
theorem press_sourced {B : DocPath → Prop} {i : ℕ} {f : Form} {r : Request} (hok : FormOk E B f)
    (hf : t.forms[i]? = some f) (hpress : f.press = some [r]) (new : Segment) :
    SourcedWrite E (confirmed E t (.press i new)) (requestWrite new r) := by
  obtain ⟨a, hpressed, haction⟩ := pressed_eq hok hpress new
  have hconf : confirmed E t (.press i new) = [(f.client, a)] := by
    simp only [confirmed, hf, hpressed, Option.bind_some, Option.map_some, Option.toList_some]
  obtain ⟨c, entry, -, -, ⟨-, -, rfl⟩ | ⟨-, id, -, -, rfl⟩⟩ := press_record hok hpress
  · obtain rfl : Action.add c new entry = a := Option.some.inj ((actionOf_add c new entry _).symm.trans haction)
    rw [hconf]
    exact .add ⟨f.client, Or.inl (List.mem_singleton_self _)⟩
  · obtain rfl : Action.edit c id entry = a := Option.some.inj ((actionOf_edit c id entry _).symm.trans haction)
    rw [hconf]
    exact .edit ⟨f.client, Or.inr (List.mem_singleton_self _)⟩

/-- more writes are in flight; the store is what it was -/
theorem AllSourced.send (h : AllSourced E actions s) (hk : Knowledge E s) {new : List (ℕ × Write)}
    (hstore : t.store = s.base.store) (hflight : t.flight = s.base.flight ++ new)
    (hnew : ∀ e ∈ new, SourcedWrite E actions e.2)
    (hpending : ∀ v ∈ t.views, ∀ documents ∈ v.pending, Shown actions v.coll documents)
    (hlast : ∀ v ∈ t.views, ∀ documents, v.last = some documents → Shown actions v.coll documents) :
    AllSourced E actions ⟨t, s.stores ++ [t.store], s.issued ++ newWrites s.base t⟩ := by
  have hwrites : newWrites s.base t = new := by rw [newWrites, hflight, List.drop_left]
  rw [hwrites, hstore]
  refine ⟨?_, List.forall_mem_append.2 ⟨h.issued, hnew⟩, hpending, hlast⟩
  exact List.forall_mem_append.2 ⟨h.stores, List.forall_mem_singleton.2 (h.stores _ hk.store_mem)⟩

theorem AllSourced.mono {actions' : List (ℕ × Action)} (h : AllSourced E actions s)
    (hsub : ∀ x ∈ actions, x ∈ actions') : AllSourced E actions' s where
  stores store hstore c id d hd := (h.stores store hstore c id d hd).mono hsub
  issued e he := (h.issued e he).mono hsub
  pending v hv documents hd := (h.pending v hv documents hd).mono hsub
  last v hv documents hd := (h.last v hv documents hd).mono hsub

/-- a write is applied -/
theorem AllSourced.apply (h : AllSourced E actions s) (hk : Knowledge E s) {c : ℕ} {w : Write}
    {pre post : List (ℕ × Write)} {notify : List ℕ} (hflight : s.base.flight = pre ++ (c, w) :: post) :
    AllSourced E actions ⟨applied E s.base w (pre ++ post) notify, s.stores ++ [w.apply s.base.store],
      s.issued ++ newWrites s.base (applied E s.base w (pre ++ post) notify)⟩ := by
  have hw : SourcedWrite E actions w := h.issued (c, w) (hk.flight_issued _ ((mem_of_split hflight _).2 (Or.inl rfl)))
  have hstore : ∀ c id d, (w.apply s.base.store).lookup (c.doc E.uid id) = some d → Sourced actions c id d := by
    intro c id d hd
    rw [Write.lookup_apply] at hd
    split_ifs at hd with hp
    · exact hw.result hp.symm _ (h.stores _ hk.store_mem c id) d hd
    · exact h.stores _ hk.store_mem c id d hd
  rw [newWrites_applied hflight, List.append_nil]
  refine ⟨List.forall_mem_append.2 ⟨h.stores, List.forall_mem_singleton.2 hstore⟩, h.issued, ?_, ?_⟩
  · intro v hv
    obtain ⟨v₀, hv₀, rfl | rfl⟩ := mem_applied_views hv
    · exact h.pending v hv₀
    · exact List.forall_mem_append.2 ⟨h.pending v₀ hv₀, List.forall_mem_singleton.2 (content_shown hstore)⟩
  · intro v hv
    obtain ⟨v₀, hv₀, rfl | rfl⟩ := mem_applied_views hv
    · exact h.last v hv₀
    · exact h.last v₀ hv₀

theorem base_sourced (h : AllSourced E actions s) (hk : Knowledge E s) {o : System.Op}
    (hs : System.step E s.base o = some t) : AllSourced E (actions ++ confirmed E s.base o)
      ⟨t, s.stores ++ [t.store], s.issued ++ newWrites s.base t⟩ := by
  have h' : AllSourced E (actions ++ confirmed E s.base o) s := h.mono fun x hx => List.mem_append_left _ hx
  have hnone : ∀ e ∈ ([] : List (ℕ × Write)), SourcedWrite E (actions ++ confirmed E s.base o) e.2 :=
    fun e he => absurd he List.not_mem_nil
  cases effect_of_ok (B := Knows s.base) hk.views_ok hk.forms_ok hs with
  | load o client c ho hc ht =>
    subst ht
    refine h'.send hk rfl (List.append_nil _).symm hnone ?_ ?_
    · have hcontent := content_shown (E := E) (c := c) (h'.stores _ hk.store_mem)
      exact List.forall_mem_append.2 ⟨h'.pending, List.forall_mem_singleton.2 (List.forall_mem_singleton.2 hcontent)⟩
    · refine List.forall_mem_append.2 ⟨h'.last, List.forall_mem_singleton.2 ?_⟩
      intro documents hd
      cases hd
  | form o forms ho hf ht =>
    subst ht
    exact h'.send hk rfl (List.append_nil _).symm hnone h'.pending h'.last
  | add i f c id data hf hpress hc hdata hid ht =>
    subst ht
    have hw := press_sourced (hk.forms_ok f (List.mem_of_getElem? hf)) hf hpress id
    exact h'.send hk rfl rfl (List.forall_mem_singleton.2 (hw.mono fun x hx => List.mem_append_right _ hx)) h'.pending
      h'.last
  | edit i f c id new data hf hpress hborn hdata ht =>
    subst ht
    have hw := press_sourced (hk.forms_ok f (List.mem_of_getElem? hf)) hf hpress new
    exact h'.send hk rfl rfl (List.forall_mem_singleton.2 (hw.mono fun x hx => List.mem_append_right _ hx)) h'.pending
      h'.last
  | remove o client c ho id hborn ht =>
    subst ht
    exact h'.send hk rfl rfl (List.forall_mem_singleton.2 (.delete c id)) h'.pending h'.last
  | apply c w pre post notify hflight hpre ht =>
    subst ht
    exact h'.apply hk hflight
  | deliver i v documents rest hv hpending ht =>
    subst ht
    have hqueued := h'.pending v (List.mem_of_getElem? hv)
    rw [hpending] at hqueued
    obtain ⟨hshown, hrest⟩ := List.forall_mem_cons.1 hqueued
    refine h'.send hk rfl rfl ?_ ?_ ?_
    · intro e he
      obtain ⟨w, hw, rfl⟩ := List.mem_map.1 he
      obtain ⟨c', id, hchild, rfl⟩ := mem_gradeWrites hw
      exact .grade hchild hshown
    · intro v' hv'
      rcases List.mem_or_eq_of_mem_set hv' with hv' | rfl
      · exact h'.pending v' hv'
      · exact hrest
    · intro v' hv'
      rcases List.mem_or_eq_of_mem_set hv' with hv' | rfl
      · exact h'.last v' hv'
      · intro d hd
        rw [← Option.some.inj hd]
        exact hshown

theorem step_sourced {s' : LocalViews.St} {o : LocalViews.Op} (h : AllSourced E actions s) (hk : Knowledge E s)
    (hs : LocalViews.step E s o = some s') : AllSourced E (actions ++ confirmedIn E s o) s' := by
  cases LocalViews.stepped hs with
  | base o t ht => exact base_sourced h hk ht
  | fromCache v picks view hv hnodup =>
    have hnone : actions ++ confirmedIn E s (.fromCache v picks) = actions := List.append_nil actions
    rw [hnone]
    have hview := List.mem_of_getElem? hv
    refine ⟨h.stores, h.issued, ?_, ?_⟩
    · intro w hw
      rcases List.mem_or_eq_of_mem_set hw with hw | rfl
      · exact h.pending w hw
      · exact List.forall_mem_cons.2 ⟨cached_shown h view hnodup, h.pending view hview⟩
    · intro w hw
      rcases List.mem_or_eq_of_mem_set hw with hw | rfl
      · exact h.last w hw
      · exact h.last view hview

theorem sourced_init (E : Env) : AllSourced E [] LocalViews.init where
  stores store h c id d hd := by
    rw [List.mem_singleton.1 h] at hd
    cases hd
  issued e h := absurd h List.not_mem_nil
  pending v h := absurd h List.not_mem_nil
  last v h := absurd h List.not_mem_nil

theorem run_sourced {ops : List LocalViews.Op} (h : LocalViews.run E LocalViews.init ops = some s) :
    Knowledge E s ∧ AllSourced E (labels (LocalViews.step E) (confirmedIn E) LocalViews.init ops) s := by
  have hstep : ∀ a s o s', Knowledge E s ∧ AllSourced E a s → LocalViews.step E s o = some s' →
      Knowledge E s' ∧ AllSourced E (a ++ confirmedIn E s o) s' := by
    rintro a s o s' ⟨hk, hs⟩ ho
    exact ⟨step_knowledge hk ho, step_sourced hs hk ho⟩
  exact labels_invariant (fun a s => Knowledge E s ∧ AllSourced E a s) hstep ⟨knowledge_init E, sourced_init E⟩ h

/-- **Nothing is made up.** After any run, with cached and local snapshots shown at any time: every snapshot that a
listener was shown last or has queued has each document once, each with an entry that some user confirmed for it and
the grade of its form or of documents below it for which the same holds; the rows of the listener's table are those of
the snapshot it was shown last; and every stored document is such a document. -/
theorem all_sourced (E : Env) (ops : List LocalViews.Op) (s : LocalViews.St)
    (h : LocalViews.run E LocalViews.init ops = some s) :
    (∀ v ∈ s.base.views, v.rows = rowsOf v.coll (v.last.getD []) ∧ ∀ documents, documents ∈ v.pending ∨
      v.last = some documents →
        Shown (labels (LocalViews.step E) (confirmedIn E) LocalViews.init ops) v.coll documents) ∧
    ∀ p d, s.base.store.lookup p = some d → ∃ c id, p = c.doc E.uid id ∧
      Sourced (labels (LocalViews.step E) (confirmedIn E) LocalViews.init ops) c id d := by
  obtain ⟨hk, hs⟩ := run_sourced h
  refine ⟨?_, ?_⟩
  · intro v hv
    refine ⟨(hk.views_ok v hv).rows, ?_⟩
    rintro documents (hd | hd)
    · exact hs.pending v hv documents hd
    · exact hs.last v hv documents hd
  · intro p d hd
    obtain ⟨c, id, rfl, -⟩ := hk.stores_ok _ hk.store_mem p d hd
    exact ⟨c, id, rfl, hs.stores _ hk.store_mem c id d hd⟩

/-- the course list shows a course that the server does not have yet; a user did confirm it -/
theorem all_sourced_offline : ∃ documents, Shown (labels (LocalViews.step sampleEnv) (confirmedIn sampleEnv)
      LocalViews.init offlineRun) .courses documents ∧ documents.map (·.1) = [sampleCourse] ∧
    (LocalViews.after offlineRun).base.store.lookup (Coll.courses.doc uid sampleCourse) = none := by
  have hrun : (LocalViews.run sampleEnv LocalViews.init offlineRun).isSome ∧
      (∃ v ∈ (LocalViews.after offlineRun).base.views, v.coll = .courses ∧
        v.last.map (fun documents => documents.map (·.1)) = some [sampleCourse]) ∧
      (LocalViews.after offlineRun).base.store.lookup (Coll.courses.doc uid sampleCourse) = none := by
    decide +kernel
  obtain ⟨hrun, ⟨v, hv, hcoll, hlast⟩, hnone⟩ := hrun
  obtain ⟨documents, hdocuments, hids⟩ := Option.map_eq_some_iff.1 hlast
  have hall := (all_sourced sampleEnv offlineRun _ (LocalViews.run_init_after offlineRun hrun)).1 v hv
  exact ⟨documents, hcoll ▸ hall.2 documents (Or.inr hdocuments), hids, hnone⟩

end GradeKeep.Provenance
