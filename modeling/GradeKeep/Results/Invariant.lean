/-
The invariant of the running system, and what a step can do in a state that keeps it.

A document is `Born` once it has been stored; it stays so when it is deleted. Everything a client holds or sends is well
formed relative to the born documents: the collections of its views hang under born documents, the ids in its snapshots
and rows are born, an update or a delete in flight is for a born document. An add in flight is for a document not born
yet, and no two documents ever share an id.

`Effect` lists what a step does to such a state, with all that is known of the data it moves. The results that follow
are proved over `Effect`, not over `step`.

Results:
- `effect_of_ok`, `step_effect`: a step of the system has an effect;
- `Effect.inv`, `reachable_inv`: the invariant;
- `Effect.born`, `Effect.mem_deleted`, `Ids.id_ne_of_deleted`: what is born stays so, and a deleted id is not stored;
- `Inv.run`: what every effect keeps, every run keeps.
-/
import GradeKeep.Results.WellFormed

namespace GradeKeep.Invariant

open GradeKeep.SwiftDouble GradeKeep.Firestore GradeKeep.Schema GradeKeep.Listeners GradeKeep.Forms GradeKeep.System
open GradeKeep.WellFormed

/-! ## What a step does -/

/-- p has been stored: it still is, or its delete was applied -/
def Born (s : St) (p : DocPath) : Prop := (s.store.lookup p).isSome ∨ p ∈ s.deleted

/-- the documents an in-flight write adds -/
def addPath : Write → List DocPath
  | .add p _ => [p]
  | _ => []

def adds (flight : List (ℕ × Write)) : List DocPath := flight.flatMap fun e => addPath e.2

/-- stored, deleted, or on its way to the store -/
def Known (s : St) (p : DocPath) : Prop := Born s p ∨ p ∈ adds s.flight

/-- no two documents ever share an id, and a deleted one is gone for good -/
structure Ids (s : St) : Prop where
  deleted_gone : ∀ p ∈ s.deleted, s.store.lookup p = none
  known_used : ∀ p, Known s p → p.id ∈ s.used
  known_unique : ∀ p q, Known s p → Known s q → p.id = q.id → p = q
  adds_new : ∀ p ∈ adds s.flight, ¬Born s p
  adds_nodup : (adds s.flight).Nodup

structure Inv (E : Env) (s : St) : Prop extends Ids s where
  store_ok : StoreOk E (Born s) s.store
  flight_ok : ∀ e ∈ s.flight, WriteOk E (Born s) e.2
  views_ok : ∀ v ∈ s.views, ViewOk E (Born s) v
  forms_ok : ∀ f ∈ s.forms, FormOk E (Born s) f

/-- the op neither confirms a form nor involves the server -/
def Local : Op → Prop
  | .press _ _ => False
  | .apply _ _ => False
  | .deliver _ => False
  | _ => True

/-- the steps of the system, with what they move; a client knows the documents of its B -/
inductive Effect (E : Env) (B : ℕ → DocPath → Prop) (s s' : St) : Op → Prop where
  /-- a view of c loads -/
  | load (o : Op) (client : ℕ) (c : Coll) (ho : Local o) (hc : Rooted E (B client) c)
      (h : s' = { s with views := s.views ++ [⟨client, c, emptyRows c, [content E s.store c], none⟩] }) :
      Effect E B s s' o
  /-- a form opens or is typed into -/
  | form (o : Op) (forms : List Form) (ho : Local o) (hf : ∀ f ∈ forms, FormOk E (B f.client) f)
      (h : s' = { s with forms := forms }) : Effect E B s s' o
  /-- a new document is on its way -/
  | add (i : ℕ) (f : Form) (c : Coll) (id : Segment) (data : Doc) (hf : s.forms[i]? = some f)
      (hpress : f.press = some [.addDocument (c.path E.uid) data]) (hc : Rooted E (B f.client) c) (hdata : DocOk c data)
      (hid : id ∉ s.used)
      (h : s' = { s with used := id :: s.used, flight := s.flight ++ [(f.client, .add (c.doc E.uid id) data)] }) :
      Effect E B s s' (.press i id)
  /-- an edit of a document is on its way -/
  | edit (i : ℕ) (f : Form) (c : Coll) (id new : Segment) (data : Doc) (hf : s.forms[i]? = some f)
      (hpress : f.press = some [.updateData (c.doc E.uid id) data]) (hborn : B f.client (c.doc E.uid id))
      (hdata : EditOk c data)
      (h : s' = { s with used := new :: s.used,
                         flight := s.flight ++ [(f.client, .update (c.doc E.uid id) data)] }) :
      Effect E B s s' (.press i new)
  /-- a delete is on its way -/
  | remove (o : Op) (client : ℕ) (c : Coll) (ho : Local o) (id : Segment) (hborn : B client (c.doc E.uid id))
      (h : s' = { s with flight := s.flight ++ [(client, .delete (c.doc E.uid id))] }) : Effect E B s s' o
  /-- a write is applied -/
  | apply (c : ℕ) (w : Write) (pre post : List (ℕ × Write)) (notify : List ℕ)
      (hflight : s.flight = pre ++ (c, w) :: post) (hpre : ∀ e ∈ pre, e.1 ≠ c)
      (h : s' = applied E s w (pre ++ post) notify) : Effect E B s s' (.apply c notify)
  /-- a snapshot is delivered -/
  | deliver (i : ℕ) (v : View) (documents : Snapshot) (rest : List Snapshot) (hv : s.views[i]? = some v)
      (hpending : v.pending = documents :: rest)
      (h : s' = { s with
        views := s.views.set i { v with rows := rowsOf v.coll documents, pending := rest, last := some documents },
        flight := s.flight ++ (gradeWrites E v.coll documents).map fun w => (v.client, w) }) :
      Effect E B s s' (.deliver i)

/-- **Step inversion**, where views and forms are well formed. -/
theorem effect_of_ok {E : Env} {B : ℕ → DocPath → Prop} {s s' : St} {o : Op}
    (hviews : ∀ v ∈ s.views, ViewOk E (B v.client) v) (hforms : ∀ f ∈ s.forms, FormOk E (B f.client) f)
    (hs : step E s o = some s') : Effect E B s s' o := by
  cases stepped hs with
  | viewDidLoad c => exact .load _ c .courses trivial (fun p hp => absurd hp List.not_mem_nil) rfl
  | segue v i view c hv hc =>
    exact .load _ view.client c trivial ((hviews view (List.mem_of_getElem? hv)).segue_rooted hc) rfl
  | newForm v view hv =>
    have hform := (hviews view (List.mem_of_getElem? hv)).newForm_ok
    rw [← newForm_client view] at hform
    exact .form _ _ trivial (List.forall_mem_append.2 ⟨hforms, List.forall_mem_singleton.2 hform⟩) rfl
  | editForm v i view form hv hform =>
    have hform' := (hviews view (List.mem_of_getElem? hv)).editForm_ok hform
    rw [← editForm_client hform] at hform'
    exact .form _ _ trivial (List.forall_mem_append.2 ⟨hforms, List.forall_mem_singleton.2 hform'⟩) rfl
  | type f e form body hform hbody =>
    refine .form _ _ trivial ?_ rfl
    intro f' hf'
    rcases List.mem_or_eq_of_mem_set hf' with hf' | rfl
    · exact hforms f' hf'
    · exact (hforms form (List.mem_of_getElem? hform)).type hbody
  | press f id form requests hform hpress hid =>
    obtain ⟨r, rfl, hr⟩ := (hforms form (List.mem_of_getElem? hform)).press hpress
    cases hr with
    | add hc hdata => exact .add f form _ id _ hform hpress hc hdata hid rfl
    | edit hborn hdata => exact .edit f form _ _ id _ hform hpress hborn hdata rfl
  | delete v i view w hv hw =>
    obtain ⟨id, rfl, hborn⟩ := (hviews view (List.mem_of_getElem? hv)).delete_ok hw
    exact .remove _ view.client view.coll trivial id hborn rfl
  | apply c notify w rest htake =>
    obtain ⟨pre, post, hflight, rfl, hpre⟩ := takeWrite_some htake
    exact .apply c w pre post notify hflight hpre rfl
  | deliver i v v' writes hv hd =>
    have hok := hviews v (List.mem_of_getElem? hv)
    unfold View.deliver at hd
    cases hp : v.pending with
    | nil => rw [hp] at hd; cases hd
    | cons documents rest =>
      have hty : ∀ e ∈ documents, HasType v.coll e.2 := fun e he =>
        ((hok.pending documents (by rw [hp]; exact List.mem_cons_self)) e he).2.hasType
      simp only [hp, callback_eq hty, Option.bind_eq_bind, Option.bind_some, Option.some.injEq, Prod.mk.injEq] at hd
      obtain ⟨rfl, rfl⟩ := hd
      exact .deliver i v documents rest hv hp rfl

/-- in particular in a state that keeps the invariant -/
theorem step_effect {E : Env} {s s' : St} {o : Op} (h : Inv E s) (hs : step E s o = some s') :
    Effect E (fun _ => Born s) s s' o :=
  effect_of_ok h.views_ok h.forms_ok hs

/-- the ghost record grows by the deletes applied -/
theorem Effect.mem_deleted {E : Env} {B : ℕ → DocPath → Prop} {s s' : St} {o : Op} (he : Effect E B s s' o)
    (q : DocPath) : q ∈ s'.deleted ↔ q ∈ s.deleted ∨ ∃ c notify rest, o = .apply c notify ∧
      takeWrite c s.flight = some (.delete q, rest) := by
  have hlocal : Local o → ∀ c notify, o ≠ .apply c notify := by
    rintro ho c notify rfl
    exact ho
  cases he with
  | apply c w pre post notify hflight hpre hs =>
    subst hs
    have htake : takeWrite c s.flight = some (w, pre ++ post) := by
      rw [hflight]
      exact takeWrite_append hpre
    have hq : q ∈ deletes w ↔ w = .delete q := by
      cases w <;> simp [deletes, eq_comm]
    simp [applied, hq, htake]
  | load o client c ho hc hs => subst hs; simp [hlocal ho]
  | form o forms ho hf hs => subst hs; simp [hlocal ho]
  | add i f c id data hf hpress hc hdata hid hs => subst hs; simp
  | edit i f c id new data hf hpress hborn hdata hs => subst hs; simp
  | remove o client c ho id hborn hs => subst hs; simp [hlocal ho]
  | deliver i v documents rest hv hpending hs => subst hs; simp

/-! ## The invariant -/

theorem ids_init : Ids init where
  deleted_gone p h := by simp [init] at h
  known_used p h := by simp [Known, Born, adds, init] at h
  known_unique p q h := by simp [Known, Born, adds, init] at h
  adds_new p h := by simp [adds, init] at h
  adds_nodup := by simp [adds, init]

theorem inv_init (E : Env) : Inv E init where
  toIds := ids_init
  store_ok p d h := by simp [init] at h
  flight_ok e h := by simp [init] at h
  views_ok v h := by simp [init] at h
  forms_ok f h := by simp [init] at h

theorem adds_append (a b : List (ℕ × Write)) : adds (a ++ b) = adds a ++ adds b := List.flatMap_append

theorem born_of_same_store {s s' : St} (hstore : s'.store = s.store) (hdel : s'.deleted = s.deleted) :
    Born s' = Born s := by
  funext p
  rw [Born, Born, hstore, hdel]

/-- a step that leaves the store alone and puts no new document in flight -/
theorem Ids.of_same_store {s s' : St} (h : Ids s) (hstore : s'.store = s.store) (hdel : s'.deleted = s.deleted)
    (hused : s.used ⊆ s'.used) (hadds : adds s'.flight = adds s.flight) : Ids s' := by
  have hB := born_of_same_store hstore hdel
  have hK : Known s' = Known s := by
    funext p
    rw [Known, Known, hB, hadds]
  refine ⟨?_, ?_, ?_, ?_, ?_⟩
  · rw [hstore, hdel]; exact h.deleted_gone
  · rw [hK]; exact fun p hp => hused (h.known_used p hp)
  · rw [hK]; exact h.known_unique
  · rw [hadds, hB]; exact h.adds_new
  · rw [hadds]; exact h.adds_nodup

/-- a document on its way has an id of its own -/
theorem Ids.add {s : St} (h : Ids s) (client : ℕ) (p : DocPath) (data : Doc) (hid : p.id ∉ s.used) :
    Ids { s with used := p.id :: s.used, flight := s.flight ++ [(client, .add p data)] } := by
  have hadds : adds (s.flight ++ [(client, .add p data)]) = adds s.flight ++ [p] := by simp [adds, addPath]
  have hnew : ∀ q, Known s q → q.id ≠ p.id := fun q hq he => hid (he ▸ h.known_used q hq)
  have hknown : ∀ q, Born s q ∨ q ∈ adds (s.flight ++ [(client, .add p data)]) → Known s q ∨ q = p := by
    intro q hq
    rw [hadds, List.mem_append, List.mem_singleton, ← or_assoc] at hq
    exact hq
  refine ⟨h.deleted_gone, ?_, ?_, ?_, ?_⟩
  · intro q hq
    rcases hknown q hq with hq | rfl
    · exact List.mem_cons_of_mem _ (h.known_used q hq)
    · exact List.mem_cons_self
  · intro q r hq hr he
    rcases hknown q hq with hq' | rfl
    · rcases hknown r hr with hr' | rfl
      · exact h.known_unique q r hq' hr' he
      · exact absurd he (hnew q hq')
    · rcases hknown r hr with hr' | rfl
      · exact absurd he.symm (hnew r hr')
      · rfl
  · intro q hq
    rw [hadds] at hq
    rcases List.mem_append.1 hq with hq | hq
    · exact h.adds_new q hq
    · rw [List.mem_singleton.1 hq]
      exact fun hb => hnew _ (Or.inl hb) rfl
  · show (adds (s.flight ++ _)).Nodup
    rw [hadds]
    refine List.nodup_append.2 ⟨h.adds_nodup, List.nodup_singleton _, ?_⟩
    intro q hq r hr he
    rw [List.mem_singleton] at hr
    exact hnew q (Or.inr hq) (by rw [he, hr])

section Apply

variable {E : Env} {s : St} {w : Write} {rest : List (ℕ × Write)} {notify : List ℕ}

/-- applying a write bears the document it adds and nothing else -/
theorem applied_born (hdel : ∀ p, w = .delete p → Born s p) (q : DocPath) :
    Born (applied E s w rest notify) q ↔ Born s q ∨ q ∈ addPath w := by
  simp only [Born, applied, Write.lookup_apply]
  cases w with
  | add p data =>
    by_cases hq : q = p
    · simp [hq, Write.path, Write.result, addPath]
    · simp [hq, Write.path, deletes, addPath]
  | update p data =>
    by_cases hq : q = p
    · simp [hq, Write.path, Write.result, addPath, deletes]
    · simp [hq, Write.path, deletes, addPath]
  | delete p =>
    by_cases hq : q = p
    · subst hq
      exact ⟨fun _ => Or.inl (hdel q rfl), fun _ => Or.inr (List.mem_append_right _ List.mem_cons_self)⟩
    · simp [hq, Write.path, deletes, addPath]

theorem adds_perm (c : ℕ) (w : Write) (pre post : List (ℕ × Write)) :
    (adds (pre ++ (c, w) :: post)).Perm (addPath w ++ adds (pre ++ post)) := by
  have h : adds (pre ++ (c, w) :: post) = adds pre ++ (addPath w ++ adds post) := by simp [adds]
  rw [h, adds_append]
  exact List.perm_append_comm_assoc _ _ _

/-- a deleted document stays deleted: an update misses it, and an add in flight is for a document not born yet -/
theorem result_of_deleted {old : Option Doc} (hw : ∀ p ∈ addPath w, ¬Born s p) {p : DocPath} (hp : p ∈ s.deleted)
    (hpath : p = w.path) (hold : old = none) : w.result old = none := by
  subst hold
  cases w with
  | add q data =>
    have hq : p = q := hpath
    exact absurd (Or.inr (hq ▸ hp)) (hw q List.mem_cons_self)
  | update q data => rfl
  | delete q => rfl

theorem Ids.apply {c : ℕ} {pre post : List (ℕ × Write)} (h : Ids s) (hf : s.flight = pre ++ (c, w) :: post)
    (hdel : ∀ p, w = .delete p → Born s p) : Ids (applied E s w (pre ++ post) notify) := by
  have hborn : ∀ q, Born (applied E s w (pre ++ post) notify) q ↔ Born s q ∨ q ∈ addPath w := applied_born hdel
  have hperm := adds_perm c w pre post
  rw [← hf] at hperm
  have hnodup := hperm.nodup_iff.1 h.adds_nodup
  have hmem : ∀ p, p ∈ adds s.flight ↔ p ∈ addPath w ∨ p ∈ adds (pre ++ post) := fun p => by
    rw [hperm.mem_iff, List.mem_append]
  have hknown : ∀ p, Known (applied E s w (pre ++ post) notify) p ↔ Known s p := fun p => by
    show Born _ p ∨ p ∈ adds (pre ++ post) ↔ Born s p ∨ p ∈ adds s.flight
    rw [hborn, hmem, or_assoc]
  refine ⟨?_, ?_, ?_, ?_, ?_⟩
  · intro p hp
    show (w.apply s.store).lookup p = none
    rw [Write.lookup_apply]
    rcases List.mem_append.1 hp with hp | hp
    · split_ifs with hpath
      · exact result_of_deleted (fun q hq => h.adds_new q ((hmem q).2 (Or.inl hq))) hp hpath (h.deleted_gone p hp)
      · exact h.deleted_gone p hp
    · cases w with
      | delete q => rw [List.mem_singleton.1 hp]; exact if_pos rfl
      | _ => cases hp
  · exact fun p hp => h.known_used p ((hknown p).1 hp)
  · exact fun p q hp hq => h.known_unique p q ((hknown p).1 hp) ((hknown q).1 hq)
  · intro p hp hb
    rcases (hborn p).1 hb with hb | hb
    · exact h.adds_new p ((hmem p).2 (Or.inr hp)) hb
    · exact List.disjoint_of_nodup_append hnodup hb hp
  · exact (List.nodup_append.1 hnodup).2.1

theorem Inv.apply {c : ℕ} {pre post : List (ℕ × Write)} (h : Inv E s) (hf : s.flight = pre ++ (c, w) :: post) :
    Inv E (applied E s w (pre ++ post) notify) := by
  have hw : WriteOk E (Born s) w := h.flight_ok (c, w) ((mem_of_split hf _).2 (Or.inl rfl))
  have hB : ∀ p, Born s p → Born (applied E s w (pre ++ post) notify) p :=
    fun p hp => (applied_born hw.born_of_delete p).2 (Or.inl hp)
  have hstore := h.store_ok.apply hw hB
  refine ⟨h.toIds.apply hf hw.born_of_delete, hstore, ?_, ?_, ?_⟩
  · exact fun e he => (h.flight_ok e ((mem_of_split hf e).2 (Or.inr he))).mono hB
  · intro v hv
    obtain ⟨v₀, hv₀, rfl | rfl⟩ := mem_applied_views hv
    · exact (h.views_ok v hv₀).mono hB
    · -- the queued snapshot is the content of the new store
      have hok := (h.views_ok v₀ hv₀).mono hB
      refine ⟨hok.rooted, List.forall_mem_append.2 ⟨hok.pending, ?_⟩, hok.last, hok.rows⟩
      intro documents hd
      rw [List.mem_singleton.1 hd]
      exact hstore.content (fun p hp => Or.inl hp) _
  · exact fun f hfm => (h.forms_ok f hfm).mono hB

end Apply

theorem Inv.of_same_store {E : Env} {s s' : St} (h : Inv E s) (hstore : s'.store = s.store)
    (hdel : s'.deleted = s.deleted) (hused : s.used ⊆ s'.used) (hadds : adds s'.flight = adds s.flight)
    (hflight : ∀ e ∈ s'.flight, WriteOk E (Born s) e.2) (hviews : ∀ v ∈ s'.views, ViewOk E (Born s) v)
    (hforms : ∀ f ∈ s'.forms, FormOk E (Born s) f) : Inv E s' := by
  have hB := born_of_same_store hstore hdel
  refine ⟨h.toIds.of_same_store hstore hdel hused hadds, ?_, ?_, ?_, ?_⟩
  · rw [hstore, hB]; exact h.store_ok
  · rw [hB]; exact hflight
  · rw [hB]; exact hviews
  · rw [hB]; exact hforms

/-- writes that add no document are put in flight; views may change along with it -/
theorem Inv.send {E : Env} {s : St} (h : Inv E s) {used : List Segment} {writes : List (ℕ × Write)} {views : List View}
    (hused : s.used ⊆ used) (hwrites : ∀ e ∈ writes, WriteOk E (Born s) e.2 ∧ addPath e.2 = [])
    (hviews : ∀ v ∈ views, ViewOk E (Born s) v) :
    Inv E { s with used := used, flight := s.flight ++ writes, views := views } := by
  have hadds : adds writes = [] := List.flatMap_eq_nil_iff.2 fun e he => (hwrites e he).2
  refine h.of_same_store rfl rfl hused ?_ ?_ hviews h.forms_ok
  · rw [adds_append, hadds, List.append_nil]
  · exact List.forall_mem_append.2 ⟨h.flight_ok, fun e he => (hwrites e he).1⟩

/-- a new document is put in flight -/
theorem Inv.add {E : Env} {s : St} (h : Inv E s) {client : ℕ} {c : Coll} {id : Segment} {data : Doc}
    (hc : Rooted E (Born s) c) (hdata : DocOk c data) (hid : id ∉ s.used) :
    Inv E { s with used := id :: s.used, flight := s.flight ++ [(client, .add (c.doc E.uid id) data)] } := by
  refine ⟨h.toIds.add client (c.doc E.uid id) data hid, h.store_ok, ?_, h.views_ok, h.forms_ok⟩
  refine List.forall_mem_append.2 ⟨h.flight_ok, List.forall_mem_singleton.2 ?_⟩
  exact .add hc hdata

theorem addPath_gradeWrites {E : Env} {c : Coll} {documents : Snapshot} {w : Write}
    (hw : w ∈ gradeWrites E c documents) : addPath w = [] := by
  unfold gradeWrites at hw
  cases hc : c.owner E.uid with
  | none => simp [hc] at hw
  | some p => simp only [hc, List.mem_singleton] at hw; rw [hw]; rfl

theorem Effect.inv {E : Env} {s s' : St} {o : Op} (he : Effect E (fun _ => Born s) s s' o) (h : Inv E s) :
    Inv E s' := by
  cases he with
  | load o client c ho hc hs =>
    subst hs
    refine h.of_same_store rfl rfl (List.Subset.refl _) rfl h.flight_ok ?_ h.forms_ok
    refine List.forall_mem_append.2 ⟨h.views_ok, ?_⟩
    intro v hv
    rw [List.mem_singleton.1 hv]
    refine ⟨hc, ?_, ?_, ?_⟩
    · intro d hd
      rw [List.mem_singleton.1 hd]
      exact h.store_ok.content (fun p hp => Or.inl hp) c
    · intro d hd
      cases hd
    · cases c <;> rfl
  | form o forms ho hf hs =>
    subst hs
    exact h.of_same_store rfl rfl (List.Subset.refl _) rfl h.flight_ok h.views_ok hf
  | add i f c id data hf hpress hc hdata hid hs =>
    subst hs
    exact h.add hc hdata hid
  | edit i f c id new data hf hpress hborn hdata hs =>
    subst hs
    refine h.send (List.subset_cons_self _ _) ?_ h.views_ok
    intro e he
    rw [List.mem_singleton.1 he]
    exact ⟨.update hborn (Or.inl hdata), rfl⟩
  | remove o client c ho id hborn hs =>
    subst hs
    refine h.send (List.Subset.refl _) ?_ h.views_ok
    intro e he
    rw [List.mem_singleton.1 he]
    exact ⟨.delete hborn, rfl⟩
  | apply c w pre post notify hflight hpre hs =>
    subst hs
    exact h.apply hflight
  | deliver i v documents rest hv hpending hs =>
    subst hs
    have hok := h.views_ok v (List.mem_of_getElem? hv)
    have hqueued := hok.pending
    rw [hpending] at hqueued
    obtain ⟨hdoc, hrest⟩ := List.forall_mem_cons.1 hqueued
    refine h.send (List.Subset.refl _) ?_ ?_
    · intro e he
      obtain ⟨w, hw, rfl⟩ := List.mem_map.1 he
      exact ⟨writeOk_gradeWrites hok.rooted hw, addPath_gradeWrites hw⟩
    · intro v' hv'
      rcases List.mem_or_eq_of_mem_set hv' with hv' | rfl
      · exact h.views_ok v' hv'
      · refine ⟨hok.rooted, hrest, ?_, rfl⟩
        intro d hd
        rw [← Option.some.inj hd]
        exact hdoc

/-- a born document stays born -/
theorem Effect.born {E : Env} {s s' : St} {o : Op} (he : Effect E (fun _ => Born s) s s' o) (h : Inv E s)
    (p : DocPath) (hp : Born s p) : Born s' p := by
  cases he with
  | apply c w pre post notify hflight hpre hs =>
    subst hs
    have hw : WriteOk E (Born s) w := h.flight_ok (c, w) ((mem_of_split hflight _).2 (Or.inl rfl))
    exact (applied_born hw.born_of_delete p).2 (Or.inl hp)
  | load o client c ho hc hs => subst hs; exact hp
  | form o forms ho hf hs => subst hs; exact hp
  | add i f c id data hf hpress hc hdata hid hs => subst hs; exact hp
  | edit i f c id new data hf hpress hborn hdata hs => subst hs; exact hp
  | remove o client c ho id hborn hs => subst hs; exact hp
  | deliver i v documents rest hv hpending hs => subst hs; exact hp

/-- an id that was deleted is not stored, under any path -/
theorem Ids.id_ne_of_deleted {s : St} (h : Ids s) {p q : DocPath} (hp : p ∈ s.deleted)
    (hq : (s.store.lookup q).isSome) : q.id ≠ p.id := by
  intro he
  have hqp : q = p := h.known_unique q p (Or.inl (Or.inl hq)) (Or.inl (Or.inr hp)) he
  rw [hqp, h.deleted_gone p hp] at hq
  cases hq

theorem step_inv {E : Env} {s s' : St} {o : Op} (h : Inv E s) (hs : step E s o = some s') : Inv E s' :=
  (step_effect h hs).inv h

theorem run_inv {E : Env} {s s' : St} {ops : List Op} (h : Inv E s) (hr : run E s ops = some s') : Inv E s' :=
  run_induction (fun _ _ _ h hs => step_inv h hs) s ops s' h hr

theorem reachable_inv {E : Env} {s : St} (h : Reachable E s) : Inv E s :=
  h.induction (inv_init E) fun _ _ _ h hs => step_inv h hs

/-- **What every effect keeps, every run keeps**, along with the invariant. -/
theorem Inv.run {E : Env} {P : St → Prop} (hP : ∀ t t' o, Inv E t → Effect E (fun _ => Born t) t t' o → P t → P t')
    {s s' : St} {ops : List Op} (h : Inv E s) (hs : P s) (hr : System.run E s ops = some s') : Inv E s' ∧ P s' := by
  have hstep : ∀ t o t', Inv E t ∧ P t → System.step E t o = some t' → Inv E t' ∧ P t' := by
    intro t o t' ht hto
    have he := step_effect ht.1 hto
    exact ⟨he.inv ht.1, hP t t' o ht.1 he ht.2⟩
  exact run_induction hstep s ops s' ⟨h, hs⟩ hr

/-! ## What holds of every document -/

/-- P holds of the documents that are stored, that are on their way, and that are queued for a listener -/
structure AllDocs (P : Doc → Prop) (s : St) : Prop where
  stored : ∀ p d, s.store.lookup p = some d → P d
  written : ∀ e ∈ s.flight, ∀ d ∈ e.2.data, P d
  queued : ∀ v ∈ s.views, ∀ documents ∈ v.pending, ∀ e ∈ documents, P e.2

theorem allDocs_init (P : Doc → Prop) : AllDocs P init where
  stored p d h := by simp [init] at h
  written e h := by simp [init] at h
  queued v h := by simp [init] at h

theorem content_allDocs {P : Doc → Prop} {E : Env} {store : Store} (h : ∀ p d, store.lookup p = some d → P d)
    (c : Coll) : ∀ e ∈ content E store c, P e.2 :=
  fun _ he => h _ _ (mem_docs.1 (mem_orderBy.1 he).1)

/-- writes are put in flight -/
theorem AllDocs.send {P : Doc → Prop} {s : St} (h : AllDocs P s) {used : List Segment} {writes : List (ℕ × Write)}
    (hwrites : ∀ e ∈ writes, ∀ d ∈ e.2.data, P d) :
    AllDocs P { s with used := used, flight := s.flight ++ writes } :=
  ⟨h.stored, List.forall_mem_append.2 ⟨h.written, hwrites⟩, h.queued⟩

/-- **One step**, for what merging keeps: it holds of every document afterwards if it holds of what a form and what a
listener writes in this step. -/
theorem Effect.allDocs {P : Doc → Prop} (hmerge : ∀ data old, P data → P old → P (data.merge old)) {E : Env}
    {B : ℕ → DocPath → Prop} {s s' : St} {o : Op} (he : Effect E B s s' o) (h : AllDocs P s)
    (hform : ∀ i id f r, o = .press i id → s.forms[i]? = some f → f.press = some [r] → P r.data)
    (hlistener : ∀ i v documents rest, o = .deliver i → s.views[i]? = some v → v.pending = documents :: rest →
      ∀ w ∈ gradeWrites E v.coll documents, ∀ d ∈ w.data, P d) : AllDocs P s' := by
  cases he with
  | load o client c ho hc hs =>
    subst hs
    refine ⟨h.stored, h.written, List.forall_mem_append.2 ⟨h.queued, ?_⟩⟩
    intro v hv documents hd
    rw [List.mem_singleton.1 hv] at hd
    rw [List.mem_singleton.1 hd]
    exact content_allDocs h.stored c
  | form o forms ho hf hs =>
    subst hs
    exact ⟨h.stored, h.written, h.queued⟩
  | add i f c id data hf hpress hc hdata hid hs =>
    subst hs
    refine h.send (List.forall_mem_singleton.2 ?_)
    intro d hd
    exact Option.some.inj hd ▸ hform i id f _ rfl hf hpress
  | edit i f c id new data hf hpress hborn hdata hs =>
    subst hs
    refine h.send (List.forall_mem_singleton.2 ?_)
    intro d hd
    exact Option.some.inj hd ▸ hform i new f _ rfl hf hpress
  | remove o client c ho id hborn hs =>
    subst hs
    refine h.send (List.forall_mem_singleton.2 ?_)
    intro d hd
    cases hd
  | apply c w pre post notify hflight hpre hs =>
    subst hs
    have hmem := mem_of_split hflight
    have hstored := Write.apply_of_merge hmerge h.stored (h.written (c, w) ((hmem _).2 (Or.inl rfl)))
    refine ⟨hstored, fun e he => h.written e ((hmem e).2 (Or.inr he)), ?_⟩
    intro v hv
    obtain ⟨v₀, hv₀, rfl | rfl⟩ := mem_applied_views hv
    · exact h.queued _ hv₀
    · -- the queued snapshot is the content of the new store
      exact List.forall_mem_append.2 ⟨h.queued v₀ hv₀, List.forall_mem_singleton.2 (content_allDocs hstored _)⟩
  | deliver i v documents rest hv hpending hs =>
    subst hs
    have hqueued := h.queued v (List.mem_of_getElem? hv)
    rw [hpending] at hqueued
    refine ⟨h.stored, List.forall_mem_append.2 ⟨h.written, ?_⟩, ?_⟩
    · rw [List.forall_mem_map]
      exact hlistener i v documents rest rfl hv hpending
    · intro v' hv'
      rcases List.mem_or_eq_of_mem_set hv' with hv' | rfl
      · exact h.queued v' hv'
      · exact (List.forall_mem_cons.1 hqueued).2

end GradeKeep.Invariant
