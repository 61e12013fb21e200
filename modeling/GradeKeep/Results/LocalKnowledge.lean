/-
What each client knows of, when its listeners are shown its own writes and its cache.

A client `Knows` the documents that have been stored and those that it has added itself, on their way to the server.
Its views, forms and writes are well formed relative to these, not to the stored ones alone, as they are without the
cache. The server still finds what it needs: a client's writes are applied in order, so whatever a client does to a
document of its own comes after the document (`order`).

Results:
- `cached_ok`: the documents of a cached snapshot are of their type, and known;
- `Knowledge.send`, `Knowledge.apply`: what a step of the system keeps;
- `step_knowledge`, `reachable_knowledge`: the invariant.
-/
import GradeKeep.App.LocalViews
import GradeKeep.Results.Invariant

namespace GradeKeep.LocalKnowledge

open GradeKeep.Firestore GradeKeep.Schema GradeKeep.System GradeKeep.LocalViews GradeKeep.WellFormed
open GradeKeep.Invariant

/-- p has been stored, or the client has it on its way -/
def Knows (s : System.St) (client : ℕ) (p : DocPath) : Prop := Born s p ∨ ∃ data, (client, .add p data) ∈ s.flight

/-- every path -/
def Anywhere (_ : DocPath) : Prop := True

structure Knowledge (E : Env) (s : LocalViews.St) : Prop where
  ids : Ids s.base
  stores_ok : ∀ store ∈ s.stores, StoreOk E Anywhere store
  stores_born : ∀ store ∈ s.stores, ∀ p, (store.lookup p).isSome → Born s.base p
  store_mem : s.base.store ∈ s.stores
  issued_ok : ∀ e ∈ s.issued, WriteOk E Anywhere e.2
  issued_known : ∀ client p data, (client, .add p data) ∈ s.issued → Knows s.base client p
  flight_issued : ∀ e ∈ s.base.flight, e ∈ s.issued
  /-- a write to a document that is not stored yet comes after its client's add of it -/
  order : ∀ pre e post, s.base.flight = pre ++ e :: post → addPath e.2 = [] →
    Born s.base e.2.path ∨ ∃ data, (e.1, .add e.2.path data) ∈ pre
  views_ok : ∀ v ∈ s.base.views, ViewOk E (Knows s.base v.client) v
  forms_ok : ∀ f ∈ s.base.forms, FormOk E (Knows s.base f.client) f

theorem knowledge_init (E : Env) : Knowledge E LocalViews.init where
  ids := ids_init
  stores_ok store h p d hd := by
    rw [List.mem_singleton.1 h] at hd
    cases hd
  stores_born store h p hp := by
    rw [List.mem_singleton.1 h] at hp
    cases hp
  store_mem := List.mem_singleton_self _
  issued_ok e h := absurd h List.not_mem_nil
  issued_known client p data h := absurd h List.not_mem_nil
  flight_issued e h := absurd h List.not_mem_nil
  order pre e post h := by simp [LocalViews.init, System.init] at h
  views_ok v h := absurd h List.not_mem_nil
  forms_ok f h := absurd h List.not_mem_nil

variable {E : Env} {s : LocalViews.St} {t : System.St}

/-- the writes of a list that an entry comes after -/
theorem split_append {α : Type*} {a b pre post : List α} {e : α} (h : a ++ b = pre ++ e :: post) :
    (∃ post', a = pre ++ e :: post') ∨ ∃ pre', pre = a ++ pre' ∧ b = pre' ++ e :: post := by
  rcases List.append_eq_append_iff.1 h with ⟨pre', hpre, hb⟩ | ⟨rest, ha, hrest⟩
  · exact Or.inr ⟨pre', hpre, hb⟩
  · cases rest with
    | nil => exact Or.inr ⟨[], by simpa using ha.symm, hrest.symm⟩
    | cons x rest =>
      obtain ⟨rfl, -⟩ := List.cons.inj hrest
      exact Or.inl ⟨rest, ha⟩

/-! ## Cached snapshots -/

theorem cached_ok (h : Knowledge E s) (v : View) (picks : List Pick) :
    SnapshotOk E (Knows s.base v.client) v.coll (cached E s v picks) := by
  intro e he
  obtain ⟨pick, hversion⟩ := mem_cached he
  refine ⟨?_, ?_⟩
  · rcases version_known hversion with ⟨store, hstore, hp⟩ | ⟨data, hadd⟩
    · exact Or.inl (h.stores_born store hstore _ hp)
    · exact h.issued_known v.client _ data hadd
  · refine version_keeps (P := DocOk v.coll) ?_ ?_ e.2 hversion
    · intro store hstore d hd
      obtain ⟨c, id, hp, -, hok⟩ := h.stores_ok store hstore _ d hd
      obtain ⟨rfl, -⟩ := (Coll.doc_inj E.uid _ _ _ _).1 hp
      exact hok
    · intro w hissued hp
      exact (h.issued_ok _ hissued).result_docOk hp

theorem fromCache_knowledge (h : Knowledge E s) {v : ℕ} {picks : List Pick} {view : View}
    (hv : s.base.views[v]? = some view) : Knowledge E { s with base := { s.base with
      views := s.base.views.set v { view with pending := cached E s view picks :: view.pending } } } := by
  refine { h with ids := h.ids.of_same_store rfl rfl (List.Subset.refl _) rfl, views_ok := ?_ }
  intro w hw
  rcases List.mem_or_eq_of_mem_set hw with hw | rfl
  · exact h.views_ok w hw
  · have hok := h.views_ok view (List.mem_of_getElem? hv)
    exact ⟨hok.rooted, List.forall_mem_cons.2 ⟨cached_ok h view picks, hok.pending⟩, hok.last, hok.rows⟩

/-! ## Steps of the system -/

/-- more writes are in flight; the store is what it was -/
theorem Knowledge.send (h : Knowledge E s) {new : List (ℕ × Write)} (hids : Ids t) (hstore : t.store = s.base.store)
    (hdel : t.deleted = s.base.deleted) (hflight : t.flight = s.base.flight ++ new)
    (hnew : ∀ e ∈ new, WriteOk E Anywhere e.2 ∧ (addPath e.2 = [] → Knows s.base e.1 e.2.path))
    (hviews : ∀ v ∈ t.views, ViewOk E (Knows s.base v.client) v)
    (hforms : ∀ f ∈ t.forms, FormOk E (Knows s.base f.client) f) :
    Knowledge E ⟨t, s.stores ++ [t.store], s.issued ++ newWrites s.base t⟩ := by
  have hborn : Born t = Born s.base := born_of_same_store hstore hdel
  have hknows : ∀ client p, Knows s.base client p → Knows t client p := by
    rintro client p (hp | ⟨data, hadd⟩)
    · exact Or.inl (hborn ▸ hp)
    · exact Or.inr ⟨data, hflight ▸ List.mem_append_left _ hadd⟩
  have hwrites : newWrites s.base t = new := by rw [newWrites, hflight, List.drop_left]
  rw [hwrites, hstore]
  refine ⟨hids, ?_, ?_, ?_, ?_, ?_, ?_, ?_, ?_, ?_⟩
  · exact List.forall_mem_append.2 ⟨h.stores_ok, List.forall_mem_singleton.2 (h.stores_ok _ h.store_mem)⟩
  · show ∀ store ∈ _, ∀ p, _ → Born t p
    rw [hborn]
    exact List.forall_mem_append.2 ⟨h.stores_born, List.forall_mem_singleton.2 (h.stores_born _ h.store_mem)⟩
  · show t.store ∈ _
    rw [hstore]
    exact List.mem_append_left _ h.store_mem
  · exact List.forall_mem_append.2 ⟨h.issued_ok, fun e he => (hnew e he).1⟩
  · intro client p data hadd
    rcases List.mem_append.1 hadd with hadd | hadd
    · exact hknows client p (h.issued_known client p data hadd)
    · exact Or.inr ⟨data, hflight ▸ List.mem_append_right _ hadd⟩
  · intro e he
    rw [hflight] at he
    rcases List.mem_append.1 he with he | he
    · exact List.mem_append_left _ (h.flight_issued e he)
    · exact List.mem_append_right _ he
  · intro pre e post hsplit hadd
    rw [hflight] at hsplit
    show Born t _ ∨ _
    rw [hborn]
    rcases split_append hsplit with ⟨post', hold⟩ | ⟨pre', rfl, hin⟩
    · exact h.order pre e post' hold hadd
    · refine ((hnew e (by rw [hin]; simp)).2 hadd).imp_right ?_
      rintro ⟨data, hmem⟩
      exact ⟨data, List.mem_append_left _ hmem⟩
  · exact fun v hv => (hviews v hv).mono (hknows v.client)
  · exact fun f hf => (hforms f hf).mono (hknows f.client)

/-- the owner of a view's collection is one of the documents it hangs under -/
theorem knows_gradeWrites {B : DocPath → Prop} {c : Coll} {documents : Snapshot} {w : Write} (hc : Rooted E B c)
    (hw : w ∈ gradeWrites E c documents) : B w.path := by
  unfold gradeWrites at hw
  cases hp : c.owner E.uid with
  | none => simp [hp] at hw
  | some p =>
    simp only [hp, List.mem_singleton] at hw
    rw [hw]
    exact hc p (Coll.owner_mem_ancestors hp)

/-- what the server deletes has been stored -/
theorem Knowledge.born_of_delete (h : Knowledge E s) {c : ℕ} {w : Write} {pre post : List (ℕ × Write)}
    (hflight : s.base.flight = pre ++ (c, w) :: post) (hpre : ∀ e ∈ pre, e.1 ≠ c) (p : DocPath) (hp : w = .delete p) :
    Born s.base p := by
  subst hp
  rcases h.order pre _ post hflight rfl with hborn | ⟨data, hadd⟩
  · exact hborn
  · exact absurd rfl (hpre _ hadd)

/-- applying a write issues none -/
theorem newWrites_applied {u : System.St} {c : ℕ} {w : Write} {pre post : List (ℕ × Write)} {notify : List ℕ}
    (hflight : u.flight = pre ++ (c, w) :: post) : newWrites u (applied E u w (pre ++ post) notify) = [] := by
  refine List.drop_of_length_le ?_
  show (pre ++ post).length ≤ _
  rw [hflight, List.length_append, List.length_append, List.length_cons]
  omega

/-- a write is applied -/
theorem Knowledge.apply (h : Knowledge E s) {c : ℕ} {w : Write} {pre post : List (ℕ × Write)} {notify : List ℕ}
    (hflight : s.base.flight = pre ++ (c, w) :: post) (hpre : ∀ e ∈ pre, e.1 ≠ c) :
    Knowledge E ⟨applied E s.base w (pre ++ post) notify, s.stores ++ [w.apply s.base.store],
      s.issued ++ newWrites s.base (applied E s.base w (pre ++ post) notify)⟩ := by
  have hdel := h.born_of_delete hflight hpre
  have hborn : ∀ q, Born (applied E s.base w (pre ++ post) notify) q ↔ Born s.base q ∨ q ∈ addPath w :=
    applied_born hdel
  have hB : ∀ q, Born s.base q → Born (applied E s.base w (pre ++ post) notify) q :=
    fun q hq => (hborn q).2 (Or.inl hq)
  have hmem := mem_of_split hflight
  have hadded : ∀ client p data, (client, Write.add p data) = (c, w) →
      Born (applied E s.base w (pre ++ post) notify) p := by
    intro client p data he
    obtain ⟨-, rfl⟩ := Prod.mk.inj he
    exact (hborn p).2 (Or.inr (List.mem_singleton_self p))
  have hknows : ∀ client p, Knows s.base client p → Knows (applied E s.base w (pre ++ post) notify) client p := by
    rintro client p (hp | ⟨data, hadd⟩)
    · exact Or.inl (hB p hp)
    · rcases (hmem _).1 hadd with hadd | hadd
      · exact Or.inl (hadded client p data hadd)
      · exact Or.inr ⟨data, hadd⟩
  have hok : WriteOk E Anywhere w := h.issued_ok (c, w) (h.flight_issued _ ((hmem _).2 (Or.inl rfl)))
  have hstore : StoreOk E Anywhere (w.apply s.base.store) := (h.stores_ok _ h.store_mem).apply hok fun _ _ => trivial
  rw [newWrites_applied hflight, List.append_nil]
  refine ⟨h.ids.apply hflight hdel, ?_, ?_, ?_, h.issued_ok, ?_, ?_, ?_, ?_, ?_⟩
  · exact List.forall_mem_append.2 ⟨h.stores_ok, List.forall_mem_singleton.2 hstore⟩
  · intro store hmem p hp
    rcases List.mem_append.1 hmem with hmem | hmem
    · exact hB p (h.stores_born store hmem p hp)
    · rw [List.mem_singleton.1 hmem] at hp
      exact Or.inl hp
  · exact List.mem_append_right _ (List.mem_singleton_self _)
  · exact fun client p data hadd => hknows client p (h.issued_known client p data hadd)
  · exact fun e he => h.flight_issued e ((hmem e).2 (Or.inr he))
  · intro p e q hsplit hadd
    rcases split_append hsplit with ⟨q', rfl⟩ | ⟨p', rfl, rfl⟩
    · refine (h.order p e (q' ++ (c, w) :: post) ?_ hadd).imp_left (hB _)
      rw [hflight, List.append_assoc, List.cons_append]
    · have hold : s.base.flight = (pre ++ (c, w) :: p') ++ e :: q := by
        rw [hflight, List.append_assoc, List.cons_append]
      rcases h.order _ e q hold hadd with hp | ⟨data, hmem⟩
      · exact Or.inl (hB _ hp)
      · rcases List.mem_append.1 hmem with hmem | hmem
        · exact Or.inr ⟨data, List.mem_append_left _ hmem⟩
        · rcases List.mem_cons.1 hmem with he | hmem
          · exact Or.inl (hadded _ _ data he)
          · exact Or.inr ⟨data, List.mem_append_right _ hmem⟩
  · intro v hv
    obtain ⟨v₀, hv₀, rfl | rfl⟩ := mem_applied_views hv
    · exact (h.views_ok v hv₀).mono (hknows v.client)
    · -- the queued snapshot is the content of the new store
      have hview := (h.views_ok v₀ hv₀).mono (hknows v₀.client)
      refine ⟨hview.rooted, List.forall_mem_append.2 ⟨hview.pending, ?_⟩, hview.last, hview.rows⟩
      exact List.forall_mem_singleton.2 (hstore.content (fun p hp => Or.inl (Or.inl hp)) v₀.coll)
  · exact fun f hf => (h.forms_ok f hf).mono (hknows f.client)

theorem base_knowledge (h : Knowledge E s) {o : System.Op} (hs : System.step E s.base o = some t) :
    Knowledge E ⟨t, s.stores ++ [t.store], s.issued ++ newWrites s.base t⟩ := by
  have hsame : ∀ {u : System.St}, u.flight = s.base.flight → u.flight = s.base.flight ++ [] := fun hu =>
    hu.trans (List.append_nil _).symm
  have hnone : ∀ e ∈ ([] : List (ℕ × Write)), WriteOk E Anywhere e.2 ∧ (addPath e.2 = [] → Knows s.base e.1 e.2.path) :=
    fun e he => absurd he List.not_mem_nil
  cases effect_of_ok (B := Knows s.base) h.views_ok h.forms_ok hs with
  | load o client c ho hc ht =>
    subst ht
    refine h.send (h.ids.of_same_store rfl rfl (List.Subset.refl _) rfl) rfl rfl (hsame rfl) hnone ?_ h.forms_ok
    refine List.forall_mem_append.2 ⟨h.views_ok, List.forall_mem_singleton.2 ⟨hc, ?_, ?_, ?_⟩⟩
    · have hstore := h.stores_ok _ h.store_mem
      exact List.forall_mem_singleton.2 (hstore.content (fun p hp => Or.inl (Or.inl hp)) c)
    · intro documents hd
      cases hd
    · cases c <;> rfl
  | form o forms ho hf ht =>
    subst ht
    exact h.send (h.ids.of_same_store rfl rfl (List.Subset.refl _) rfl) rfl rfl (hsame rfl) hnone h.views_ok hf
  | add i f c id data hf hpress hc hdata hid ht =>
    subst ht
    refine h.send (h.ids.add _ (c.doc E.uid id) _ hid) rfl rfl rfl (List.forall_mem_singleton.2 ⟨?_, ?_⟩) h.views_ok
      h.forms_ok
    · exact .add (fun p hp => trivial) hdata
    · intro hadd
      cases hadd
  | edit i f c id new data hf hpress hborn hdata ht =>
    subst ht
    have hids : adds (s.base.flight ++ [(f.client, .update (c.doc E.uid id) data)]) = adds s.base.flight := by
      rw [adds_append]
      exact List.append_nil _
    refine h.send (h.ids.of_same_store rfl rfl (List.subset_cons_self _ _) hids) rfl rfl rfl
      (List.forall_mem_singleton.2 ⟨?_, fun _ => hborn⟩) h.views_ok h.forms_ok
    exact .update trivial (Or.inl hdata)
  | remove o client c ho id hborn ht =>
    subst ht
    have hids : adds (s.base.flight ++ [(client, .delete (c.doc E.uid id))]) = adds s.base.flight := by
      rw [adds_append]
      exact List.append_nil _
    exact h.send (h.ids.of_same_store rfl rfl (List.Subset.refl _) hids) rfl rfl rfl
      (List.forall_mem_singleton.2 ⟨.delete trivial, fun _ => hborn⟩) h.views_ok h.forms_ok
  | apply c w pre post notify hflight hpre ht =>
    subst ht
    exact h.apply hflight hpre
  | deliver i v documents rest hv hpending ht =>
    subst ht
    have hok := h.views_ok v (List.mem_of_getElem? hv)
    have hqueued := hok.pending
    rw [hpending] at hqueued
    obtain ⟨hdoc, hrest⟩ := List.forall_mem_cons.1 hqueued
    have hids : adds (s.base.flight ++ (gradeWrites E v.coll documents).map fun w => (v.client, w)) =
        adds s.base.flight := by
      rw [adds_append]
      refine (congrArg _ ?_).trans (List.append_nil _)
      refine List.flatMap_eq_nil_iff.2 ?_
      intro e he
      obtain ⟨w, hw, rfl⟩ := List.mem_map.1 he
      exact addPath_gradeWrites hw
    refine h.send (h.ids.of_same_store rfl rfl (List.Subset.refl _) hids) rfl rfl rfl ?_ ?_ h.forms_ok
    · intro e he
      obtain ⟨w, hw, rfl⟩ := List.mem_map.1 he
      exact ⟨writeOk_gradeWrites (fun p hp => trivial) hw, fun _ => knows_gradeWrites hok.rooted hw⟩
    · intro v' hv'
      rcases List.mem_or_eq_of_mem_set hv' with hv' | rfl
      · exact h.views_ok v' hv'
      · refine ⟨hok.rooted, hrest, ?_, rfl⟩
        intro d hd
        rw [← Option.some.inj hd]
        exact hdoc

theorem step_knowledge {s' : LocalViews.St} {o : LocalViews.Op} (h : Knowledge E s)
    (hs : LocalViews.step E s o = some s') : Knowledge E s' := by
  cases LocalViews.stepped hs with
  | base o t ht => exact base_knowledge h ht
  | fromCache v picks view hv hnodup => exact fromCache_knowledge h hv

theorem reachable_knowledge (h : LocalViews.Reachable E s) : Knowledge E s :=
  h.induction (knowledge_init E) fun _ _ _ h hs => step_knowledge h hs

end GradeKeep.LocalKnowledge
