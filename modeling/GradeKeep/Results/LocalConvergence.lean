/-
The stored grades converge also when listeners are shown the cache and their client's own writes.

Such a listener may write a grade of documents that the server does not have yet, or no longer has, even of a course or
category that is still on its way itself. The last-writer argument needs nothing of what is shown: of each client the
last grade it writes is of the last snapshot that one of its listeners was shown. It does need that the first grade of
a new document is not applied after a listener's, which the order of a client's writes gives (`Behind`).

Results:
- `base_behind`, `reachable_behind`: the update of a document still to be added waits behind it;
- `reachable_latest`: the last-writer invariant;
- `local_grades_converge`: with nothing in flight, a stored grade is what a listener computed last.
-/
import GradeKeep.Results.Convergence
import GradeKeep.Results.LocalKnowledge

namespace GradeKeep.LocalConvergence

open GradeKeep.SwiftDouble GradeKeep.Firestore GradeKeep.Schema GradeKeep.Listeners GradeKeep.System
open GradeKeep.LocalViews GradeKeep.WellFormed GradeKeep.Invariant GradeKeep.LocalKnowledge GradeKeep.LastWriter
open GradeKeep.Convergence

variable {E : Env} {s : LocalViews.St} {t : System.St}

/-! ## New documents -/

/-- a view has been shown something, under an owner that is not stored yet: its client has a grade of it in flight -/
def BehindOf (E : Env) (u : System.St) (v : View) : Prop :=
  ∀ p, v.coll.owner E.uid = some p → v.last ≠ none →
    Born u p ∨ ∃ x, (v.client, .update p (Doc.ofFields [(gradeKey v.coll, .double x)])) ∈ u.flight

def Behind (E : Env) (u : System.St) : Prop := ∀ v ∈ u.views, BehindOf E u v

/-- a view counts by its client, its collection and its last snapshot -/
theorem BehindOf.congr {u : System.St} {v v' : View} (h : BehindOf E u v) (hclient : v'.client = v.client)
    (hcoll : v'.coll = v.coll) (hlast : v'.last = v.last) : BehindOf E u v' := by
  intro p
  rw [hclient, hcoll, hlast]
  exact h p

theorem BehindOf.send {u u' : System.St} {v : View} {new : List (ℕ × Write)} (h : BehindOf E u v)
    (hborn : Born u' = Born u) (hflight : u'.flight = u.flight ++ new) : BehindOf E u' v := by
  intro p hp hlast
  rw [hborn, hflight]
  refine (h p hp hlast).imp_right ?_
  rintro ⟨x, hx⟩
  exact ⟨x, List.mem_append_left _ hx⟩

theorem base_behind (h : Behind E s.base) (hk : Knowledge E s) {o : System.Op} (hs : System.step E s.base o = some t) :
    Behind E t := by
  have hsame : ∀ {u u' : System.St}, u'.flight = u.flight → u'.flight = u.flight ++ [] := fun hu =>
    hu.trans (List.append_nil _).symm
  cases effect_of_ok (B := Knows s.base) hk.views_ok hk.forms_ok hs with
  | load o client c ho hc ht =>
    subst ht
    refine List.forall_mem_append.2 ⟨fun v hv => (h v hv).send rfl (hsame rfl), List.forall_mem_singleton.2 ?_⟩
    intro p hp hlast
    exact absurd rfl hlast
  | form o forms ho hf ht => subst ht; exact fun v hv => (h v hv).send rfl (hsame rfl)
  | add i f c id data hf hpress hc hdata hid ht => subst ht; exact fun v hv => (h v hv).send rfl rfl
  | edit i f c id new data hf hpress hborn hdata ht => subst ht; exact fun v hv => (h v hv).send rfl rfl
  | remove o client c ho id hborn ht => subst ht; exact fun v hv => (h v hv).send rfl rfl
  | apply c w pre post notify hflight hpre ht =>
    subst ht
    have hdel := hk.born_of_delete hflight hpre
    have hB : ∀ p, Born s.base p → Born (applied E s.base w (pre ++ post) notify) p :=
      fun p hp => (applied_born hdel p).2 (Or.inl hp)
    have hold : ∀ v, BehindOf E s.base v → BehindOf E (applied E s.base w (pre ++ post) notify) v := by
      intro v hv p hp hlast
      rcases hv p hp hlast with hborn | ⟨x, hx⟩
      · exact Or.inl (hB p hborn)
      · rcases (mem_of_split hflight _).1 hx with hx | hx
        · -- the update itself is applied: its client's add of p came before
          obtain ⟨rfl, rfl⟩ := Prod.mk.inj hx
          rcases hk.order pre _ post hflight rfl with hborn | ⟨data, hadd⟩
          · exact Or.inl (hB p hborn)
          · exact absurd rfl (hpre _ hadd)
        · exact Or.inr ⟨x, hx⟩
    intro v hv
    obtain ⟨v₀, hv₀, rfl | rfl⟩ := mem_applied_views hv
    · exact hold v (h v hv₀)
    · exact (hold v₀ (h v₀ hv₀)).congr rfl rfl rfl
  | deliver i v documents rest hv hpending ht =>
    subst ht
    intro v' hv'
    rcases List.mem_or_eq_of_mem_set hv' with hv' | rfl
    · exact (h v' hv').send rfl rfl
    · intro p hp hlast
      refine Or.inr ⟨gradeOf v.coll documents, List.mem_append_right _ (List.mem_map.2 ⟨_, ?_, rfl⟩)⟩
      have howner : v.coll.owner E.uid = some p := hp
      simp [gradeWrites, howner]

/-- whoever reads a collection whose owner is on its way has a grade for it in flight -/
theorem Behind.overwrites (h : Behind E s.base) (hk : Knowledge E s) : Overwrites E s.base := by
  rintro p hp k hk' ⟨client, x, -, v, hv, rfl, rfl, hlast⟩
  rcases h v hv p hk' (by rw [hlast]; simp) with hborn | ⟨y, hy⟩
  · exact absurd hborn (hk.ids.adds_new p hp)
  · have hgrade : gradeWrite E v.client v.coll
        (v.client, .update p (Doc.ofFields [(gradeKey v.coll, .double y)])) = some (some (.double y)) := by
      rw [gradeWrite_grade hk', if_pos ⟨rfl, rfl⟩]
    exact ⟨v.client, List.ne_nil_of_mem (List.mem_filterMap.2 ⟨_, hy, hgrade⟩)⟩

/-! ## The simulation -/

/-- queueing a snapshot is not observed -/
theorem reader_fromCache {v : ℕ} {view : View} (hv : s.base.views[v]? = some view) (view' : View)
    (hclient : view'.client = view.client) (hcoll : view'.coll = view.coll) (hlast : view'.last = view.last)
    (client : ℕ) (c : Coll) (x : Snapshot) :
    (obs E { s.base with views := s.base.views.set v view' }).reader client c x ↔
      (obs E s.base).reader client c x := by
  have hmap : (s.base.views.set v view').map (fun w => (w.client, w.coll, w.last)) =
      s.base.views.map fun w => (w.client, w.coll, w.last) := map_set_of_eq hv (by rw [hclient, hcoll, hlast])
  have hmem : ∀ l : List View, (∃ w ∈ l, w.client = client ∧ w.coll = c ∧ w.last = some x) ↔
      (client, c, some x) ∈ l.map fun w => (w.client, w.coll, w.last) := fun l => by simp
  exact and_congr_right fun _ => (hmem _).trans (hmap ▸ (hmem _).symm)

/-- what is kept along with the knowledge of the clients -/
structure Latest (E : Env) (s : LocalViews.St) : Prop where
  behind : Behind E s.base
  latest : LastWriter.Inv agg (obs E s.base)

theorem step_latest {s' : LocalViews.St} {o : LocalViews.Op} (h : Latest E s) (hk : Knowledge E s)
    (hs : LocalViews.step E s o = some s') : Latest E s' := by
  cases LocalViews.stepped hs with
  | base o t ht =>
    have he := effect_of_ok (B := Knows s.base) hk.views_ok hk.forms_ok ht
    have hflight : ∀ e ∈ s.base.flight, WriteOk E Anywhere e.2 := fun e he => hk.issued_ok e (hk.flight_issued e he)
    exact ⟨base_behind h.behind hk ht, (effect_sim hflight (h.behind.overwrites hk) he).inv h.latest⟩
  | fromCache v picks view hv hnodup =>
    refine ⟨?_, ?_⟩
    · intro w hw
      rcases List.mem_or_eq_of_mem_set hw with hw | rfl
      · exact h.behind w hw
      · exact (h.behind view (List.mem_of_getElem? hv)).congr rfl rfl rfl
    · have hreader := reader_fromCache (E := E) hv { view with pending := cached E s view picks :: view.pending }
        rfl rfl rfl
      exact (Step.skip hreader (fun _ _ => rfl) fun _ => rfl).inv h.latest

theorem reachable_latest (h : LocalViews.Reachable E s) : Knowledge E s ∧ Latest E s := by
  have hinit : LastWriter.Inv agg (obs E LocalViews.init.base) := by
    refine inv_of_no_reader ?_ fun _ _ => rfl
    rintro _ _ _ ⟨-, v, hv, -⟩
    cases hv
  have hstep : ∀ t o t', Knowledge E t ∧ Latest E t → LocalViews.step E t o = some t' → Knowledge E t' ∧ Latest E t' :=
    fun t o t' ht hs => ⟨step_knowledge ht.1 hs, step_latest ht.2 ht.1 hs⟩
  exact h.induction ⟨knowledge_init E, fun v hv => absurd hv List.not_mem_nil, hinit⟩ hstep

/-! ## Nothing in flight -/

/-- the grade that the listener of v writes to p after this snapshot -/
def WritesGrade (E : Env) (v : View) (documents : Snapshot) (p : DocPath) (x : Double) : Prop :=
  ∃ rows, v.callback E documents = some (rows, [.update p (Doc.ofFields [(gradeKey v.coll, .double x)])])

theorem writesGrade_of_typed {v : View} {documents : Snapshot} {p : DocPath} (hp : v.coll.owner E.uid = some p)
    (h : ∀ e ∈ documents, HasType v.coll e.2) : WritesGrade E v documents p (gradeOf v.coll documents) := by
  refine ⟨rowsOf v.coll documents, ?_⟩
  rw [callback_eq h, gradeWrites, hp]

/-- **Convergence with the cache.** Whatever listeners were shown, by the server, from the cache or of their own
client's writes, and in whatever order: with no write to it in flight, the grade in a stored document is the one that
some listener of the collection under it wrote after the snapshot it was shown last. So if that is the server's content
for each of them, it is the grade of what is stored. -/
theorem local_grades_converge (E : Env) (s : LocalViews.St) (h : LocalViews.Reachable E s) (c : Coll) (p : DocPath)
    (d : Doc) (hp : c.owner E.uid = some p) (hflight : ∀ e ∈ s.base.flight, e.2.path ≠ p)
    (hd : s.base.store.lookup p = some d) (hshown : ∃ v ∈ s.base.views, v.coll = c ∧ v.last ≠ none) :
    ∃ v ∈ s.base.views, v.coll = c ∧ ∃ documents x, v.last = some documents ∧ WritesGrade E v documents p x ∧
      d (gradeKey c) = some (.double x) := by
  obtain ⟨hk, -, hlatest⟩ := reachable_latest h
  obtain ⟨v₀, hv₀, rfl, hlast₀⟩ := hshown
  obtain ⟨x₀, hx₀⟩ := Option.ne_none_iff_exists'.1 hlast₀
  have hne : v₀.coll.owner E.uid ≠ none := by rw [hp]; simp
  have hstored : (obs E s.base).stored v₀.coll = some (d (gradeKey v₀.coll)) := by
    rw [stored_eq hp, hd, Option.map_some]
  obtain ⟨client, hin | ⟨documents, ⟨-, v, hv, -, hcoll, hlast⟩, hagg⟩⟩ :=
    hlatest.latest v₀.coll _ hstored ⟨v₀.client, x₀, hne, v₀, hv₀, rfl, rfl, hx₀⟩
  · refine absurd ?_ hin
    refine List.filterMap_eq_nil_iff.2 fun e he => ?_
    exact gradeWrite_ne hp (hflight e he)
  · have hty : ∀ e ∈ documents, HasType v.coll e.2 := fun e he =>
      ((hk.views_ok v hv).last documents hlast e he).2.hasType
    refine ⟨v, hv, hcoll, documents, gradeOf v.coll documents, hlast, writesGrade_of_typed (hcoll ▸ hp) hty, ?_⟩
    rw [← hagg, hcoll]
    rfl

/-- a course whose first grade was written before the server had the course: in the end it has the listener's last -/
theorem local_grades_converge_online : ∃ d,
    (LocalViews.after (offlineRun ++ onlineOps)).base.store.lookup (Coll.courses.doc uid sampleCourse) = some d ∧
    ∃ v ∈ (LocalViews.after (offlineRun ++ onlineOps)).base.views, v.coll = .categories sampleCourse ∧
      ∃ documents x, v.last = some documents ∧
        WritesGrade sampleEnv v documents (Coll.courses.doc uid sampleCourse) x ∧ d "cgrade" = some (.double x) := by
  have hrun : (LocalViews.run sampleEnv LocalViews.init (offlineRun ++ onlineOps)).isSome ∧
      ((LocalViews.after (offlineRun ++ onlineOps)).base.store.lookup
        (Coll.courses.doc uid sampleCourse)).isSome ∧
      (LocalViews.after (offlineRun ++ onlineOps)).base.flight.length = 0 ∧
      ∃ v ∈ (LocalViews.after (offlineRun ++ onlineOps)).base.views, v.coll = .categories sampleCourse ∧
        v.last.isSome := by
    decide +kernel
  obtain ⟨hrun, hstored, hflight, v, hv, hcoll, hlast⟩ := hrun
  obtain ⟨d, hd⟩ := Option.isSome_iff_exists.1 hstored
  have hnil := List.length_eq_zero_iff.1 hflight
  refine ⟨d, hd, local_grades_converge sampleEnv _ ⟨_, LocalViews.run_init_after _ hrun⟩ (.categories sampleCourse) _ d
    rfl ?_ hd ⟨v, hv, hcoll, ?_⟩⟩
  · intro e he
    rw [hnil] at he
    cases he
  · exact Option.isSome_iff_ne_none.1 hlast

end GradeKeep.LocalConvergence
