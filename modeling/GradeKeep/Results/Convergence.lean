/-
The stored grades converge, however many clients and duplicate listeners write them.

The system is observed through `obs`: the readers of a collection are the views of it that have seen a snapshot, the
writes in flight are the updates of its owner's grade, the stored field is that grade. Every step of the system is a
step of the last-writer machine on this observation (`effect_sim`), so its invariant holds in every reachable state: a
stored grade is what some listener computed from the snapshot it saw last, or an overwrite is still in flight.

Results:
- `effect_sim`, `reachable_latest`: the simulation and the invariant it brings;
- `grade_of_settled`: with nothing in flight and all listeners up to date, the owner's grade is the listener's value
  for the documents now stored;
- `stored_grades_converge`: the two levels, under Firestore's promise that a listener that is behind has a snapshot
  queued.
-/
import GradeKeep.Results.DirectRuns
import GradeKeep.Core.LastWriter

namespace GradeKeep.Convergence

open GradeKeep.SwiftDouble GradeKeep.Firestore GradeKeep.Schema GradeKeep.Listeners GradeKeep.Forms GradeKeep.System
open GradeKeep.WellFormed GradeKeep.Invariant GradeKeep.DirectRuns GradeKeep.LastWriter

/-! ## The observation -/

/-- the value an update gives the field `key` of document p -/
def fieldWrite (p : DocPath) (key : String) : Write → Option (Option Value)
  | .update q data => if q = p ∧ data key ≠ none then some (data key) else none
  | _ => none

/-- a write in flight, as client's write of the grade of c's owner -/
def gradeWrite (E : Env) (client : ℕ) (c : Coll) (e : ℕ × Write) : Option (Option Value) :=
  if e.1 = client then (c.owner E.uid).bind fun p => fieldWrite p (gradeKey c) e.2 else none

def obs (E : Env) (s : St) : Obs ℕ Coll Snapshot (Option Value) where
  reader client c x := c.owner E.uid ≠ none ∧ ∃ v ∈ s.views, v.client = client ∧ v.coll = c ∧ v.last = some x
  inflight client c := s.flight.filterMap (gradeWrite E client c)
  stored c := (c.owner E.uid).bind fun p => (s.store.lookup p).map fun d => d (gradeKey c)

/-- what a listener of c writes after seeing x -/
def agg (c : Coll) (x : Snapshot) : Option Value := some (.double (gradeOf c x))

theorem gradeWrite_add (E : Env) (client cl : ℕ) (c : Coll) (p : DocPath) (data : Doc) :
    gradeWrite E client c (cl, .add p data) = none := by
  unfold gradeWrite
  split_ifs
  · cases c.owner E.uid <;> rfl
  · rfl

theorem gradeWrite_delete (E : Env) (client cl : ℕ) (c : Coll) (p : DocPath) :
    gradeWrite E client c (cl, .delete p) = none := by
  unfold gradeWrite
  split_ifs
  · cases c.owner E.uid <;> rfl
  · rfl

/-- an edit names no derived grade -/
theorem editOk_gradeKey {u id : Segment} {c c' : Coll} {data : Doc} (h : EditOk c' data)
    (hc : c.owner u = some (c'.doc u id)) : data (gradeKey c) = none := by
  cases c with
  | courses => cases hc
  | categories k =>
    simp only [Coll.owner, Option.some.injEq, Coll.doc_inj] at hc
    obtain ⟨rfl, -⟩ := hc
    exact h.elim
  | assignments k j =>
    simp only [Coll.owner, Option.some.injEq, Coll.doc_inj] at hc
    obtain ⟨rfl, -⟩ := hc
    obtain ⟨s, x, rfl⟩ := h
    simp [gradeKey, Cat.rawValue]

theorem gradeWrite_edit {E : Env} {client cl : ℕ} {c c' : Coll} {id : Segment} {data : Doc} (h : EditOk c' data) :
    gradeWrite E client c (cl, .update (c'.doc E.uid id) data) = none := by
  unfold gradeWrite
  split_ifs
  · cases hc : c.owner E.uid with
    | none => rfl
    | some p =>
      simp only [Option.bind_some, fieldWrite, ite_eq_right_iff, reduceCtorEq, imp_false, not_and, not_not]
      intro hp
      exact editOk_gradeKey h (hc.trans (congrArg some hp.symm))
  · rfl

theorem gradeWrite_grade {E : Env} {client cl : ℕ} {c c' : Coll} {p : DocPath} {x : Double}
    (hp : c'.owner E.uid = some p) :
    gradeWrite E client c (cl, .update p (Doc.ofFields [(gradeKey c', .double x)])) =
      if cl = client ∧ c' = c then some (some (.double x)) else none := by
  unfold gradeWrite
  by_cases hcl : cl = client
  · by_cases hc : c' = c
    · subst hc
      simp [hcl, hp, fieldWrite]
    · simp only [hcl, hc, if_true, and_false, if_false]
      cases ho : c.owner E.uid with
      | none => rfl
      | some q =>
        have hne : p ≠ q := fun e => hc (Coll.owner_inj hp (ho.trans (congrArg some e.symm)))
        simp [fieldWrite, hne]
  · simp [hcl]

/-- a write to another document is not one of the owner's grade -/
theorem gradeWrite_ne {E : Env} {client : ℕ} {c : Coll} {p : DocPath} {e : ℕ × Write} (hp : c.owner E.uid = some p)
    (he : e.2.path ≠ p) : gradeWrite E client c e = none := by
  unfold gradeWrite
  rw [hp, Option.bind_some]
  split_ifs
  · obtain ⟨cl, w⟩ := e
    cases w with
    | update q data => exact if_neg fun h => he h.1
    | _ => rfl
  · rfl

/-! ## The simulation -/

variable {E : Env} {s s' : St}

theorem applied_reader {w : Write} {flight : List (ℕ × Write)} {notify : List ℕ} (client : ℕ) (c : Coll)
    (x : Snapshot) :
    (obs E (applied E s w flight notify)).reader client c x ↔ (obs E s).reader client c x := by
  have key : ∀ i v, (notified E (w.apply s.store) w.path.coll notify i v).client = v.client ∧
      (notified E (w.apply s.store) w.path.coll notify i v).coll = v.coll ∧
      (notified E (w.apply s.store) w.path.coll notify i v).last = v.last := by
    intro i v
    unfold notified
    split_ifs <;> exact ⟨rfl, rfl, rfl⟩
  refine and_congr_right fun _ => ⟨?_, ?_⟩
  · rintro ⟨v, hv, h1, h2, h3⟩
    obtain ⟨i, hi, rfl⟩ := List.mem_mapIdx.1 hv
    obtain ⟨k1, k2, k3⟩ := key i s.views[i]
    exact ⟨_, List.getElem_mem hi, k1 ▸ h1, k2 ▸ h2, k3 ▸ h3⟩
  · rintro ⟨v, hv, h1, h2, h3⟩
    obtain ⟨i, hi, rfl⟩ := List.getElem_of_mem hv
    obtain ⟨k1, k2, k3⟩ := key i s.views[i]
    exact ⟨_, List.mem_mapIdx.2 ⟨i, hi, rfl⟩, k1.trans h1, k2.trans h2, k3.trans h3⟩

/-- a write applied to a document that owns no collection, or does not touch its grade, is not observed -/
theorem applied_stored_ne {w : Write} {flight : List (ℕ × Write)} {notify : List ℕ} {c : Coll}
    (h : c.owner E.uid ≠ some w.path) : (obs E (applied E s w flight notify)).stored c = (obs E s).stored c := by
  show (c.owner E.uid).bind _ = (c.owner E.uid).bind _
  cases ho : c.owner E.uid with
  | none => rfl
  | some p =>
    have hne : p ≠ w.path := fun e => h (ho.trans (congrArg some e))
    simp only [Option.bind_some, applied, Write.lookup_apply_ne _ _ hne]

theorem applied_stored {w : Write} {flight : List (ℕ × Write)} {notify : List ℕ} {c : Coll} {p : DocPath}
    (hp : w.path = p) (h : c.owner E.uid = some p) :
    (obs E (applied E s w flight notify)).stored c = (w.result (s.store.lookup p)).map fun d => d (gradeKey c) := by
  subst hp
  show (c.owner E.uid).bind _ = _
  rw [h]
  simp only [Option.bind_some, applied, Write.lookup_apply_self]

theorem stored_eq {c : Coll} {p : DocPath} (h : c.owner E.uid = some p) :
    (obs E s).stored c = (s.store.lookup p).map fun d => d (gradeKey c) := by
  show (c.owner E.uid).bind _ = _
  rw [h, Option.bind_some]

theorem applied_inflight {c : ℕ} {w : Write} {pre post : List (ℕ × Write)} {notify : List ℕ}
    (hflight : s.flight = pre ++ (c, w) :: post) (client : ℕ) (k : Coll) (h : gradeWrite E client k (c, w) = none) :
    (obs E (applied E s w (pre ++ post) notify)).inflight client k = (obs E s).inflight client k := by
  show (pre ++ post).filterMap _ = s.flight.filterMap _
  rw [hflight, List.filterMap_append, List.filterMap_append, List.filterMap_cons_none h]

/-- whoever has read a collection whose owner is still to be added has an update of its grade in flight -/
def Overwrites (E : Env) (s : St) : Prop := ∀ p ∈ adds s.flight, ∀ k : Coll, k.owner E.uid = some p →
  (∃ client x, (obs E s).reader client k x) → ∃ client, (obs E s).inflight client k ≠ []

theorem sim_apply {B : DocPath → Prop} {c : ℕ} {w : Write} {pre post : List (ℕ × Write)} {notify : List ℕ}
    (hw : WriteOk E B w) (hover : Overwrites E s) (hflight : s.flight = pre ++ (c, w) :: post)
    (hpre : ∀ e ∈ pre, e.1 ≠ c) :
    LastWriter.Step agg (obs E s) (obs E (applied E s w (pre ++ post) notify)) := by
  cases hw with
  | @add c' id data hroot hdata =>
    have hf : ∀ client k, gradeWrite E client k (c, .add (c'.doc E.uid id) data) = none := fun client k =>
      gradeWrite_add E client c k _ _
    by_cases hk : ∃ k : Coll, k.owner E.uid = some (c'.doc E.uid id)
    · -- the document that owns k is stored
      obtain ⟨k, hk⟩ := hk
      refine .born k ?_ (fun _ _ _ => applied_reader _ _ _) (fun _ _ => applied_inflight hflight _ _ (hf _ _)) ?_
      · refine hover _ ?_ k hk
        rw [hflight]
        simp [adds, addPath]
      · intro k' hne
        exact applied_stored_ne fun e => hne (Coll.owner_inj e hk)
    · exact .skip (fun _ _ _ => applied_reader _ _ _) (fun _ _ => applied_inflight hflight _ _ (hf _ _))
        fun k' => applied_stored_ne fun e => hk ⟨k', e⟩
  | @update c' id data hborn hdata =>
    rcases hdata with hdata | ⟨k, x, hk, rfl⟩
    · refine .skip (fun _ _ _ => applied_reader _ _ _)
        (fun _ _ => applied_inflight hflight _ _ (gradeWrite_edit hdata)) fun k => ?_
      by_cases hk : k.owner E.uid = some (c'.doc E.uid id)
      · -- the edit leaves the grade as it was
        rw [applied_stored rfl hk, stored_eq hk, Write.result, Option.map_map]
        congr 1
        funext d
        exact Doc.merge_none (editOk_gradeKey hdata hk)
      · exact applied_stored_ne hk
    · refine .commit c k (some (.double x)) (fun _ _ _ => applied_reader _ _ _) ?_ ?_ ?_ ?_
      · have hnone : pre.filterMap (gradeWrite E c k) = [] := by
          rw [List.filterMap_eq_nil_iff]
          intro e he
          exact if_neg (hpre e he)
        show s.flight.filterMap _ = _ :: (pre ++ post).filterMap _
        rw [hflight, List.filterMap_append, List.filterMap_append, hnone, List.nil_append, List.nil_append,
          List.filterMap_cons_some]
        rw [gradeWrite_grade hk, if_pos ⟨rfl, rfl⟩]
      · intro client k' hne
        refine applied_inflight hflight _ _ ?_
        rw [gradeWrite_grade hk]
        exact if_neg fun e => hne ⟨e.1.symm, e.2.symm⟩
      · rw [applied_stored rfl hk, stored_eq hk, Write.result, Option.map_map, Option.map_map]
        congr 1
        funext d
        exact Doc.merge_some (by simp)
      · intro k' hne
        exact applied_stored_ne fun e => hne (Coll.owner_inj e hk)
  | @delete c' id hborn =>
    have hf : ∀ client k, gradeWrite E client k (c, .delete (c'.doc E.uid id)) = none := fun client k =>
      gradeWrite_delete E client c k _
    by_cases hk : ∃ k : Coll, k.owner E.uid = some (c'.doc E.uid id)
    · obtain ⟨k, hk⟩ := hk
      refine .gone k (fun _ _ _ => applied_reader _ _ _) (fun _ _ => applied_inflight hflight _ _ (hf _ _)) ?_ ?_
      · rw [applied_stored rfl hk]; rfl
      · intro k' hne
        exact applied_stored_ne fun e => hne (Coll.owner_inj e hk)
    · exact .skip (fun _ _ _ => applied_reader _ _ _) (fun _ _ => applied_inflight hflight _ _ (hf _ _))
        fun k' => applied_stored_ne fun e => hk ⟨k', e⟩

/-- replacing view i changes the readers of its own client and collection only -/
theorem set_reader {i : ℕ} {v v' : View} (hv : s.views[i]? = some v) (hcl : v'.client = v.client)
    (hc : v'.coll = v.coll) {client : ℕ} {c : Coll} (hne : ¬(client = v.client ∧ c = v.coll)) (x : Snapshot)
    (flight : List (ℕ × Write)) :
    (obs E { s with views := s.views.set i v', flight := flight }).reader client c x ↔ (obs E s).reader client c x := by
  refine and_congr_right fun _ => ⟨?_, ?_⟩
  · rintro ⟨y, hy, h1, h2, h3⟩
    rcases List.mem_or_eq_of_mem_set hy with hy | rfl
    · exact ⟨y, hy, h1, h2, h3⟩
    · exact absurd ⟨h1.symm.trans hcl, h2.symm.trans hc⟩ hne
  · rintro ⟨y, hy, h1, h2, h3⟩
    obtain ⟨j, hj⟩ := List.getElem?_of_mem hy
    refine ⟨y, List.mem_of_getElem? (i := j) ?_, h1, h2, h3⟩
    rw [List.getElem?_set_ne, hj]
    rintro rfl
    rw [hv, Option.some.injEq] at hj
    subst hj
    exact hne ⟨h1.symm, h2.symm⟩

theorem inflight_append (client : ℕ) (c : Coll) (l : List (ℕ × Write)) :
    (s.flight ++ l).filterMap (gradeWrite E client c) =
      (obs E s).inflight client c ++ l.filterMap (gradeWrite E client c) := List.filterMap_append

/-- a write that names no derived grade is put in flight -/
theorem sim_send {used : List Segment} {e : ℕ × Write} (he : ∀ client c, gradeWrite E client c e = none) :
    LastWriter.Step agg (obs E s) (obs E { s with used := used, flight := s.flight ++ [e] }) := by
  refine .skip (fun _ _ _ => Iff.rfl) ?_ fun _ => rfl
  intro client c
  refine (inflight_append _ _ _).trans ?_
  rw [List.filterMap_cons_none (he client c), List.filterMap_nil, List.append_nil]

theorem sim_deliver {i : ℕ} {v : View} {documents : Snapshot} {rest : List Snapshot} (hv : s.views[i]? = some v) :
    LastWriter.Step agg (obs E s) (obs E { s with
      views := s.views.set i { v with rows := rowsOf v.coll documents, pending := rest, last := some documents },
      flight := s.flight ++ (gradeWrites E v.coll documents).map fun w => (v.client, w) }) := by
  have hset : ∀ client c, ¬(client = v.client ∧ c = v.coll) → ∀ x, (obs E { s with
      views := s.views.set i { v with rows := rowsOf v.coll documents, pending := rest, last := some documents },
      flight := s.flight ++ (gradeWrites E v.coll documents).map fun w => (v.client, w) }).reader client c x ↔
        (obs E s).reader client c x := by
    intro client c hne x
    refine set_reader hv ?_ ?_ hne x _ <;> rfl
  cases ho : v.coll.owner E.uid with
  | none =>
    -- the course list issues nothing, and it is not observed
    have hw : gradeWrites E v.coll documents = [] := by simp [gradeWrites, ho]
    refine .skip (fun client c x => ?_) (fun client c => ?_) fun c => rfl
    · by_cases hne : client = v.client ∧ c = v.coll
      · obtain ⟨rfl, rfl⟩ := hne
        exact ⟨fun h => absurd ho h.1, fun h => absurd ho h.1⟩
      · exact hset client c hne x
    · exact (inflight_append _ _ _).trans (by rw [hw]; simp)
  | some p =>
    have hw : gradeWrites E v.coll documents =
        [.update p (Doc.ofFields [(gradeKey v.coll, .double (gradeOf v.coll documents))])] := by simp [gradeWrites, ho]
    have hf : ∀ client c, ((gradeWrites E v.coll documents).map fun w => (v.client, w)).filterMap
        (gradeWrite E client c) = if v.client = client ∧ v.coll = c then [agg v.coll documents] else [] := by
      intro client c
      rw [hw, List.map_singleton, List.filterMap_cons, gradeWrite_grade ho]
      split_ifs <;> rfl
    refine .see v.client v.coll documents ?_ hset ?_ ?_ fun c => rfl
    · have hi : i < s.views.length := (List.getElem?_eq_some_iff.1 hv).1
      refine ⟨by rw [ho]; simp, _, List.mem_set hi _, rfl, rfl, rfl⟩
    · exact (inflight_append _ _ _).trans (by rw [hf, if_pos ⟨rfl, rfl⟩])
    · intro client c hne
      refine (inflight_append _ _ _).trans ?_
      rw [hf, if_neg fun e => hne ⟨e.1.symm, e.2.symm⟩, List.append_nil]

/-- **Simulation.** Every step of the system is a step of the last-writer machine. -/
theorem effect_sim {B : ℕ → DocPath → Prop} {B' : DocPath → Prop} (hflight : ∀ e ∈ s.flight, WriteOk E B' e.2)
    (hover : Overwrites E s) {o : Op} (he : Effect E B s s' o) : LastWriter.Step agg (obs E s) (obs E s') := by
  cases he with
  | load o client c ho hc hs =>
    subst hs
    refine .skip (fun cl k x => and_congr_right fun _ => ?_) (fun _ _ => rfl) fun _ => rfl
    -- the new view has seen nothing yet
    simp [List.mem_append, or_and_right, exists_or]
  | form o forms ho hf hs =>
    subst hs
    exact .skip (fun _ _ _ => Iff.rfl) (fun _ _ => rfl) fun _ => rfl
  | add i f c id data hf hpress hc hdata hid hs =>
    subst hs
    exact sim_send fun cl k => gradeWrite_add E cl _ k _ _
  | edit i f c id new data hf hpress hborn hdata hs =>
    subst hs
    exact sim_send fun cl k => gradeWrite_edit hdata
  | remove o client c ho id hborn hs =>
    subst hs
    exact sim_send fun cl k => gradeWrite_delete E cl _ k _
  | apply c w pre post notify hsplit hpre hs =>
    subst hs
    exact sim_apply (hflight (c, w) (by rw [hsplit]; simp)) hover hsplit hpre
  | deliver i v documents rest hv hpending hs =>
    subst hs
    exact sim_deliver hv

/-- where listeners are shown the server's contents only, nobody has read such a collection -/
theorem overwrites_of_inv (h : Inv E s) : Overwrites E s := by
  rintro p hp k hk ⟨client, x, -, v, hv, -, rfl, -⟩
  exact absurd ((h.views_ok v hv).rooted _ (Coll.owner_mem_ancestors hk)) (h.adds_new p hp)

theorem step_sim (h : Inv E s) {o : Op} (he : Effect E (fun _ => Born s) s s' o) :
    LastWriter.Step agg (obs E s) (obs E s') :=
  effect_sim h.flight_ok (overwrites_of_inv h) he

theorem reachable_latest (h : Reachable E s) : LastWriter.Inv agg (obs E s) := by
  have hinit : LastWriter.Inv agg (obs E init) := by
    refine inv_of_no_reader ?_ fun _ _ => rfl
    rintro _ _ _ ⟨-, v, hv, -⟩
    cases hv
  have hstep : ∀ t o t', Inv E t ∧ LastWriter.Inv agg (obs E t) → step E t o = some t' →
      Inv E t' ∧ LastWriter.Inv agg (obs E t') := by
    intro t o t' ht hs
    have he := step_effect ht.1 hs
    exact ⟨he.inv ht.1, (step_sim ht.1 he).inv ht.2⟩
  exact (h.induction ⟨inv_init E, hinit⟩ hstep).2

/-! ## Settled states -/

/-- nothing in flight, nothing queued -/
structure Quiet (s : St) : Prop where
  flight : s.flight = []
  pending : ∀ v ∈ s.views, v.pending = []

/-- what Firestore promises: a listener whose last snapshot differs from its collection has one queued -/
def Promised (E : Env) (s : St) : Prop :=
  ∀ v ∈ s.views, v.last ≠ some (content E s.store v.coll) → v.pending ≠ []

/-- nothing in flight, nothing queued, and every listener has processed the current content -/
structure Settled (E : Env) (s : St) : Prop extends Quiet s where
  last : ∀ v ∈ s.views, v.last = some (content E s.store v.coll)

theorem Quiet.settled (hq : Quiet s) (hp : Promised E s) : Settled E s := by
  refine ⟨hq, ?_⟩
  intro v hv
  by_contra hne
  exact hp v hv hne (hq.pending v hv)

/-- the grade does not depend on the order of the documents -/
theorem grade_perm {l l' : Snapshot} (c : Coll) (h : l.Perm l') : gradeOf c l = gradeOf c l' := by
  have hsum : ∀ f : Segment × Doc → Double, (l.map f).sum = (l'.map f).sum := fun f => (h.map f).sum_eq
  cases c with
  | courses => rfl
  | categories k => simp only [gradeOf, weightedSum, weightSum, hsum]
  | assignments k j => simp only [gradeOf, creditSum, totalcreditSum, hsum]

/-- every stored document has the field its query orders by, so the query drops none -/
theorem content_perm (h : Inv E s) (c : Coll) : (content E s.store c).Perm (docs s.store (c.path E.uid)) := by
  refine orderBy_perm ?_
  intro e he
  have hty := (h.store_ok.docOk he).hasType
  cases c with
  | courses => obtain ⟨x, hx⟩ := hty.name; simp [Coll.orderKey, hx]
  | categories k => obtain ⟨x, hx⟩ := hty.name; simp [Coll.orderKey, hx]
  | assignments k j => obtain ⟨x, hx⟩ := hty.name; simp [Coll.orderKey, hx]

/-- in a settled state the owner of a collection that somebody views holds the grade of the documents now stored -/
theorem grade_of_settled (h : Reachable E s) (hs : Settled E s) {c : Coll} {p : DocPath} {d : Doc}
    (hp : c.owner E.uid = some p) (hd : s.store.lookup p = some d) (hv : ∃ v ∈ s.views, v.coll = c) :
    d (gradeKey c) = some (.double (gradeOf c (docs s.store (c.path E.uid)))) := by
  have hne : c.owner E.uid ≠ none := by rw [hp]; simp
  have hf : ∀ client k, (obs E s).inflight client k = [] := by
    intro client k
    show s.flight.filterMap _ = []
    rw [hs.flight, List.filterMap_nil]
  have hcur : ∀ client x, (obs E s).reader client c x → x = content E s.store c := by
    rintro client x ⟨-, v, hmem, -, rfl, hx⟩
    rw [hs.last v hmem, Option.some.injEq] at hx
    exact hx.symm
  obtain ⟨v, hmem, rfl⟩ := hv
  have hrd : ∃ client x, (obs E s).reader client v.coll x :=
    ⟨v.client, _, hne, v, hmem, rfl, rfl, hs.last v hmem⟩
  have hst : (obs E s).stored v.coll = some (d (gradeKey v.coll)) := by rw [stored_eq hp, hd, Option.map_some]
  rw [settled (reachable_latest h) hf hcur hrd hst, agg, grade_perm v.coll (content_perm (reachable_inv h) v.coll)]

/-- **Convergence of the stored grades.** Any clients, any listeners, any interleaving: once nothing is in flight and
nothing is queued, an existing category with a live assignments listener holds as catgrade what the listener computes
from exactly the assignments now stored, and an existing course with a live categories listener holds as cgrade what
that listener computes from exactly the categories now stored. -/
theorem stored_grades_converge (E : Env) (s : St) (h : Reachable E s) (hq : Quiet s) (hp : Promised E s) :
    (∀ k j d, s.store.lookup (Coll.doc E.uid (.categories k) j) = some d →
      (∃ v ∈ s.views, v.coll = .assignments k j) →
      ∃ rows catgrade, assignmentsListener (docs s.store (Coll.path E.uid (.assignments k j))) = some (rows, catgrade) ∧
        d "catgrade" = some (.double catgrade)) ∧
    (∀ k d, s.store.lookup (Coll.doc E.uid .courses k) = some d → (∃ v ∈ s.views, v.coll = .categories k) →
      ∃ rows cgrade, categoriesListener (docs s.store (Coll.path E.uid (.categories k))) = some (rows, cgrade) ∧
        d "cgrade" = some (.double cgrade)) := by
  have hs := hq.settled hp
  have hinv := reachable_inv h
  refine ⟨?_, ?_⟩
  · intro k j d hd hv
    have hty : ∀ e ∈ docs s.store (Coll.path E.uid (.assignments k j)), IsAssignment e.2 := by
      intro e he
      have hok : DocOk (.assignments k j) e.2 := hinv.store_ok.docOk he
      exact hok.hasType
    exact ⟨_, _, assignmentsListener_eq hty, grade_of_settled h hs rfl hd hv⟩
  · intro k d hd hv
    have hty : ∀ e ∈ docs s.store (Coll.path E.uid (.categories k)), IsCategory e.2 := by
      intro e he
      have hok : DocOk (.categories k) e.2 := hinv.store_ok.docOk he
      exact hok.hasType
    exact ⟨_, _, categoriesListener_eq hty, grade_of_settled h hs rfl hd hv⟩

/-- the sample session ends in a settled state -/
theorem sample_settled : Reachable sampleEnv sample ∧ Settled sampleEnv sample := by
  have hrun : (run sampleEnv init sampleRun).isSome ∧ sample.flight.length = 0 ∧
      (∀ v ∈ sample.views, v.pending = []) ∧
      ∀ v ∈ sample.views, v.last = some (content sampleEnv sample.store v.coll) := by
    simp only [sample, after_direct, run_init_direct]
    decide +kernel
  obtain ⟨hrun, hflight, hpending, hlast⟩ := hrun
  exact ⟨reachable_after _ hrun, ⟨List.length_eq_zero_iff.1 hflight, hpending⟩, hlast⟩

/-- so does the session of two clients -/
theorem pair_settled : Settled sampleEnv pair := by
  obtain ⟨-, hflight, hpending, hlast, -⟩ := pair_facts
  exact ⟨⟨List.length_eq_zero_iff.1 hflight, hpending⟩, hlast⟩

/-- its category and its course, each with a listener at both clients, hold what one of these computes -/
theorem stored_grades_converge_pair :
    (∃ d, pair.store.lookup (Coll.doc uid (.categories sampleCourse) sampleCategory) = some d ∧
      ∃ rows catgrade,
        assignmentsListener (docs pair.store (Coll.path uid (.assignments sampleCourse sampleCategory))) =
          some (rows, catgrade) ∧ d "catgrade" = some (.double catgrade)) ∧
    (∃ d, pair.store.lookup (Coll.doc uid .courses sampleCourse) = some d ∧
      ∃ rows cgrade, categoriesListener (docs pair.store (Coll.path uid (.categories sampleCourse))) =
        some (rows, cgrade) ∧ d "cgrade" = some (.double cgrade)) ∧
    pair.views.map (fun v => (v.client, v.coll)) =
      [(0, .courses), (0, .categories sampleCourse), (0, .assignments sampleCourse sampleCategory),
       (1, .courses), (1, .categories sampleCourse), (1, .assignments sampleCourse sampleCategory)] := by
  obtain ⟨-, -, -, -, hviews, -⟩ := pair_facts
  have hview : ∀ e ∈ pair.views.map (fun v => (v.client, v.coll)), ∃ v ∈ pair.views, v.coll = e.2 := by
    intro e he
    obtain ⟨v, hv, rfl⟩ := List.mem_map.1 he
    exact ⟨v, hv, rfl⟩
  rw [hviews] at hview
  obtain ⟨hcatgrade, hcgrade⟩ := stored_grades_converge sampleEnv pair pair_reachable pair_settled.toQuiet
    fun v hv hne => absurd (pair_settled.last v hv) hne
  refine ⟨⟨_, pair_category, hcatgrade _ _ _ pair_category ?_⟩, ⟨_, pair_course, hcgrade _ _ pair_course ?_⟩, hviews⟩
  · exact hview (0, .assignments sampleCourse sampleCategory) (by simp)
  · exact hview (0, .categories sampleCourse) (by simp)

end GradeKeep.Convergence
