/-
The listeners' cascade terminates. A listener writes to the store from inside its callback, the write is applied, and
listeners are notified of it, who write again, unconditionally and once for every leaked duplicate.

The work waiting in a state is the multiset of the writes in flight and the snapshots queued, each ranked by the depth
of its collection. Applying a write trades it for snapshots of the same depth, delivering a snapshot trades it for a
write two levels up; so each step replaces one element by finitely many smaller ones (`Relation.CutExpand`).

Results:
- `work_apply`, `work_deliver`: what the two steps do to the work;
- `cascade_terminates`: the steps without user action are well-founded on reachable states.
-/
import GradeKeep.Results.Invariant
import Mathlib.Logic.Hydra

namespace GradeKeep.Cascade

open GradeKeep.Firestore GradeKeep.Schema GradeKeep.System GradeKeep.WellFormed GradeKeep.Invariant Relation

/-- the op is the server's or the network's, not a user's -/
def Auto : Op → Prop
  | .apply _ _ => True
  | .deliver _ => True
  | _ => False

/-- a write is applied or a snapshot delivered -/
def AutoStep (E : Env) (s s' : St) : Prop := ∃ o, Auto o ∧ step E s o = some s'

theorem not_auto_of_local {o : Op} (h : Local o) : ¬Auto o := by
  intro ha
  cases o <;> trivial

/-! ## The work waiting -/

def writeRank (w : Write) : ℕ := 2 * w.path.coll.length + 1

def snapshotRank (E : Env) (c : Coll) : ℕ := 2 * (c.path E.uid).length

def viewWork (E : Env) (v : View) : Multiset ℕ := Multiset.replicate v.pending.length (snapshotRank E v.coll)

def flightWork (flight : List (ℕ × Write)) : Multiset ℕ := flight.map fun e => writeRank e.2

def viewsWork (E : Env) (views : List View) : Multiset ℕ := (views.map (viewWork E)).sum

def work (E : Env) (s : St) : Multiset ℕ := flightWork s.flight + viewsWork E s.views

theorem flightWork_append (a b : List (ℕ × Write)) : flightWork (a ++ b) = flightWork a + flightWork b := by
  simp [flightWork]

theorem flightWork_cons (c : ℕ) (w : Write) (l : List (ℕ × Write)) :
    flightWork ((c, w) :: l) = {writeRank w} + flightWork l := rfl

/-- notifying views adds snapshots of the written collection's rank -/
theorem viewsWork_mapIdx {E : Env} {P : ℕ → Prop} (f : ℕ → View → View) (views : List View)
    (hf : ∀ i v, ∃ t : Multiset ℕ, (∀ a ∈ t, P a) ∧ viewWork E (f i v) = viewWork E v + t) :
    ∃ t : Multiset ℕ, (∀ a ∈ t, P a) ∧ viewsWork E (views.mapIdx f) = viewsWork E views + t := by
  induction views generalizing f with
  | nil => exact ⟨0, fun a ha => absurd ha (Multiset.notMem_zero a), rfl⟩
  | cons v views ih =>
    obtain ⟨t, ht, hv⟩ := hf 0 v
    obtain ⟨t', ht', hviews⟩ := ih (fun i => f (i + 1)) fun i => hf (i + 1)
    refine ⟨t + t', ?_, ?_⟩
    · intro a ha
      rcases Multiset.mem_add.1 ha with ha | ha
      · exact ht a ha
      · exact ht' a ha
    · simp only [viewsWork] at hviews ⊢
      rw [List.mapIdx_cons, List.map_cons, List.sum_cons, hv, hviews, List.map_cons, List.sum_cons]
      exact add_add_add_comm _ _ _ _

/-- replacing a view by one with less work -/
theorem viewsWork_set {E : Env} {views : List View} {i : ℕ} {v v' : View} {t : Multiset ℕ} (hv : views[i]? = some v)
    (h : viewWork E v = viewWork E v' + t) : viewsWork E (views.set i v') + t = viewsWork E views := by
  induction views generalizing i with
  | nil => cases hv
  | cons y views ih =>
    cases i with
    | zero =>
      simp only [List.getElem?_cons_zero, Option.some.injEq] at hv
      subst hv
      simp only [viewsWork, List.set_cons_zero, List.map_cons, List.sum_cons, h]
      exact add_right_comm _ _ _
    | succ i =>
      simp only [List.getElem?_cons_succ] at hv
      have ih' := ih hv
      simp only [viewsWork] at ih' ⊢
      rw [List.set_cons_succ, List.map_cons, List.sum_cons, add_assoc, ih', List.map_cons, List.sum_cons]

variable {E : Env} {s s' : St}

theorem notified_work (store : Store) (w : Write) (notify : List ℕ) (i : ℕ) (v : View) :
    ∃ t : Multiset ℕ, (∀ a ∈ t, a < writeRank w) ∧
      viewWork E (notified E store w.path.coll notify i v) = viewWork E v + t := by
  unfold notified
  split_ifs with h
  · refine ⟨{snapshotRank E v.coll}, ?_, ?_⟩
    · intro a ha
      rw [Multiset.mem_singleton.1 ha, snapshotRank, writeRank, h.2]
      omega
    · simp only [viewWork, List.length_append, List.length_singleton, Multiset.replicate_succ]
      rw [← Multiset.singleton_add, add_comm]
  · exact ⟨0, fun a ha => absurd ha (Multiset.notMem_zero a), (add_zero _).symm⟩

/-- an applied write is traded for snapshots of its own collection -/
theorem work_apply {c : ℕ} {w : Write} {pre post : List (ℕ × Write)} {notify : List ℕ}
    (hflight : s.flight = pre ++ (c, w) :: post) :
    CutExpand (· < ·) (work E (applied E s w (pre ++ post) notify)) (work E s) := by
  obtain ⟨t, ht, hviews⟩ := viewsWork_mapIdx _ s.views (notified_work (E := E) (w.apply s.store) w notify)
  refine ⟨t, writeRank w, ht, ?_⟩
  simp only [work, applied]
  rw [hviews, hflight, flightWork_append, flightWork_append, flightWork_cons]
  abel

theorem owner_rank {c : Coll} {p : DocPath} (h : c.owner E.uid = some p) :
    2 * p.coll.length + 1 < snapshotRank E c := by
  cases c <;> simp only [Coll.owner, Option.some.injEq, reduceCtorEq] at h <;> subst h <;>
    simp [snapshotRank, Coll.path, Coll.doc]

/-- a delivered snapshot is traded for the update of the owner -/
theorem work_deliver {i : ℕ} {v : View} {documents : Snapshot} {rest : List Snapshot} {rows : Rows}
    (hv : s.views[i]? = some v) (hpending : v.pending = documents :: rest) :
    CutExpand (· < ·) (work E { s with
      views := s.views.set i { v with rows := rows, pending := rest, last := some documents },
      flight := s.flight ++ (gradeWrites E v.coll documents).map fun w => (v.client, w) }) (work E s) := by
  refine ⟨flightWork ((gradeWrites E v.coll documents).map fun w => (v.client, w)), snapshotRank E v.coll, ?_, ?_⟩
  · intro a ha
    unfold gradeWrites at ha
    cases hc : v.coll.owner E.uid with
    | none => simp [hc, flightWork] at ha
    | some p =>
      simp only [hc, flightWork, List.map_cons, List.map_nil, Multiset.coe_singleton, Multiset.mem_singleton] at ha
      rw [ha]
      exact owner_rank hc
  · have hset : viewWork E v = viewWork E { v with rows := rows, pending := rest, last := some documents } +
        {snapshotRank E v.coll} := by
      simp only [viewWork, hpending, List.length_cons, Multiset.replicate_succ]
      rw [← Multiset.singleton_add, add_comm]
    have hviews := viewsWork_set hv hset
    simp only [work, flightWork_append]
    rw [← hviews]
    abel

theorem autoStep_work (h : Inv E s) (hs : AutoStep E s s') : CutExpand (· < ·) (work E s') (work E s) := by
  obtain ⟨o, ho, hstep⟩ := hs
  cases step_effect h hstep with
  | apply c w pre post notify hflight hpre hs =>
    subst hs
    exact work_apply hflight
  | deliver i v documents rest hv hpending hs =>
    subst hs
    exact work_deliver hv hpending
  | load o client c hl hc hs => exact absurd ho (not_auto_of_local hl)
  | form o forms hl hf hs => exact absurd ho (not_auto_of_local hl)
  | remove o client c hl id hborn hs => exact absurd ho (not_auto_of_local hl)
  | add i f c id data hf hpress hc hdata hid hs => exact ho.elim
  | edit i f c id new data hf hpress hborn hdata hs => exact ho.elim

/-- **The cascade terminates.** Without user actions no reachable state has an infinite run, whatever the order in which
writes are applied and snapshots delivered, and however many listeners each write notifies. -/
theorem cascade_terminates (E : Env) : WellFounded fun s' s => Reachable E s ∧ AutoStep E s s' := by
  have hwf : WellFounded (CutExpand fun a b : ℕ => a < b) := wellFounded_lt.cutExpand
  refine Subrelation.wf ?_ (InvImage.wf (work E) hwf)
  rintro s' s ⟨hr, hs⟩
  exact autoStep_work (reachable_inv hr) hs

end GradeKeep.Cascade
