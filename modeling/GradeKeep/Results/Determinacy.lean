/-
What users did decides what they get.

Two runs may differ in when writes are applied, which snapshots are skipped, who has which screens open and how often.
If each client confirms the same actions in its order in both, and different clients keep to different entries, then
once both have settled the gradebook is the same one, every document that is kept up to date is the same, and so are
the tables.

Results:
- `performAll_interleaving`: actions on different entries may be interleaved in any way;
- `content_of_lookup`: the content of a collection is decided by its documents;
- `outcome_determined`: the two settled states.
-/
import GradeKeep.Core.Query
import GradeKeep.Results.Rendering

namespace GradeKeep.Determinacy

open GradeKeep.Firestore GradeKeep.Schema GradeKeep.System GradeKeep.WellFormed GradeKeep.Invariant
open GradeKeep.Gradebook GradeKeep.Records GradeKeep.Trace GradeKeep.Convergence GradeKeep.Refinement
open GradeKeep.Rendering GradeKeep.DirectRuns

/-- different clients keep to different entries -/
def OwnEntries (actions : List (ℕ × Action)) : Prop :=
  ∀ e ∈ actions, ∀ e' ∈ actions, e.2.coll = e'.2.coll → e.2.id = e'.2.id → e.1 = e'.1

/-- **Interleavings.** -/
theorem performAll_interleaving {actions actions' : List (ℕ × Action)} (hown : OwnEntries actions)
    (h : ∀ client, ofSender client actions = ofSender client actions') :
    performAll (actions.map (·.2)) = performAll (actions'.map (·.2)) := by
  funext c
  apply Finmap.ext_lookup
  intro id
  have hmem : ∀ e, e ∈ actions ↔ e ∈ actions' := by
    rintro ⟨client, a⟩
    rw [← mem_ofSender, h, mem_ofSender]
  apply performAll_congr
  by_cases hnone : ∃ e ∈ actions, Action.On c id e.2 = true
  · -- all actions on the entry are of one client
    obtain ⟨e, he, hon⟩ := hnone
    have hclient : ∀ e' ∈ actions, Action.On c id e'.2 = true → e'.1 = e.1 := by
      intro e' he' hon'
      simp only [Action.On, decide_eq_true_eq] at hon hon'
      exact hown e' he' e he (hon'.1.trans hon.1.symm) (hon'.2.trans hon.2.symm)
    rw [filter_of_sender hclient, filter_of_sender fun e' he' => hclient e' ((hmem e').2 he'), h]
  · have hempty : ∀ l : List (ℕ × Action), (∀ e ∈ l, e ∈ actions) → (l.map (·.2)).filter (Action.On c id) = [] := by
      intro l hl
      rw [List.filter_eq_nil_iff]
      intro a ha hon
      obtain ⟨e, he, rfl⟩ := List.mem_map.1 ha
      exact hnone ⟨e, hl e he, hon⟩
    rw [hempty actions fun e he => he, hempty actions' fun e he => (hmem e).2 he]

variable {E : Env}

/-- the content of a collection is decided by its documents -/
theorem content_of_lookup {store store' : Store} {c : Coll}
    (h : ∀ id, store.lookup (c.doc E.uid id) = store'.lookup (c.doc E.uid id)) :
    content E store c = content E store' c := orderBy_congr h _

/-- **The outcome is determined.** -/
theorem outcome_determined (E : Env) (ops₁ ops₂ : List Op) (s₁ s₂ : St) (h₁ : run E init ops₁ = some s₁)
    (h₂ : run E init ops₂ = some s₂) (hs₁ : Settled E s₁) (hs₂ : Settled E s₂)
    (hsame : ∀ client, ofSender client (labels (step E) (confirmed E) init ops₁) =
      ofSender client (labels (step E) (confirmed E) init ops₂))
    (hown : OwnEntries (labels (step E) (confirmed E) init ops₁)) :
    (∀ c id, Kept E s₁ c id → Kept E s₂ c id → s₁.store.lookup (c.doc E.uid id) = s₂.store.lookup (c.doc E.uid id)) ∧
    ∀ v₁ ∈ s₁.views, ∀ v₂ ∈ s₂.views, v₁.coll = v₂.coll →
      AllKept E s₁ v₁.coll → AllKept E s₂ v₁.coll → v₁.rows = v₂.rows := by
  have hconf : ∀ e ∈ history E ops₁, e ∈ labels (step E) (confirmed E) init ops₁ := by
    rintro ⟨client, a⟩ he
    rw [← mem_ofSender, confirmed_of_settled h₁ hs₁]
    exact mem_ofSender.2 he
  have hbook : performAll ((history E ops₁).map (·.2)) = performAll ((history E ops₂).map (·.2)) := by
    refine performAll_interleaving (fun e he e' he' => hown e (hconf e he) e' (hconf e' he')) fun client => ?_
    rw [← confirmed_of_settled h₁ hs₁, hsame, confirmed_of_settled h₂ hs₂]
  have hdocs : ∀ c id, (∀ d, s₁.store.lookup (c.doc E.uid id) = some d → Kept E s₁ c id) →
      (∀ d, s₂.store.lookup (c.doc E.uid id) = some d → Kept E s₂ c id) →
      s₁.store.lookup (c.doc E.uid id) = s₂.store.lookup (c.doc E.uid id) := by
    intro c id hk₁ hk₂
    calc s₁.store.lookup (c.doc E.uid id) = _ := document_of_kept ⟨ops₁, h₁⟩ hs₁ (represents_history h₁) hk₁
      _ = _ := by rw [hbook]
      _ = s₂.store.lookup (c.doc E.uid id) :=
          (document_of_kept ⟨ops₂, h₂⟩ hs₂ (represents_history h₂) hk₂).symm
  refine ⟨fun c id hk₁ hk₂ => hdocs c id (fun _ _ => hk₁) fun _ _ => hk₂, ?_⟩
  intro v₁ hv₁ v₂ hv₂ hcoll hk₁ hk₂
  rw [rows_of_settled (reachable_inv ⟨ops₁, h₁⟩) hs₁ hv₁, rows_of_settled (reachable_inv ⟨ops₂, h₂⟩) hs₂ hv₂, ← hcoll,
    content_of_lookup fun id => hdocs v₁.coll id (hk₁.kept id) (hk₂.kept id)]

/-- the sample session, then another client opens the course list -/
def visitedRun : List Op := sampleRun ++ [.viewDidLoad 1, .deliver 3]

theorem visited_settled : (run sampleEnv init visitedRun).isSome ∧ Settled sampleEnv (after visitedRun) ∧
    AllKept sampleEnv (after visitedRun) .courses ∧
    ∃ v ∈ (after visitedRun).views, v.client = 1 ∧ v.coll = .courses := by
  have hrun : (run sampleEnv init visitedRun).isSome ∧ (after visitedRun).flight.length = 0 ∧
      (∀ v ∈ (after visitedRun).views, v.pending = []) ∧
      (∀ v ∈ (after visitedRun).views, v.last = some (content sampleEnv (after visitedRun).store v.coll)) ∧
      AllKept sampleEnv (after visitedRun) .courses ∧
      ∃ v ∈ (after visitedRun).views, v.client = 1 ∧ v.coll = .courses := by
    simp only [after_direct, run_init_direct]
    decide +kernel
  obtain ⟨hrun, hflight, hpending, hlast, hkept⟩ := hrun
  exact ⟨hrun, ⟨⟨List.length_eq_zero_iff.1 hflight, hpending⟩, hlast⟩, hkept⟩

/-- which changes nothing: both clients see the same courses -/
theorem outcome_determined_visited :
    (∀ c id, Kept sampleEnv sample c id → Kept sampleEnv (after visitedRun) c id →
      sample.store.lookup (c.doc uid id) = (after visitedRun).store.lookup (c.doc uid id)) ∧
    ∃ v₁ ∈ sample.views, ∃ v₂ ∈ (after visitedRun).views, v₁.client = 0 ∧ v₂.client = 1 ∧ v₁.coll = .courses ∧
      v₂.coll = .courses ∧ v₁.rows = v₂.rows := by
  have hone : (∀ e ∈ labels (step sampleEnv) (confirmed sampleEnv) init sampleRun, e.1 = 0) ∧
      AllKept sampleEnv sample .courses ∧ ∃ v ∈ sample.views, v.client = 0 ∧ v.coll = .courses := by
    decide +kernel
  obtain ⟨hone, hkept₁, v₁, hv₁, hclient₁, hcoll₁⟩ := hone
  obtain ⟨hrun, hsettled, hkept₂, v₂, hv₂, hclient₂, hcoll₂⟩ := visited_settled
  have hsame : ∀ client, ofSender client (labels (step sampleEnv) (confirmed sampleEnv) init sampleRun) =
      ofSender client (labels (step sampleEnv) (confirmed sampleEnv) init visitedRun) := by
    intro client
    have hnone : labels (step sampleEnv) (confirmed sampleEnv) sample [.viewDidLoad 1, .deliver 3] = [] := by
      refine labels_eq_nil ?_
      intro o ho s
      rcases List.mem_pair.1 ho with rfl | rfl <;> rfl
    rw [visitedRun, labels_append sampleRun_ends, hnone, List.append_nil]
  have hout := outcome_determined sampleEnv sampleRun visitedRun sample _ sampleRun_ends (run_init_after _ hrun)
    sample_settled.2 hsettled hsame fun e he e' he' _ _ => by rw [hone e he, hone e' he']
  refine ⟨hout.1, v₁, hv₁, v₂, hv₂, hclient₁, hclient₂, hcoll₁, hcoll₂, ?_⟩
  refine hout.2 v₁ hv₁ v₂ hv₂ (hcoll₁.trans hcoll₂.symm) ?_ ?_
  · rw [hcoll₁]
    exact hkept₁
  · rw [hcoll₁]
    exact hkept₂

end GradeKeep.Determinacy
