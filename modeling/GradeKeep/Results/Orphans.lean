/-
Orphaned data. Firestore's delete removes the named document only, and the app has no cascade: it deletes a course or a
category and leaves what hangs beneath it. A view opened before the delete may go on adding beneath it.

Results:
- `category_outlives_course`: a reachable state that stores a category and not its course;
- `mem_deleted_iff`: the ghost record holds the deletes a run applied;
- `orphan_iff`: nothing else makes an orphan. A document above a stored one is missing exactly when its own delete was
  applied.
-/
import GradeKeep.Results.DirectRuns

namespace GradeKeep.Orphans

open GradeKeep.Firestore GradeKeep.Schema GradeKeep.System GradeKeep.WellFormed GradeKeep.Invariant GradeKeep.DirectRuns

/-- every document above a stored one is stored: each category's course, each assignment's category and course -/
def NoOrphans (E : Env) (s : St) : Prop :=
  ∀ c id d, s.store.lookup (Coll.doc E.uid c id) = some d →
    ∀ q ∈ c.ancestors E.uid, (s.store.lookup q).isSome

/-- the sample course is deleted under its category -/
def orphanedRun : List Op := courseRun ++ categoryOps ++ [.delete 0 0, .apply 0 [0]]

theorem orphanedRun_facts : (run sampleEnv init orphanedRun).isSome ∧
    ((after orphanedRun).store.lookup (Coll.doc uid (.categories sampleCourse) sampleCategory)).isSome ∧
    (after orphanedRun).store.lookup (Coll.doc uid .courses sampleCourse) = none := by
  rw [after_direct, run_init_direct]
  decide +kernel

theorem category_outlives_course : ¬∀ E s, Reachable E s → NoOrphans E s := by
  intro h
  obtain ⟨hrun, hcat, hcourse⟩ := orphanedRun_facts
  obtain ⟨d, hd⟩ := Option.isSome_iff_exists.1 hcat
  have hq := h sampleEnv _ (reachable_after _ hrun) (.categories sampleCourse) sampleCategory d hd _ List.mem_cons_self
  have hnone : (after orphanedRun).store.lookup (Coll.doc sampleEnv.uid .courses sampleCourse) = none := hcourse
  rw [hnone] at hq
  cases hq

/-- somewhere in the run the server applies a delete of q -/
def DeleteApplied (E : Env) (ops : List Op) (q : DocPath) : Prop :=
  ∃ a c notify b s rest, ops = a ++ .apply c notify :: b ∧ run E init a = some s ∧
    takeWrite c s.flight = some (.delete q, rest)

theorem mem_deleted_iff {E : Env} {ops : List Op} {s : St} (hr : run E init ops = some s) (q : DocPath) :
    q ∈ s.deleted ↔ DeleteApplied E ops q := by
  induction ops using List.reverseRecOn generalizing s with
  | nil =>
    simp only [run, List.foldlM_nil, Option.pure_def, Option.some.injEq] at hr
    subst hr
    simp [init, DeleteApplied]
  | append_singleton ops o ih =>
    rw [run_append] at hr
    obtain ⟨t, ht, hr⟩ := Option.bind_eq_some_iff.1 hr
    rw [run_cons] at hr
    obtain ⟨t', ht', hr⟩ := Option.bind_eq_some_iff.1 hr
    simp only [run, List.foldlM_nil, Option.pure_def, Option.some.injEq] at hr
    subst hr
    rw [(step_effect (run_inv (inv_init E) ht) ht').mem_deleted, ih ht]
    refine ⟨?_, ?_⟩
    · rintro (⟨a, c, notify, b, u, rest, rfl, ha, htake⟩ | ⟨c, notify, rest, rfl, htake⟩)
      · exact ⟨a, c, notify, b ++ [o], u, rest, by simp, ha, htake⟩
      · exact ⟨ops, c, notify, [], t, rest, rfl, ht, htake⟩
    · rintro ⟨a, c, notify, b, u, rest, he, ha, htake⟩
      rcases List.eq_nil_or_concat b with rfl | ⟨b, o', rfl⟩
      · obtain ⟨rfl, he⟩ := List.append_inj' he rfl
        rw [ha, Option.some.injEq] at ht
        subst ht
        exact Or.inr ⟨c, notify, rest, by simpa using he, htake⟩
      · rw [List.concat_eq_append, ← List.cons_append, ← List.append_assoc] at he
        obtain ⟨rfl, -⟩ := List.append_inj' he rfl
        exact Or.inl ⟨a, c, notify, b, u, rest, rfl, ha, htake⟩

/-- **Orphans come from deletes only.** After any run, a document above a stored one is missing exactly when the run
applied a delete of it. -/
theorem orphan_iff (E : Env) (ops : List Op) (s : St) (hr : run E init ops = some s) (c : Coll) (id : Segment) (d : Doc)
    (hd : s.store.lookup (c.doc E.uid id) = some d) :
    ∀ q ∈ c.ancestors E.uid, (s.store.lookup q = none ↔ DeleteApplied E ops q) := by
  intro q hq
  have hinv := run_inv (inv_init E) hr
  obtain ⟨c', id', he, hroot, -⟩ := hinv.store_ok _ d hd
  obtain ⟨rfl, rfl⟩ := (Coll.doc_inj E.uid c c' id id').1 he
  rw [← mem_deleted_iff hr]
  refine ⟨?_, hinv.deleted_gone q⟩
  intro hnone
  rcases hroot q hq with hs | hs
  · rw [hnone] at hs
    cases hs
  · exact hs

/-- the course above the orphaned category is missing, and its delete is found in the run -/
theorem orphan_iff_orphaned :
    (after orphanedRun).store.lookup (Coll.doc uid .courses sampleCourse) = none ∧
      DeleteApplied sampleEnv orphanedRun (Coll.doc uid .courses sampleCourse) := by
  obtain ⟨hrun, hcat, hcourse⟩ := orphanedRun_facts
  obtain ⟨d, hd⟩ := Option.isSome_iff_exists.1 hcat
  have hiff := orphan_iff sampleEnv _ _ (run_init_after _ hrun) (.categories sampleCourse) sampleCategory d hd _
    List.mem_cons_self
  exact ⟨hcourse, hiff.1 hcourse⟩

end GradeKeep.Orphans
