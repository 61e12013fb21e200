/-
Store typing and no resurrection, over every interleaving of any number of clients.

Seven places write documents, some of them only part of one, and an update or an edit may reach the server after its
document was deleted. Every stored document still has the fields its listener casts, an id that was deleted never
comes back, and no snapshot makes a listener trap.

Results:
- `deleted_of_gone`: a document that was stored and is missing later was deleted;
- `typed_no_resurrection`: the three together, for every reachable state.
-/
import GradeKeep.Results.DirectRuns

namespace GradeKeep.StoreTyping

open GradeKeep.Firestore GradeKeep.Schema GradeKeep.Listeners GradeKeep.System GradeKeep.WellFormed
open GradeKeep.Invariant GradeKeep.DirectRuns

/-- a document that was stored and is gone was deleted -/
theorem deleted_of_gone {E : Env} {s s' : St} {ops : List Op} (h : Inv E s) (hr : run E s ops = some s') {p : DocPath}
    (hp : (s.store.lookup p).isSome) (hgone : s'.store.lookup p = none) : p ∈ s'.deleted := by
  have hb : Born s' p := (h.run (fun t t' _ ht he hb => he.born ht p hb) (Or.inl hp) hr).2
  rcases hb with hb | hb
  · rw [hgone] at hb; cases hb
  · exact hb

/-- **Typed documents, no resurrection, no trap.** In every reachable state each stored document lies in one of the
three kinds of collection and has the type of its collection; a document stored now and missing at some later point has
an id that no document carries from then on; and the listener of every view accepts every snapshot queued for it, and
the current content of its collection. -/
theorem typed_no_resurrection (E : Env) (s : St) (h : Reachable E s) :
    (∀ p d, s.store.lookup p = some d → ∃ c id, p = c.doc E.uid id ∧ HasType c d) ∧
    (∀ ops s' ops' s'' p, run E s ops = some s' → run E s' ops' = some s'' → (s.store.lookup p).isSome →
      s'.store.lookup p = none → ∀ q, (s''.store.lookup q).isSome → q.id ≠ p.id) ∧
    (∀ v ∈ s.views, ∀ documents, documents ∈ v.pending ∨ documents = content E s.store v.coll →
      (v.callback E documents).isSome) := by
  have hinv := reachable_inv h
  refine ⟨?_, ?_, ?_⟩
  · intro p d hp
    obtain ⟨c, id, he, -, hok⟩ := hinv.store_ok p d hp
    exact ⟨c, id, he, hok.hasType⟩
  · intro ops s' ops' s'' p hr hr' hp hgone q hq
    have hdel := deleted_of_gone hinv hr hp hgone
    obtain ⟨hinv'', hdel''⟩ := (run_inv hinv hr).run (fun t t' _ _ he hd => (he.mem_deleted p).2 (Or.inl hd)) hdel hr'
    exact hinv''.id_ne_of_deleted hdel'' hq
  · intro v hv documents hd
    have hok : SnapshotOk E (Born s) v.coll documents := by
      rcases hd with hd | rfl
      · exact (hinv.views_ok v hv).pending documents hd
      · exact hinv.store_ok.content (fun p hp => Or.inl hp) v.coll
    rw [callback_eq fun e he => (hok e he).2.hasType]
    rfl

/-- client 0 deletes the category while client 1's edit, grades and new assignment for it are on their way -/
def deleteOps : List Op := [.delete 1 0, .apply 0 [1, 4]]

/-- these arrive; client 1 edits the category again, and both compute a grade for it once more -/
def lateOps : List Op :=
  [.type 3 (.category .catname "Lab"), .press 3 undrawn₁, .apply 1 [], .apply 1 [], .apply 1 [],
   .apply 1 [2, 5], .deliver 2, .deliver 5, .apply 0 [], .apply 1 [], .apply 1 []]

/-- the category is gone for good, the documents around it stay -/
theorem typed_no_resurrection_late :
    (after (pressedRun ++ (deleteOps ++ lateOps))).flight.length = 0 ∧
    (docs (after (pressedRun ++ (deleteOps ++ lateOps))).store
      (Coll.path uid (.assignments sampleCourse sampleCategory))).length = 2 ∧
    ∀ q, ((after (pressedRun ++ (deleteOps ++ lateOps))).store.lookup q).isSome → q.id ≠ sampleCategory := by
  have hrun : (run sampleEnv init pressedRun).isSome ∧ (run sampleEnv init (pressedRun ++ deleteOps)).isSome ∧
      (run sampleEnv init (pressedRun ++ (deleteOps ++ lateOps))).isSome ∧
      ((after pressedRun).store.lookup (Coll.doc uid (.categories sampleCourse) sampleCategory)).isSome ∧
      (after (pressedRun ++ deleteOps)).store.lookup (Coll.doc uid (.categories sampleCourse) sampleCategory) = none ∧
      (after (pressedRun ++ (deleteOps ++ lateOps))).flight.length = 0 ∧
      (docs (after (pressedRun ++ (deleteOps ++ lateOps))).store
        (Coll.path uid (.assignments sampleCourse sampleCategory))).length = 2 := by
    simp only [after_direct, run_init_direct]
    decide +kernel
  obtain ⟨h1, h2, h3, hstored, hgone, hflight, hleft⟩ := hrun
  have hlate : run sampleEnv (after (pressedRun ++ deleteOps)) lateOps =
      some (after (pressedRun ++ (deleteOps ++ lateOps))) := by
    rw [← List.append_assoc] at h3 ⊢
    exact run_after _ _ h3
  exact ⟨hflight, hleft, (typed_no_resurrection sampleEnv (after pressedRun) (reachable_after _ h1)).2.1 deleteOps _
    lateOps _ (Coll.doc uid (.categories sampleCourse) sampleCategory) (run_after _ _ h2) hlate hstored hgone⟩

end GradeKeep.StoreTyping
