/-
The Delete button of a swiped row. `deleteAction(at:)` captures the index path; its handler reads the id out of the
array when it runs. Every snapshot that arrives in between has replaced the array.

Results:
- `deliveries_ids`: after any snapshots the array shows the last one, row by row;
- `swipe_deletes_shown_iff`: the handler deletes the document its row showed exactly when the last snapshot in between,
  if there was one, still has that document at that index;
- `swipe_deletes_other`: a document deleted by another client in between makes the handler delete the next one.
-/
import GradeKeep.App.System

namespace GradeKeep.SwipeAction

open GradeKeep.SwiftDouble GradeKeep.Firestore GradeKeep.Schema GradeKeep.Listeners GradeKeep.System

/-- the view after the snapshots have been delivered to it, in order -/
def deliveries (E : Env) (v : View) (snapshots : List Snapshot) : Option View :=
  snapshots.foldlM (fun v documents => (View.deliver E { v with pending := [documents] }).map (·.1)) v

/-- a category or assignment callback that does not trap shows the documents, in their order -/
theorem callback_ids {E : Env} {v : View} {documents : Snapshot} {rows : Rows} {writes : List Write}
    (hc : v.coll ≠ .courses) (h : v.callback E documents = some (rows, writes)) : rows.ids = documents.map (·.1) := by
  unfold View.callback at h
  cases hcoll : v.coll with
  | courses => exact absurd hcoll hc
  | categories k =>
    simp only [hcoll, Option.bind_eq_bind, Option.bind_eq_some_iff, Option.some.injEq, Prod.mk.injEq] at h
    obtain ⟨⟨l, cgrade⟩, hl, path, -, p, -, rfl, -⟩ := h
    simp only [categoriesListener, Option.bind_eq_bind, Option.bind_eq_some_iff, Option.some.injEq,
      Prod.mk.injEq] at hl
    obtain ⟨⟨l', x, y⟩, hacc, rfl, -⟩ := hl
    simp [Rows.ids, accumulate_rows hacc, categoryOf]
  | assignments k j =>
    simp only [hcoll, Option.bind_eq_bind, Option.bind_eq_some_iff, Option.some.injEq, Prod.mk.injEq] at h
    obtain ⟨⟨l, catgrade⟩, hl, path, -, p, -, rfl, -⟩ := h
    simp only [assignmentsListener, Option.bind_eq_bind, Option.bind_eq_some_iff, Option.some.injEq,
      Prod.mk.injEq] at hl
    obtain ⟨⟨l', x, y⟩, hacc, rfl, -⟩ := hl
    simp [Rows.ids, accumulate_rows hacc, assignmentOf]

theorem deliver_ids {E : Env} {v v' : View} {documents : Snapshot} (hc : v.coll ≠ .courses)
    (h : (View.deliver E { v with pending := [documents] }).map (·.1) = some v') :
    v'.coll = v.coll ∧ v'.rows.ids = documents.map (·.1) := by
  obtain ⟨⟨w, writes⟩, hd, rfl⟩ := Option.map_eq_some_iff.1 h
  simp only [View.deliver, Option.bind_eq_bind, Option.bind_eq_some_iff, Option.some.injEq, Prod.mk.injEq] at hd
  obtain ⟨⟨rows, writes'⟩, hcb, rfl, -⟩ := hd
  exact ⟨rfl, callback_ids hc hcb⟩

/-- the array shows the last snapshot, or what it showed before -/
theorem deliveries_ids {E : Env} {v v' : View} {snapshots : List Snapshot} (hc : v.coll ≠ .courses)
    (h : deliveries E v snapshots = some v') :
    v'.coll = v.coll ∧ v'.rows.ids = (snapshots.getLast?.map fun l => l.map (·.1)).getD v.rows.ids := by
  unfold deliveries at h
  induction snapshots generalizing v with
  | nil =>
    simp only [List.foldlM_nil, Option.pure_def, Option.some.injEq] at h
    subst h
    exact ⟨rfl, rfl⟩
  | cons documents snapshots ih =>
    rw [List.foldlM_cons] at h
    obtain ⟨t, ht, h⟩ := Option.bind_eq_some_iff.1 h
    obtain ⟨hcoll, hids⟩ := deliver_ids hc ht
    obtain ⟨hcoll', hids'⟩ := ih (by rw [hcoll]; exact hc) h
    refine ⟨hcoll'.trans hcoll, ?_⟩
    rw [hids', hids, List.getLast?_cons]
    cases snapshots.getLast? <;> rfl

/-- **What a swipe action deletes.** A category or assignment view shows document id in row i when the action for that
row is built; any snapshots are then delivered; then Delete is tapped. The handler is in bounds and requests the
deletion of id if and only if the last of these snapshots (if any) has id at index i. -/
theorem swipe_deletes_shown_iff (E : Env) (v v' : View) (hc : v.coll ≠ .courses) (i : ℕ) (id : Segment)
    (hrow : v.rows.ids[i]? = some id) (snapshots : List Snapshot) (h : deliveries E v snapshots = some v') :
    v'.delete E i = some (.delete (v.coll.doc E.uid id)) ↔
      ∀ l, snapshots.getLast? = some l → (l.map (·.1))[i]? = some id := by
  obtain ⟨hcoll, hids⟩ := deliveries_ids hc h
  have hdel : v'.delete E i = some (.delete (v.coll.doc E.uid id)) ↔ v'.rows.ids[i]? = some id := by
    rw [View.delete_eq, hcoll, Option.map_eq_some_iff]
    refine ⟨?_, ?_⟩
    · rintro ⟨id', hid', he⟩
      rw [Write.delete.injEq, Coll.doc_inj] at he
      rw [hid', he.2]
    · intro hid
      exact ⟨id, hid, rfl⟩
  rw [hdel, hids]
  cases hlast : snapshots.getLast? with
  | none => simp [hrow]
  | some l => simp

/-! ## A category deleted in between -/

def labs : Segment × Doc :=
  (⟨['l'], by decide⟩, Doc.ofFields [("catname", .string "Labs"), ("weight", .double (.num 1)),
    ("catgrade", .double (.num 0))])

def tests : Segment × Doc :=
  (⟨['t'], by decide⟩, Doc.ofFields [("catname", .string "Tests"), ("weight", .double (.num 1)),
    ("catgrade", .double (.num 0))])

/-- a view of two categories -/
def twoCategories : View :=
  ⟨0, .categories sampleCourse, .categories [categoryOf labs, categoryOf tests], [], some [labs, tests]⟩

theorem swipe_deletes_shown_iff_sample :
    ∃ v', deliveries sampleEnv twoCategories [[tests], [labs, tests]] = some v' ∧
      (v'.delete sampleEnv 0 = some (.delete (Coll.doc uid (.categories sampleCourse) labs.1)) ↔
        ∀ l, [[tests], [labs, tests]].getLast? = some l → (l.map (·.1))[0]? = some labs.1) := by
  have hrun : (deliveries sampleEnv twoCategories [[tests], [labs, tests]]).isSome := by decide +kernel
  obtain ⟨v', hv'⟩ := Option.isSome_iff_exists.1 hrun
  exact ⟨v', hv', swipe_deletes_shown_iff sampleEnv twoCategories v' (by decide) 0 labs.1 rfl _ hv'⟩

/-- Labs is swiped, another client deletes it, Delete is tapped: the request is for Tests -/
theorem swipe_deletes_other :
    ¬∀ (E : Env) (v v' : View) (i : ℕ) (id : Segment) (snapshots : List Snapshot), v.coll ≠ .courses →
      v.rows.ids[i]? = some id → deliveries E v snapshots = some v' →
      v'.delete E i = some (.delete (v.coll.doc E.uid id)) := by
  intro h
  have hrun : (deliveries sampleEnv twoCategories [[tests]]).isSome := by decide +kernel
  obtain ⟨v', hv'⟩ := Option.isSome_iff_exists.1 hrun
  have hdel := h sampleEnv twoCategories v' 0 labs.1 [[tests]] (by decide) rfl hv'
  obtain ⟨hcoll, hids⟩ := deliveries_ids (by decide) hv'
  rw [View.delete_eq, hids] at hdel
  simp only [List.getLast?_singleton, Option.map_some, Option.getD_some, List.map_cons, List.map_nil,
    List.getElem?_cons_zero, Option.some.injEq, Write.delete.injEq, hcoll, Coll.doc_inj, true_and] at hdel
  exact absurd hdel (by decide)

end GradeKeep.SwipeAction
