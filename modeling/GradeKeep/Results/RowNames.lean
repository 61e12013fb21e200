/-
The name attributes of the category inputs, under any clicks on Add Category and on the Delete buttons.

The counter always equals the number of appended rows, since Add counts up and every Delete counts down. So an appended
row is named by the number of rows there were when it was appended (`Inv`), and a new row gets a name that is still in
use exactly if some row that is left was appended to a table of the present length.

Results:
- `run_inv`: the invariant;
- `distinct_step`: from distinct names, an event keeps the names distinct exactly if it is not such an Add;
- `names_distinct_iff`: hence the names are distinct at all times exactly if no such Add happens;
- `delete_then_add`: a short sequence of clicks that ends with two inputs of one name;
- `fresh_of_delete_last`: as long as only the last row is ever deleted, no such Add happens.
-/
import Mathlib
import GradeKeep.Web.AddCourse

namespace GradeKeep.RowNames

open GradeKeep.AddCourse

/-- the names of the name inputs are pairwise distinct, and so are those of the weight inputs -/
def NamesDistinct (p : Page) : Prop := (p.rows.map (·.nameAttr)).Nodup ∧ (p.rows.map (·.weightAttr)).Nodup

instance (p : Page) : Decidable (NamesDistinct p) := inferInstanceAs (Decidable (_ ∧ _))

/-- no row that is left was appended when the table had as many appended rows as now -/
def Fresh (p : Page) : Prop := ∀ r ∈ p.added, r.addedAt ≠ p.added.length

/-- the counts at which the rows that are left were appended -/
def labels (p : Page) : List ℕ := p.added.map (·.addedAt)

/-- what a row was given when it was appended -/
def tags (r : Row) : String × String × ℕ := (r.nameAttr, r.weightAttr, r.addedAt)

def numbered (base : String) (n : ℕ) : String := base ++ toString (n : ℤ)

/-- the tags of a table whose rows were appended at these counts -/
def tagsOf (ns : List ℕ) : List (String × String × ℕ) :=
  ("categoryName", "categoryWeight", 0) :: ns.map fun n => (numbered "categoryName" n, numbered "categoryWeight" n, n)

/-- the counter counts the appended rows, and each is named by the count at which it was appended -/
structure Inv (p : Page) : Prop where
  counter : p.counter = (labels p).length
  tags : p.rows.map tags = tagsOf (labels p)

/-! ## One event -/

theorem labels_add (p : Page) : labels (step p .add) = labels p ++ [(labels p).length] := by
  simp [labels, step, Page.newRow]

theorem labels_delete (p : Page) (i : ℕ) : labels (step p (.delete i)) = (labels p).eraseIdx i := by
  simp only [labels, step]
  split_ifs with h
  · rw [List.eraseIdx_map]
  · rw [List.eraseIdx_of_length_le]
    simpa using h

/-- typing is none of these events -/
theorem type_frame (p : Page) (o : Op) (hadd : o ≠ .add) (hdelete : ∀ i, o ≠ .delete i) :
    labels (step p o) = labels p ∧ (step p o).rows.map tags = p.rows.map tags ∧ (step p o).counter = p.counter := by
  cases o with
  | add => exact absurd rfl hadd
  | delete i => exact absurd rfl (hdelete i)
  | typeCourseName text => exact ⟨rfl, rfl, rfl⟩
  | typeName i text =>
    have hlabels := map_modifyRow (f := fun r => { r with name := text }) (g := (·.addedAt)) (fun _ => rfl) p i
    have htags := map_modifyRow (f := fun r => { r with name := text }) (g := tags) (fun _ => rfl) p i
    exact ⟨hlabels.2.1, htags.1, htags.2.2⟩
  | typeWeight i text =>
    have hlabels := map_modifyRow (f := fun r => { r with weight := text }) (g := (·.addedAt)) (fun _ => rfl) p i
    have htags := map_modifyRow (f := fun r => { r with weight := text }) (g := tags) (fun _ => rfl) p i
    exact ⟨hlabels.2.1, htags.1, htags.2.2⟩

theorem step_inv (p : Page) (o : Op) (h : Inv p) : Inv (step p o) := by
  obtain ⟨hc, ht⟩ := h
  cases o with
  | add =>
    have hlen : (labels p).length = p.added.length := List.length_map _
    refine ⟨?_, ?_⟩
    · rw [labels_add]
      simp [step, hc]
    · rw [labels_add, tagsOf, List.map_append, ← List.cons_append, ← tagsOf, ← ht]
      simp [step, Page.rows, Page.newRow, tags, numbered, hc, hlen]
  | delete i =>
    rw [Page.rows, List.map_cons, tagsOf, List.cons.injEq] at ht
    refine ⟨?_, ?_⟩
    · rw [labels_delete, step]
      split_ifs with hi
      · have hi' : i < (labels p).length := by simpa [labels] using hi
        rw [List.length_eraseIdx_of_lt hi']
        simp only [hc]
        omega
      · rw [List.eraseIdx_of_length_le (by simpa [labels] using hi)]
        exact hc
    · rw [labels_delete, tagsOf, ← List.eraseIdx_map, ← ht.2, ← ht.1, step]
      split_ifs with hi
      · rw [List.eraseIdx_map]
        rfl
      · rw [List.eraseIdx_of_length_le (by simpa using hi)]
        rfl
  | typeCourseName text => exact ⟨hc, ht⟩
  | typeName i text =>
    obtain ⟨hl, htags, hcount⟩ := type_frame p (.typeName i text) (by simp) (by simp)
    exact ⟨by rw [hl, hcount, hc], by rw [hl, htags, ht]⟩
  | typeWeight i text =>
    obtain ⟨hl, htags, hcount⟩ := type_frame p (.typeWeight i text) (by simp) (by simp)
    exact ⟨by rw [hl, hcount, hc], by rw [hl, htags, ht]⟩

theorem run_inv (ops : List Op) : Inv (run ops) := run_invariant ⟨rfl, rfl⟩ step_inv ops

/-! ## Distinct names -/

theorem numbered_injective (base : String) : Function.Injective (numbered base) := by
  intro m n h
  have hrepr : toString (m : ℤ) = toString (n : ℤ) := (String.append_right_inj base).1 h
  exact Int.ofNat.inj (Int.repr_injective hrepr)

theorem base_ne_numbered (base : String) (n : ℕ) : base ≠ numbered base n := by
  intro h
  have hempty : "" = n.repr := (String.append_right_inj base).1 (String.append_empty.trans h)
  exact Nat.repr_ne_empty hempty.symm

theorem nodup_names (base : String) (ns : List ℕ) : (base :: ns.map (numbered base)).Nodup ↔ ns.Nodup := by
  rw [List.nodup_cons, List.nodup_map_iff (numbered_injective base), and_iff_right_iff_imp]
  intro _ hmem
  obtain ⟨n, -, hn⟩ := List.mem_map.1 hmem
  exact base_ne_numbered base n hn.symm

/-- the names are distinct exactly if no two rows that are left were appended at the same count -/
theorem distinct_iff {p : Page} (h : Inv p) : NamesDistinct p ↔ (labels p).Nodup := by
  have hnames := congrArg (List.map (·.1)) h.tags
  have hweights := congrArg (List.map (·.2.1)) h.tags
  simp only [List.map_map, tagsOf, List.map_cons] at hnames hweights
  have hnames' : p.rows.map (·.nameAttr) = "categoryName" :: (labels p).map (numbered "categoryName") := hnames
  have hweights' : p.rows.map (·.weightAttr) = "categoryWeight" :: (labels p).map (numbered "categoryWeight") :=
    hweights
  rw [NamesDistinct, hnames', hweights', nodup_names, nodup_names, and_self]

theorem fresh_iff {p : Page} : Fresh p ↔ (labels p).length ∉ labels p := by
  have hlen : (labels p).length = p.added.length := List.length_map _
  rw [hlen, labels, List.mem_map]
  exact ⟨fun h ⟨r, hr, he⟩ => h r hr he, fun h r hr he => h ⟨r, hr, he⟩⟩

/-- **One event.** From distinct names, only an Add at a count that a row left in the table has can repeat a name. -/
theorem distinct_step {p : Page} (h : Inv p) (hd : NamesDistinct p) (o : Op) :
    NamesDistinct (step p o) ↔ (o = .add → Fresh p) := by
  rw [distinct_iff h] at hd
  rw [distinct_iff (step_inv p o h)]
  by_cases hadd : o = .add
  · subst hadd
    have hnodup : (labels p ++ [(labels p).length]).Nodup ↔ (labels p).length ∉ labels p := by
      rw [← List.concat_eq_append, List.nodup_concat]
      exact and_iff_left hd
    rw [labels_add, hnodup, fresh_iff]
    simp
  · refine iff_of_true ?_ fun he => absurd he hadd
    by_cases hdelete : ∃ i, o = .delete i
    · obtain ⟨i, rfl⟩ := hdelete
      rw [labels_delete]
      exact hd.sublist (List.eraseIdx_sublist _ _)
    · rwa [(type_frame p o hadd fun i hi => hdelete ⟨i, hi⟩).1]

/-! ## All events -/

/-- **When the names stay distinct.** In every sequence of events on the page: the names of the name inputs, and those
of the weight inputs, are pairwise distinct at all times if and only if at no click on Add Category there is a row left
that was appended when the table had as many appended rows as at this click. -/
theorem names_distinct_iff (ops : List Op) :
    (∀ a, a <+: ops → NamesDistinct (run a)) ↔ ∀ a, a ++ [.add] <+: ops → Fresh (run a) := by
  induction ops using List.reverseRecOn with
  | nil =>
    refine ⟨fun _ a ha => ?_, fun _ a ha => ?_⟩
    · exact absurd (List.prefix_nil.1 ha) (by simp)
    · rw [List.prefix_nil.1 ha]
      decide
  | append_singleton ops o ih =>
    have hstep : NamesDistinct (run ops) → (NamesDistinct (run (ops ++ [o])) ↔ (o = .add → Fresh (run ops))) := by
      intro hd
      rw [run_concat]
      exact distinct_step (run_inv ops) hd o
    refine ⟨fun h a ha => ?_, fun h a ha => ?_⟩
    · have hbefore : ∀ b, b <+: ops → NamesDistinct (run b) := fun b hb => h b (hb.trans (List.prefix_append ops [o]))
      rcases List.prefix_concat_iff.1 ha with ha | ha
      · -- this click is the last event
        obtain ⟨rfl, ho⟩ := List.append_inj' ha rfl
        exact (hstep (hbefore a (List.prefix_refl a))).1 (h _ (List.prefix_refl _)) (List.singleton_inj.1 ho).symm
      · exact ih.1 hbefore a ha
    · have hbefore := ih.2 fun b hb => h b (hb.trans (List.prefix_append ops [o]))
      rcases List.prefix_concat_iff.1 ha with rfl | ha
      · refine (hstep (hbefore ops (List.prefix_refl ops))).2 ?_
        intro ho
        subst ho
        exact h ops (List.prefix_refl _)
      · exact hbefore a ha

/-- **Two inputs of one name.** Add, Add, Delete the first of the two, Add: both rows are named by 1. -/
theorem delete_then_add : ¬NamesDistinct (run [.add, .add, .delete 0, .add]) := by
  decide +kernel

/-- deleting only ever the last row never gets there -/
theorem fresh_of_delete_last (ops : List Op) (h : ∀ a i, a ++ [.delete i] <+: ops → i + 1 = (run a).added.length) :
    labels (run ops) = List.range (labels (run ops)).length ∧ Fresh (run ops) := by
  have key : labels (run ops) = List.range (labels (run ops)).length := by
    induction ops using List.reverseRecOn with
    | nil => rfl
    | append_singleton ops o ih =>
      have ih' := ih fun a i ha => h a i (ha.trans (List.prefix_append ops [o]))
      rw [run_concat]
      by_cases hadd : o = .add
      · rw [hadd, labels_add, List.length_append, List.length_singleton, List.range_succ, ← ih']
      · by_cases hdelete : ∃ i, o = .delete i
        · obtain ⟨i, rfl⟩ := hdelete
          have hlast := h ops i (List.prefix_refl _)
          have hlen : (labels (run ops)).length = i + 1 := by rw [hlast]; exact List.length_map _
          have herase : (List.range (i + 1)).eraseIdx i = List.range i := by
            rw [List.range_succ, List.eraseIdx_append_of_length_le (by simp)]
            simp
          rw [hlen] at ih'
          rw [labels_delete, ih', herase, List.length_range]
        · rw [(type_frame _ o hadd fun i hi => hdelete ⟨i, hi⟩).1]
          exact ih'
  refine ⟨key, fresh_iff.2 ?_⟩
  rw [key]
  simp

end GradeKeep.RowNames
