/-
What the server gets to see of a form on the add-course page.

The form travels as an object, as text and as an object again. Nothing is lost on this way that was not lost in filling
the first object; but the order of the rows can be. Names that are array indices come first, by number; the course name
and the other categories follow in the order of the form.

Results:
- `route_logs`: the members the route logs, and their order;
- `logged_as_typed_iff`: they are the form as it stands exactly if the form is clean and no category is named by an
  array index.
-/
import GradeKeep.Results.PostedCourse
import GradeKeep.Web.PostCourse

namespace GradeKeep.LoggedCourse

open GradeKeep.JsObject GradeKeep.JsonText GradeKeep.AddCourse GradeKeep.PostedCourse

theorem ordered_before (p : Page) :
    p.data.ordered.Pairwise fun x y => Before ("_courseName" :: names p) x.1 y.1 := by
  have hordered := Properties.ordered_pairwise p.entries
  rwa [keys_entries, ← data_eq] at hordered

/-- **What the route logs.** A body within the limit is answered; the lines are those of the posted object's members,
each once, array indices first and the other names in the order of the form. -/
theorem route_logs (p : Page) (limit : ℕ) (json : String → Option (Properties String)) (h : BodyParser limit json) :
    post json p.body =
      (if p.body.utf8ByteSize ≤ limit then some (lines p.data.ordered, "ok") else none) ∧
    (∀ key value, (key, value) ∈ p.data.ordered ↔ p.posted.lookup key = some value) ∧
    p.data.ordered.Pairwise fun x y => Before ("_courseName" :: names p) x.1 y.1 := by
  refine ⟨h.post_body p, ?_, ordered_before p⟩
  intro key value
  rw [p.data.ordered_perm.mem_iff, Properties.mem_members_iff, data_eq, Properties.get_fill, posted_eq_fill]

/-- two categories, the second one named by an array index -/
def indexedForm : Page :=
  run [.typeCourseName "CS", .typeName 0 "Labs", .typeWeight 0 "30", .add, .typeName 1 "2", .typeWeight 1 "70"]

/-- which is logged first -/
theorem route_logs_index :
    post (pageJson 102400) indexedForm.body =
      some (lines [("2", "70"), ("_courseName", "CS"), ("Labs", "30")], "ok") ∧
    (∀ key value, (key, value) ∈ indexedForm.data.ordered ↔ indexedForm.posted.lookup key = some value) ∧
    indexedForm.data.ordered.Pairwise fun x y => Before ("_courseName" :: names indexedForm) x.1 y.1 := by
  have hform : indexedForm.body.utf8ByteSize ≤ 102400 ∧
      indexedForm.data.ordered = [("2", "70"), ("_courseName", "CS"), ("Labs", "30")] := by
    decide +kernel
  obtain ⟨hsize, hordered⟩ := hform
  obtain ⟨hpost, hmembers, hbefore⟩ := route_logs indexedForm 102400 _ (bodyParser_pageJson 102400)
  rw [if_pos hsize, hordered] at hpost
  exact ⟨hpost, hmembers, hbefore⟩

/-- a form that is logged as it stands -/
theorem plain_of_ordered {p : Page} (h : p.data.ordered = p.entries) : Plain p.entries := by
  refine ⟨h ▸ p.data.nodup_ordered, ?_⟩
  intro hproto
  rw [← h, (p.data.ordered_perm.map Prod.fst).mem_iff, data_eq] at hproto
  exact ((Properties.mem_keys_fill p.entries "__proto__").1 hproto).2 rfl

theorem ordered_eq_iff (p : Page) :
    p.data.ordered = p.entries ↔ Clean p ∧ ∀ name ∈ names p, arrayIndex name = none := by
  have hcourse : arrayIndex "_courseName" = none := by decide +kernel
  refine ⟨fun h => ⟨(clean_iff_plain p).2 (plain_of_ordered h), ?_⟩, ?_⟩
  · intro name hname
    -- the course name is logged before it
    have hpair := ordered_before p
    rw [h, Page.entries, List.pairwise_cons] at hpair
    obtain ⟨r, hr, rfl⟩ := List.mem_map.1 hname
    have hbefore := hpair.1 r.entry (List.mem_map_of_mem hr)
    cases hindex : arrayIndex r.name with
    | none => rfl
    | some i => simp [Before, hcourse, Row.entry, hindex] at hbefore
  · rintro ⟨hclean, hnames⟩
    have hplain := (clean_iff_plain p).1 hclean
    rw [data_eq, Properties.ordered, Properties.members_fill hplain]
    refine arrange_eq_self ?_
    intro e he
    rcases List.mem_cons.1 he with rfl | he
    · exact hcourse
    · obtain ⟨r, hr, rfl⟩ := List.mem_map.1 he
      exact hnames r.name (List.mem_map_of_mem hr)

/-- **Logged as typed.** A form within the limit is logged as it stands, the course name and then the rows, exactly if
its category names are distinct, none is reserved and none is an array index. -/
theorem logged_as_typed_iff (p : Page) (limit : ℕ) (json : String → Option (Properties String))
    (h : BodyParser limit json) (hsize : p.body.utf8ByteSize ≤ limit) :
    post json p.body = some (lines p.entries, "ok") ↔ Clean p ∧ ∀ name ∈ names p, arrayIndex name = none := by
  rw [h.post_body, if_pos hsize, ← ordered_eq_iff]
  refine ⟨fun he => ?_, fun he => by rw [he]⟩
  obtain ⟨hlines, -⟩ := Prod.mk.inj (Option.some.inj he)
  exact Line.data.inj (List.cons.inj hlines).1

theorem logged_as_typed_iff_index :
    (post (pageJson 102400) indexedForm.body = some (lines indexedForm.entries, "ok") ↔
      Clean indexedForm ∧ ∀ name ∈ names indexedForm, arrayIndex name = none) ∧
    ¬∀ name ∈ names indexedForm, arrayIndex name = none :=
  ⟨logged_as_typed_iff indexedForm 102400 _ (bodyParser_pageJson 102400) (by decide +kernel), by decide +kernel⟩

end GradeKeep.LoggedCourse
