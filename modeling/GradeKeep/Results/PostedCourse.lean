/-
What the posted object tells of the form on the add-course page.

The handler uses the typed category names as property names, next to `_courseName`. Names that are distinct and are
neither `_courseName` nor `__proto__` (`Clean`) each make a property of their own, and the form can be read off the
object (`decode`). Every other form loses something: of two rows of one name the earlier weight, by a row named
`_courseName` the course name, and by a row named `__proto__` that row.

Results:
- `clean_iff_plain`: the condition in terms of the entries;
- `decode_posted`: a clean form is read back from its object;
- `exists_same_post`: of a form that is not clean a text can be changed without any effect on the object;
- `posted_determines`: so among forms that are no longer, the object determines a reachable form exactly if it is clean;
- `equal_names_collide`: two forms with different weights that post the same object.
-/
import GradeKeep.Web.AddCourse

namespace GradeKeep.PostedCourse

open GradeKeep.JsObject GradeKeep.AddCourse

def names (p : Page) : List String := p.rows.map (·.name)

/-- the category names are distinct, and none is reserved -/
def Clean (p : Page) : Prop := (names p).Nodup ∧ "_courseName" ∉ names p ∧ "__proto__" ∉ names p

/-- the course name and the rows of a form, in no order -/
def content (p : Page) : String × Multiset (String × String) := (p.courseName, ↑(p.rows.map Row.entry))

theorem keys_entries (p : Page) : p.entries.map Prod.fst = "_courseName" :: names p := by
  simp [Page.entries, names, Row.entry, Function.comp_def]

theorem clean_iff_plain (p : Page) : Clean p ↔ Plain p.entries := by
  rw [Clean, Plain, keys_entries, List.nodup_cons, List.mem_cons, not_or]
  refine ⟨fun h => ?_, fun h => ?_⟩
  · obtain ⟨hnodup, hcourse, hproto⟩ := h
    exact ⟨⟨hcourse, hnodup⟩, by decide, hproto⟩
  · obtain ⟨⟨hcourse, hnodup⟩, -, hproto⟩ := h
    exact ⟨hnodup, hcourse, hproto⟩

/-! ## Clean forms -/

/-- reading a form off a posted object -/
def decode (data : Object String) : String × Multiset (String × String) :=
  ((data.lookup "_courseName").getD "",
    (data.entries.filter fun e => e.1 ≠ "_courseName").map fun e => (e.1, e.2))

theorem decode_posted {p : Page} (h : Clean p) : decode p.posted = content p := by
  have hplain := (clean_iff_plain p).1 h
  have hcourse : (fill p.entries).lookup "_courseName" = some p.courseName := lookup_fill hplain List.mem_cons_self
  have hrows : (p.rows.map Row.entry).filter (fun e => e.1 ≠ "_courseName") = p.rows.map Row.entry := by
    refine List.filter_eq_self.2 ?_
    intro e he
    obtain ⟨r, hr, rfl⟩ := List.mem_map.1 he
    exact decide_eq_true fun hr' => h.2.1 (hr' ▸ List.mem_map_of_mem hr)
  have hpairs : ((p.entries.map property).filter fun e => e.1 ≠ "_courseName").map (fun e => (e.1, e.2)) =
      p.rows.map Row.entry := by
    rw [List.filter_map, List.map_map]
    refine (List.map_id _).trans ?_
    rw [Page.entries, List.filter_cons_of_neg (by simp [property])]
    exact hrows
  rw [decode, posted_eq_fill, hcourse, entries_fill hplain, Multiset.filter_coe, Multiset.map_coe, hpairs]
  rfl

/-- another text -/
def other (text : String) : String := if text = "" then "x" else ""

theorem other_ne (text : String) : other text ≠ text := by
  unfold other
  split_ifs with h
  · rw [h]; decide
  · exact fun h' => h h'.symm

/-! ## Other forms -/

theorem exists_repeated {α β : Type} {f : α → β} {l : List α} (h : ¬(l.map f).Nodup) :
    ∃ pre a post, l = pre ++ a :: post ∧ f a ∈ post.map f := by
  induction l with
  | nil => exact absurd List.nodup_nil h
  | cons a l ih =>
    by_cases ha : f a ∈ l.map f
    · exact ⟨[], a, l, rfl, ha⟩
    · rw [List.map_cons, List.nodup_cons, not_and] at h
      obtain ⟨pre, b, post, rfl, hb⟩ := ih (h ha)
      exact ⟨a :: pre, b, post, rfl, hb⟩

/-- a row whose weight is not in the object -/
theorem exists_shadowed {p : Page} (h : ¬((names p).Nodup ∧ "__proto__" ∉ names p)) :
    ∃ pre r post, p.rows = pre ++ r :: post ∧ (r.name = "__proto__" ∨ r.name ∈ post.map (·.name)) := by
  by_cases hproto : "__proto__" ∈ names p
  · obtain ⟨r, hr, hname⟩ := List.mem_map.1 hproto
    obtain ⟨pre, post, hsplit⟩ := List.append_of_mem hr
    exact ⟨pre, r, post, hsplit, Or.inl hname⟩
  · obtain ⟨pre, r, post, hsplit, hr⟩ := exists_repeated fun hnodup => h ⟨hnodup, hproto⟩
    exact ⟨pre, r, post, hsplit, Or.inr hr⟩

/-- **What is lost.** Of a form that is not clean, the course name or a weight can be typed over without any effect on
the posted object. -/
theorem exists_same_post {p : Page} (h : ¬Clean p) : ∃ o, (step p o).rows.length = p.rows.length ∧
    content (step p o) ≠ content p ∧ (step p o).posted = p.posted := by
  by_cases hcourse : "_courseName" ∈ names p
  · refine ⟨.typeCourseName (other p.courseName), rfl, ?_, ?_⟩
    · intro he
      exact other_ne _ (congrArg Prod.fst he)
    · rw [posted_eq_fill, posted_eq_fill]
      have hkey : "_courseName" ∈ (p.rows.map Row.entry).map Prod.fst := by
        simpa [names, Row.entry, Function.comp_def] using hcourse
      show fill ([] ++ ("_courseName", other p.courseName) :: p.rows.map Row.entry) = fill ([] ++ _ :: _)
      exact fill_shadowed (Or.inr hkey) _ _
  · obtain ⟨pre, r, post, hsplit, hr⟩ := exists_shadowed fun hn => h ⟨hn.1, hcourse, hn.2⟩
    have hrows : (step p (.typeWeight pre.length (other r.weight))).rows =
        pre ++ { r with weight := other r.weight } :: post := by
      rw [step, rows_modifyRow, hsplit, List.modify_eq_take_drop]
      simp
    have hcourse' : (step p (.typeWeight pre.length (other r.weight))).courseName = p.courseName := by
      cases pre <;> rfl
    refine ⟨.typeWeight pre.length (other r.weight), ?_, ?_, ?_⟩
    · rw [hrows, hsplit]
      simp
    · intro he
      have hm := congrArg Prod.snd he
      simp only [content, hrows, hsplit, List.map_append, List.map_cons, ← Multiset.coe_add, ← Multiset.cons_coe,
        Multiset.add_cons, Multiset.cons_inj_left] at hm
      exact other_ne _ (congrArg Prod.snd hm)
    · rw [posted_eq_fill, posted_eq_fill, Page.entries, Page.entries, hrows, hcourse', hsplit]
      simp only [List.map_append, List.map_cons, ← List.cons_append]
      refine fill_shadowed (hr.imp_right fun hmem => ?_) _ _
      simpa [Row.entry, Function.comp_def] using hmem

/-- a form that posts the object of a clean one, and is no longer, has the same content -/
theorem content_eq_of_posted {p q : Page} (h : Clean p) (hlen : q.rows.length ≤ p.rows.length)
    (he : q.posted = p.posted) : content q = content p := by
  have hplain := (clean_iff_plain p).1 h
  rw [posted_eq_fill, posted_eq_fill] at he
  have hperm : q.entries.Perm p.entries := fill_perm hplain (by simpa [Page.entries] using hlen) he
  -- then q is clean too
  have hq : Clean q := by
    rw [clean_iff_plain, Plain, (hperm.map Prod.fst).nodup_iff, (hperm.map Prod.fst).mem_iff]
    exact hplain
  rw [← decode_posted h, ← decode_posted hq, posted_eq_fill, posted_eq_fill, he]

/-- **What the posted object determines.** A form that the page can reach is clean if and only if it posts another
object than every reachable form with at most as many rows that differs in the course name or in the multiset of rows.
And any two clean forms that differ post different objects, however many rows they have. -/
theorem posted_determines (ops : List Op) :
    (Clean (run ops) ↔ ∀ ops', (run ops').rows.length ≤ (run ops).rows.length →
      content (run ops') ≠ content (run ops) → (run ops').posted ≠ (run ops).posted) ∧
    ∀ ops', Clean (run ops) → Clean (run ops') → content (run ops') ≠ content (run ops) →
      (run ops').posted ≠ (run ops).posted := by
  refine ⟨⟨?_, ?_⟩, ?_⟩
  · intro h ops' hlen hne he
    exact hne (content_eq_of_posted h hlen he)
  · intro h
    by_contra hclean
    obtain ⟨o, hlen, hne, he⟩ := exists_same_post hclean
    rw [← run_concat] at hlen hne he
    exact h (ops ++ [o]) hlen.le hne he
  · intro ops' h h' hne he
    apply hne
    rw [← decode_posted h, ← decode_posted h', he]

/-- **Two rows of one name.** The weight of the first is not in the object. -/
theorem equal_names_collide :
    content (run [.typeName 0 "Labs", .typeWeight 0 "20", .add, .typeName 1 "Labs", .typeWeight 1 "30"]) ≠
      content (run [.typeName 0 "Labs", .typeWeight 0 "40", .add, .typeName 1 "Labs", .typeWeight 1 "30"]) ∧
    (run [.typeName 0 "Labs", .typeWeight 0 "20", .add, .typeName 1 "Labs", .typeWeight 1 "30"]).posted =
      (run [.typeName 0 "Labs", .typeWeight 0 "40", .add, .typeName 1 "Labs", .typeWeight 1 "30"]).posted := by
  decide +kernel

end GradeKeep.PostedCourse
