/-
What an enabled Confirm button guarantees. `editDidBegin` looks at the texts only for being empty and, in mode edit, for
differing from the holders; `confirmButtonPressed` parses them. A text that is no floating-point literal is defaulted
to 0 in the category form and traps in the assignment form, where the same value is defaulted and then force-unwrapped.

Results:
- `catConfirms_iff`, `assConfirms_iff`: Confirm writes the numbers the texts denote exactly when the texts parse;
- `confirms_iff_parses`: so it is in every enabled state the two event loops reach;
- `enabled_form_fails`: both forms reach an enabled state in which Confirm does otherwise.
-/
import GradeKeep.App.Forms

namespace GradeKeep.FormGuard

open GradeKeep.SwiftDouble GradeKeep.Firestore GradeKeep.Schema GradeKeep.Forms

/-- the path a form of collection c gets from its segue -/
def target (u : Segment) (c : Coll) (id : Segment) : Mode → String
  | .edit => c.ref u ++ id.text
  | _ => c.ref u

/-- the field holds exactly the number the text denotes -/
def HoldsNumber (data : Doc) (key text : String) : Prop := data key = (Double.ofText text).map Value.double

/-- Confirm does not trap, and the weight it writes is the number of the text -/
def CatConfirms (f : NewCat) (ref : String) : Prop :=
  ∃ r, f.confirmButtonPressed ref = some [r] ∧ HoldsNumber r.data Cat.weight.rawValue (f.text .weight)

/-- Confirm does not trap, and the credit and the total credit it writes are the numbers of the texts -/
def AssConfirms (f : NewAss) (ref : String) : Prop :=
  ∃ r, f.confirmButtonPressed ref = some [r] ∧ HoldsNumber r.data Ass.credit.rawValue (f.text .credit) ∧
    HoldsNumber r.data Ass.totalcredit.rawValue (f.text .totalcredit)

/-- the text is a floating-point literal -/
def Parses (text : String) : Prop := (Double.ofText text).isSome = true

instance (text : String) : Decidable (Parses text) := inferInstanceAs (Decidable (_ = true))

/-! ## Confirm -/

theorem cat_confirm (f : NewCat) (u k j : Segment) {mode : Mode} (hmode : f.mode = mode) (hm : mode ≠ .none) :
    ∃ r, f.confirmButtonPressed (target u (.categories k) j mode) = some [r] ∧
      r.data Cat.weight.rawValue = some (.double (f.catweight.getD (.num 0))) := by
  cases mode with
  | new =>
    refine ⟨_, NewCat.confirm_new hmode (Coll.collection_ref u _), ?_⟩
    simp [Request.data, NewCat.newCategory, Cat.rawValue]
  | edit =>
    refine ⟨_, NewCat.confirm_edit hmode (Coll.document_ref_append u _ j), ?_⟩
    simp [Request.data, NewCat.editedCategory, Cat.rawValue]
  | none => exact absurd rfl hm

/-- the category form never traps; it writes the number of the text exactly when there is one -/
theorem catConfirms_iff (f : NewCat) (u k j : Segment) {mode : Mode} (hmode : f.mode = mode) (hm : mode ≠ .none) :
    CatConfirms f (target u (.categories k) j mode) ↔ Parses (f.text .weight) := by
  obtain ⟨r, hr, hw⟩ := cat_confirm f u k j hmode hm
  have hnum : HoldsNumber r.data Cat.weight.rawValue (f.text .weight) ↔ Parses (f.text .weight) := by
    unfold HoldsNumber Parses
    rw [hw, NewCat.catweight]
    cases Double.ofText (f.text .weight) <;> simp
  rw [← hnum]
  refine ⟨?_, fun h => ⟨r, hr, h⟩⟩
  rintro ⟨r', hr', h⟩
  rw [hr, Option.some.injEq, List.cons.injEq] at hr'
  rwa [hr'.1]

theorem ass_confirm (f : NewAss) (u k j id : Segment) {mode : Mode} (hmode : f.mode = mode) (hm : mode ≠ .none)
    {data : Doc} (hdata : f.assignment = some data) :
    ∃ r, f.confirmButtonPressed (target u (.assignments k j) id mode) = some [r] ∧ r.data = data := by
  cases mode with
  | new =>
    have hr := NewAss.confirm_new hmode (Coll.collection_ref u (.assignments k j))
    rw [hdata, Option.map_some] at hr
    exact ⟨_, hr, rfl⟩
  | edit =>
    have hr := NewAss.confirm_edit hmode (Coll.document_ref_append u (.assignments k j) id)
    rw [hdata, Option.map_some] at hr
    exact ⟨_, hr, rfl⟩
  | none => exact absurd rfl hm

/-- the assignment form traps unless both numbers parse, and then it writes them -/
theorem assConfirms_iff (f : NewAss) (u k j id : Segment) {mode : Mode} (hmode : f.mode = mode) (hm : mode ≠ .none) :
    AssConfirms f (target u (.assignments k j) id mode) ↔ Parses (f.text .credit) ∧ Parses (f.text .totalcredit) := by
  refine ⟨?_, ?_⟩
  · rintro ⟨r, hr, -, -⟩
    apply (NewAss.assignment_isSome_iff f).1
    rw [NewAss.confirm_data hr]
    rfl
  · intro hparse
    obtain ⟨data, hdata⟩ := Option.isSome_iff_exists.1 ((NewAss.assignment_isSome_iff f).2 hparse)
    obtain ⟨r, hr, rfl⟩ := ass_confirm f u k j id hmode hm hdata
    obtain ⟨c, t, hc, ht, hfields⟩ := NewAss.assignment_eq hdata
    refine ⟨r, hr, ?_, ?_⟩
    · rw [HoldsNumber, hfields, assignmentFields_credit]
      exact (congrArg (Option.map Value.double) hc).symm
    · rw [HoldsNumber, hfields, assignmentFields_totalcredit]
      exact (congrArg (Option.map Value.double) ht).symm

/-! ## The event loops -/

/-- **What an enabled form confirms.** Open the category or the assignment form in mode new or edit, with any holders,
and change its texts in any way. Whenever the button is then enabled, Confirm succeeds and writes exactly the numbers
the texts denote if and only if each numeric text is a floating-point literal. -/
theorem confirms_iff_parses (u k j id : Segment) (mode : Mode) (hm : mode ≠ .none) :
    (∀ (holder : CatField → String) (changes : List (CatField × String)),
      ((EditForm.load mode holder).run changes).isEnabled = true →
      (CatConfirms ((EditForm.load mode holder).run changes) (target u (.categories k) j mode) ↔
        Parses (((EditForm.load mode holder).run changes).text .weight))) ∧
    (∀ (holder : AssField → String) (changes : List (AssField × String)),
      ((EditForm.load mode holder).run changes).isEnabled = true →
      (AssConfirms ((EditForm.load mode holder).run changes) (target u (.assignments k j) id mode) ↔
        Parses (((EditForm.load mode holder).run changes).text .credit) ∧
        Parses (((EditForm.load mode holder).run changes).text .totalcredit))) := by
  refine ⟨?_, ?_⟩
  · intro holder changes _
    exact catConfirms_iff _ u k j (EditForm.run_loaded mode holder hm changes).1 hm
  · intro holder changes _
    exact assConfirms_iff _ u k j id (EditForm.run_loaded mode holder hm changes).1 hm

/-- another weight, and then another name, typed into a category's form -/
def reweighed : NewCat :=
  (EditForm.load .edit fun | .catname => "Labs" | .weight => "1.0").run [(.weight, "2.5"), (.catname, "Lab")]

/-- a new assignment whose total credit is no literal -/
def mistyped : NewAss :=
  (EditForm.load .new fun _ => "").run [(.assname, "L1"), (.credit, "1"), (.totalcredit, "2,5")]

/-- both buttons are enabled; the first form confirms, the second does not -/
theorem confirms_iff_parses_typed :
    reweighed.isEnabled = true ∧ mistyped.isEnabled = true ∧
    CatConfirms reweighed (target uid (.categories uid) uid .edit) ∧
    ¬AssConfirms mistyped (target uid (.assignments uid uid) uid .new) := by
  have htexts : reweighed.isEnabled = true ∧ mistyped.isEnabled = true ∧ Parses (reweighed.text .weight) ∧
      ¬Parses (mistyped.text .totalcredit) := by
    decide +kernel
  obtain ⟨hcat, hass, hweight, htotal⟩ := htexts
  refine ⟨hcat, hass, ?_, ?_⟩
  · exact ((confirms_iff_parses uid uid uid uid .edit (by decide)).1 _ _ hcat).2 hweight
  · intro hconfirms
    exact htotal (((confirms_iff_parses uid uid uid uid .new (by decide)).2 _ _ hass).1 hconfirms).2

/-- "1.2.3" as a weight is written as 0, as a credit it traps; the buttons are enabled -/
theorem enabled_form_fails :
    (¬∀ mode holder changes, mode ≠ Mode.none → ((EditForm.load mode holder).run changes).isEnabled = true →
      CatConfirms ((EditForm.load mode holder).run changes) (target uid (.categories uid) uid mode)) ∧
    ¬∀ mode holder changes, mode ≠ Mode.none → ((EditForm.load mode holder).run changes).isEnabled = true →
      AssConfirms ((EditForm.load mode holder).run changes) (target uid (.assignments uid uid) uid mode) := by
  refine ⟨?_, ?_⟩
  · intro h
    have hc := h .new (fun _ => "") [(.catname, "Labs"), (.weight, "1.2.3")] (by decide) (by decide)
    have hp := (catConfirms_iff _ uid uid uid rfl (by decide)).1 hc
    exact absurd hp (by decide +kernel)
  · intro h
    have hc := h .new (fun _ => "") [(.assname, "L1"), (.credit, "1.2.3"), (.totalcredit, "10")] (by decide) (by decide)
    have hp := (assConfirms_iff _ uid uid uid uid rfl (by decide)).1 hc
    exact absurd hp.1 (by decide +kernel)

end GradeKeep.FormGuard
