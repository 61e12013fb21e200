/-
Every screen writes only where it was opened, but for one kind of course id.

A `Place` is what a chain of segues leads to, in terms of ids and collections; `Place.next` follows one segue. The
controllers know no places, only the strings they concatenate, but the strings of a place determine those of the next
(`prepare_screen`), so by induction a screen always holds the strings of the place its chain leads to
(`navigate_eq`). What Firestore makes of these strings is known from `Schema`: they name the place's collection and its
documents.

The string cut by 12 Characters should name the document that owns the collection. For the assignments it does. For the
categories of course k the cut starts at the slash after k, and if k ends in marks that Unicode prepends to what follows
(U+0600 is one), these and the slash are a single Character: the cut takes the marks along, and what is left names
another course, or nothing.

Results:
- `navigate_eq`: the strings refine the places;
- `ownerPath_categories`, `ownerPath_assignments`: what the cut leaves;
- `Place.scope`: what the strings of a place name, and which document each of its writes can change;
- `screen_scope_iff`: after which chains of segues a screen writes where it should, for ids of any length;
- `other_course_graded`: the listener of one course's categories writes the grade of another.
-/
import Mathlib.Data.List.DropRight
import GradeKeep.App.Navigation

namespace GradeKeep.ScreenScope

open GradeKeep.SwiftDouble GradeKeep.Firestore GradeKeep.Schema GradeKeep.Listeners GradeKeep.Forms GradeKeep.System
open GradeKeep.Navigation GradeKeep.Characters

/-! ## Places -/

inductive Place where
  | courses
  /-- the categories of course k -/
  | categories (k : Segment)
  /-- the assignments of category j of course k -/
  | assignments (k j : Segment)
  | newCourse
  | newCat (k : Segment)
  | editCat (k id : Segment)
  | newAss (k j : Segment)
  | editAss (k j id : Segment)
deriving DecidableEq

namespace Place

/-- the place a segue leads to -/
def next : Place → Segue → Option Place
  | courses, .catsegue k => some (categories k)
  | courses, .newcoursesegue => some newCourse
  | categories k, .newcatsegue => some (newCat k)
  | categories k, .editcatsegue id => some (editCat k id)
  | categories k, .asssegue j => some (assignments k j)
  | assignments k j, .newasssegue => some (newAss k j)
  | assignments k j, .editasssegue id => some (editAss k j id)
  | _, _ => none

/-- the place a chain leads to from the course list -/
def walk (chain : List Segue) : Option Place := chain.foldlM next courses

/-- the collection whose table is shown -/
def table : Place → Option Coll
  | courses => some .courses
  | categories k => some (.categories k)
  | assignments k j => some (.assignments k j)
  | _ => none

/-- the collection a new form adds to -/
def newIn : Place → Option Coll
  | newCourse => some .courses
  | newCat k => some (.categories k)
  | newAss k j => some (.assignments k j)
  | _ => none

/-- the document an edit form was opened on -/
def edited (u : Segment) : Place → Option DocPath
  | editCat k id => some ((Coll.categories k).doc u id)
  | editAss k j id => some ((Coll.assignments k j).doc u id)
  | _ => none

/-- the one document an event at a place may change -/
def target (u : Segment) (place : Place) : Event → Option DocPath
  | .snapshot _ => place.table.bind fun c => c.owner u
  | .delete id => place.table.map fun c => c.doc u id
  | .addCourse _ drawn => place.newIn.map fun c => c.doc u drawn
  | .confirmCat _ drawn => (place.edited u).or (place.newIn.map fun c => c.doc u drawn)
  | .confirmAss _ drawn => (place.edited u).or (place.newIn.map fun c => c.doc u drawn)

/-- the screen at a place -/
def screen (u : Segment) : Place → Screen
  | courses => .courseTable
  | categories k => .categoryTable ((Coll.categories k).ref u)
  | assignments k j => .assignmentTable ((Coll.assignments k j).ref u)
  | newCourse => .newCourse (Coll.courses.ref u)
  | newCat k => .newCat ((Coll.categories k).ref u) .new
  | editCat k id => .newCat ((Coll.categories k).ref u ++ id.text) .edit
  | newAss k j => .newAss ((Coll.assignments k j).ref u) .new
  | editAss k j id => .newAss ((Coll.assignments k j).ref u ++ id.text) .edit

end Place

/-- one segue: what `prepare` concatenates is the string of the next place -/
theorem prepare_screen (u : Segment) (place : Place) (s : Segue) :
    prepare u (place.screen u) s = (place.next s).map (Place.screen u) := by
  cases place <;> cases s <;> rfl

/-- **The strings refine the places.** -/
theorem navigate_eq (u : Segment) (chain : List Segue) :
    navigate u chain = (Place.walk chain).map (Place.screen u) := by
  have key : ∀ (place : Place), chain.foldlM (prepare u) (place.screen u) =
      (chain.foldlM Place.next place).map (Place.screen u) := by
    induction chain with
    | nil => intro place; rfl
    | cons s chain ih =>
      intro place
      rw [List.foldlM_cons, List.foldlM_cons, prepare_screen]
      cases place.next s with
      | none => rfl
      | some place' => exact ih place'
  exact key .courses

/-! ## What the strings name -/

/-- a screen names and writes what its place has: its own collection, the document chosen in it, the owner -/
structure Scope (U : Unicode) (u : Segment) (place : Place) (screen : Screen) : Prop where
  listens : (screen.listenerPath u).map collection = place.table.map fun c => some (c.path u)
  owner : (screen.gradePath U).map document = (place.table.bind fun c => c.owner u).map some
  adds : screen.newPath.map collection = place.newIn.map fun c => some (c.path u)
  edits : screen.editPath.map document = (place.edited u).map some
  deletes : ∀ c, place.table = some c → ∀ id, screen.issue U u (.delete id) = some [.delete (c.doc u id)]
  /-- each write goes to the event's target and leaves every other document alone -/
  writes : ∀ event writes, screen.issue U u event = some writes → ∀ w ∈ writes, place.target u event = some w.path ∧
    ∀ store q, q ≠ w.path → (w.apply store).lookup q = store.lookup q

/-! ### The cut -/

/-- the id without the prepended marks it ends in -/
def stripped (U : Unicode) (id : Segment) : List Char := id.1.rdropWhile fun c => U.cls c = .prepend

/-- it ends in such a mark -/
def EndsInMark (U : Unicode) (id : Segment) : Prop := stripped U id ≠ id.1

instance (U : Unicode) (id : Segment) : Decidable (EndsInMark U id) :=
  inferInstanceAs (Decidable (stripped U id ≠ id.1))

variable {U : Unicode} {u : Segment}

/-- cutting n scalars of printable ASCII, and the marks before them -/
theorem ownerPath_eq {ref : String} {cs ps ds : List Char} {c : Char} (href : ref.toList = cs ++ (ps ++ c :: ds))
    (hne : cs ≠ []) (hlast : U.cls (cs.getLast hne) ≠ .prepend) (hps : ∀ p ∈ ps, U.cls p = .prepend)
    (hlen : ds.length = 11) (hascii : (c :: ds).all fun x => 0x20 ≤ x.toNat ∧ x.toNat < 0x7f) :
    ownerPath U ref = some (String.ofList cs) := by
  have hothers : Others U.cls (c :: ds) := U.others fun x hx => of_decide_eq_true (List.all_eq_true.1 hascii x hx)
  have hcut := dropLast_prepended hne hlast hps hothers
  rw [hlen] at hcut
  rw [ownerPath, href, hcut, Option.map_some]

theorem slash_not_mark : U.cls '/' ≠ .prepend := by
  rw [U.ascii '/' (by decide) (by decide)]
  decide

theorem joined_last (segs : List Segment) (hne : joined segs ≠ []) : (joined segs).getLast hne = '/' := by
  rcases List.eq_nil_or_concat segs with rfl | ⟨segs, s, rfl⟩
  · exact absurd rfl hne
  · have hconcat : joined (segs.concat s) = joined segs ++ s.1 ++ ['/'] := by simp [joined]
    simp only [hconcat, List.getLast_append_singleton]

/-- for the assignments the cut leaves the path of the category, with a slash -/
theorem ownerPath_assignments (k j : Segment) : ownerPath U ((Coll.assignments k j).ref u) =
    some (String.ofList (joined [users, u, coursesSeg, k, categoriesSeg, j])) := by
  have href : ((Coll.assignments k j).ref u).toList =
      joined [users, u, coursesSeg, k, categoriesSeg, j] ++ ([] ++ (assignmentsSeg.1 ++ ['/'])) := by
    rw [Coll.ref_toList]
    simp [Coll.path, joined]
  have hne : joined [users, u, coursesSeg, k, categoriesSeg, j] ≠ [] := by simp [joined]
  refine ownerPath_eq href hne ?_ (fun p hp => absurd hp List.not_mem_nil) (by decide) (by decide)
  rw [joined_last]
  exact slash_not_mark

/-- for the categories it leaves the path of the course, without the marks its id ends in -/
theorem ownerPath_categories (k : Segment) : ownerPath U ((Coll.categories k).ref u) =
    some (String.ofList (joined [users, u, coursesSeg] ++ stripped U k)) := by
  have hk : stripped U k ++ k.1.rtakeWhile (fun c => U.cls c = .prepend) = k.1 :=
    List.rdropWhile_append_rtakeWhile
  have href : ((Coll.categories k).ref u).toList = (joined [users, u, coursesSeg] ++ stripped U k) ++
      (k.1.rtakeWhile (fun c => U.cls c = .prepend) ++ ('/' :: categoriesSeg.1 ++ ['/'])) := by
    rw [Coll.ref_toList, List.append_assoc, ← List.append_assoc (stripped U k), hk]
    simp [Coll.path, joined]
  have hne : joined [users, u, coursesSeg] ++ stripped U k ≠ [] := by simp [joined]
  refine ownerPath_eq href hne ?_ ?_ (by decide) (by decide)
  · by_cases hs : stripped U k = []
    · have hne' : joined [users, u, coursesSeg] ≠ [] := by simp [joined]
      simp only [hs, List.append_nil, joined_last _ hne']
      exact slash_not_mark
    · rw [List.getLast_append_of_ne_nil _ hs]
      have hlast := List.rdropWhile_last_not (fun c => decide (U.cls c = .prepend)) k.1 hs
      exact fun h => hlast (decide_eq_true h)
  · intro p hp
    simpa using List.mem_rtakeWhile_imp hp

/-- what Firestore makes of that: the course of the shorter id, if one is left -/
theorem document_stripped (k : Segment) :
    document (String.ofList (joined [users, u, coursesSeg] ++ stripped U k)) =
      (Firestore.segment (stripped U k)).map (Coll.courses.doc u) := by
  have hslash : '/' ∉ stripped U k := fun h => k.2.2 ((List.rdropWhile_prefix _ _).subset h)
  by_cases hs : stripped U k = []
  · have hsegs : resourcePath (String.ofList (joined [users, u, coursesSeg])) = some [users, u, coursesSeg] :=
      resourcePath_joined (by simp) String.toList_ofList
    rw [Firestore.segment, dif_neg (by simp [hs]), hs, List.append_nil, document, hsegs]
    simp
  · have hsegs := resourcePath_joined_append (s := ⟨stripped U k, hs, hslash⟩)
      (Coll.path_ne_nil u .courses) String.toList_ofList
    rw [Firestore.segment, dif_pos ⟨hs, hslash⟩, Option.map_some]
    exact document_of_resourcePath hsegs (Coll.path_odd u .courses)

/-- **Whose grade the categories listener writes.** -/
theorem gradePath_categories (k : Segment) :
    ((Place.screen u (.categories k)).gradePath U).map document = some (some (Coll.courses.doc u k)) ↔
      ¬EndsInMark U k := by
  have hpath : (Place.screen u (.categories k)).gradePath U =
      some (String.ofList (joined [users, u, coursesSeg] ++ stripped U k)) := ownerPath_categories k
  rw [hpath, Option.map_some, Option.some.injEq, document_stripped, Option.map_eq_some_iff, EndsInMark, not_not]
  refine ⟨?_, ?_⟩
  · rintro ⟨k', hk', hdoc⟩
    obtain ⟨-, rfl⟩ := (Coll.doc_inj u .courses .courses k' k).1 hdoc
    unfold Firestore.segment at hk'
    split_ifs at hk'
    exact congrArg Subtype.val (Option.some.inj hk')
  · intro hs
    exact ⟨k, by rw [hs, Firestore.segment, dif_pos k.2], rfl⟩

theorem gradePath_assignments (k j : Segment) :
    ((Place.screen u (.assignments k j)).gradePath U).map document = some (some ((Coll.categories k).doc u j)) := by
  have hpath : (Place.screen u (.assignments k j)).gradePath U =
      some (String.ofList (joined [users, u, coursesSeg, k, categoriesSeg, j])) := ownerPath_assignments k j
  have hsegs : resourcePath (String.ofList (joined [users, u, coursesSeg, k, categoriesSeg, j])) =
      some ((Coll.categories k).path u ++ [j]) := resourcePath_joined (by simp) String.toList_ofList
  rw [hpath, Option.map_some, document_of_resourcePath hsegs (Coll.path_odd u (.categories k))]
  rfl

/-- the place is no table of the categories of a course whose id ends in a mark -/
def CutOk (U : Unicode) : Place → Prop
  | .categories k => ¬EndsInMark U k
  | _ => True

instance (U : Unicode) : ∀ place, Decidable (CutOk U place)
  | .categories k => inferInstanceAs (Decidable (¬EndsInMark U k))
  | .courses | .assignments _ _ | .newCourse | .newCat _ | .editCat _ _ | .newAss _ _ | .editAss _ _ _ =>
    isTrue trivial

/-- the owner is named exactly at these places -/
theorem owner_iff (U : Unicode) (u : Segment) (place : Place) : ((place.screen u).gradePath U).map document =
    (place.table.bind fun c => c.owner u).map some ↔ CutOk U place := by
  cases place with
  | categories k => exact gradePath_categories k
  | assignments k j => exact iff_of_true (gradePath_assignments k j) trivial
  | _ => exact iff_of_true rfl trivial

/-! ### The writes -/

theorem issue_newCat (k : Segment) (text : CatField → String) (drawn : Segment) :
    (Place.screen u (.newCat k)).issue U u (.confirmCat text drawn) =
      some [.add ((Coll.categories k).doc u drawn) (NewCat.newCategory (filled .new text))] := by
  have h : NewCat.confirmButtonPressed (filled .new text) ((Coll.categories k).ref u) = _ :=
    NewCat.confirm_new rfl (Coll.collection_ref u (.categories k))
  rw [Place.screen, Screen.issue, h]
  rfl

theorem issue_editCat (k id : Segment) (text : CatField → String) (drawn : Segment) :
    (Place.screen u (.editCat k id)).issue U u (.confirmCat text drawn) =
      some [.update ((Coll.categories k).doc u id) (NewCat.editedCategory (filled .edit text))] := by
  have h : NewCat.confirmButtonPressed (filled .edit text) ((Coll.categories k).ref u ++ id.text) = _ :=
    NewCat.confirm_edit rfl (Coll.document_ref_append u (.categories k) id)
  rw [Place.screen, Screen.issue, h]
  rfl

theorem issue_newAss (k j : Segment) (text : AssField → String) (drawn : Segment) :
    (Place.screen u (.newAss k j)).issue U u (.confirmAss text drawn) = (NewAss.assignment (filled .new text)).map
      fun assignment => [.add ((Coll.assignments k j).doc u drawn) assignment] := by
  have h : NewAss.confirmButtonPressed (filled .new text) ((Coll.assignments k j).ref u) = _ :=
    NewAss.confirm_new rfl (Coll.collection_ref u (.assignments k j))
  rw [Place.screen, Screen.issue, h]
  cases NewAss.assignment (filled .new text) <;> rfl

theorem issue_editAss (k j id : Segment) (text : AssField → String) (drawn : Segment) :
    (Place.screen u (.editAss k j id)).issue U u (.confirmAss text drawn) =
      (NewAss.assignment (filled .edit text)).map
        fun assignment => [.update ((Coll.assignments k j).doc u id) assignment] := by
  have h : NewAss.confirmButtonPressed (filled .edit text) ((Coll.assignments k j).ref u ++ id.text) = _ :=
    NewAss.confirm_edit rfl (Coll.document_ref_append u (.assignments k j) id)
  rw [Place.screen, Screen.issue, h]
  cases NewAss.assignment (filled .edit text) <;> rfl

theorem issue_delete (place : Place) (c : Coll) (h : place.table = some c) (id : Segment) :
    (place.screen u).issue U u (.delete id) = some [.delete (c.doc u id)] := by
  cases place with
  | courses => cases h; rfl
  | categories k =>
    cases h
    simp only [Place.screen, Screen.issue, Coll.document_ref_append, Option.bind_eq_bind, Option.bind_some]
  | assignments k j =>
    cases h
    simp only [Place.screen, Screen.issue, Coll.document_ref_append, Option.bind_eq_bind, Option.bind_some]
  | _ => cases h

/-- what the listener of a table updates is the owner of its collection -/
theorem snapshot_path {place : Place} {ref path : String} {p q : DocPath} (hcut : CutOk U place)
    (hgrade : (place.screen u).gradePath U = ownerPath U ref) (hpath : ownerPath U ref = some path)
    (hq : document path = some q) (hp : (place.table.bind fun c => c.owner u) = some p) : q = p := by
  have howner := (owner_iff U u place).2 hcut
  rw [hgrade, hpath, Option.map_some, hq, hp] at howner
  exact Option.some.inj (Option.some.inj howner)

/-- every write goes to the one document that the place has for the event -/
theorem issue_target {place : Place} {event : Event} {writes : List Write} (hcut : CutOk U place)
    (h : (place.screen u).issue U u event = some writes) : ∀ w ∈ writes, place.target u event = some w.path := by
  intro w hw
  cases event with
  | snapshot documents =>
    cases place with
    | courses =>
      simp only [Place.screen, Screen.issue, Option.bind_eq_bind, Option.bind_eq_some_iff, Option.some.injEq] at h
      obtain ⟨courses, -, rfl⟩ := h
      cases hw
    | categories k =>
      simp only [Place.screen, Screen.issue, Option.bind_eq_bind, Option.bind_eq_some_iff, Option.some.injEq] at h
      obtain ⟨⟨rows, cgrade⟩, -, path, hpath, p, hp, rfl⟩ := h
      rw [List.mem_singleton.1 hw, snapshot_path hcut rfl hpath hp rfl]
      rfl
    | assignments k j =>
      simp only [Place.screen, Screen.issue, Option.bind_eq_bind, Option.bind_eq_some_iff, Option.some.injEq] at h
      obtain ⟨⟨rows, catgrade⟩, -, path, hpath, p, hp, rfl⟩ := h
      rw [List.mem_singleton.1 hw, snapshot_path hcut rfl hpath hp rfl]
      rfl
    | _ => cases h
  | delete id =>
    cases hc : place.table with
    | none =>
      have hnone : (place.screen u).issue U u (.delete id) = none := by cases place <;> first | rfl | cases hc
      rw [hnone] at h
      cases h
    | some c =>
      rw [issue_delete place c hc, Option.some.injEq] at h
      subst h
      rw [List.mem_singleton.1 hw, Place.target, hc]
      rfl
  | addCourse cname drawn =>
    cases place with
    | newCourse =>
      rw [Place.screen, Screen.issue, addCoursePressed_eq (Coll.collection_ref u .courses)] at h
      cases h
      rw [List.mem_singleton.1 hw]
      rfl
    | _ => cases h
  | confirmCat text drawn =>
    cases place with
    | newCat k =>
      rw [issue_newCat] at h
      cases h
      rw [List.mem_singleton.1 hw]
      rfl
    | editCat k id =>
      rw [issue_editCat] at h
      cases h
      rw [List.mem_singleton.1 hw]
      rfl
    | _ => cases h
  | confirmAss text drawn =>
    cases place with
    | newAss k j =>
      rw [issue_newAss] at h
      obtain ⟨assignment, -, rfl⟩ := Option.map_eq_some_iff.1 h
      rw [List.mem_singleton.1 hw]
      rfl
    | editAss k j id =>
      rw [issue_editAss] at h
      obtain ⟨assignment, -, rfl⟩ := Option.map_eq_some_iff.1 h
      rw [List.mem_singleton.1 hw]
      rfl
    | _ => cases h

theorem Place.scope (place : Place) (hcut : CutOk U place) : Scope U u place (place.screen u) where
  listens := by
    cases place with
    | courses => exact congrArg some (Coll.collection_listenerPath u .courses)
    | categories k => exact congrArg some (Coll.collection_ref u (.categories k))
    | assignments k j => exact congrArg some (Coll.collection_ref u (.assignments k j))
    | _ => rfl
  owner := (owner_iff U u place).2 hcut
  adds := by
    cases place with
    | newCourse => exact congrArg some (Coll.collection_ref u .courses)
    | newCat k => exact congrArg some (Coll.collection_ref u (.categories k))
    | newAss k j => exact congrArg some (Coll.collection_ref u (.assignments k j))
    | _ => rfl
  edits := by
    cases place with
    | editCat k id => exact congrArg some (Coll.document_ref_append u (.categories k) id)
    | editAss k j id => exact congrArg some (Coll.document_ref_append u (.assignments k j) id)
    | _ => rfl
  deletes c hc id := issue_delete place c hc id
  writes event writes h w hw := ⟨issue_target hcut h w hw, fun store q hq => Write.lookup_apply_ne store w hq⟩

/-- **Which screens write only where they were opened.** For every user id and every chain of segues from the course
list, with ids of any length: the screen it ends at names and writes just what the place it leads to has, exactly when
it is not the table of a course's categories whose course id ends in marks that Unicode prepends. Its listener's path
names its own collection, a new form's path the collection, an edit form's path the document chosen, the ref without
its last 12 Characters the owner; and each write a screen or its listener issues goes to the event's document and
leaves all others unchanged. -/
theorem screen_scope_iff (U : Unicode) (u : Segment) (chain : List Segue) (screen : Screen)
    (h : navigate u chain = some screen) :
    ∃ place, Place.walk chain = some place ∧ (Scope U u place screen ↔ CutOk U place) := by
  rw [navigate_eq] at h
  obtain ⟨place, hplace, rfl⟩ := Option.map_eq_some_iff.1 h
  exact ⟨place, hplace, fun hscope => (owner_iff U u place).1 hscope.owner, place.scope⟩

/-- Unicode's classes, as far as ASCII and the Arabic number signs U+0600 to U+0605 go -/
def sampleUnicode : Unicode where
  cls c :=
    if c.toNat = 0x0d then .cr
    else if c.toNat = 0x0a then .lf
    else if c.toNat < 0x20 ∨ 0x7f ≤ c.toNat ∧ c.toNat < 0xa0 then .control
    else if 0x600 ≤ c.toNat ∧ c.toNat ≤ 0x605 then .prepend
    else .other
  ascii c h1 h2 := by
    rw [if_neg (by omega), if_neg (by omega), if_neg (by omega), if_neg (by omega)]

theorem screen_scope_iff_assignments :
    ∃ place, Place.walk [.catsegue sampleCourse, .asssegue sampleCategory] = some place ∧
      (Scope sampleUnicode uid place
          (.assignmentTable "users/aFor7zG6JZaFhtiNZrtcnUSCSNi1/courses/k/categories/j/assignments/") ↔
        CutOk sampleUnicode place) :=
  screen_scope_iff sampleUnicode uid [.catsegue sampleCourse, .asssegue sampleCategory] _ (by decide +kernel)

/-- k, and an Arabic number sign after it -/
def markedCourse : Segment := ⟨['k', Char.ofNat 0x600], by decide⟩

/-- the listener of its categories writes the grade of course k -/
theorem other_course_graded : (∃ screen, navigate uid [.catsegue markedCourse] = some screen ∧
      (screen.issue sampleUnicode uid (.snapshot [])).map (List.map Write.path) =
        some [Coll.courses.doc uid sampleCourse]) ∧
    ¬∀ U u chain screen, navigate u chain = some screen →
      ∃ place, Place.walk chain = some place ∧ Scope U u place screen := by
  refine ⟨⟨_, rfl, by decide +kernel⟩, ?_⟩
  intro h
  obtain ⟨place, hplace, hscope⟩ := h sampleUnicode uid [.catsegue markedCourse] _ rfl
  obtain rfl : Place.categories markedCourse = place := Option.some.inj hplace
  have hcut := (owner_iff sampleUnicode uid (.categories markedCourse)).1 hscope.owner
  exact absurd hcut (by decide +kernel)

end GradeKeep.ScreenScope
