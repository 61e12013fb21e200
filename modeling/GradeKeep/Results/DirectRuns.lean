/-
The system without its path strings. A screen of the app appends to the path it was given, and reads collections,
documents and the owner's path back from strings. In a state that keeps the invariant each string parses to what it was
built from, so a step of the system is the step that keeps collections and ids and never writes a path.

Results:
- `step_direct`, `run_direct`: the system with path strings and the one without take the same steps, so a run can be
  computed without them.

The second session (`pair`) is computed here: two clients, whose listeners write both grades, with a rounding.
-/
import GradeKeep.Results.Invariant

namespace GradeKeep.DirectRuns

open GradeKeep.SwiftDouble GradeKeep.Firestore GradeKeep.Schema GradeKeep.Listeners GradeKeep.Forms GradeKeep.System
open GradeKeep.WellFormed GradeKeep.Invariant

/-! ## Steps without paths -/

/-- a view loads -/
def directLoad (E : Env) (s : St) (client : ℕ) (c : Coll) : St :=
  { s with views := s.views ++ [⟨client, c, emptyRows c, [content E s.store c], none⟩] }

def directDelete (E : Env) (v : View) (i : ℕ) : Option Write :=
  v.rows.ids[i]?.map fun id => .delete (v.coll.doc E.uid id)

/-- the oldest queued snapshot is delivered -/
def directDeliver (E : Env) (v : View) : Option (View × List Write) :=
  match v.pending with
  | [] => none
  | documents :: rest =>
    some ({ v with rows := rowsOf v.coll documents, pending := rest, last := some documents },
      gradeWrites E v.coll documents)

def directStep (E : Env) (s : St) : Op → Option St
  | .viewDidLoad c => some (directLoad E s c .courses)
  | .segue v i => do
    let view ← s.views[v]?
    let c ← view.segue i
    some (directLoad E s view.client c)
  | .delete v i => do
    let view ← s.views[v]?
    let w ← directDelete E view i
    some { s with flight := s.flight ++ [(view.client, w)] }
  | .deliver v => do
    let view ← s.views[v]?
    let (view', writes) ← directDeliver E view
    some { s with views := s.views.set v view', flight := s.flight ++ writes.map fun w => (view.client, w) }
  | o => step E s o

def directRun (E : Env) (s : St) (ops : List Op) : Option St := ops.foldlM (directStep E) s

/-! ## They are the steps of the system -/

/-- the snapshots queued for a well-formed view have the types its callback casts to, so it does not trap -/
theorem deliver_direct {E : Env} {B : DocPath → Prop} {v : View} (h : ViewOk E B v) :
    v.deliver E = directDeliver E v := by
  unfold View.deliver directDeliver
  cases hp : v.pending with
  | nil => rfl
  | cons documents rest =>
    have hty : ∀ e ∈ documents, HasType v.coll e.2 := fun e he =>
      (h.pending documents (by rw [hp]; exact List.mem_cons_self) e he).2.hasType
    simp only [callback_eq hty, Option.bind_eq_bind, Option.bind_some]

theorem step_direct {E : Env} {s : St} (h : Inv E s) (o : Op) : step E s o = directStep E s o := by
  cases o with
  | viewDidLoad c => exact load_eq E s c .courses
  | segue v i => simp only [step, directStep, load_eq, directLoad]
  | delete v i => simp only [step, directStep, View.delete_eq, directDelete]
  | deliver v =>
    cases hv : s.views[v]? with
    | none => simp only [step, directStep, hv, Option.bind_eq_bind, Option.bind_none]
    | some view =>
      simp only [step, directStep, hv, Option.bind_eq_bind, Option.bind_some,
        deliver_direct (h.views_ok view (List.mem_of_getElem? hv))]
  | newForm | editForm | type | press | apply => rfl

/-- **Runs without paths.** -/
theorem run_direct {E : Env} {s : St} (h : Inv E s) (ops : List Op) : run E s ops = directRun E s ops := by
  induction ops generalizing s with
  | nil => rfl
  | cons o ops ih =>
    rw [run_cons, directRun, List.foldlM_cons, ← step_direct h o]
    cases hs : step E s o with
    | none => rfl
    | some s' => exact ih (step_inv h hs)

theorem run_init_direct (E : Env) (ops : List Op) : run E init ops = directRun E init ops :=
  run_direct (inv_init E) ops

theorem after_direct (ops : List Op) : after ops = (directRun sampleEnv init ops).getD init := by
  rw [after, run_init_direct]

/-! ## The second session -/

/-- where it ends (`pair_run`) -/
def pair : St := (directRun sampleEnv init pairRun).getD init

/-- what the second session leaves: both grades went through the rounding of 66.666... -/
def pairCourse : Doc := Doc.ofFields
  [("course_name", .string "CS"), ("course_grade", .double (.num 0)), ("cgrade", .double (.num (6667 / 100)))]

def pairCategory : Doc := Doc.ofFields
  [("catname", .string "Labs"), ("weight", .double (.num 2)), ("catgrade", .double (.num (6667 / 100)))]

def pairAssignments : Snapshot :=
  [(sampleAssignment, assignmentFields "L1" (.num 1) (.num 1) (.num 100)),
   (secondAssignment, assignmentFields "L2" (.num 1) (.num 2) (.num 50))]

set_option synthInstance.maxSize 256 in
/-- all that is computed of the second session -/
theorem pair_facts :
    (directRun sampleEnv init pairRun).isSome ∧ pair.flight.length = 0 ∧ (∀ v ∈ pair.views, v.pending = []) ∧
    (∀ v ∈ pair.views, v.last = some (content sampleEnv pair.store v.coll)) ∧
    pair.views.map (fun v => (v.client, v.coll)) =
      [(0, .courses), (0, .categories sampleCourse), (0, .assignments sampleCourse sampleCategory),
       (1, .courses), (1, .categories sampleCourse), (1, .assignments sampleCourse sampleCategory)] ∧
    docs pair.store (Coll.path uid .courses) = [(sampleCourse, pairCourse)] ∧
    docs pair.store (Coll.path uid (.categories sampleCourse)) = [(sampleCategory, pairCategory)] ∧
    (docs pair.store (Coll.path uid (.assignments sampleCourse sampleCategory))).Perm pairAssignments := by
  decide +kernel

theorem pair_run : run sampleEnv init pairRun = some pair := by
  obtain ⟨s, hs⟩ := Option.isSome_iff_exists.1 pair_facts.1
  rw [run_init_direct, pair, hs, Option.getD_some]

theorem pair_reachable : Reachable sampleEnv pair := ⟨pairRun, pair_run⟩

theorem pair_course : pair.store.lookup (Coll.doc uid .courses sampleCourse) = some pairCourse := by
  obtain ⟨-, -, -, -, -, hcourses, -⟩ := pair_facts
  exact mem_docs.1 (hcourses ▸ List.mem_cons_self)

theorem pair_category : pair.store.lookup (Coll.doc uid (.categories sampleCourse) sampleCategory) =
    some pairCategory := by
  obtain ⟨-, -, -, -, -, -, hcategories, -⟩ := pair_facts
  exact mem_docs.1 (hcategories ▸ List.mem_cons_self)

end GradeKeep.DirectRuns
