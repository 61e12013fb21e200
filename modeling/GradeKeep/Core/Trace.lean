/-
Labelled runs of a partial machine, and messages on their way between its steps.

A machine is a partial step function; a run folds it over a list of operations. `labels` collects what the steps of a
run are labelled with, and `simulates` carries a simulation from steps to runs: if the labels of a step, performed one
by one, take an abstract state related to the old state to one related to the new state, so do the labels of a run.

Messages in flight are a list of pairs of a sender and a message. `Moved` is what one step may do to them: append
what it sends, or take out the oldest message of one sender. `Accounted` is the account that every run then keeps.

Results:
- `invariant`: what every step keeps, every run keeps;
- `labels_induction`: what holds of a state and of the labels so far is proved step by step;
- `simulates`: simulations of steps are simulations of runs;
- `accounted_run`: of each sender, what it sent in a run is what was taken from it followed by what is in flight. So no
  message is lost, taken twice or overtaken by a later one of its sender.
-/
import Mathlib.Tactic

namespace GradeKeep.Trace

variable {S O L A C M : Type}

/-! ## Runs and their labels -/

section Labels

variable {step : S → O → Option S} {label : S → O → List L}

theorem invariant {P : S → Prop} (hstep : ∀ s o s', P s → step s o = some s' → P s') {s t : S} {ops : List O} (h : P s)
    (hrun : ops.foldlM step s = some t) : P t := by
  induction ops generalizing s with
  | nil =>
    have hst : s = t := Option.some.inj hrun
    exact hst ▸ h
  | cons o ops ih =>
    rw [List.foldlM_cons] at hrun
    obtain ⟨s', hs, hrun⟩ := Option.bind_eq_some_iff.1 hrun
    exact ih (hstep s o s' h hs) hrun

/-- the labels of the steps that a run takes, in order -/
def labels (step : S → O → Option S) (label : S → O → List L) : S → List O → List L
  | _, [] => []
  | s, o :: ops => label s o ++ ((step s o).map fun s' => labels step label s' ops).getD []

theorem labels_cons {s s' : S} {o : O} (h : step s o = some s') (ops : List O) :
    labels step label s (o :: ops) = label s o ++ labels step label s' ops := by
  rw [labels, h, Option.map_some, Option.getD_some]

theorem labels_append {s t : S} {a : List O} (h : a.foldlM step s = some t) (b : List O) :
    labels step label s (a ++ b) = labels step label s a ++ labels step label t b := by
  induction a generalizing s with
  | nil =>
    have hst : s = t := Option.some.inj h
    rw [hst]
    rfl
  | cons o a ih =>
    rw [List.foldlM_cons] at h
    obtain ⟨s', hs, h⟩ := Option.bind_eq_some_iff.1 h
    rw [List.cons_append, labels_cons hs, labels_cons hs, ih h, List.append_assoc]

theorem labels_eq_nil {s : S} {ops : List O} (h : ∀ o ∈ ops, ∀ s, label s o = []) : labels step label s ops = [] := by
  induction ops generalizing s with
  | nil => rfl
  | cons o ops ih =>
    rw [labels, h o List.mem_cons_self, List.nil_append]
    cases step s o with
    | none => rfl
    | some s' => exact ih fun o' ho' => h o' (List.mem_cons_of_mem o ho')

/-- **Runs and what they are labelled with**, by two labellings at once. -/
theorem labels_induction {L' : Type} {label' : S → O → List L'} (P : List L → List L' → S → Prop)
    (hstep : ∀ l l' s o s', P l l' s → step s o = some s' → P (l ++ label s o) (l' ++ label' s o) s') {s t : S}
    {ops : List O} {l : List L} {l' : List L'} (h : P l l' s) (hrun : ops.foldlM step s = some t) :
    P (l ++ labels step label s ops) (l' ++ labels step label' s ops) t := by
  induction ops generalizing s l l' with
  | nil =>
    have hst : s = t := Option.some.inj hrun
    rw [← hst, labels, labels, List.append_nil, List.append_nil]
    exact h
  | cons o ops ih =>
    rw [List.foldlM_cons] at hrun
    obtain ⟨s', hs, hrun⟩ := Option.bind_eq_some_iff.1 hrun
    rw [labels_cons hs, labels_cons hs, ← List.append_assoc, ← List.append_assoc]
    exact ih (hstep l l' s o s' h hs) hrun

/-- with one labelling -/
theorem labels_invariant (P : List L → S → Prop)
    (hstep : ∀ l s o s', P l s → step s o = some s' → P (l ++ label s o) s') {s t : S} {ops : List O} (h : P [] s)
    (hrun : ops.foldlM step s = some t) : P (labels step label s ops) t :=
  @labels_induction S O L step label L label (fun l _ s => P l s) (fun l _ s o s' h hs => hstep l s o s' h hs) s t ops
    [] [] h hrun

/-- **Simulation of runs.** -/
theorem simulates {R : S → A → Prop} {perform : A → L → A}
    (hstep : ∀ s o s' a, R s a → step s o = some s' → R s' ((label s o).foldl perform a)) {s t : S} {ops : List O}
    {a : A} (h : R s a) (hrun : ops.foldlM step s = some t) : R t ((labels step label s ops).foldl perform a) := by
  induction ops generalizing s a with
  | nil =>
    have hst : s = t := Option.some.inj hrun
    exact hst ▸ h
  | cons o ops ih =>
    rw [List.foldlM_cons] at hrun
    obtain ⟨s', hs, hrun⟩ := Option.bind_eq_some_iff.1 hrun
    rw [labels_cons hs, List.foldl_append]
    exact ih (hstep s o s' a h hs) hrun

end Labels

/-! ## Messages in flight -/

section Messages

variable [DecidableEq C]

/-- the messages of sender c, oldest first -/
def ofSender (c : C) (l : List (C × M)) : List M := l.filterMap fun e => if e.1 = c then some e.2 else none

theorem mem_ofSender {c : C} {m : M} {l : List (C × M)} : m ∈ ofSender c l ↔ (c, m) ∈ l := by
  simp only [ofSender, List.mem_filterMap, Option.ite_none_right_eq_some, Option.some.injEq]
  refine ⟨?_, ?_⟩
  · rintro ⟨e, he, rfl, rfl⟩
    exact he
  · intro h
    exact ⟨(c, m), h, rfl, rfl⟩

theorem ofSender_append (c : C) (a b : List (C × M)) : ofSender c (a ++ b) = ofSender c a ++ ofSender c b :=
  List.filterMap_append

theorem ofSender_eq_nil {c : C} {l : List (C × M)} (h : ∀ e ∈ l, e.1 ≠ c) : ofSender c l = [] :=
  List.filterMap_eq_nil_iff.2 fun e he => if_neg (h e he)

/-- the oldest message of a sender comes first among its messages, and is not one of another sender's -/
theorem ofSender_oldest {c : C} {m : M} {pre post : List (C × M)} (h : ∀ e ∈ pre, e.1 ≠ c) (c' : C) :
    ofSender c' (pre ++ (c, m) :: post) = ofSender c' [(c, m)] ++ ofSender c' (pre ++ post) := by
  have hsplit : pre ++ (c, m) :: post = pre ++ ([(c, m)] ++ post) := rfl
  rw [hsplit, ofSender_append, ofSender_append, ofSender_append c' pre]
  by_cases hc : c = c'
  · rw [← hc, ofSender_eq_nil h, List.nil_append, List.nil_append]
  · have hone : ofSender c' [(c, m)] = [] := ofSender_eq_nil fun e he => by rw [List.mem_singleton.1 he]; exact hc
    rw [hone, List.nil_append, List.nil_append]

/-- each sender's messages were taken in the order sent, and the rest is in flight -/
def Accounted (sent taken flight : List (C × M)) : Prop :=
  ∀ c, ofSender c sent = ofSender c taken ++ ofSender c flight

/-- messages that all come from one sender stand in the order in which it sent them -/
theorem filter_of_sender {P : M → Bool} {c : C} {l : List (C × M)} (h : ∀ e ∈ l, P e.2 = true → e.1 = c) :
    (l.map (·.2)).filter P = (ofSender c l).filter P := by
  induction l with
  | nil => rfl
  | cons e l ih =>
    obtain ⟨c', m⟩ := e
    have ih' := ih fun e' he' => h e' (List.mem_cons_of_mem _ he')
    have hsplit : ofSender c ((c', m) :: l) = ofSender c [(c', m)] ++ ofSender c l := ofSender_append c [(c', m)] l
    rw [List.map_cons, List.filter_cons, ih', hsplit, List.filter_append]
    by_cases hc : c' = c
    · subst hc
      simp only [ofSender, List.filterMap_cons, if_pos, List.filterMap_nil, List.filter_cons, List.filter_nil]
      split_ifs <;> rfl
    · have hP : P m = false := Bool.not_eq_true _ ▸ fun hm => hc (h (c', m) List.mem_cons_self hm)
      simp [ofSender, hc, hP]

/-- what one step does to the messages in flight: it sends some, or takes the oldest of one sender -/
inductive Moved (flight flight' sent taken : List (C × M)) : Prop where
  | send (h : flight' = flight ++ sent) (ht : taken = [])
  | take (c : C) (m : M) (pre post : List (C × M)) (hflight : flight = pre ++ (c, m) :: post)
      (hpre : ∀ e ∈ pre, e.1 ≠ c) (h : flight' = pre ++ post) (hs : sent = []) (ht : taken = [(c, m)])

theorem Moved.accounted {flight flight' sent taken sent' taken' : List (C × M)} (hm : Moved flight flight' sent' taken')
    (h : Accounted sent taken flight) : Accounted (sent ++ sent') (taken ++ taken') flight' := by
  intro c
  cases hm with
  | send hf ht =>
    subst hf ht
    calc ofSender c (sent ++ sent') = ofSender c taken ++ ofSender c flight ++ ofSender c sent' := by
          rw [ofSender_append, h c]
      _ = ofSender c (taken ++ []) ++ ofSender c (flight ++ sent') := by
          rw [List.append_nil, ofSender_append, List.append_assoc]
  | take c' m pre post hflight hpre hf hs ht =>
    subst hflight hf hs ht
    calc ofSender c (sent ++ []) = ofSender c taken ++ ofSender c (pre ++ (c', m) :: post) := by
          rw [List.append_nil, h c]
      _ = ofSender c (taken ++ [(c', m)]) ++ ofSender c (pre ++ post) := by
          rw [ofSender_oldest hpre, ofSender_append c taken, List.append_assoc]

/-- **Each message once, in its sender's order.** -/
theorem accounted_run {step : S → O → Option S} {P : S → Prop} {flight : S → List (C × M)}
    {sends takes : S → O → List (C × M)}
    (hstep : ∀ s o s', P s → step s o = some s' → P s' ∧ Moved (flight s) (flight s') (sends s o) (takes s o))
    {s t : S} {ops : List O} (h : P s) (hrun : ops.foldlM step s = some t) {sent taken : List (C × M)}
    (hacc : Accounted sent taken (flight s)) :
    Accounted (sent ++ labels step sends s ops) (taken ++ labels step takes s ops) (flight t) := by
  refine (labels_induction (fun sent taken s => P s ∧ Accounted sent taken (flight s)) ?_ ⟨h, hacc⟩ hrun).2
  rintro sent taken s o s' ⟨hP, hacc⟩ hs
  obtain ⟨hP', hmoved⟩ := hstep s o s' hP hs
  exact ⟨hP', hmoved.accounted hacc⟩

end Messages

end GradeKeep.Trace
