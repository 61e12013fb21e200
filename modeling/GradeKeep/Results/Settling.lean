/-
How long the listeners' cascade takes, and where it ends.

A write sets off the listeners of its collection, each of which writes to the document above, and so on up. `writeCost`
counts what one write sets off when every listener is notified, itself included; duplicates multiply. The cost of a
state is that of all writes in flight and snapshots queued. Applying a write or delivering a snapshot pays for itself at
least, and exactly when everyone is notified, so the cost is the length of the longest run without users.

Results:
- `apply_cost`, `deliver_cost`: what the two steps pay;
- `cascade_cost`: no run without users is longer than the cost, and one that notifies everybody pays it off;
- `exists_auto`: until it is paid off, something can be applied or delivered;
- `settles`: a session in which everybody was notified can be left to the server, and ends in a settled state.
-/
import GradeKeep.Core.Query
import GradeKeep.Results.Cascade
import GradeKeep.Results.Convergence

namespace GradeKeep.Settling

open GradeKeep.Firestore GradeKeep.Schema GradeKeep.Listeners GradeKeep.System GradeKeep.WellFormed
open GradeKeep.Invariant GradeKeep.DirectRuns GradeKeep.Cascade GradeKeep.Convergence

/-! ## The cost of what waits -/

/-- what a snapshot of c sets off where views of these collections listen, itself included -/
def snapshotCost (colls : List Coll) : Coll → ℕ
  | .courses => 1
  | .categories _ => 2 + colls.count .courses
  | .assignments k _ => 2 + colls.count (.categories k) * (2 + colls.count .courses)

/-- what a write to a document of c sets off, itself included -/
def writeCost (colls : List Coll) (c : Coll) : ℕ := 1 + colls.count c * snapshotCost colls c

def pathCost (E : Env) (colls : List Coll) (p : DocPath) : ℕ :=
  ((Coll.ofPath E.uid p.coll).map (writeCost colls)).getD 1

def flightCost (E : Env) (colls : List Coll) (flight : List (ℕ × Write)) : ℕ :=
  (flight.map fun e => pathCost E colls e.2.path).sum

def viewsCost (k : Coll → ℕ) (views : List View) : ℕ := (views.map fun v => v.pending.length * k v.coll).sum

def colls (s : St) : List Coll := s.views.map (·.coll)

/-- what everything that waits sets off -/
def cost (E : Env) (s : St) : ℕ := flightCost E (colls s) s.flight + viewsCost (snapshotCost (colls s)) s.views

/-- whoever listens is notified of what is applied -/
def Notifies (s : St) : Op → Prop
  | .apply _ notify => ∀ i < s.views.length, i ∈ notify
  | _ => True

instance (s : St) : ∀ o, Decidable (Notifies s o)
  | .apply _ notify => inferInstanceAs (Decidable (∀ i < s.views.length, i ∈ notify))
  | .viewDidLoad _ | .segue _ _ | .newForm _ | .editForm _ _ | .type _ _ | .press _ _ | .delete _ _ | .deliver _ =>
    isTrue trivial

variable {E : Env} {s s' : St}

theorem pathCost_doc (colls : List Coll) (c : Coll) (id : Segment) :
    pathCost E colls (c.doc E.uid id) = writeCost colls c := by
  rw [pathCost, Coll.doc_coll, Coll.ofPath_path, Option.map_some, Option.getD_some]

/-- a snapshot sets off the write of its grade -/
theorem snapshotCost_eq (E : Env) (colls : List Coll) (c : Coll) :
    snapshotCost colls c = 1 + ((c.owner E.uid).map (pathCost E colls)).getD 0 := by
  cases c with
  | courses => rfl
  | categories k =>
    rw [Coll.owner, Option.map_some, Option.getD_some, pathCost_doc, writeCost]
    simp only [snapshotCost]
    omega
  | assignments k j =>
    rw [Coll.owner, Option.map_some, Option.getD_some, pathCost_doc, writeCost]
    simp only [snapshotCost]
    omega

theorem flightCost_append (colls : List Coll) (a b : List (ℕ × Write)) :
    flightCost E colls (a ++ b) = flightCost E colls a + flightCost E colls b := by
  simp [flightCost]

theorem viewsCost_cons (k : Coll → ℕ) (v : View) (views : List View) :
    viewsCost k (v :: views) = v.pending.length * k v.coll + viewsCost k views := rfl

/-- queueing a snapshot for some or all views of c -/
theorem viewsCost_mapIdx (k : Coll → ℕ) (c : Coll) (views : List View) (f : ℕ → View → View) (P : ℕ → Prop)
    (hcoll : ∀ i v, (f i v).coll = v.coll)
    (hsome : ∀ i v, (f i v).pending.length ≤ v.pending.length + if v.coll = c then 1 else 0)
    (hall : ∀ i v, P i → (f i v).pending.length = v.pending.length + if v.coll = c then 1 else 0) :
    viewsCost k (views.mapIdx f) ≤ viewsCost k views + (views.map (·.coll)).count c * k c ∧
      ((∀ i < views.length, P i) →
        viewsCost k (views.mapIdx f) = viewsCost k views + (views.map (·.coll)).count c * k c) := by
  induction views generalizing f P with
  | nil => exact ⟨Nat.zero_le _, fun _ => by simp [viewsCost]⟩
  | cons v views ih =>
    obtain ⟨hle, heq⟩ := ih (fun i => f (i + 1)) (fun i => P (i + 1)) (fun i => hcoll (i + 1)) (fun i => hsome (i + 1))
      fun i => hall (i + 1)
    have hone : (v.pending.length + if v.coll = c then 1 else 0) * k v.coll =
        v.pending.length * k v.coll + (if v.coll = c then 1 else 0) * k c := by
      rw [Nat.add_mul]
      split_ifs with hc
      · rw [hc]
      · rw [Nat.zero_mul, Nat.zero_mul]
    have hcount : ((v :: views).map (·.coll)).count c * k c =
        (views.map (·.coll)).count c * k c + (if v.coll = c then 1 else 0) * k c := by
      rw [List.map_cons, List.count_cons, Nat.add_mul]
      simp
    rw [List.mapIdx_cons, viewsCost_cons, viewsCost_cons, hcoll, hcount]
    refine ⟨?_, ?_⟩
    · have hv := Nat.mul_le_mul_right (k v.coll) (hsome 0 v)
      omega
    · intro hP
      rw [hall 0 v (hP 0 (Nat.succ_pos _)), heq fun i hi => hP (i + 1) (Nat.succ_lt_succ hi), hone]
      omega

theorem viewsCost_set (k : Coll → ℕ) {views : List View} {i : ℕ} {v : View} (v' : View) (hv : views[i]? = some v)
    (hcoll : v'.coll = v.coll) (hlen : v.pending.length = v'.pending.length + 1) :
    viewsCost k (views.set i v') + k v.coll = viewsCost k views := by
  induction views generalizing i with
  | nil => cases hv
  | cons y views ih =>
    cases i with
    | zero =>
      simp only [List.getElem?_cons_zero, Option.some.injEq] at hv
      subst hv
      rw [List.set_cons_zero, viewsCost_cons, viewsCost_cons, hcoll, hlen, Nat.add_mul]
      omega
    | succ i =>
      have ih' := ih hv
      rw [List.set_cons_succ, viewsCost_cons, viewsCost_cons]
      omega

theorem notified_coll (store : Store) (path : List Segment) (notify : List ℕ) (i : ℕ) (v : View) :
    (notified E store path notify i v).coll = v.coll := by
  unfold notified
  split_ifs <;> rfl

theorem notified_length (store : Store) (path : List Segment) (notify : List ℕ) (i : ℕ) (v : View) :
    (notified E store path notify i v).pending.length =
      v.pending.length + if i ∈ notify ∧ v.coll.path E.uid = path then 1 else 0 := by
  unfold notified
  split_ifs
  · rw [List.length_append, List.length_singleton]
  · rfl

theorem colls_applied (w : Write) (flight : List (ℕ × Write)) (notify : List ℕ) :
    colls (applied E s w flight notify) = colls s := by
  refine List.ext_getElem? ?_
  intro i
  simp only [colls, applied, List.getElem?_map, List.getElem?_mapIdx, Option.map_map, Function.comp_def, notified_coll]

theorem colls_set {i : ℕ} {v : View} (v' : View) (hv : s.views[i]? = some v) (hcoll : v'.coll = v.coll) :
    (s.views.set i v').map (·.coll) = colls s :=
  map_set_of_eq hv hcoll

/-! ## What the steps pay -/

/-- applying a write pays at least one -/
theorem apply_cost {c : ℕ} {w : Write} {pre post : List (ℕ × Write)} {notify : List ℕ}
    (h : Inv E s) (hflight : s.flight = pre ++ (c, w) :: post) :
    cost E (applied E s w (pre ++ post) notify) + 1 ≤ cost E s ∧
      (Notifies s (.apply c notify) → cost E (applied E s w (pre ++ post) notify) + 1 = cost E s) := by
  obtain ⟨c', id, hpath⟩ : ∃ c' id, w.path = Coll.doc E.uid c' id := by
    cases h.flight_ok (c, w) ((mem_of_split hflight _).2 (Or.inl rfl)) <;> exact ⟨_, _, rfl⟩
  have hsplit : flightCost E (colls s) s.flight =
      flightCost E (colls s) (pre ++ post) + (1 + (colls s).count c' * snapshotCost (colls s) c') := by
    have hone : flightCost E (colls s) [(c, w)] = writeCost (colls s) c' := by
      simp only [flightCost, List.map_singleton, List.sum_singleton, hpath, pathCost_doc]
    calc flightCost E (colls s) s.flight = flightCost E (colls s) (pre ++ ([(c, w)] ++ post)) := by rw [hflight]; rfl
      _ = flightCost E (colls s) (pre ++ post) + flightCost E (colls s) [(c, w)] := by
          simp only [flightCost_append]; omega
      _ = flightCost E (colls s) (pre ++ post) + (1 + (colls s).count c' * snapshotCost (colls s) c') := by
          rw [hone, writeCost]
  have hviews := viewsCost_mapIdx (snapshotCost (colls s)) c' s.views (notified E (w.apply s.store) w.path.coll notify)
    (· ∈ notify) (fun i v => notified_coll _ _ _ i v) ?_ ?_
  · have hcost : cost E (applied E s w (pre ++ post) notify) = flightCost E (colls s) (pre ++ post) +
        viewsCost (snapshotCost (colls s)) (s.views.mapIdx (notified E (w.apply s.store) w.path.coll notify)) := by
      rw [cost, colls_applied]
      rfl
    have hcolls : s.views.map (·.coll) = colls s := rfl
    rw [hcolls] at hviews
    rw [hcost, cost, hsplit]
    refine ⟨by have := hviews.1; omega, fun hall => ?_⟩
    have heq := hviews.2 hall
    omega
  · intro i v
    rw [notified_length, hpath, Coll.doc_coll]
    simp only [Coll.path_inj]
    split_ifs with h1 h2
    · exact le_rfl
    · exact absurd h1.2 h2
    · exact Nat.le_succ _
    · exact le_rfl
  · intro i v hi
    rw [notified_length, hpath, Coll.doc_coll]
    simp only [Coll.path_inj, hi, true_and]

theorem flightCost_gradeWrites (colls : List Coll) (client : ℕ) (c : Coll) (documents : Snapshot) :
    flightCost E colls ((gradeWrites E c documents).map fun w => (client, w)) =
      ((c.owner E.uid).map (pathCost E colls)).getD 0 := by
  unfold gradeWrites
  cases c.owner E.uid with
  | none => rfl
  | some p => rfl

/-- delivering a snapshot pays one -/
theorem deliver_cost {i : ℕ} {v : View} {documents : Snapshot} {rest : List Snapshot} (hv : s.views[i]? = some v)
    (hpending : v.pending = documents :: rest) :
    cost E { s with
      views := s.views.set i { v with rows := rowsOf v.coll documents, pending := rest, last := some documents },
      flight := s.flight ++ (gradeWrites E v.coll documents).map fun w => (v.client, w) } + 1 = cost E s := by
  have hlen : v.pending.length = rest.length + 1 := by rw [hpending, List.length_cons]
  have hset := viewsCost_set (snapshotCost (colls s))
    { v with rows := rowsOf v.coll documents, pending := rest, last := some documents } hv rfl hlen
  have hcolls := colls_set { v with rows := rowsOf v.coll documents, pending := rest, last := some documents } hv rfl
  have hown := snapshotCost_eq E (colls s) v.coll
  simp only [cost, colls] at hcolls ⊢
  rw [hcolls, flightCost_append, flightCost_gradeWrites]
  simp only [colls] at hset hown
  omega

/-- **What a step pays.** -/
theorem auto_cost {o : Op} (h : Inv E s) (ho : Auto o) (hs : step E s o = some s') :
    cost E s' + 1 ≤ cost E s ∧ (Notifies s o → cost E s' + 1 = cost E s) := by
  cases step_effect h hs with
  | apply c w pre post notify hflight hpre he =>
    subst he
    exact apply_cost h hflight
  | deliver i v documents rest hv hpending he =>
    subst he
    exact ⟨(deliver_cost hv hpending).le, fun _ => deliver_cost hv hpending⟩
  | load o client c hl hc he => exact absurd ho (not_auto_of_local hl)
  | form o forms hl hf he => exact absurd ho (not_auto_of_local hl)
  | remove o client c hl id hborn he => exact absurd ho (not_auto_of_local hl)
  | add i f c id data hf hpress hc hdata hid he => exact ho.elim
  | edit i f c id new data hf hpress hborn hdata he => exact ho.elim

/-- and a run -/
theorem run_cost {t : St} {ops : List Op} (h : Inv E s) (hauto : ∀ o ∈ ops, Auto o) (hr : run E s ops = some t) :
    ops.length + cost E t ≤ cost E s ∧ (EveryStep E Notifies s ops → ops.length + cost E t = cost E s) := by
  induction ops generalizing s with
  | nil =>
    have hst : s = t := Option.some.inj hr
    subst hst
    exact ⟨by simp, fun _ => by simp⟩
  | cons o ops ih =>
    rw [run_cons] at hr
    obtain ⟨s', hs, hr⟩ := Option.bind_eq_some_iff.1 hr
    obtain ⟨ho, hops⟩ := List.forall_mem_cons.1 hauto
    obtain ⟨hle, heq⟩ := auto_cost h ho hs
    obtain ⟨hle', heq'⟩ := ih (step_inv h hs) hops hr
    rw [List.length_cons]
    refine ⟨by omega, ?_⟩
    rintro ⟨hn, hns⟩
    have h1 := heq hn
    have h2 := heq' (hns s' hs)
    omega

/-! ## What remains to be done -/

/-- with nothing left to pay nothing waits -/
theorem quiet_of_cost (h : cost E s = 0) : Quiet s := by
  obtain ⟨hflight, hviews⟩ := Nat.add_eq_zero_iff.1 h
  refine ⟨?_, ?_⟩
  · cases hf : s.flight with
    | nil => rfl
    | cons e rest =>
      exfalso
      have hpos : 1 ≤ pathCost E (colls s) e.2.path := by
        unfold pathCost
        cases Coll.ofPath E.uid e.2.path.coll with
        | none => exact le_rfl
        | some c => exact Nat.le_add_right 1 _
      rw [hf, flightCost, List.map_cons, List.sum_cons] at hflight
      omega
  · intro v hv
    have hzero := List.sum_eq_zero_iff.1 hviews _ (List.mem_map_of_mem hv)
    have hpos : snapshotCost (colls s) v.coll ≠ 0 := by
      rw [snapshotCost_eq E]
      omega
    exact List.length_eq_zero_iff.1 ((Nat.mul_eq_zero.1 hzero).resolve_right hpos)

theorem cost_of_quiet (E : Env) (h : Quiet s) : cost E s = 0 := by
  have hflight : flightCost E (colls s) s.flight = 0 := by rw [h.flight]; rfl
  have hviews : viewsCost (snapshotCost (colls s)) s.views = 0 := by
    refine List.sum_eq_zero_iff.2 ?_
    intro n hn
    obtain ⟨v, hv, rfl⟩ := List.mem_map.1 hn
    rw [h.pending v hv, List.length_nil, Nat.zero_mul]
  rw [cost, hflight, hviews]

/-- **Progress.** What waits can be applied or delivered. -/
theorem exists_auto (h : Inv E s) (hq : ¬Quiet s) : ∃ o, Auto o ∧ Notifies s o ∧ ∃ s', step E s o = some s' := by
  cases hflight : s.flight with
  | cons e rest =>
    have htake : takeWrite e.1 s.flight = some (e.2, rest) := by rw [hflight]; exact if_pos rfl
    refine ⟨.apply e.1 (List.range s.views.length), trivial, fun i hi => List.mem_range.2 hi, ?_⟩
    rw [step, htake]
    exact ⟨_, rfl⟩
  | nil =>
    obtain ⟨v, hv, hpending⟩ : ∃ v ∈ s.views, v.pending ≠ [] := by
      by_contra hnone
      exact hq ⟨hflight, fun v hv => not_not.1 fun hp => hnone ⟨v, hv, hp⟩⟩
    obtain ⟨documents, rest, hp⟩ := List.exists_cons_of_ne_nil hpending
    obtain ⟨i, hi⟩ := List.getElem?_of_mem hv
    have hty : ∀ e ∈ documents, HasType v.coll e.2 := fun e he =>
      ((h.views_ok v hv).pending documents (by rw [hp]; exact List.mem_cons_self) e he).2.hasType
    refine ⟨.deliver i, trivial, trivial, ?_⟩
    simp only [step, hi, View.deliver, hp, callback_eq hty, Option.bind_eq_bind, Option.bind_some]
    exact ⟨_, rfl⟩

/-! ## Up to date -/

/-- the listener has the content of its collection, or it comes with the last snapshot queued -/
def Current (E : Env) (store : Store) (v : View) : Prop :=
  v.pending.getLast?.or v.last = some (content E store v.coll)

/-- a write leaves the content of other collections as it was -/
theorem content_apply_ne {w : Write} {c : Coll} (h : c.path E.uid ≠ w.path.coll) (store : Store) :
    content E (w.apply store) c = content E store c := by
  refine orderBy_congr ?_ _
  intro id
  refine Write.lookup_apply_ne _ _ ?_
  rintro hp
  exact h (congrArg DocPath.coll hp)

/-- **Nobody falls behind** where everybody is notified. -/
theorem step_current {o : Op} (h : Inv E s) (hn : Notifies s o) (hs : step E s o = some s')
    (hcur : ∀ v ∈ s.views, Current E s.store v) : ∀ v ∈ s'.views, Current E s'.store v := by
  cases step_effect h hs with
  | load o client c ho hc he =>
    subst he
    exact List.forall_mem_append.2 ⟨hcur, List.forall_mem_singleton.2 rfl⟩
  | form o forms ho hf he => subst he; exact hcur
  | add i f c id data hf hpress hc hdata hid he => subst he; exact hcur
  | edit i f c id new data hf hpress hborn hdata he => subst he; exact hcur
  | remove o client c ho id hborn he => subst he; exact hcur
  | apply c w pre post notify hflight hpre he =>
    subst he
    intro v hv
    obtain ⟨i, hi, rfl⟩ := List.mem_mapIdx.1 hv
    by_cases hpath : s.views[i].coll.path E.uid = w.path.coll
    · simp only [notified, if_pos (And.intro (hn i hi) hpath)]
      simp only [Current, List.getLast?_append, List.getLast?_singleton, Option.some_or]
      rfl
    · simp only [notified, if_neg fun hboth : i ∈ notify ∧ _ => hpath hboth.2]
      have hold := hcur _ (List.getElem_mem hi)
      rw [Current] at hold ⊢
      rw [hold, applied, content_apply_ne hpath]
  | deliver i v documents rest hv hpending he =>
    subst he
    intro v' hv'
    rcases List.mem_or_eq_of_mem_set hv' with hv' | rfl
    · exact hcur v' hv'
    · have hold := hcur v (List.mem_of_getElem? hv)
      rw [Current, hpending, List.getLast?_cons] at hold
      rw [Current]
      cases hrest : rest.getLast? with
      | none => simpa [hrest] using hold
      | some x => simpa [hrest] using hold

theorem Quiet.settled_of_current (hq : Quiet s) (hcur : ∀ v ∈ s.views, Current E s.store v) : Settled E s := by
  refine ⟨hq, ?_⟩
  intro v hv
  have hv' := hcur v hv
  rwa [Current, hq.pending v hv, List.getLast?_nil, Option.none_or] at hv'

theorem run_current {t : St} {ops : List Op} (h : Inv E s) (hn : EveryStep E Notifies s ops)
    (hr : run E s ops = some t) (hcur : ∀ v ∈ s.views, Current E s.store v) : ∀ v ∈ t.views, Current E t.store v := by
  induction ops generalizing s with
  | nil =>
    have hst : s = t := Option.some.inj hr
    exact hst ▸ hcur
  | cons o ops ih =>
    rw [run_cons] at hr
    obtain ⟨s', hs, hr⟩ := Option.bind_eq_some_iff.1 hr
    exact ih (step_inv h hs) (hn.2 s' hs) hr (step_current h hn.1 hs hcur)

/-! ## Runs without users -/

/-- the server can pay off all that waits -/
theorem exists_paying (h : Inv E s) : ∃ ops t, (∀ o ∈ ops, Auto o) ∧ EveryStep E Notifies s ops ∧
    run E s ops = some t ∧ cost E t = 0 := by
  induction hc : cost E s using Nat.strong_induction_on generalizing s with
  | _ n ih =>
    by_cases hzero : n = 0
    · exact ⟨[], s, fun o ho => absurd ho List.not_mem_nil, trivial, rfl, hc.trans hzero⟩
    · have hq : ¬Quiet s := fun hq => hzero (hc.symm.trans (cost_of_quiet E hq))
      obtain ⟨o, ho, hn, s', hs⟩ := exists_auto h hq
      have hpaid := (auto_cost h ho hs).1
      obtain ⟨ops, t, hops, hns, hr, ht⟩ := ih (cost E s') (by omega) (step_inv h hs) rfl
      refine ⟨o :: ops, t, List.forall_mem_cons.2 ⟨ho, hops⟩, ⟨hn, ?_⟩, ?_, ht⟩
      · intro s'' hs''
        rw [Option.mem_def, hs, Option.some.injEq] at hs''
        exact hs'' ▸ hns
      · rw [run_cons, hs, Option.bind_some, hr]

/-- **The cost of the cascade.** From a reachable state no run without users is longer than the cost of the state; one
in which everybody is notified pays one at each step; and some such run pays it all. -/
theorem cascade_cost (E : Env) (s : St) (h : Reachable E s) :
    (∀ ops t, (∀ o ∈ ops, Auto o) → run E s ops = some t → ops.length + cost E t ≤ cost E s ∧
      (EveryStep E Notifies s ops → ops.length + cost E t = cost E s)) ∧
    ∃ ops t, (∀ o ∈ ops, Auto o) ∧ EveryStep E Notifies s ops ∧ run E s ops = some t ∧ ops.length = cost E s ∧
      Quiet t := by
  have hinv := reachable_inv h
  refine ⟨fun ops t hops hr => run_cost hinv hops hr, ?_⟩
  obtain ⟨ops, t, hops, hn, hr, ht⟩ := exists_paying hinv
  have hpaid := (run_cost hinv hops hr).2 hn
  exact ⟨ops, t, hops, hn, hr, by omega, quiet_of_cost ht⟩

/-- before the second session is settled: the edit and the new assignment set off both levels, at two listeners each -/
theorem cascade_cost_pressed : cost sampleEnv (after pressedRun) = 42 ∧
    (∀ ops t, (∀ o ∈ ops, Auto o) → run sampleEnv (after pressedRun) ops = some t →
      ops.length + cost sampleEnv t ≤ cost sampleEnv (after pressedRun) ∧
        (EveryStep sampleEnv Notifies (after pressedRun) ops →
          ops.length + cost sampleEnv t = cost sampleEnv (after pressedRun))) ∧
    ∃ ops t, (∀ o ∈ ops, Auto o) ∧ EveryStep sampleEnv Notifies (after pressedRun) ops ∧
      run sampleEnv (after pressedRun) ops = some t ∧ ops.length = cost sampleEnv (after pressedRun) ∧ Quiet t := by
  have hrun : (run sampleEnv init pressedRun).isSome ∧ cost sampleEnv (after pressedRun) = 42 := by
    rw [after_direct, run_init_direct]
    decide +kernel
  exact ⟨hrun.2, cascade_cost sampleEnv _ (reachable_after _ hrun.1)⟩

/-- **Sessions settle.** After a run in which everybody was notified of every write the server alone can reach a settled
state, and while everybody is notified it is settled exactly when as many steps are made as the state costs. -/
theorem settles (E : Env) (ops : List Op) (s : St) (h : run E init ops = some s) (hn : EveryStep E Notifies init ops) :
    (∃ more t, (∀ o ∈ more, Auto o) ∧ EveryStep E Notifies s more ∧ run E s more = some t ∧ Settled E t) ∧
    ∀ more t, (∀ o ∈ more, Auto o) → EveryStep E Notifies s more → run E s more = some t →
      (Settled E t ↔ more.length = cost E s) := by
  have hinv := reachable_inv ⟨ops, h⟩
  have hcur := run_current (inv_init E) hn h fun v hv => absurd hv List.not_mem_nil
  refine ⟨?_, ?_⟩
  · obtain ⟨more, t, hmore, hnm, hr, ht⟩ := exists_paying hinv
    exact ⟨more, t, hmore, hnm, hr, Quiet.settled_of_current (quiet_of_cost ht) (run_current hinv hnm hr hcur)⟩
  · intro more t hmore hnm hr
    have hpaid := (run_cost hinv hmore hr).2 hnm
    refine ⟨fun ht => ?_, fun hlen => ?_⟩
    · have hzero := cost_of_quiet E ht.toQuiet
      omega
    · have hzero : cost E t = 0 := by omega
      exact Quiet.settled_of_current (quiet_of_cost hzero) (run_current hinv hnm hr hcur)

/-- the same session, with every view notified of every write -/
def heardRun : List Op := pressedRun.map fun | .apply c _ => .apply c (List.range 6) | o => o

theorem settles_heard :
    (∃ more t, (∀ o ∈ more, Auto o) ∧ EveryStep sampleEnv Notifies (after heardRun) more ∧
      run sampleEnv (after heardRun) more = some t ∧ Settled sampleEnv t) ∧
    ∀ more t, (∀ o ∈ more, Auto o) → EveryStep sampleEnv Notifies (after heardRun) more →
      run sampleEnv (after heardRun) more = some t →
        (Settled sampleEnv t ↔ more.length = cost sampleEnv (after heardRun)) := by
  have hrun : (run sampleEnv init heardRun).isSome ∧ EveryStep sampleEnv Notifies init heardRun := by
    decide +kernel
  exact settles sampleEnv heardRun _ (run_init_after _ hrun.1) hrun.2

end GradeKeep.Settling
