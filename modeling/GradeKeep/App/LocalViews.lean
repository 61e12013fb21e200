/-
The running system with Firestore's cache: what its listeners are shown before the server has it, or after the server
has something else.

A listener sees its client's own writes before they are committed (`hasPendingWrites`), and documents from the client's
cache that may be out of date (`isFromCache`). Each document of such a snapshot is what the server had under its path
at some moment, with the client's own writes from some number on over it (`version`). Which moment and which writes is
left open, and for each document on its own; so is when a listener is shown such a snapshot, for it is queued before all
others (`fromCache`), and no queued snapshot ever has to be delivered. A client is shown no other client's writes before
the server has them.

Everything else is `System`'s: `stores` and `issued` record what its server has had and its clients have written.

Results:
- `run_base`: what the system does, it does here;
- `stepped`: step inversion.
-/
import GradeKeep.App.System

namespace GradeKeep.LocalViews

open GradeKeep.Firestore GradeKeep.Schema GradeKeep.System

/-- where a client's version of a document comes from -/
structure Pick where
  id : Segment
  /-- the number of the store it was read from -/
  read : ℕ
  /-- how many of its own writes the client takes for committed -/
  acked : ℕ
deriving DecidableEq

structure St where
  base : System.St
  /-- what the server has had, oldest first -/
  stores : List Store
  /-- what the clients have written, oldest first -/
  issued : List (ℕ × Write)

inductive Op where
  | base (o : System.Op)
  /-- view v is to be shown these documents next -/
  | fromCache (v : ℕ) (picks : List Pick)
deriving DecidableEq

def init : St := ⟨System.init, [∅], []⟩

/-- the client's own writes to p that are not committed -/
def unacknowledged (s : St) (client : ℕ) (p : DocPath) (acked : ℕ) : List Write :=
  (((s.issued.filter fun e => e.1 = client).drop acked).map (·.2)).filter fun w => w.path = p

/-- a client's version of a document -/
def version (s : St) (client : ℕ) (p : DocPath) (pick : Pick) : Option Doc :=
  Write.results (unacknowledged s client p pick.acked) (s.stores[pick.read]?.bind fun store => Store.find store p)

/-- the snapshot of these documents, as the query of v returns it -/
def cached (E : Env) (s : St) (v : View) (picks : List Pick) : Snapshot :=
  orderBy v.coll.orderKey (picks.filterMap fun pick =>
    (version s v.client (v.coll.doc E.uid pick.id) pick).map fun d => (pick.id, d))

/-- the writes that a step from s to t puts in flight -/
def newWrites (s t : System.St) : List (ℕ × Write) := t.flight.drop s.flight.length

def step (E : Env) (s : St) : Op → Option St
  | .base o => do
    let t ← System.step E s.base o
    some ⟨t, s.stores ++ [t.store], s.issued ++ newWrites s.base t⟩
  | .fromCache v picks => do
    let view ← s.base.views[v]?
    if (picks.map (·.id)).Nodup then
      some { s with base := { s.base with
        views := s.base.views.set v { view with pending := cached E s view picks :: view.pending } } }
    else none

def run (E : Env) (s : St) (ops : List Op) : Option St := ops.foldlM (step E) s

def Reachable (E : Env) (s : St) : Prop := ∃ ops, run E init ops = some s

/-- a step, with what it found in the state -/
inductive Stepped (E : Env) (s : St) : Op → St → Prop where
  | base (o : System.Op) (t : System.St) (hs : System.step E s.base o = some t) :
      Stepped E s (.base o) ⟨t, s.stores ++ [t.store], s.issued ++ newWrites s.base t⟩
  | fromCache (v : ℕ) (picks : List Pick) (view : View) (hv : s.base.views[v]? = some view)
      (hnodup : (picks.map (·.id)).Nodup) : Stepped E s (.fromCache v picks)
        { s with base := { s.base with
          views := s.base.views.set v { view with pending := cached E s view picks :: view.pending } } }

theorem stepped {E : Env} {s s' : St} {o : Op} (h : step E s o = some s') : Stepped E s o s' := by
  cases o with
  | base o =>
    simp only [step, Option.bind_eq_bind, Option.bind_eq_some_iff, Option.some.injEq] at h
    obtain ⟨t, ht, rfl⟩ := h
    exact .base o t ht
  | fromCache v picks =>
    simp only [step, Option.bind_eq_bind, Option.bind_eq_some_iff, Option.ite_none_right_eq_some,
      Option.some.injEq] at h
    obtain ⟨view, hv, hnodup, rfl⟩ := h
    exact .fromCache v picks view hv hnodup

/-- **The system is part of it.** A run without the cache is a run of the system. -/
theorem run_base (E : Env) (ops : List System.Op) (s : St) :
    (run E s (ops.map .base)).map (·.base) = System.run E s.base ops := by
  induction ops generalizing s with
  | nil => rfl
  | cons o ops ih =>
    rw [run_cons, List.map_cons, run, List.foldlM_cons, step]
    cases System.step E s.base o with
    | none => rfl
    | some t => exact ih ⟨t, s.stores ++ [t.store], s.issued ++ newWrites s.base t⟩

theorem Reachable.induction {E : Env} {P : St → Prop} (hinit : P init)
    (hstep : ∀ s o s', P s → LocalViews.step E s o = some s' → P s') {s : St} (h : Reachable E s) : P s := by
  obtain ⟨ops, hops⟩ := h
  exact Trace.invariant hstep hinit hops

theorem Reachable.step {E : Env} {s s' : St} {o : Op} (h : Reachable E s) (hs : LocalViews.step E s o = some s') :
    Reachable E s' := by
  obtain ⟨ops, hops⟩ := h
  refine ⟨ops ++ [o], ?_⟩
  rw [run, List.foldlM_append]
  show (run E init ops).bind _ = _
  rw [hops, Option.bind_some, List.foldlM_cons, hs]
  rfl

/-- every reachable state of the system is one of these -/
theorem reachable_base {E : Env} {s : System.St} (h : System.Reachable E s) : ∃ t, Reachable E t ∧ t.base = s := by
  obtain ⟨ops, hops⟩ := h
  have hrun := (run_base E ops init).trans hops
  obtain ⟨t, ht, rfl⟩ := Option.map_eq_some_iff.1 hrun
  exact ⟨t, ⟨_, ht⟩, rfl⟩

/-! ## What a version is made of -/

theorem mem_unacknowledged {s : St} {client : ℕ} {p : DocPath} {acked : ℕ} {w : Write}
    (h : w ∈ unacknowledged s client p acked) : (client, w) ∈ s.issued ∧ w.path = p := by
  obtain ⟨hw, hp⟩ := List.mem_filter.1 h
  obtain ⟨⟨c, w'⟩, he, rfl⟩ := List.mem_map.1 hw
  obtain ⟨hissued, hc⟩ := List.mem_filter.1 (List.mem_of_mem_drop he)
  rw [decide_eq_true_eq] at hc hp
  subst hc
  exact ⟨hissued, hp⟩

/-- **What the stores have and the client's own writes keep**, its version has. -/
theorem version_keeps {P : Doc → Prop} {s : St} {client : ℕ} {p : DocPath} {pick : Pick}
    (hstores : ∀ store ∈ s.stores, ∀ d, store.lookup p = some d → P d)
    (hwrites : ∀ w, (client, w) ∈ s.issued → w.path = p → ∀ old, (∀ d ∈ old, P d) → ∀ d ∈ w.result old, P d) :
    ∀ d ∈ version s client p pick, P d := by
  refine Write.results_keeps (fun w hw => ?_) ?_
  · obtain ⟨hissued, hp⟩ := mem_unacknowledged hw
    exact hwrites w hissued hp
  · intro d hd
    obtain ⟨store, hstore, hfind⟩ := Option.bind_eq_some_iff.1 hd
    rw [Store.find_eq_lookup] at hfind
    exact hstores store (List.mem_of_getElem? hstore) d hfind

/-- nothing is shown that was never stored and that the client did not add -/
theorem version_known {s : St} {client : ℕ} {p : DocPath} {pick : Pick} {d : Doc}
    (h : version s client p pick = some d) :
    (∃ store ∈ s.stores, (store.lookup p).isSome) ∨ ∃ data, (client, .add p data) ∈ s.issued := by
  refine version_keeps (P := fun _ =>
    (∃ store ∈ s.stores, (store.lookup p).isSome) ∨ ∃ data, (client, .add p data) ∈ s.issued) ?_ ?_ d h
  · intro store hstore d hd
    exact Or.inl ⟨store, hstore, by rw [hd]; rfl⟩
  · intro w hissued hp old hold d hd
    cases w with
    | add q data => exact Or.inr ⟨data, hp ▸ hissued⟩
    | update q data =>
      obtain ⟨d₀, hd₀, -⟩ := Option.map_eq_some_iff.1 hd
      exact hold d₀ hd₀
    | delete q => cases hd

theorem mem_cached {E : Env} {s : St} {v : View} {picks : List Pick} {e : Segment × Doc} (h : e ∈ cached E s v picks) :
    ∃ pick, version s v.client (v.coll.doc E.uid e.1) pick = some e.2 := by
  obtain ⟨pick, -, he⟩ := List.mem_filterMap.1 (mem_orderBy.1 h).1
  obtain ⟨d, hd, rfl⟩ := Option.map_eq_some_iff.1 he
  exact ⟨pick, hd⟩

theorem cached_nodup {E : Env} {s : St} {v : View} {picks : List Pick} (h : (picks.map (·.id)).Nodup) :
    ((cached E s v picks).map Prod.fst).Nodup := by
  refine orderBy_nodup ?_
  have hids : (picks.filterMap fun pick =>
      (version s v.client (v.coll.doc E.uid pick.id) pick).map fun d => (pick.id, d)).map Prod.fst =
        (picks.filter fun pick => (version s v.client (v.coll.doc E.uid pick.id) pick).isSome).map (·.id) := by
    induction picks with
    | nil => rfl
    | cons pick picks ih =>
      have ih' := ih (List.nodup_cons.1 h).2
      cases hv : version s v.client (v.coll.doc E.uid pick.id) pick with
      | none => simp [hv, ih']
      | some d => simp [hv, ih']
  rw [hids]
  exact h.sublist (List.filter_sublist.map _)

/-! ## A session -/

/-- one user adds a course and a category of weight 1 to it; the tables show them, and a grade is written, before the
server has any of it -/
def offlineRun : List Op :=
  [.base (.viewDidLoad 0), .base (.deliver 0), .base (.newForm 0), .base (.type 0 (.cname "CS")),
   .base (.press 0 sampleCourse), .fromCache 0 [⟨sampleCourse, 0, 0⟩], .base (.deliver 0), .base (.segue 0 0),
   .base (.newForm 1), .base (.type 1 (.category .catname "Labs")), .base (.type 1 (.category .weight "1")),
   .base (.press 1 sampleCategory), .fromCache 1 [⟨sampleCategory, 0, 0⟩], .base (.deliver 1)]

/-- ... then the server applies it all, and everybody is shown what it has -/
def onlineOps : List Op :=
  [.base (.apply 0 [0]), .base (.apply 0 [1]), .base (.apply 0 [0]), .base (.deliver 0), .base (.deliver 0),
   .base (.deliver 1), .base (.deliver 1), .base (.apply 0 [0]), .base (.apply 0 [0]), .base (.deliver 0),
   .base (.deliver 0)]

/-- where a run of the sample environment ends -/
def after (ops : List Op) : St := (run sampleEnv init ops).getD init

theorem run_init_after (ops : List Op) (h : (run sampleEnv init ops).isSome) :
    run sampleEnv init ops = some (after ops) := by
  obtain ⟨s, hs⟩ := Option.isSome_iff_exists.1 h
  rw [after, hs, Option.getD_some]

end GradeKeep.LocalViews
