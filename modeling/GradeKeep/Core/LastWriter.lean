/-
Convergence of a derived field that many readers recompute and write back (a last-writer argument).

Clients hold readers of keys. A reader that sees a snapshot x of key k makes its client issue a write of `agg k x` to
the derived field of k. A client's writes are applied in the order issued, the writes of different clients in any
order. A key is born with some first value, which those who read it already are about to overwrite, and may disappear.

`Obs` is what the argument observes of such a system: which snapshot each client's readers of k saw last, the writes of
k's field each client has in flight, and the stored field. Any machine whose steps change the observation as in `Step`
is covered, whatever else it does.

Results:
- `Step.inv`: the invariant `Inv` (the last write a client has in flight is the aggregate of a snapshot one of its
  readers saw last; the stored value is such an aggregate too, or an overwrite is still in flight) is kept by a step;
- `settled`: with nothing in flight and every reader of k up to date, the stored field of k is the aggregate of the
  current snapshot.
-/
import Mathlib.Tactic

namespace GradeKeep.LastWriter

variable {C K S V : Type}

structure Obs (C K S V : Type) where
  /-- client c holds a reader of k that saw x last -/
  reader : C → K → S → Prop
  /-- c's writes of k's derived field that are not applied yet, oldest first -/
  inflight : C → K → List V
  /-- the derived field of k; `none` while k does not exist -/
  stored : K → Option V

/-- one step, as far as the observation goes -/
inductive Step (agg : K → S → V) (o o' : Obs C K S V) : Prop where
  /-- nothing observable happens -/
  | skip (hr : ∀ c k x, o'.reader c k x ↔ o.reader c k x) (hf : ∀ c k, o'.inflight c k = o.inflight c k)
      (hs : ∀ k, o'.stored k = o.stored k)
  /-- a reader of k at client c sees x, and c issues the aggregate -/
  | see (c : C) (k : K) (x : S) (hx : o'.reader c k x)
      (hr : ∀ c' k', ¬(c' = c ∧ k' = k) → ∀ y, o'.reader c' k' y ↔ o.reader c' k' y)
      (hf : o'.inflight c k = o.inflight c k ++ [agg k x])
      (hf' : ∀ c' k', ¬(c' = c ∧ k' = k) → o'.inflight c' k' = o.inflight c' k')
      (hs : ∀ k, o'.stored k = o.stored k)
  /-- the oldest write of k that c has in flight is applied; it is lost if k does not exist -/
  | commit (c : C) (k : K) (v : V) (hr : ∀ c k x, o'.reader c k x ↔ o.reader c k x)
      (hf : o.inflight c k = v :: o'.inflight c k)
      (hf' : ∀ c' k', ¬(c' = c ∧ k' = k) → o'.inflight c' k' = o.inflight c' k')
      (hs : o'.stored k = (o.stored k).map fun _ => v) (hs' : ∀ k', k' ≠ k → o'.stored k' = o.stored k')
  /-- k comes into being; whoever reads it already has a write of its field in flight -/
  | born (k : K) (hk : (∃ c x, o.reader c k x) → ∃ c, o.inflight c k ≠ [])
      (hr : ∀ c k x, o'.reader c k x ↔ o.reader c k x) (hf : ∀ c k, o'.inflight c k = o.inflight c k)
      (hs' : ∀ k', k' ≠ k → o'.stored k' = o.stored k')
  /-- k disappears -/
  | gone (k : K) (hr : ∀ c k x, o'.reader c k x ↔ o.reader c k x)
      (hf : ∀ c k, o'.inflight c k = o.inflight c k) (hs : o'.stored k = none)
      (hs' : ∀ k', k' ≠ k → o'.stored k' = o.stored k')

structure Inv (agg : K → S → V) (o : Obs C K S V) : Prop where
  /-- the newest write in flight is what one of the client's readers saw last -/
  issued : ∀ c k v, (o.inflight c k).getLast? = some v → ∃ x, o.reader c k x ∧ agg k x = v
  /-- so is the stored value, unless an overwrite is still in flight -/
  latest : ∀ k v, o.stored k = some v → (∃ c x, o.reader c k x) →
    ∃ c, o.inflight c k ≠ [] ∨ ∃ x, o.reader c k x ∧ agg k x = v

variable {agg : K → S → V} {o o' : Obs C K S V}

theorem inv_of_no_reader (hr : ∀ c k x, ¬o.reader c k x) (hf : ∀ c k, o.inflight c k = []) : Inv agg o := by
  refine ⟨?_, ?_⟩
  · intro c k v hv
    rw [hf c k] at hv
    simp at hv
  · intro k v _ hrd
    obtain ⟨c, x, hx⟩ := hrd
    exact absurd hx (hr c k x)

section Same

-- a step that changes neither the readers nor the writes in flight
variable (h : Inv agg o) (hr : ∀ c k x, o'.reader c k x ↔ o.reader c k x)
  (hf : ∀ c k, o'.inflight c k = o.inflight c k)
include h hr hf

theorem Inv.issued_same (c : C) (k : K) (v : V) (hv : (o'.inflight c k).getLast? = some v) :
    ∃ x, o'.reader c k x ∧ agg k x = v := by
  rw [hf] at hv
  obtain ⟨x, hx, hagg⟩ := h.issued c k v hv
  exact ⟨x, (hr c k x).2 hx, hagg⟩

theorem Inv.latest_same {k : K} (hs : o'.stored k = o.stored k) (v : V) (hv : o'.stored k = some v)
    (hrd : ∃ c x, o'.reader c k x) : ∃ c, o'.inflight c k ≠ [] ∨ ∃ x, o'.reader c k x ∧ agg k x = v := by
  simp only [hr, hf] at hrd ⊢
  rw [hs] at hv
  exact h.latest k v hv hrd

end Same

theorem Step.inv (hs : Step agg o o') (h : Inv agg o) : Inv agg o' := by
  classical
  cases hs with
  | skip hr hf hs =>
    refine ⟨?_, ?_⟩
    · exact h.issued_same hr hf
    · intro k v hv hrd
      exact h.latest_same hr hf (hs k) v hv hrd
  | see c k x hx hr hf hf' hs =>
    refine ⟨?_, ?_⟩
    · intro c' k' v hv
      by_cases hck : c' = c ∧ k' = k
      · obtain ⟨rfl, rfl⟩ := hck
        rw [hf, List.getLast?_append] at hv
        exact ⟨x, hx, by simpa using hv⟩
      · rw [hf' c' k' hck] at hv
        obtain ⟨y, hy, hv⟩ := h.issued c' k' v hv
        exact ⟨y, (hr c' k' hck y).2 hy, hv⟩
    · intro k' v hv hrd
      by_cases hk : k' = k
      · -- the write just issued is in flight
        subst hk
        refine ⟨c, Or.inl ?_⟩
        rw [hf]
        simp
      · have hne : ∀ c', ¬(c' = c ∧ k' = k) := fun c' e => hk e.2
        rw [hs] at hv
        obtain ⟨c0, y0, hy0⟩ := hrd
        obtain ⟨c1, h1⟩ := h.latest k' v hv ⟨c0, y0, (hr c0 k' (hne c0) y0).1 hy0⟩
        refine ⟨c1, ?_⟩
        rcases h1 with h1 | ⟨y, hy, hagg⟩
        · left
          rwa [hf' c1 k' (hne c1)]
        · right
          exact ⟨y, (hr c1 k' (hne c1) y).2 hy, hagg⟩
  | commit c k v hr hf hf' hs hs' =>
    refine ⟨?_, ?_⟩
    · intro c' k' v' hv
      simp only [hr]
      by_cases hck : c' = c ∧ k' = k
      · obtain ⟨rfl, rfl⟩ := hck
        apply h.issued c' k' v'
        rw [hf, List.getLast?_cons, hv]
        rfl
      · rw [hf' c' k' hck] at hv
        exact h.issued c' k' v' hv
    · intro k' v' hv hrd
      simp only [hr] at hrd ⊢
      by_cases hk : k' = k
      · subst hk
        by_cases hemp : o'.inflight c k' = []
        · -- the write applied was c's newest, so it is what a reader of c saw last
          have hlast : (o.inflight c k').getLast? = some v := by
            rw [hf, hemp]
            rfl
          obtain ⟨x, hx, hxv⟩ := h.issued c k' v hlast
          rw [hs] at hv
          obtain ⟨w, -, hw⟩ := Option.map_eq_some_iff.1 hv
          exact ⟨c, Or.inr ⟨x, hx, hxv.trans hw⟩⟩
        · exact ⟨c, Or.inl hemp⟩
      · rw [hs' k' hk] at hv
        obtain ⟨c1, h1⟩ := h.latest k' v' hv hrd
        refine ⟨c1, ?_⟩
        rcases h1 with h1 | h1
        · left
          rwa [hf' c1 k' fun e => hk e.2]
        · right
          exact h1
  | born k hk hr hf hs' =>
    refine ⟨?_, ?_⟩
    · exact h.issued_same hr hf
    · intro k' v hv hrd
      by_cases hkk : k' = k
      · subst hkk
        obtain ⟨c₀, x, hx⟩ := hrd
        obtain ⟨c, hc⟩ := hk ⟨c₀, x, (hr c₀ k' x).1 hx⟩
        exact ⟨c, Or.inl (by rwa [hf])⟩
      · exact h.latest_same hr hf (hs' k' hkk) v hv hrd
  | gone k hr hf hs hs' =>
    refine ⟨?_, ?_⟩
    · exact h.issued_same hr hf
    · intro k' v hv hrd
      by_cases hkk : k' = k
      · subst hkk
        rw [hs] at hv
        cases hv
      · exact h.latest_same hr hf (hs' k' hkk) v hv hrd

/-- **Convergence.** With nothing in flight and every reader of k up to date, the derived field of an existing k that
somebody reads is the aggregate of the current snapshot. -/
theorem settled (h : Inv agg o) (hf : ∀ c k, o.inflight c k = []) {k : K} {cur : S} {v : V}
    (hcur : ∀ c x, o.reader c k x → x = cur) (hrd : ∃ c x, o.reader c k x) (hv : o.stored k = some v) :
    v = agg k cur := by
  obtain ⟨c, hne | ⟨x, hx, hxv⟩⟩ := h.latest k v hv hrd
  · exact absurd (hf c k) hne
  · rw [← hxv, hcur c x hx]

end GradeKeep.LastWriter
