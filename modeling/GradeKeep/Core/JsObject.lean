/-
A plain JavaScript object `{}` filled by assignments `data[key] = value`, whose values are no objects.

An assignment makes a property of the object's own, also under a name its prototype has. The one exception is
`__proto__`, an accessor of the prototype that ignores a value that is no object. A property assigned twice keeps the
later value. The order of the properties is not modelled: what is sent of an object is an unordered set of members.

Results:
- `fill_shadowed`: the value of an entry whose key is assigned again later, or is `__proto__`, does not matter;
- `entries_fill`, `lookup_fill`: with plain keys (distinct, none of them `__proto__`) the object holds just the entries;
- `card_fill_eq`, `plain_of_card`: it has a property for each entry exactly when the keys are plain;
- `fill_perm`: so plain entries fill an object that no other list of at most their length fills.
-/
import Mathlib.Tactic
import Mathlib.Data.Finmap

namespace GradeKeep.JsObject

variable {V : Type}

abbrev Object (V : Type) := Finmap fun _ : String => V

/-- `data[key] = value` -/
def set (data : Object V) (key : String) (value : V) : Object V :=
  if key = "__proto__" then data else data.insert key value

/-- `var data = {}` and one assignment for each entry -/
def fill (l : List (String × V)) : Object V := l.foldl (fun data e => set data e.1 e.2) ∅

/-- the keys are distinct, and assigning to each makes a property -/
def Plain (l : List (String × V)) : Prop := (l.map Prod.fst).Nodup ∧ "__proto__" ∉ l.map Prod.fst

theorem fill_concat (l : List (String × V)) (e : String × V) : fill (l ++ [e]) = set (fill l) e.1 e.2 := by
  rw [fill, List.foldl_append]
  rfl

theorem lookup_set (data : Object V) (key key' : String) (value : V) :
    (set data key value).lookup key' =
      if key' = key ∧ key ≠ "__proto__" then some value else data.lookup key' := by
  unfold set
  by_cases hp : key = "__proto__"
  · simp [hp]
  · rw [if_neg hp]
    by_cases hk : key' = key
    · subst hk
      rw [if_pos ⟨rfl, hp⟩]
      exact Finmap.lookup_insert data
    · rw [if_neg fun h => hk h.1]
      exact Finmap.lookup_insert_of_ne data hk

/-! ## Shadowed entries -/

/-- objects that agree but for one key agree after a list of assignments that assigns it -/
theorem foldl_set_congr {key : String} {l : List (String × V)} (h : key ∈ l.map Prod.fst) (hp : key ≠ "__proto__")
    {data data' : Object V} (hd : ∀ k, k ≠ key → data.lookup k = data'.lookup k) :
    l.foldl (fun data e => set data e.1 e.2) data = l.foldl (fun data e => set data e.1 e.2) data' := by
  induction l generalizing data data' with
  | nil => simp at h
  | cons e l ih =>
    simp only [List.foldl_cons]
    by_cases he : e.1 = key
    · -- this assignment overwrites the difference
      have hset : set data e.1 e.2 = set data' e.1 e.2 := by
        apply Finmap.ext_lookup
        intro k
        rw [lookup_set, lookup_set]
        split_ifs with hk
        · rfl
        · refine hd k fun hkey => hk ⟨hkey.trans he.symm, ?_⟩
          rw [he]
          exact hp
      rw [hset]
    · have htail : key ∈ l.map Prod.fst := by
        rw [List.map_cons] at h
        exact (List.mem_cons.1 h).resolve_left fun h' => he h'.symm
      apply ih htail
      intro k hk
      rw [lookup_set, lookup_set, hd k hk]

theorem fill_shadowed {pre post : List (String × V)} {key : String}
    (h : key = "__proto__" ∨ key ∈ post.map Prod.fst) (value value' : V) :
    fill (pre ++ (key, value) :: post) = fill (pre ++ (key, value') :: post) := by
  simp only [fill, List.foldl_append, List.foldl_cons]
  by_cases hp : key = "__proto__"
  · simp [set, hp]
  · apply foldl_set_congr (h.resolve_left hp) hp
    intro k hk
    rw [lookup_set, lookup_set, if_neg fun h => hk h.1, if_neg fun h => hk h.1]

/-! ## Plain keys -/

theorem plain_concat {l : List (String × V)} {e : String × V} :
    Plain (l ++ [e]) ↔ Plain l ∧ e.1 ∉ l.map Prod.fst ∧ e.1 ≠ "__proto__" := by
  unfold Plain
  rw [List.map_append, List.nodup_append]
  refine ⟨fun h => ?_, fun h => ?_⟩
  · obtain ⟨⟨hl, -, hdis⟩, hp⟩ := h
    simp only [List.map_cons, List.map_nil, List.mem_append, List.mem_singleton, not_or] at hp hdis
    exact ⟨⟨hl, hp.1⟩, fun h => hdis e.1 h e.1 rfl rfl, fun h => hp.2 h.symm⟩
  · obtain ⟨⟨hl, hp⟩, hnew, hne⟩ := h
    refine ⟨⟨hl, by simp, ?_⟩, ?_⟩
    · intro a ha b hb hab
      simp only [List.map_cons, List.map_nil, List.mem_singleton] at hb
      exact hnew (hb ▸ hab ▸ ha)
    · simp only [List.map_cons, List.map_nil, List.mem_append, List.mem_singleton, not_or]
      exact ⟨hp, fun h => hne h.symm⟩

/-- no property without its entry -/
theorem mem_of_mem_fill {l : List (String × V)} {key : String} (h : key ∈ fill l) : key ∈ l.map Prod.fst := by
  induction l using List.reverseRecOn with
  | nil => exact absurd h Finmap.notMem_empty
  | append_singleton l e ih =>
    rw [fill_concat, set] at h
    rw [List.map_append, List.mem_append]
    split_ifs at h with hp
    · exact Or.inl (ih h)
    · rcases Finmap.mem_insert.1 h with rfl | h
      · exact Or.inr (by simp)
      · exact Or.inl (ih h)

/-- an entry as a property -/
def property (e : String × V) : Sigma fun _ : String => V := ⟨e.1, e.2⟩

/-- **Plain entries are all there.** -/
theorem entries_fill {l : List (String × V)} (h : Plain l) : (fill l).entries = ↑(l.map property) := by
  induction l using List.reverseRecOn with
  | nil => rfl
  | append_singleton l e ih =>
    obtain ⟨hl, hnew, hp⟩ := plain_concat.1 h
    rw [fill_concat, set, if_neg hp, Finmap.entries_insert_of_notMem fun hmem => hnew (mem_of_mem_fill hmem), ih hl,
      List.map_append, ← Multiset.coe_add, add_comm]
    rfl

theorem lookup_fill {l : List (String × V)} (h : Plain l) {key : String} {value : V} (hmem : (key, value) ∈ l) :
    (fill l).lookup key = some value := by
  rw [Finmap.lookup_eq_some_iff, entries_fill h]
  exact List.mem_map.2 ⟨(key, value), hmem, rfl⟩

/-! ## Counting properties -/

theorem keys_fill_subset (l : List (String × V)) : (fill l).keys ⊆ (l.map Prod.fst).toFinset.erase "__proto__" := by
  intro key hkey
  rw [Finmap.mem_keys] at hkey
  refine Finset.mem_erase.2 ⟨?_, List.mem_toFinset.2 (mem_of_mem_fill hkey)⟩
  intro he
  subst he
  revert hkey
  induction l using List.reverseRecOn with
  | nil => exact Finmap.notMem_empty
  | append_singleton l e ih =>
    rw [fill_concat, set]
    split_ifs with hp
    · exact ih
    · intro h
      rcases Finmap.mem_insert.1 h with h | h
      · exact hp h.symm
      · exact ih h

theorem card_fill_eq {l : List (String × V)} (h : Plain l) : (fill l).keys.card = l.length := by
  show Multiset.card (Multiset.keys (fill l).entries) = l.length
  rw [Multiset.keys, Multiset.card_map, entries_fill h, Multiset.coe_card, List.length_map]

/-- an object with one property for each entry was filled with plain keys -/
theorem plain_of_card {l : List (String × V)} (h : l.length ≤ (fill l).keys.card) : Plain l := by
  have hsub := Finset.card_le_card (keys_fill_subset l)
  have herase := Finset.card_erase_le (s := (l.map Prod.fst).toFinset) (a := "__proto__")
  have hlist := List.toFinset_card_le (l.map Prod.fst)
  rw [List.length_map] at hlist
  refine ⟨?_, ?_⟩
  · apply Multiset.coe_nodup.1
    apply Multiset.toFinset_card_eq_card_iff_nodup.1
    rw [Multiset.coe_card, List.length_map]
    show (l.map Prod.fst).toFinset.card = l.length
    omega
  · intro hp
    have hlt := Finset.card_erase_lt_of_mem (List.mem_toFinset.2 hp)
    omega

/-- **No shorter form fills the same object.** -/
theorem fill_perm {l l' : List (String × V)} (h : Plain l) (hlen : l'.length ≤ l.length) (he : fill l' = fill l) :
    l'.Perm l := by
  have h' : Plain l' := plain_of_card (by rw [he, card_fill_eq h]; exact hlen)
  have hperm : (l'.map property).Perm (l.map property) := by
    rw [← Multiset.coe_eq_coe, ← entries_fill h', ← entries_fill h, he]
  have hinj : Function.Injective (property (V := V)) := by
    intro a b hab
    obtain ⟨a1, a2⟩ := a
    obtain ⟨b1, b2⟩ := b
    simpa [property] using hab
  exact (List.map_perm_map_iff hinj).1 hperm

end GradeKeep.JsObject
