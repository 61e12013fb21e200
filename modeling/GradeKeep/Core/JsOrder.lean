/-
The order of a JavaScript object's properties.

An object keeps its properties in the order in which they were made; assigning again to one leaves it where it is.
Whatever enumerates them (`for in`, `JSON.stringify`) first takes the array indices in ascending order and then the
other names in the order kept.

Results:
- `get_fill`: forgetting the order, this is the object of `JsObject`;
- `fill_pairwise`: names stand in the order of their first assignments;
- `ordered_pairwise`: so the order of enumeration is known from the names assigned to;
- `ofMembers_ordered`: an object that is made of another one's enumeration is enumerated like it.
-/
import GradeKeep.Core.JsObject
import Mathlib.Data.List.Sort

namespace GradeKeep.JsObject

variable {V : Type}

/-! ## Properties -/

def putMember (l : List (String × V)) (key : String) (value : V) : List (String × V) :=
  if key ∈ l.map Prod.fst then l.map fun e => if e.1 = key then (key, value) else e else l ++ [(key, value)]

theorem keys_putMember (l : List (String × V)) (key : String) (value : V) :
    (putMember l key value).map Prod.fst =
      if key ∈ l.map Prod.fst then l.map Prod.fst else l.map Prod.fst ++ [key] := by
  unfold putMember
  split_ifs with h
  · rw [List.map_map]
    refine List.map_congr_left ?_
    intro e _
    rw [Function.comp_apply]
    split_ifs with he
    · exact he.symm
    · rfl
  · rw [List.map_append, List.map_singleton]

theorem nodup_putMember {l : List (String × V)} (h : (l.map Prod.fst).Nodup) (key : String) (value : V) :
    ((putMember l key value).map Prod.fst).Nodup := by
  rw [keys_putMember]
  split_ifs with hk
  · exact h
  · rw [← List.concat_eq_append]
    exact h.concat hk

/-- an object's own properties, in the order in which they were made -/
structure Properties (V : Type) where
  members : List (String × V)
  nodup : (members.map Prod.fst).Nodup

namespace Properties

def empty : Properties V := ⟨[], List.nodup_nil⟩

def keys (o : Properties V) : List String := o.members.map Prod.fst

def get (o : Properties V) (key : String) : Option V := o.members.lookup key

/-- the property is made, or its value replaced -/
def put (o : Properties V) (key : String) (value : V) : Properties V :=
  ⟨putMember o.members key value, nodup_putMember o.nodup key value⟩

/-- `data[key] = value` -/
def assign (o : Properties V) (key : String) (value : V) : Properties V :=
  if key = "__proto__" then o else o.put key value

/-- `var data = {}` and one assignment for each entry -/
def fill (l : List (String × V)) : Properties V := l.foldl (fun data e => data.assign e.1 e.2) empty

/-- the object that JSON text with these members stands for; here `__proto__` is a name like any other -/
def ofMembers (l : List (String × V)) : Properties V := l.foldl (fun data e => data.put e.1 e.2) empty

end Properties

/-! ## Assignments -/

theorem lookup_cons (e : String × V) (l : List (String × V)) (key : String) :
    (e :: l).lookup key = if key = e.1 then some e.2 else l.lookup key := by
  obtain ⟨k, v⟩ := e
  rw [List.lookup_cons]
  by_cases h : key = k
  · simp [h]
  · rw [if_neg h, beq_eq_false_iff_ne.2 h]

theorem lookup_none {l : List (String × V)} {key : String} (h : key ∉ l.map Prod.fst) : l.lookup key = none := by
  rw [List.lookup_eq_none_iff]
  intro e he
  rw [bne_iff_ne]
  rintro rfl
  exact h (List.mem_map_of_mem he)

theorem lookup_putMember (l : List (String × V)) (key key' : String) (value : V) :
    (putMember l key value).lookup key' = if key' = key then some value else l.lookup key' := by
  unfold putMember
  split_ifs with h hk hk
  · subst hk
    induction l with
    | nil => cases h
    | cons e l ih =>
      rw [List.map_cons, lookup_cons]
      by_cases he : e.1 = key'
      · simp [he]
      · rw [if_neg he, if_neg (Ne.symm he)]
        exact ih ((List.mem_cons.1 h).resolve_left fun h' => he h'.symm)
  · clear h
    induction l with
    | nil => rfl
    | cons e l ih =>
      rw [List.map_cons, lookup_cons, lookup_cons, ih]
      by_cases he : e.1 = key
      · simp [he, hk]
      · rw [if_neg he]
  · rw [List.lookup_append, hk, lookup_none h, lookup_cons, if_pos rfl]
    rfl
  · rw [List.lookup_append, lookup_cons, if_neg hk]
    exact Option.or_none

namespace Properties

theorem mem_members_iff (o : Properties V) (key : String) (value : V) :
    (key, value) ∈ o.members ↔ o.get key = some value := by
  obtain ⟨l, hl⟩ := o
  show (key, value) ∈ l ↔ l.lookup key = some value
  induction l with
  | nil => simp
  | cons e l ih =>
    obtain ⟨hnew, hrest⟩ := List.nodup_cons.1 hl
    rw [lookup_cons, List.mem_cons, ih hrest]
    split_ifs with he
    · subst he
      rw [lookup_none hnew, Option.some.injEq, Prod.ext_iff]
      simpa using eq_comm
    · exact or_iff_right fun h => he (congrArg Prod.fst h)

theorem get_assign (o : Properties V) (key key' : String) (value : V) :
    (o.assign key value).get key' = if key' = key ∧ key ≠ "__proto__" then some value else o.get key' := by
  unfold assign
  by_cases hp : key = "__proto__"
  · rw [if_pos hp, if_neg fun h => h.2 hp]
  · rw [if_neg hp, get, put, lookup_putMember, get]
    simp only [hp, ne_eq, not_false_eq_true, and_true]

theorem keys_assign (o : Properties V) (key : String) (value : V) :
    (o.assign key value).keys = if key = "__proto__" ∨ key ∈ o.keys then o.keys else o.keys ++ [key] := by
  unfold assign
  by_cases hp : key = "__proto__"
  · rw [if_pos hp, if_pos (Or.inl hp)]
  · rw [if_neg hp, keys, put, keys_putMember, keys]
    simp only [hp, false_or]

theorem fill_append (l : List (String × V)) (e : String × V) : fill (l ++ [e]) = (fill l).assign e.1 e.2 :=
  List.foldl_append

/-- **The object without its order.** -/
theorem get_fill (l : List (String × V)) (key : String) : (fill l).get key = (JsObject.fill l).lookup key := by
  induction l using List.reverseRecOn with
  | nil => rfl
  | append_singleton l e ih => rw [fill_append, fill_concat, get_assign, lookup_set, ih]

theorem mem_keys_fill (l : List (String × V)) (key : String) :
    key ∈ (fill l).keys ↔ key ∈ l.map Prod.fst ∧ key ≠ "__proto__" := by
  induction l using List.reverseRecOn with
  | nil => simp [fill, empty, keys]
  | append_singleton l e ih =>
    rw [fill_append, keys_assign, List.map_append, List.mem_append, List.map_singleton, List.mem_singleton]
    split_ifs with h
    · rw [ih]
      refine ⟨fun hk => ⟨Or.inl hk.1, hk.2⟩, ?_⟩
      rintro ⟨hk | rfl, hne⟩
      · exact ⟨hk, hne⟩
      · exact ih.1 (h.resolve_left hne)
    · rw [not_or] at h
      rw [List.mem_append, List.mem_singleton, ih]
      refine ⟨?_, fun hk => hk.1.imp (fun hmem => ⟨hmem, hk.2⟩) id⟩
      rintro (hk | rfl)
      · exact ⟨Or.inl hk.1, hk.2⟩
      · exact ⟨Or.inr rfl, h.1⟩

/-- **The order of the names** is that of their first assignments. -/
theorem fill_pairwise (l : List (String × V)) :
    (fill l).keys.Pairwise fun a b => (l.map Prod.fst).idxOf a < (l.map Prod.fst).idxOf b := by
  induction l using List.reverseRecOn with
  | nil => exact List.Pairwise.nil
  | append_singleton l e ih =>
    have hkeep : (fill l).keys.Pairwise fun a b =>
        ((l ++ [e]).map Prod.fst).idxOf a < ((l ++ [e]).map Prod.fst).idxOf b := by
      refine ih.imp_of_mem ?_
      intro a b ha hb hab
      rw [List.map_append, List.idxOf_append_of_mem ((mem_keys_fill l a).1 ha).1,
        List.idxOf_append_of_mem ((mem_keys_fill l b).1 hb).1]
      exact hab
    rw [fill_append, keys_assign]
    split_ifs with h
    · exact hkeep
    · rw [not_or] at h
      refine List.pairwise_append.2 ⟨hkeep, List.pairwise_singleton _ _, ?_⟩
      intro a ha b hb
      have hold : a ∈ l.map Prod.fst := ((mem_keys_fill l a).1 ha).1
      have hnew : e.1 ∉ l.map Prod.fst := fun hmem => h.2 ((mem_keys_fill l e.1).2 ⟨hmem, h.1⟩)
      rw [List.mem_singleton.1 hb, List.map_append, List.idxOf_append_of_mem hold,
        List.idxOf_append_of_notMem hnew]
      exact Nat.lt_add_right _ (List.idxOf_lt_length_of_mem hold)

end Properties

/-! ## Enumeration -/

/-- the number of which a name is the decimal notation, if it is an array index -/
def arrayIndex (key : String) : Option ℕ :=
  let n := key.toList.foldl (fun n c => 10 * n + (c.toNat - '0'.toNat)) 0
  if toString n = key ∧ n < 2 ^ 32 - 1 then some n else none

def indexOf (e : String × V) : ℕ := (arrayIndex e.1).getD 0

/-- those named by array indices, in ascending order -/
def indexed (l : List (String × V)) : List (String × V) :=
  (l.filter fun e => (arrayIndex e.1).isSome).insertionSort fun a b => indexOf a ≤ indexOf b

def named (l : List (String × V)) : List (String × V) := l.filter fun e => (arrayIndex e.1).isNone

def arrange (l : List (String × V)) : List (String × V) := indexed l ++ named l

/-- the properties as `for in` and `JSON.stringify` take them -/
def Properties.ordered (o : Properties V) : List (String × V) := arrange o.members

example : (Properties.fill [("_courseName", "CS"), ("10", "a"), ("2", "b"), ("02", "c"), ("10", "d")]).ordered =
    [("2", "b"), ("10", "d"), ("_courseName", "CS"), ("02", "c")] := by
  decide +kernel

theorem toString_of_arrayIndex {key : String} {i : ℕ} (h : arrayIndex key = some i) : toString i = key := by
  unfold arrayIndex at h
  dsimp only at h
  split_ifs at h with hn
  rw [← Option.some.inj h]
  exact hn.1

theorem isSome_of_indexed {l : List (String × V)} {e : String × V} (h : e ∈ indexed l) : (arrayIndex e.1).isSome :=
  (List.mem_filter.1 ((List.mem_insertionSort _).1 h)).2

theorem isNone_of_named {l : List (String × V)} {e : String × V} (h : e ∈ named l) : (arrayIndex e.1).isNone :=
  (List.mem_filter.1 h).2

theorem arrange_perm (l : List (String × V)) : (arrange l).Perm l := by
  have hnone : (fun e : String × V => (arrayIndex e.1).isNone) = fun e => !(arrayIndex e.1).isSome := by
    funext e
    simp
  rw [arrange, named, hnone]
  exact ((List.perm_insertionSort _ _).append_right _).trans (List.filter_append_perm _ l)

/-- name a is enumerated before name b, if the names were first assigned to in the order of this list -/
def Before (names : List String) (a b : String) : Prop :=
  match arrayIndex a, arrayIndex b with
  | some i, some j => i < j
  | some _, none => True
  | none, some _ => False
  | none, none => names.idxOf a < names.idxOf b

instance : Std.Total fun a b : String × V => indexOf a ≤ indexOf b := ⟨fun _ _ => le_total _ _⟩
instance : IsTrans (String × V) fun a b => indexOf a ≤ indexOf b := ⟨fun _ _ _ => le_trans⟩

theorem arrange_pairwise {l : List (String × V)} (h : (l.map Prod.fst).Nodup) {names : List String}
    (hl : (l.map Prod.fst).Pairwise fun a b => names.idxOf a < names.idxOf b) :
    (arrange l).Pairwise fun x y => Before names x.1 y.1 := by
  refine List.pairwise_append.2 ⟨?_, ?_, ?_⟩
  · -- equal indices would be equal names
    have hsorted : (indexed l).Pairwise fun x y => indexOf x ≤ indexOf y := List.pairwise_insertionSort _ _
    have hdistinct : (indexed l).Pairwise fun x y => x.1 ≠ y.1 :=
      ((List.perm_insertionSort _ _).pairwise_iff fun hxy => Ne.symm hxy).2 ((List.pairwise_map.1 h).filter _)
    refine (hsorted.and hdistinct).imp_of_mem ?_
    intro x y hx hy hxy
    obtain ⟨i, hi⟩ := Option.isSome_iff_exists.1 (isSome_of_indexed hx)
    obtain ⟨j, hj⟩ := Option.isSome_iff_exists.1 (isSome_of_indexed hy)
    simp only [Before, hi, hj]
    have hle : i ≤ j := by simpa [indexOf, hi, hj] using hxy.1
    refine lt_of_le_of_ne hle ?_
    rintro rfl
    exact hxy.2 ((toString_of_arrayIndex hi).symm.trans (toString_of_arrayIndex hj))
  · refine ((List.pairwise_map.1 hl).filter _).imp_of_mem ?_
    intro x y hx hy hxy
    have hx' := Option.isNone_iff_eq_none.1 (isNone_of_named hx)
    have hy' := Option.isNone_iff_eq_none.1 (isNone_of_named hy)
    simp only [Before, hx', hy']
    exact hxy
  · intro x hx y hy
    obtain ⟨i, hi⟩ := Option.isSome_iff_exists.1 (isSome_of_indexed hx)
    have hy' := Option.isNone_iff_eq_none.1 (isNone_of_named hy)
    simp only [Before, hi, hy']

/-- **The order of enumeration.** -/
theorem Properties.ordered_pairwise (l : List (String × V)) :
    (fill l).ordered.Pairwise fun x y => Before (l.map Prod.fst) x.1 y.1 :=
  arrange_pairwise (fill l).nodup (fill_pairwise l)

theorem arrange_eq_self {l : List (String × V)} (h : ∀ e ∈ l, arrayIndex e.1 = none) : arrange l = l := by
  have hindexed : l.filter (fun e => (arrayIndex e.1).isSome) = [] := by
    refine List.filter_eq_nil_iff.2 ?_
    intro e he
    simp [h e he]
  rw [arrange, indexed, hindexed, List.insertionSort_nil, List.nil_append]
  refine List.filter_eq_self.2 ?_
  intro e he
  simp [h e he]

/-! ## Enumerated twice -/

theorem arrange_arrange (l : List (String × V)) : arrange (arrange l) = arrange l := by
  have hindexed : (arrange l).filter (fun e => (arrayIndex e.1).isSome) = indexed l := by
    have hnone : (named l).filter (fun e => (arrayIndex e.1).isSome) = [] := by
      refine List.filter_eq_nil_iff.2 ?_
      intro e he
      simpa using isNone_of_named he
    rw [arrange, List.filter_append, hnone, List.append_nil]
    exact List.filter_eq_self.2 fun e he => isSome_of_indexed he
  have hnamed : named (arrange l) = named l := by
    have hnone : named (indexed l) = [] := by
      refine List.filter_eq_nil_iff.2 ?_
      intro e he
      simpa [Option.isSome_iff_ne_none] using isSome_of_indexed he
    rw [arrange, named, List.filter_append]
    show named (indexed l) ++ _ = _
    rw [hnone, List.nil_append]
    exact List.filter_eq_self.2 fun e he => isNone_of_named he
  have hsorted : (indexed l).Pairwise fun x y => indexOf x ≤ indexOf y := List.pairwise_insertionSort _ _
  rw [arrange, indexed, hindexed, hnamed, hsorted.insertionSort_eq, arrange]

theorem Properties.members_ofMembers {l : List (String × V)} (h : (l.map Prod.fst).Nodup) :
    (ofMembers l).members = l := by
  induction l using List.reverseRecOn with
  | nil => rfl
  | append_singleton l e ih =>
    rw [List.map_append, List.map_singleton, List.nodup_append] at h
    have hnew : e.1 ∉ l.map Prod.fst := fun hmem => h.2.2 e.1 hmem e.1 (List.mem_singleton_self _) rfl
    have happend : ofMembers (l ++ [e]) = (ofMembers l).put e.1 e.2 := List.foldl_append
    have hput : ((ofMembers l).put e.1 e.2).members = putMember (ofMembers l).members e.1 e.2 := rfl
    rw [happend, hput, ih h.1]
    exact if_neg hnew

theorem Properties.members_fill {l : List (String × V)} (h : Plain l) : (fill l).members = l := by
  have heq : fill l = ofMembers l := by
    refine List.foldl_ext _ _ _ ?_
    intro o e he
    have hne : e.1 ≠ "__proto__" := fun hp => h.2 (hp ▸ List.mem_map_of_mem he)
    rw [assign, if_neg hne]
  rw [heq, members_ofMembers h.1]

theorem Properties.ordered_perm (o : Properties V) : o.ordered.Perm o.members := arrange_perm o.members

theorem Properties.nodup_ordered (o : Properties V) : (o.ordered.map Prod.fst).Nodup :=
  (o.ordered_perm.map Prod.fst).nodup_iff.2 o.nodup

/-- **Objects made of an enumeration.** -/
theorem Properties.ofMembers_ordered (o : Properties V) : (ofMembers o.ordered).ordered = o.ordered := by
  rw [ordered, members_ofMembers o.nodup_ordered]
  exact arrange_arrange o.members

end GradeKeep.JsObject
