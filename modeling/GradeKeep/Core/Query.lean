/-
An ordered query depends on nothing but the documents under its collection.

`orderBy` is an insertion sort by `before`, which compares the field and then the id. On documents that have the field
it is the order of a key (`sortKey`) in a linear order: `nan`, the numbers, then the strings, and the id among equals.
So the result is sorted, and as the ids of a collection are distinct, no other arrangement of the same documents is.

Results:
- `before_iff`: the order is that of the keys;
- `orderBy_pairwise`: the result of a query is sorted;
- `orderBy_congr`: two stores with the same documents in a collection give the same result.
-/
import GradeKeep.Core.Firestore
import Mathlib.Data.Prod.Lex
import Mathlib.Data.String.Basic

namespace GradeKeep.Firestore

open GradeKeep.SwiftDouble

/-- where a value stands among the values -/
def Value.rank : Value → ℕ ×ₗ ℚ ×ₗ String
  | .double .nan => toLex (0, toLex (0, ""))
  | .double (.num q) => toLex (1, toLex (q, ""))
  | .string s => toLex (2, toLex (0, s))

theorem Value.rank_injective : Function.Injective Value.rank := by
  intro x y h
  rcases x with s | _ | _ <;> rcases y with t | _ | _ <;> simp_all [Value.rank]

theorem Value.le_iff (x y : Value) : x.le y = true ↔ x.rank ≤ y.rank := by
  rcases x with s | a | _ <;> rcases y with t | b | _ <;> simp [Value.le, Value.rank, Prod.Lex.toLex_le_toLex]
  exact le_iff_lt_or_eq

/-- what documents that have the field are ordered by -/
def sortKey (field : String) (e : Segment × Doc) : (ℕ ×ₗ ℚ ×ₗ String) ×ₗ String :=
  toLex (((e.2 field).getD (.double .nan)).rank, e.1.text)

variable {field : String}

theorem before_iff {a b : Segment × Doc} (ha : (a.2 field).isSome) (hb : (b.2 field).isSome) :
    before field a b = true ↔ sortKey field a ≤ sortKey field b := by
  obtain ⟨x, hx⟩ := Option.isSome_iff_exists.1 ha
  obtain ⟨y, hy⟩ := Option.isSome_iff_exists.1 hb
  simp only [before, sortKey, hx, hy, Option.getD_some, Prod.Lex.toLex_le_toLex]
  by_cases hxy : x = y
  · simp [hxy]
  · have hrank : x.rank ≠ y.rank := fun e => hxy (Value.rank_injective e)
    rw [if_neg hxy, Value.le_iff]
    simp [hrank, hrank.le_iff_lt]

theorem orderBy_eq (l : Snapshot) : orderBy field l =
    (l.filter fun e => (e.2 field).isSome).insertionSort fun a b => sortKey field a ≤ sortKey field b := by
  have hmap := List.map_insertionSort (fun a b => before field a b = true)
    (fun a b => sortKey field a ≤ sortKey field b) id (l.filter fun e => (e.2 field).isSome) ?_
  · rwa [List.map_id, List.map_id] at hmap
  · intro a ha b hb
    exact before_iff (List.mem_filter.1 ha).2 (List.mem_filter.1 hb).2

/-- the result of a query is sorted -/
theorem orderBy_pairwise (l : Snapshot) :
    (orderBy field l).Pairwise fun a b => sortKey field a ≤ sortKey field b := by
  have htotal : Std.Total fun a b : Segment × Doc => sortKey field a ≤ sortKey field b := ⟨fun _ _ => le_total _ _⟩
  have htrans : IsTrans (Segment × Doc) fun a b => sortKey field a ≤ sortKey field b := ⟨fun _ _ _ => le_trans⟩
  rw [orderBy_eq]
  exact List.pairwise_insertionSort _ _

theorem sortKey_id {a b : Segment × Doc} (h : sortKey field a = sortKey field b) : a.1 = b.1 := by
  have htext : a.1.text = b.1.text := congrArg (fun k => (ofLex k).2) h
  exact Subtype.ext (String.ofList_injective htext)

/-- **Queries are determined by the collection.** -/
theorem orderBy_congr {s s' : Store} {coll : List Segment} (h : ∀ id, s.lookup ⟨coll, id⟩ = s'.lookup ⟨coll, id⟩)
    (field : String) : orderBy field (docs s coll) = orderBy field (docs s' coll) := by
  have hmem : ∀ e, e ∈ docs s coll ↔ e ∈ docs s' coll := fun e => by rw [mem_docs, mem_docs, h]
  have hperm : (docs s coll).Perm (docs s' coll) :=
    (List.perm_ext_iff_of_nodup (docs_nodup s coll).of_map (docs_nodup s' coll).of_map).2 hmem
  refine List.Perm.eq_of_pairwise ?_ (orderBy_pairwise _) (orderBy_pairwise _) ?_
  · intro a b ha hb hab hba
    have hid := sortKey_id (le_antisymm hab hba)
    have hla := mem_docs.1 (mem_orderBy.1 ha).1
    have hlb := mem_docs.1 (mem_orderBy.1 hb).1
    rw [h, hid, hlb] at hla
    exact Prod.ext hid (Option.some.inj hla).symm
  · refine (List.perm_insertionSort _ _).trans ((hperm.filter _).trans ?_)
    exact (List.perm_insertionSort _ _).symm

end GradeKeep.Firestore
