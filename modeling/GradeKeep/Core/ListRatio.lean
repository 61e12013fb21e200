/-
Ratios of two sums over one list: the total of a numerator over the total of a positive denominator, and the mean of
values under non-negative weights.

Results:
- `exists_ratio_le`, `exists_le_ratio` (the mediant inequality): the ratio of the sums lies between two of the ratios
  of the members;
- `exists_le_mean`, `exists_mean_le`: the mean lies between two of the values of positive weight;
- `sum_le_sum`: the mean grows with its values;
- `abs_mean_sub_mean_le`: if two values differ by at most ε at every member, so do their weighted means.
-/
import Mathlib.Tactic
import Mathlib.Algebra.Order.BigOperators.Group.List

namespace GradeKeep.ListRatio

variable {ι α : Type} [Field α] [LinearOrder α] [IsStrictOrderedRing α]

theorem sum_pos_of_pos (l : List ι) (g : ι → α) (hl : l ≠ []) (hg : ∀ i ∈ l, 0 < g i) : 0 < (l.map g).sum := by
  apply List.sum_pos
  · intro x hx
    obtain ⟨i, hi, rfl⟩ := List.mem_map.1 hx
    exact hg i hi
  · simpa using hl

/-- some member's ratio is at most the ratio of the sums -/
theorem exists_ratio_le (l : List ι) (f g : ι → α) (hl : l ≠ []) (hg : ∀ i ∈ l, 0 < g i) :
    ∃ i ∈ l, f i / g i ≤ (l.map f).sum / (l.map g).sum := by
  have hpos := sum_pos_of_pos l g hl hg
  set m := (l.map f).sum / (l.map g).sum
  have hsum : (l.map f).sum ≤ (l.map fun i => m * g i).sum := by
    rw [List.sum_map_mul_left, div_mul_cancel₀ _ hpos.ne']
  obtain ⟨i, hi, hle⟩ := List.exists_le_of_sum_le hl f (fun i => m * g i) hsum
  exact ⟨i, hi, (div_le_iff₀ (hg i hi)).2 hle⟩

/-- some member's ratio is at least the ratio of the sums -/
theorem exists_le_ratio (l : List ι) (f g : ι → α) (hl : l ≠ []) (hg : ∀ i ∈ l, 0 < g i) :
    ∃ i ∈ l, (l.map f).sum / (l.map g).sum ≤ f i / g i := by
  have hpos := sum_pos_of_pos l g hl hg
  set m := (l.map f).sum / (l.map g).sum
  have hsum : (l.map fun i => m * g i).sum ≤ (l.map f).sum := by
    rw [List.sum_map_mul_left, div_mul_cancel₀ _ hpos.ne']
  obtain ⟨i, hi, hle⟩ := List.exists_le_of_sum_le hl (fun i => m * g i) f hsum
  exact ⟨i, hi, (le_div_iff₀ (hg i hi)).2 hle⟩

omit [IsStrictOrderedRing α] in
/-- members of weight 0 do not count -/
theorem sum_filter_pos (l : List ι) (w v : ι → α) (hw : ∀ i ∈ l, 0 ≤ w i) :
    ((l.filter fun i => 0 < w i).map fun i => w i * v i).sum = (l.map fun i => w i * v i).sum := by
  induction l with
  | nil => rfl
  | cons i l ih =>
    have ih' := ih fun j hj => hw j (List.mem_cons_of_mem i hj)
    rcases (hw i List.mem_cons_self).lt_or_eq with hi | hi
    · rw [List.filter_cons_of_pos (by simpa using hi), List.map_cons, List.map_cons, List.sum_cons, List.sum_cons, ih']
    · rw [List.filter_cons_of_neg (by simp [← hi]), ih', List.map_cons, List.sum_cons, ← hi, zero_mul, zero_add]

omit [IsStrictOrderedRing α] in
theorem sum_filter_pos_weight (l : List ι) (w : ι → α) (hw : ∀ i ∈ l, 0 ≤ w i) :
    ((l.filter fun i => 0 < w i).map w).sum = (l.map w).sum := by
  simpa only [mul_one] using sum_filter_pos l w (fun _ => 1) hw

omit [IsStrictOrderedRing α] in
theorem filter_pos_ne_nil (l : List ι) (w : ι → α) (hw : ∀ i ∈ l, 0 ≤ w i) (hpos : 0 < (l.map w).sum) :
    (l.filter fun i => 0 < w i) ≠ [] := by
  intro hnil
  have hsum := sum_filter_pos_weight l w hw
  rw [hnil, List.map_nil, List.sum_nil] at hsum
  exact hpos.ne hsum

/-- some member that counts is at most the weighted mean -/
theorem exists_le_mean (l : List ι) (w v : ι → α) (hw : ∀ i ∈ l, 0 ≤ w i) (hpos : 0 < (l.map w).sum) :
    ∃ i ∈ l, 0 < w i ∧ v i ≤ (l.map fun i => w i * v i).sum / (l.map w).sum := by
  obtain ⟨i, hi, hle⟩ := exists_ratio_le (l.filter fun i => 0 < w i) (fun i => w i * v i) w
    (filter_pos_ne_nil l w hw hpos) (by simp)
  obtain ⟨hmem, hwi⟩ := List.mem_filter.1 hi
  have hwi' : 0 < w i := by simpa using hwi
  rw [sum_filter_pos l w v hw, sum_filter_pos_weight l w hw, mul_div_cancel_left₀ _ hwi'.ne'] at hle
  exact ⟨i, hmem, hwi', hle⟩

/-- some member that counts is at least the weighted mean -/
theorem exists_mean_le (l : List ι) (w v : ι → α) (hw : ∀ i ∈ l, 0 ≤ w i) (hpos : 0 < (l.map w).sum) :
    ∃ i ∈ l, 0 < w i ∧ (l.map fun i => w i * v i).sum / (l.map w).sum ≤ v i := by
  obtain ⟨i, hi, hle⟩ := exists_le_ratio (l.filter fun i => 0 < w i) (fun i => w i * v i) w
    (filter_pos_ne_nil l w hw hpos) (by simp)
  obtain ⟨hmem, hwi⟩ := List.mem_filter.1 hi
  have hwi' : 0 < w i := by simpa using hwi
  rw [sum_filter_pos l w v hw, sum_filter_pos_weight l w hw, mul_div_cancel_left₀ _ hwi'.ne'] at hle
  exact ⟨i, hmem, hwi', hle⟩

/-- a mean grows with its values -/
theorem sum_le_sum (l l' : List ι) (w v : ι → α) (hw : ∀ i ∈ l, 0 ≤ w i)
    (h : List.Forall₂ (fun i j => w j = w i ∧ v i ≤ v j) l l') :
    (l'.map w).sum = (l.map w).sum ∧ (l.map fun i => w i * v i).sum ≤ (l'.map fun i => w i * v i).sum := by
  induction h with
  | nil => exact ⟨rfl, le_rfl⟩
  | @cons i j l l' hij _ ih =>
    obtain ⟨hsum, hle⟩ := ih fun k hk => hw k (List.mem_cons_of_mem i hk)
    simp only [List.map_cons, List.sum_cons]
    rw [hij.1, hsum]
    exact ⟨rfl, add_le_add (mul_le_mul_of_nonneg_left hij.2 (hw i List.mem_cons_self)) hle⟩

theorem abs_sum_sub_sum_le (l : List ι) (w a b : ι → α) (ε : α) (hw : ∀ i ∈ l, 0 ≤ w i)
    (h : ∀ i ∈ l, |a i - b i| ≤ ε) :
    |(l.map fun i => w i * a i).sum - (l.map fun i => w i * b i).sum| ≤ ε * (l.map w).sum := by
  induction l with
  | nil => simp
  | cons i l ih =>
    have ih' := ih (fun j hj => hw j (List.mem_cons_of_mem i hj)) (fun j hj => h j (List.mem_cons_of_mem i hj))
    have hi : |w i * a i - w i * b i| ≤ ε * w i := by
      rw [← mul_sub, abs_mul, abs_of_nonneg (hw i List.mem_cons_self), mul_comm ε]
      exact mul_le_mul_of_nonneg_left (h i List.mem_cons_self) (hw i List.mem_cons_self)
    simp only [List.map_cons, List.sum_cons]
    rw [abs_le] at hi ih' ⊢
    refine ⟨?_, ?_⟩ <;> linarith [hi.1, hi.2, ih'.1, ih'.2]

/-- **Error of a weighted mean.** Values that differ by at most ε at every member have weighted means that differ by
at most ε. -/
theorem abs_mean_sub_mean_le (l : List ι) (w a b : ι → α) (ε : α) (hw : ∀ i ∈ l, 0 ≤ w i) (hpos : 0 < (l.map w).sum)
    (h : ∀ i ∈ l, |a i - b i| ≤ ε) :
    |(l.map fun i => w i * a i).sum / (l.map w).sum - (l.map fun i => w i * b i).sum / (l.map w).sum| ≤ ε := by
  rw [← sub_div, abs_div, abs_of_pos hpos, div_le_iff₀ hpos]
  exact abs_sum_sub_sum_le l w a b ε hw h

end GradeKeep.ListRatio
