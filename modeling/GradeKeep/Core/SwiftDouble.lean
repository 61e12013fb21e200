/-
Swift's `Double` in exact arithmetic, and its failable initialiser `Double(_ text:)`.

A finite value is a rational; `nan` stands for every value that is not a finite number (±∞ and NaN). Division by zero
gives `nan`, and `nan` absorbs in every operation, so a value is a number exactly when no division by zero (and no
non-finite input) went into it. Rounding, overflow and signed zeros of binary64 are not modelled.

`Double.ofText` follows the documentation of `Double.init?(_:)`: the whole text is a decimal or hexadecimal literal
with an optional sign and exponent, or one of inf, infinity, nan (any case, nan with an optional payload); any other
text, blanks included, gives nil.
-/
import Mathlib.Tactic
import GradeKeep.Core.HalfAway

namespace GradeKeep.SwiftDouble

open GradeKeep.HalfAway

inductive Double where
  | num (q : ℚ)
  | nan
deriving DecidableEq, Repr

namespace Double

def add : Double → Double → Double
  | num a, num b => num (a + b)
  | _, _ => nan

def mul : Double → Double → Double
  | num a, num b => num (a * b)
  | _, _ => nan

def div : Double → Double → Double
  | num a, num b => if b = 0 then nan else num (a / b)
  | _, _ => nan

/-- Foundation's `round`: halves away from zero -/
def round : Double → Double
  | num q => num (halfAway q)
  | nan => nan

instance : Zero Double := ⟨num 0⟩
instance : Add Double := ⟨add⟩
instance : Mul Double := ⟨mul⟩
instance : Div Double := ⟨div⟩

theorem zero_def : (0 : Double) = num 0 := rfl

@[simp] theorem num_add_num (a b : ℚ) : num a + num b = num (a + b) := rfl
@[simp] theorem nan_add (x : Double) : nan + x = nan := rfl
@[simp] theorem add_nan (x : Double) : x + nan = nan := by cases x <;> rfl
@[simp] theorem num_mul_num (a b : ℚ) : num a * num b = num (a * b) := rfl
@[simp] theorem nan_mul (x : Double) : nan * x = nan := rfl
@[simp] theorem mul_nan (x : Double) : x * nan = nan := by cases x <;> rfl
@[simp] theorem nan_div (x : Double) : nan / x = nan := rfl
@[simp] theorem div_nan (x : Double) : x / nan = nan := by cases x <;> rfl
@[simp] theorem num_div_zero (a : ℚ) : num a / num 0 = nan := by
  show (if (0 : ℚ) = 0 then nan else num (a / 0)) = nan
  rw [if_pos rfl]

theorem num_div_num {a b : ℚ} (h : b ≠ 0) : num a / num b = num (a / b) := by
  show (if b = 0 then nan else num (a / b)) = num (a / b)
  rw [if_neg h]

@[simp] theorem round_num (q : ℚ) : round (num q) = num (halfAway q) := rfl
@[simp] theorem round_nan : round nan = nan := rfl

/-- `round(x) / 100` -/
theorem round_num_div_hundred (q : ℚ) : round (num q) / num 100 = num (hundredths q) := by
  rw [round_num, num_div_num (by norm_num)]; rfl

instance : AddCommMonoid Double where
  add_assoc x y z := by cases x <;> cases y <;> cases z <;> simp [add_assoc]
  zero_add x := by cases x <;> simp [zero_def]
  add_zero x := by cases x <;> simp [zero_def]
  add_comm x y := by cases x <;> cases y <;> simp [add_comm]
  nsmul := nsmulRec

/-- the value is a finite number -/
def IsNum (x : Double) : Prop := x ≠ nan

instance (x : Double) : Decidable (IsNum x) := inferInstanceAs (Decidable (x ≠ nan))

@[simp] theorem isNum_num (q : ℚ) : IsNum (num q) := by simp [IsNum]
@[simp] theorem not_isNum_nan : ¬IsNum nan := by simp [IsNum]
@[simp] theorem isNum_zero : IsNum 0 := isNum_num 0

theorem isNum_iff {x : Double} : IsNum x ↔ ∃ q, x = num q := by cases x <;> simp

@[simp] theorem isNum_add {x y : Double} : IsNum (x + y) ↔ IsNum x ∧ IsNum y := by cases x <;> cases y <;> simp

@[simp] theorem isNum_mul {x y : Double} : IsNum (x * y) ↔ IsNum x ∧ IsNum y := by cases x <;> cases y <;> simp

@[simp] theorem isNum_round {x : Double} : IsNum (round x) ↔ IsNum x := by cases x <;> simp

/-- a quotient is a number exactly when both sides are and the divisor is not zero -/
theorem isNum_div {x y : Double} : IsNum (x / y) ↔ IsNum x ∧ IsNum y ∧ y ≠ 0 := by
  cases x with
  | nan => simp
  | num a =>
    cases y with
    | nan => simp
    | num b =>
      by_cases h : b = 0
      · simp [h, zero_def]
      · simp [num_div_num h, h, zero_def]

theorem sum_map_num {ι : Type} (l : List ι) (f : ι → ℚ) : (l.map fun i => num (f i)).sum = num (l.map f).sum := by
  induction l with
  | nil => rfl
  | cons i l ih => simp [ih]

theorem num_mul_assoc (a : ℚ) (x y : Double) : num a * x * y = num a * (x * y) := by
  cases x <;> cases y <;> simp [mul_assoc]

theorem sum_num_mul {ι : Type} (a : ℚ) (l : List ι) (f : ι → Double) :
    (l.map fun i => num a * f i).sum = num a * (l.map f).sum := by
  induction l with
  | nil => simp [zero_def]
  | cons i l ih =>
    rw [List.map_cons, List.sum_cons, ih, List.map_cons, List.sum_cons]
    cases f i <;> cases (l.map f).sum <;> simp [mul_add]

theorem isNum_sum {l : List Double} : IsNum l.sum ↔ ∀ x ∈ l, IsNum x := by
  induction l with
  | nil => simp
  | cons x l ih => simp [ih]

/-! ## `Double(_ text:)` -/

/-- the value of a digit in the given base, if it is one -/
def digit (base : ℕ) (c : Char) : Option ℕ :=
  let d := if '0' ≤ c ∧ c ≤ '9' then c.toNat - 48 else if 'a' ≤ c ∧ c ≤ 'f' then c.toNat - 87
    else if 'A' ≤ c ∧ c ≤ 'F' then c.toNat - 55 else base
  if d < base then some d else none

/-- the leading digits, and what follows them -/
def digits (base : ℕ) : List Char → List ℕ × List Char
  | [] => ([], [])
  | c :: cs =>
    match digit base c with
    | none => ([], c :: cs)
    | some d => (d :: (digits base cs).1, (digits base cs).2)

def natOf (base : ℕ) (ds : List ℕ) : ℕ := ds.foldl (fun n d => base * n + d) 0

/-- an optional sign -/
def sign : List Char → ℤ × List Char
  | '-' :: cs => (-1, cs)
  | '+' :: cs => (1, cs)
  | cs => (1, cs)

/-- digits with at most one point among them, and what follows; at least one digit is needed -/
def significand (base : ℕ) (cs : List Char) : Option (ℚ × List Char) :=
  let whole := digits base cs
  let frac := match whole.2 with
    | '.' :: rest => digits base rest
    | rest => ([], rest)
  if whole.1 = [] ∧ frac.1 = [] then none
  else some (natOf base (whole.1 ++ frac.1) / base ^ frac.1.length, frac.2)

/-- the exponent that ends a literal: nothing, or its mark, an optional sign and at least one decimal digit -/
def exponent (mark : Char) : List Char → Option ℤ
  | [] => some 0
  | c :: cs =>
    let e := digits 10 (sign cs).2
    if c.toLower = mark ∧ e.1 ≠ [] ∧ e.2 = [] then some ((sign cs).1 * natOf 10 e.1) else none

def scale (m : ℚ) (base : ℚ) (e : ℤ) : ℚ := if 0 ≤ e then m * base ^ e.toNat else m / base ^ (-e).toNat

/-- a literal in base 10 (exponent e, a power of 10) or 16 (exponent p, a power of 2) -/
def literal (base : ℕ) (mark : Char) (radix : ℚ) (cs : List Char) : Option Double := do
  let (m, rest) ← significand base cs
  let e ← exponent mark rest
  some (num (scale m radix e))

/-- a literal without its sign -/
def magnitude (cs : List Char) : Option Double :=
  match cs.map Char.toLower with
  | ['i', 'n', 'f'] => some nan
  | ['i', 'n', 'f', 'i', 'n', 'i', 't', 'y'] => some nan
  | ['n', 'a', 'n'] => some nan
  | 'n' :: 'a' :: 'n' :: '(' :: payload =>
    if payload.getLast? = some ')' ∧ payload.dropLast.all Char.isAlphanum then some nan else none
  | '0' :: 'x' :: hex => literal 16 'p' 2 hex
  | decimal => literal 10 'e' 10 decimal

/-- `Double(_ text:)`: nil unless the whole text is a literal -/
def ofText (text : String) : Option Double :=
  match magnitude (sign text.toList).2 with
  | some (num q) => some (num ((sign text.toList).1 * q))
  | r => r

example : ofText "-12.50e1" = some (num (-125)) := by decide +kernel
example : ofText "1.2.3" = none ∧ ofText "" = none ∧ ofText "3,5" = none := by decide +kernel

end Double

end GradeKeep.SwiftDouble
