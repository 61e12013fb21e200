/-
Characters: the extended grapheme clusters of a string.

A string is a list of Unicode scalars, but Swift counts, indexes and cuts it by Characters. Whether a scalar continues
the Character before it depends on a property of the scalars, which Unicode tabulates (`BreakClass`), and on the scalars
read so far (`joins`: Unicode's rules, in their order). The tables are a parameter here.

Results:
- `cut_append`: a boundary splits the work;
- `cut_others`: scalars of no special class are one Character each;
- `cut_prepended`: prepended marks form one Character with the scalar after them;
- `dropLast_prepended`: what remains of a string without its last Characters.
-/
import Mathlib.Tactic

namespace GradeKeep.Characters

/-- the values of Unicode's Grapheme_Cluster_Break -/
inductive BreakClass where
  | cr
  | lf
  | control
  | extend
  | zwj
  | spacingMark
  | prepend
  | l
  | v
  | t
  | lv
  | lvt
  | regionalIndicator
  | eBase
  | eModifier
  | eBaseGaz
  | glueAfterZwj
  | other
deriving DecidableEq, Repr

namespace BreakClass

def isControl : BreakClass → Bool
  | cr | lf | control => true
  | _ => false

/-- the syllables of Hangul stay together -/
def hangul : BreakClass → BreakClass → Bool
  | l, l | l, v | l, lv | l, lvt => true
  | lv, v | lv, t | v, v | v, t => true
  | lvt, t | t, t => true
  | _, _ => false

def continues : BreakClass → Bool
  | extend | zwj | spacingMark => true
  | _ => false

/-- an emoji modifier after its base, with extending scalars between them -/
def modifies (before : List BreakClass) : BreakClass → Bool
  | eModifier => match before.dropWhile (· = extend) with
    | eBase :: _ | eBaseGaz :: _ => true
    | _ => false
  | _ => false

/-- an emoji glued by a zero-width joiner -/
def glued : BreakClass → BreakClass → Bool
  | zwj, glueAfterZwj | zwj, eBaseGaz => true
  | _, _ => false

/-- the second of a pair of regional indicators -/
def paired (before : List BreakClass) : BreakClass → Bool
  | regionalIndicator => (before.takeWhile (· = regionalIndicator)).length % 2 = 1
  | _ => false

/-- whether a scalar of this class continues the Character of those read before it, the last one first -/
def joins : List BreakClass → BreakClass → Bool
  | [], _ => false
  | cr :: _, lf => true
  | last :: before, next =>
    if last.isControl || next.isControl then false
    else hangul last next || next.continues || last = prepend || modifies (last :: before) next || glued last next ||
      paired (last :: before) next

/-- before a scalar of no special class only a prepended mark does not end its Character -/
@[simp] theorem joins_other (last : BreakClass) (before : List BreakClass) :
    joins (last :: before) other = decide (last = prepend) := by
  cases last <;> rfl

@[simp] theorem joins_prepend (last : BreakClass) (before : List BreakClass) :
    joins (last :: before) prepend = decide (last = prepend) := by
  cases last <;> rfl

end BreakClass

open BreakClass

/-- Unicode's table, of which only this is assumed: printable ASCII has no special class -/
structure Unicode where
  cls : Char → BreakClass
  ascii : ∀ c : Char, 0x20 ≤ c.toNat → c.toNat < 0x7f → cls c = other

variable (cls : Char → BreakClass)

/-- the rest of a string, after scalars of the classes `before`: what continues the last Character, and the others -/
def cut (before : List BreakClass) : List Char → List Char × List (List Char)
  | [] => ([], [])
  | c :: cs =>
    let r := cut (cls c :: before) cs
    if joins before (cls c) then (c :: r.1, r.2) else ([], (c :: r.1) :: r.2)

/-- the Characters of a string -/
def characters (cs : List Char) : List (List Char) := (cut cls [] cs).2

/-- `s.substring(to: s.index(s.startIndex, offsetBy: s.count - n))`; a string of fewer Characters traps -/
def dropLast (n : ℕ) (cs : List Char) : Option (List Char) :=
  if n ≤ (characters cls cs).length then
    some ((characters cls cs).take ((characters cls cs).length - n)).flatten
  else none

variable {cls}

theorem cut_flatten (before : List BreakClass) (cs : List Char) :
    (cut cls before cs).1 ++ (cut cls before cs).2.flatten = cs := by
  induction cs generalizing before with
  | nil => rfl
  | cons c cs ih =>
    have ih' := ih (cls c :: before)
    rw [cut]
    split_ifs
    · rw [List.cons_append, ih']
    · rw [List.flatten_cons, List.nil_append, List.cons_append, ih']

theorem cut_nil_fst (cs : List Char) : (cut cls [] cs).1 = [] := by
  cases cs <;> rfl

theorem characters_flatten (cs : List Char) : (characters cls cs).flatten = cs := by
  have h : (cut cls [] cs).1 ++ (cut cls [] cs).2.flatten = cs := cut_flatten [] cs
  rwa [cut_nil_fst, List.nil_append] at h

/-- the classes read after cs, the last one first -/
def classes (cls : Char → BreakClass) (before : List BreakClass) (cs : List Char) : List BreakClass :=
  (cs.map cls).reverse ++ before

theorem cut_append (before : List BreakClass) (cs ds : List Char) (h : (cut cls (classes cls before cs) ds).1 = []) :
    cut cls before (cs ++ ds) =
      ((cut cls before cs).1, (cut cls before cs).2 ++ (cut cls (classes cls before cs) ds).2) := by
  induction cs generalizing before with
  | nil => exact Prod.ext h rfl
  | cons c cs ih =>
    have hclasses : classes cls (cls c :: before) cs = classes cls before (c :: cs) := by simp [classes]
    have ih' := ih (cls c :: before) (by rw [hclasses]; exact h)
    rw [hclasses] at ih'
    rw [List.cons_append, cut, ih', cut]
    split_ifs <;> rfl

/-- scalars of no special class -/
def Others (cls : Char → BreakClass) (cs : List Char) : Prop := ∀ c ∈ cs, cls c = other

theorem Unicode.others (U : Unicode) {cs : List Char} (h : ∀ c ∈ cs, 0x20 ≤ c.toNat ∧ c.toNat < 0x7f) :
    Others U.cls cs :=
  fun c hc => U.ascii c (h c hc).1 (h c hc).2

theorem cut_others {last : BreakClass} (hlast : last ≠ prepend) (before : List BreakClass) {cs : List Char}
    (h : Others cls cs) : cut cls (last :: before) cs = ([], cs.map fun c => [c]) := by
  induction cs generalizing last before with
  | nil => rfl
  | cons c cs ih =>
    obtain ⟨hc, hcs⟩ := List.forall_mem_cons.1 h
    have hother : other ≠ prepend := by decide
    have ih' := ih hother (last :: before) hcs
    rw [cut, hc, ih', joins_other, if_neg (by simpa using hlast)]
    rfl

/-- after a prepended mark further ones and the next scalar continue the Character -/
theorem cut_after_prepend (before : List BreakClass) {ps cs : List Char} {c : Char}
    (hps : ∀ p ∈ ps, cls p = prepend) (h : Others cls (c :: cs)) :
    cut cls (prepend :: before) (ps ++ c :: cs) = (ps ++ [c], cs.map fun c => [c]) := by
  induction ps generalizing before with
  | nil =>
    obtain ⟨hc, hcs⟩ := List.forall_mem_cons.1 h
    have hother : other ≠ prepend := by decide
    have hrest := cut_others hother (prepend :: before) hcs
    rw [List.nil_append, cut, hc, hrest]
    rfl
  | cons p ps ih =>
    obtain ⟨hp, hps⟩ := List.forall_mem_cons.1 hps
    rw [List.cons_append, cut, hp, ih (prepend :: before) hps]
    rfl

theorem cut_prepended {last : BreakClass} (hlast : last ≠ prepend) (before : List BreakClass) {ps cs : List Char}
    {c : Char} (hps : ∀ p ∈ ps, cls p = prepend) (h : Others cls (c :: cs)) :
    cut cls (last :: before) (ps ++ c :: cs) = ([], (ps ++ [c]) :: cs.map fun c => [c]) := by
  cases ps with
  | nil => exact cut_others hlast before h
  | cons p ps =>
    obtain ⟨hp, hps⟩ := List.forall_mem_cons.1 hps
    rw [List.cons_append, cut, hp, cut_after_prepend (last :: before) hps h, joins_prepend,
      if_neg (by simpa using hlast)]
    rfl

/-- **Cutting Characters off.** Of a string that ends in prepended marks and n scalars of no special class, the part
before the marks remains when n Characters are dropped. -/
theorem dropLast_prepended {cs ps ds : List Char} {c : Char} (hne : cs ≠ []) (hlast : cls (cs.getLast hne) ≠ prepend)
    (hps : ∀ p ∈ ps, cls p = prepend) (h : Others cls (c :: ds)) :
    dropLast cls (ds.length + 1) (cs ++ (ps ++ c :: ds)) = some cs := by
  have hclasses : classes cls [] cs = cls (cs.getLast hne) :: classes cls [] cs.dropLast := by
    conv_lhs => rw [← List.dropLast_append_getLast hne]
    simp [classes]
  have hcut := cut_prepended hlast (classes cls [] cs.dropLast) hps h
  rw [← hclasses] at hcut
  have hcharacters : characters cls (cs ++ (ps ++ c :: ds)) =
      characters cls cs ++ (ps ++ [c]) :: ds.map fun c => [c] := by
    rw [characters, cut_append [] cs (ps ++ c :: ds) (by rw [hcut]), hcut]
    rfl
  have hlen : (characters cls (cs ++ (ps ++ c :: ds))).length = (characters cls cs).length + (ds.length + 1) := by
    rw [hcharacters, List.length_append, List.length_cons, List.length_map]
  rw [dropLast, if_pos (by omega), hlen, Nat.add_sub_cancel, hcharacters, List.take_left, characters_flatten]

end GradeKeep.Characters
