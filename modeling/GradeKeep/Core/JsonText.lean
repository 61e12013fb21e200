/-
JSON texts of objects whose values are strings: what `JSON.stringify` writes and `JSON.parse` reads.

`stringify` writes members in the order given, without white space; a string is quoted as JavaScript does it, with the
short escapes, `\u00xx` for the other control characters and everything else as it is. `parse` is written from the
grammar, for texts of any origin: white space between the tokens, every escape, a pair of surrogates as one character.
It is `none` on what is not such a text. JSON's other values are left out, and a lone surrogate is no character here.
Quote, backslash and braces are spelled by their codes, '\x22', '\x5c', '\x7b' and '\x7d'.

Results:
- `characters_escape`: what a string is written as is read as that string;
- `parse_stringify`: members are read back as they were written, in their order.
-/
import Mathlib.Tactic

namespace GradeKeep.JsonText

abbrev Members := List (String × String)

/-! ## Writing -/

/-- the characters with an escape of two characters, and its second character -/
def shortEscapes : List (Char × Char) :=
  [('\x22', '\x22'), ('\x5c', '\x5c'), ('\x08', 'b'), ('\x0c', 'f'), ('\n', 'n'), ('\r', 'r'), ('\t', 't')]

def escape (c : Char) : List Char :=
  match shortEscapes.lookup c with
  | some e => ['\x5c', e]
  | none =>
    if c.toNat < 32 then ['\x5c', 'u', '0', '0', Nat.digitChar (c.toNat / 16), Nat.digitChar (c.toNat % 16)]
    else [c]

def quoted (s : String) : List Char := '\x22' :: (s.toList.flatMap escape ++ ['\x22'])

def memberText (m : String × String) : List Char := quoted m.1 ++ ':' :: quoted m.2

def membersText : Members → List Char
  | [] => []
  | [m] => memberText m
  | m :: ms => memberText m ++ ',' :: membersText ms

/-- `JSON.stringify` -/
def stringify (ms : Members) : String := String.ofList ('\x7b' :: (membersText ms ++ ['\x7d']))

/-! ## Reading -/

/-- the input after its white space -/
def skip (l : List Char) : List Char := l.dropWhile (· ∈ [' ', '\t', '\n', '\r'])

/-- the input after white space and the character c -/
def token (c : Char) (l : List Char) : Option (List Char) :=
  match skip l with
  | d :: rest => if d = c then some rest else none
  | [] => none

def hexVal (c : Char) : Option ℕ :=
  if '0' ≤ c ∧ c ≤ '9' then some (c.toNat - 48)
  else if 'a' ≤ c ∧ c ≤ 'f' then some (c.toNat - 87)
  else if 'A' ≤ c ∧ c ≤ 'F' then some (c.toNat - 55)
  else none

/-- the code unit of four hexadecimal digits -/
def codeUnit : List Char → Option (ℕ × List Char)
  | a :: b :: c :: d :: rest => do
    let a ← hexVal a
    let b ← hexVal b
    let c ← hexVal c
    let d ← hexVal d
    some (4096 * a + 256 * b + 16 * c + d, rest)
  | _ => none

/-- after `\u`: one code unit, or a pair of surrogates -/
def unicode (l : List Char) : Option (Char × List Char) := do
  let (n, rest) ← codeUnit l
  if n.isValidChar then some (Char.ofNat n, rest)
  else match rest with
    | '\x5c' :: 'u' :: rest => do
      let (m, rest) ← codeUnit rest
      if n < 0xDC00 ∧ 0xDC00 ≤ m ∧ m < 0xE000 then
        some (Char.ofNat (0x10000 + 0x400 * (n - 0xD800) + (m - 0xDC00)), rest)
      else none
    | _ => none

/-- after a backslash -/
def escaped : List Char → Option (Char × List Char)
  | [] => none
  | e :: rest =>
    match (shortEscapes.map Prod.swap).lookup e with
    | some c => some (c, rest)
    | none => if e = '/' then some ('/', rest) else if e = 'u' then unicode rest else none

/-- one character of a string -/
def character : List Char → Option (Char × List Char)
  | [] => none
  | c :: rest => if c = '\x5c' then escaped rest else if c.toNat < 32 then none else some (c, rest)

/-- the characters of a string up to its closing quote; n bounds their number -/
def characters : ℕ → List Char → Option (List Char × List Char)
  | 0, _ => none
  | n + 1, l =>
    if l.head? = some '\x22' then some ([], l.tail)
    else do
      let (c, rest) ← character l
      let (cs, rest) ← characters n rest
      some (c :: cs, rest)

def string (l : List Char) : Option (String × List Char) := do
  let l ← token '\x22' l
  let (s, rest) ← characters l.length l
  some (String.ofList s, rest)

def member (l : List Char) : Option ((String × String) × List Char) := do
  let (key, l) ← string l
  let l ← token ':' l
  let (value, l) ← string l
  some ((key, value), l)

/-- the members up to the closing brace; n bounds their number -/
def members : ℕ → List Char → Option (Members × List Char)
  | 0, _ => none
  | n + 1, l => do
    let (m, l) ← member l
    match token '\x7d' l with
    | some rest => some ([m], rest)
    | none => do
      let l ← token ',' l
      let (ms, rest) ← members n l
      some (m :: ms, rest)

/-- `JSON.parse` -/
def parse (text : String) : Option Members := do
  let l ← token '\x7b' text.toList
  let (ms, rest) ← match token '\x7d' l with
    | some rest => some ([], rest)
    | none => members l.length l
  if skip rest = [] then some ms else none

example : parse " \x7b \x22a\\u00e9\x22 : \x22\\ud83d\\ude00/\\/\x22 , \x22\x22:\x22b\x22\x7d " =
    some [("aé", "😀//"), ("", "b")] := by
  decide +kernel

/-! ## Strings -/

theorem lookup_swap {c e : Char} (h : shortEscapes.lookup c = some e) :
    (shortEscapes.map Prod.swap).lookup e = some c := by
  have htable : ∀ x ∈ shortEscapes, (shortEscapes.map Prod.swap).lookup x.2 = some x.1 := by decide
  obtain ⟨pre, post, hl, -⟩ := List.lookup_eq_some_iff.1 h
  exact htable (c, e) (by rw [hl]; simp)

theorem hexVal_digitChar {d : ℕ} (h : d < 16) : hexVal (Nat.digitChar d) = some d := by
  have hall : ∀ d, d < 16 → hexVal (Nat.digitChar d) = some d := by decide
  exact hall d h

theorem unicode_control {c : Char} (h : c.toNat < 32) (l : List Char) :
    unicode ('0' :: '0' :: Nat.digitChar (c.toNat / 16) :: Nat.digitChar (c.toNat % 16) :: l) = some (c, l) := by
  have h0 : hexVal '0' = some 0 := by decide
  have hvalue : 4096 * 0 + 256 * 0 + 16 * (c.toNat / 16) + c.toNat % 16 = c.toNat := by omega
  have hvalid : c.toNat.isValidChar := Or.inl (by omega)
  simp only [unicode, codeUnit, h0, hexVal_digitChar (show c.toNat / 16 < 16 by omega),
    hexVal_digitChar (show c.toNat % 16 < 16 by omega), Option.bind_eq_bind, Option.bind_some, hvalue, if_pos hvalid,
    Char.ofNat_toNat]

/-- no character is written as a closing quote -/
theorem character_escape (c : Char) (l : List Char) :
    (escape c ++ l).head? ≠ some '\x22' ∧ character (escape c ++ l) = some (c, l) := by
  unfold escape
  cases htable : shortEscapes.lookup c with
  | some e =>
    refine ⟨by simp, ?_⟩
    rw [List.cons_append, character, if_pos rfl, List.singleton_append, escaped, lookup_swap htable]
  | none =>
    have hne : ∀ x ∈ shortEscapes, c ≠ x.1 := by
      rintro x hx rfl
      exact absurd (List.lookup_eq_none_iff.1 htable x hx) (by simp)
    dsimp only
    split_ifs with hcontrol
    · have hu : (shortEscapes.map Prod.swap).lookup 'u' = none := by decide
      refine ⟨by simp, ?_⟩
      rw [List.cons_append, character, if_pos rfl, List.cons_append, escaped, hu]
      exact unicode_control hcontrol l
    · have hquote : c ≠ '\x22' := hne ('\x22', '\x22') (by decide)
      have hback : c ≠ '\x5c' := hne ('\x5c', '\x5c') (by decide)
      refine ⟨by simpa using hquote, ?_⟩
      rw [List.singleton_append, character, if_neg hback, if_neg hcontrol]

/-- **Characters.** -/
theorem characters_escape (cs l : List Char) (n : ℕ) (hn : cs.length < n) :
    characters n (cs.flatMap escape ++ '\x22' :: l) = some (cs, l) := by
  induction cs generalizing n with
  | nil =>
    obtain ⟨n, rfl⟩ := Nat.exists_eq_succ_of_ne_zero (Nat.ne_of_gt hn)
    exact if_pos rfl
  | cons c cs ih =>
    obtain ⟨n, rfl⟩ := Nat.exists_eq_succ_of_ne_zero (Nat.ne_of_gt (Nat.zero_lt_of_lt hn))
    obtain ⟨hquote, hread⟩ := character_escape c (cs.flatMap escape ++ '\x22' :: l)
    rw [List.flatMap_cons, List.append_assoc, characters, if_neg hquote, hread]
    simp only [Option.bind_eq_bind, Option.bind_some, ih n (Nat.lt_of_succ_lt_succ hn)]

theorem length_le_flatMap_escape (cs : List Char) : cs.length ≤ (cs.flatMap escape).length := by
  have hpos : ∀ c, 1 ≤ (escape c).length := by
    intro c
    unfold escape
    split
    · simp
    · split_ifs <;> simp
  induction cs with
  | nil => simp
  | cons c cs ih =>
    have hc := hpos c
    simp only [List.flatMap_cons, List.length_append, List.length_cons]
    omega

/-! ## Tokens -/

/-- c is no white space -/
def Solid (c : Char) : Prop := c ∉ [' ', '\t', '\n', '\r']

instance (c : Char) : Decidable (Solid c) := inferInstanceAs (Decidable (c ∉ _))

theorem token_cons {c d : Char} (hd : Solid d) (l : List Char) : token c (d :: l) = if d = c then some l else none := by
  have hskip : skip (d :: l) = d :: l := List.dropWhile_cons_of_neg (by simpa [Solid] using hd)
  rw [token, hskip]

theorem string_quoted (s : String) (l : List Char) : string (quoted s ++ l) = some (s, l) := by
  have hlen := length_le_flatMap_escape s.toList
  have hread : characters (s.toList.flatMap escape ++ '\x22' :: l).length (s.toList.flatMap escape ++ '\x22' :: l) =
      some (s.toList, l) := by
    refine characters_escape s.toList l _ ?_
    rw [List.length_append, List.length_cons]
    omega
  rw [quoted, List.cons_append, string, token_cons (by decide), if_pos rfl, List.append_assoc, List.singleton_append]
  simp only [Option.bind_eq_bind, Option.bind_some, hread, String.ofList_toList]

theorem member_memberText (m : String × String) (l : List Char) : member (memberText m ++ l) = some (m, l) := by
  rw [memberText, List.append_assoc, List.cons_append, member, string_quoted]
  simp only [Option.bind_eq_bind, Option.bind_some, token_cons (show Solid ':' by decide), if_pos, string_quoted]

theorem members_membersText (ms : Members) (l : List Char) (n : ℕ) (h : ms ≠ []) (hn : ms.length ≤ n) :
    members n (membersText ms ++ '\x7d' :: l) = some (ms, l) := by
  induction ms generalizing n with
  | nil => exact absurd rfl h
  | cons m ms ih =>
    obtain ⟨n, rfl⟩ := Nat.exists_eq_succ_of_ne_zero (Nat.ne_of_gt (Nat.lt_of_lt_of_le (Nat.succ_pos _) hn))
    cases ms with
    | nil =>
      rw [membersText, members, member_memberText]
      simp only [Option.bind_eq_bind, Option.bind_some, token_cons (show Solid '\x7d' by decide), if_pos]
    | cons m' ms =>
      have hrest := ih n (List.cons_ne_nil m' ms) (Nat.le_of_succ_le_succ hn)
      rw [membersText, List.append_assoc, List.cons_append, members, member_memberText]
      · simp only [Option.bind_eq_bind, Option.bind_some, token_cons (show Solid ',' by decide), if_pos, hrest,
          if_neg (show ',' ≠ '\x7d' by decide)]
      · exact List.cons_ne_nil m' ms

theorem length_le_membersText (ms : Members) : ms.length ≤ (membersText ms).length := by
  have hpos : ∀ m, 1 ≤ (memberText m).length := by
    intro m
    simp [memberText, quoted]
  induction ms with
  | nil => simp
  | cons m ms ih =>
    have hm := hpos m
    cases ms with
    | nil => simpa [membersText] using hm
    | cons m' ms =>
      rw [membersText, List.length_append, List.length_cons]
      · simp only [List.length_cons] at ih ⊢
        omega
      · exact List.cons_ne_nil m' ms

/-! ## Texts -/

/-- **The round trip.** -/
theorem parse_stringify (ms : Members) : parse (stringify ms) = some ms := by
  have hopen : token '\x7b' ('\x7b' :: (membersText ms ++ ['\x7d'])) = some (membersText ms ++ ['\x7d']) := by
    rw [token_cons (by decide), if_pos rfl]
  rw [parse, stringify, String.toList_ofList, hopen]
  cases ms with
  | nil => rfl
  | cons m ms =>
    have hlen := length_le_membersText (m :: ms)
    have hread := members_membersText (m :: ms) [] (membersText (m :: ms) ++ ['\x7d']).length (List.cons_ne_nil m ms)
      (by rw [List.length_append]; omega)
    have hquote : ∃ l, membersText (m :: ms) ++ ['\x7d'] = '\x22' :: l := by
      cases ms <;> exact ⟨_, rfl⟩
    obtain ⟨l, hl⟩ := hquote
    have hnone : token '\x7d' (membersText (m :: ms) ++ ['\x7d']) = none := by
      rw [hl, token_cons (by decide), if_neg (by decide)]
    simp only [Option.bind_eq_bind, Option.bind_some, hnone, hread, skip, List.dropWhile_nil, if_pos]

end GradeKeep.JsonText
