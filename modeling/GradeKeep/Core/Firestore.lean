/-
Firestore as a client sees it: paths, documents as field maps, the four write calls and ordered queries.

- Paths. A path string is split at '/'; an empty first or last piece is dropped and any other empty piece is an error.
  An even number of segments names a document, an odd number a collection (`document`, `collection`).
- Store. A finite map from document paths to field maps (Mathlib's `AList`, whose keys are distinct by construction).
  `addDocument` writes a document under a fresh id whether or not its parent exists, `updateData` merges the given
  fields into an existing document and fails on a missing one, `delete` removes the named document only.
- Queries. `orderBy` keeps the documents that have the field and sorts them by it, then by id.

Results:
- `resourcePath_joined`, `resourcePath_joined_append`: a string built from segments parses to them; whether it names a
  document or a collection is then read off their number (`document_of_resourcePath`, `collection_of_resourcePath`);
- `lookup_apply`: what each write leaves under each path (one equation for all writes and all paths);
- `results_last`: a field has the value the last write that decides it gave it;
- `mem_docs`: the documents of a collection are those stored under it;
- `orderBy_perm`: ordering by a field that every document has only permutes.
-/
import Mathlib.Tactic
import Mathlib.Data.List.AList
import Mathlib.Data.Finmap
import Mathlib.Data.List.Sort
import GradeKeep.Core.SwiftDouble

namespace GradeKeep.Firestore

open GradeKeep.SwiftDouble

/-! ## Paths -/

/-- a path segment, as its characters: not empty, without a slash -/
abbrev Segment := { cs : List Char // cs ≠ [] ∧ '/' ∉ cs }

def Segment.text (s : Segment) : String := String.ofList s.1

structure DocPath where
  coll : List Segment
  id : Segment

theorem DocPath.ext_iff (p q : DocPath) : p.coll = q.coll ∧ p.id = q.id ↔ p = q := by
  cases p; cases q; simp

-- the derived instance would compare the paths themselves to cast along their equality
instance : DecidableEq DocPath := fun p q => decidable_of_iff (p.coll = q.coll ∧ p.id = q.id) (DocPath.ext_iff p q)

def segment (cs : List Char) : Option Segment := if h : cs ≠ [] ∧ '/' ∉ cs then some ⟨cs, h⟩ else none

/-- drop an empty first and an empty last piece -/
def dropEmptyEnds (pieces : List (List Char)) : List (List Char) :=
  let l := if pieces.head? = some [] then pieces.tail else pieces
  if l.getLast? = some [] then l.dropLast else l

def resourcePath (path : String) : Option (List Segment) :=
  (dropEmptyEnds (path.toList.splitOn '/')).mapM segment

/-- `Firestore.collection(_:)` -/
def collection (path : String) : Option (List Segment) :=
  (resourcePath path).filter fun segs => segs.length % 2 = 1

/-- `Firestore.document(_:)` -/
def document (path : String) : Option DocPath := do
  let segs ← resourcePath path
  let id ← segs.getLast?
  if segs.length % 2 = 0 then some ⟨segs.dropLast, id⟩ else none

/-- the text of a path whose segments each end in a slash -/
def joined (segs : List Segment) : List Char := segs.flatMap fun s => s.1 ++ ['/']

theorem mapM_segment (segs : List Segment) : (segs.map (·.1)).mapM segment = some segs := by
  induction segs with
  | nil => rfl
  | cons s segs ih => rw [List.map_cons, List.mapM_cons, segment, dif_pos s.2, ih]; rfl

theorem splitOn_joined (segs : List Segment) (rest : List Char) :
    (joined segs ++ rest).splitOn '/' = segs.map (·.1) ++ rest.splitOn '/' := by
  induction segs with
  | nil => rfl
  | cons s segs ih =>
    have hs : joined (s :: segs) ++ rest = s.1 ++ '/' :: (joined segs ++ rest) := by simp [joined]
    rw [hs, List.splitOn_append_cons_self_of_not_mem s.2.2, ih]
    rfl

theorem dropEmptyEnds_append (segs : List Segment) (last : List Char) (h : segs ≠ []) :
    dropEmptyEnds (segs.map (·.1) ++ [last]) = segs.map (·.1) ++ if last = [] then [] else [last] := by
  obtain ⟨s, segs, rfl⟩ := List.exists_cons_of_ne_nil h
  have hhead : ((s :: segs).map (·.1) ++ [last]).head? ≠ some [] := by simpa using s.2.1
  unfold dropEmptyEnds
  rw [if_neg hhead]
  simp only [List.getLast?_append, List.getLast?_singleton, Option.some_or, Option.some.injEq]
  split_ifs with hl
  · rw [List.dropLast_concat, List.append_nil]
  · rfl

/-- segments that each end in a slash parse to themselves -/
theorem resourcePath_joined {path : String} {segs : List Segment} (hne : segs ≠ []) (h : path.toList = joined segs) :
    resourcePath path = some segs := by
  have hsplit := splitOn_joined segs []
  rw [List.append_nil, List.splitOn_nil] at hsplit
  rw [resourcePath, h, hsplit, dropEmptyEnds_append segs [] hne, if_pos rfl, List.append_nil, mapM_segment]

/-- so do segments whose last one has no slash -/
theorem resourcePath_joined_append {path : String} {segs : List Segment} {s : Segment} (hne : segs ≠ [])
    (h : path.toList = joined segs ++ s.1) : resourcePath path = some (segs ++ [s]) := by
  have hsplit := splitOn_joined segs s.1
  rw [List.splitOn_eq_singleton s.2.2] at hsplit
  have hmap : segs.map (·.1) ++ [s.1] = (segs ++ [s]).map (·.1) := by simp
  rw [resourcePath, h, hsplit, dropEmptyEnds_append segs _ hne, if_neg s.2.1, hmap, mapM_segment]

theorem document_of_resourcePath {path : String} {segs : List Segment} {id : Segment}
    (h : resourcePath path = some (segs ++ [id])) (hodd : segs.length % 2 = 1) : document path = some ⟨segs, id⟩ := by
  rw [document, h]
  simp only [Option.bind_eq_bind, Option.bind_some, List.getLast?_append, List.getLast?_singleton, Option.some_or,
    List.length_append, List.length_singleton, List.dropLast_concat]
  rw [if_pos (by omega)]

theorem collection_of_resourcePath {path : String} {segs : List Segment} (h : resourcePath path = some segs)
    (hodd : segs.length % 2 = 1) : collection path = some segs := by
  rw [collection, h, Option.filter_some, if_pos (by simpa using hodd)]

/-! ## Documents and the store -/

inductive Value where
  | string (s : String)
  | double (x : Double)
deriving DecidableEq, Repr

/-- `as? String` -/
def Value.asString : Value → Option String
  | .string s => some s
  | .double _ => none

/-- `as? Double` -/
def Value.asDouble : Value → Option Double
  | .double x => some x
  | .string _ => none

theorem Value.asString_eq_some {v : Value} {s : String} : v.asString = some s ↔ v = .string s := by
  cases v <;> simp [asString]

theorem Value.asDouble_eq_some {v : Value} {x : Double} : v.asDouble = some x ↔ v = .double x := by
  cases v <;> simp [asDouble]

/-- a document's fields -/
abbrev Doc := Finmap fun _ : String => Value

/-- `d key` is the value of the field `key`, if there is one -/
instance : CoeFun Doc fun _ => String → Option Value := ⟨fun d key => d.lookup key⟩

/-- a dictionary literal -/
def Doc.ofFields (fields : List (String × Value)) : Doc := (fields.map fun f => (⟨f.1, f.2⟩ : Sigma _)).toFinmap

/-- the given fields over the old ones -/
def Doc.merge (data old : Doc) : Doc := data ∪ old

@[simp] theorem Doc.ofFields_nil (key : String) : Doc.ofFields [] key = none := rfl

@[simp] theorem Doc.ofFields_cons (key k : String) (x : Value) (fields : List (String × Value)) :
    Doc.ofFields ((k, x) :: fields) key = if k = key then some x else Doc.ofFields fields key := by
  simp only [Doc.ofFields, List.map_cons, Finmap.dlookup_list_toFinmap]
  split_ifs with h
  · subst h; exact List.dlookup_cons_eq _ _ _
  · exact List.dlookup_cons_ne _ (⟨k, x⟩ : Sigma fun _ => Value) fun e => h e.symm

theorem Doc.merge_some {data old : Doc} {key : String} {x : Value} (h : data key = some x) :
    data.merge old key = some x :=
  (Finmap.lookup_union_left (Finmap.mem_of_lookup_eq_some h)).trans h

theorem Doc.merge_none {data old : Doc} {key : String} (h : data key = none) : data.merge old key = old key :=
  Finmap.lookup_union_right (Finmap.lookup_eq_none.1 h)

theorem Doc.merge_lookup (data old : Doc) (key : String) : data.merge old key = (data key).or (old key) := by
  cases h : data key with
  | none => exact Doc.merge_none h
  | some x => exact Doc.merge_some h

/-- a field merged into a document that has it already -/
theorem Doc.merge_idle {d : Doc} {key : String} {x : Value} (h : d key = some x) :
    (Doc.ofFields [(key, x)]).merge d = d := by
  apply Finmap.ext_lookup
  intro k
  show (Doc.ofFields [(key, x)]).merge d k = d k
  rw [Doc.merge_lookup]
  by_cases hk : key = k
  · subst hk
    simp [h]
  · simp [hk]

theorem Doc.ofFields_append (l l' : List (String × Value)) :
    Doc.ofFields (l ++ l') = (Doc.ofFields l).merge (Doc.ofFields l') := by
  apply Finmap.ext_lookup
  intro key
  show Doc.ofFields (l ++ l') key = (Doc.ofFields l).merge (Doc.ofFields l') key
  rw [Doc.merge_lookup]
  induction l with
  | nil => rfl
  | cons f l ih =>
    obtain ⟨k, x⟩ := f
    rw [List.cons_append, Doc.ofFields_cons, Doc.ofFields_cons, ih]
    split_ifs <;> rfl

abbrev Store := AList fun _ : DocPath => Doc

/-- the document stored under p; found by its key, so that evaluating it needs no cast -/
def Store.find (s : Store) (p : DocPath) : Option Doc := (s.entries.find? fun e => e.1 = p).map (·.2)

theorem Store.find_eq_lookup (s : Store) (p : DocPath) : Store.find s p = s.lookup p := by
  unfold Store.find AList.lookup
  induction s.entries with
  | nil => rfl
  | cons e l ih =>
    obtain ⟨q, d⟩ := e
    by_cases h : q = p
    · subst h; rw [List.dlookup_cons_eq]; simp
    · rw [List.find?_cons_of_neg (by simpa using h), ih, List.dlookup_cons_ne _ _ fun h' => h h'.symm]

inductive Write where
  | add (p : DocPath) (data : Doc)
  | update (p : DocPath) (data : Doc)
  | delete (p : DocPath)

namespace Write

def path : Write → DocPath
  | add p _ => p
  | update p _ => p
  | delete p => p

/-- the server applies a write -/
def apply (s : Store) : Write → Store
  | add p data => s.insert p data
  | update p data =>
    match Store.find s p with
    | none => s
    | some old => s.insert p (data.merge old)
  | delete p => s.erase p

/-- what a write makes of the document under its path -/
def result : Write → Option Doc → Option Doc
  | add _ data, _ => some data
  | update _ data, old => old.map data.merge
  | delete _, _ => none

theorem lookup_apply (s : Store) (w : Write) (q : DocPath) :
    (w.apply s).lookup q = if q = w.path then w.result (s.lookup q) else s.lookup q := by
  cases w with
  | add p data =>
    by_cases h : q = p
    · subst h; simp [apply, path, result]
    · simp [apply, path, h, AList.lookup_insert_ne h]
  | update p data =>
    cases hp : s.lookup p with
    | none =>
      by_cases h : q = p
      · subst h; simp [apply, path, result, Store.find_eq_lookup, hp]
      · simp [apply, path, Store.find_eq_lookup, hp, h]
    | some old =>
      by_cases h : q = p
      · subst h; simp [apply, path, result, Store.find_eq_lookup, hp]
      · simp [apply, path, Store.find_eq_lookup, hp, h, AList.lookup_insert_ne h]
  | delete p =>
    by_cases h : q = p
    · subst h; simp [apply, path, result]
    · simp [apply, path, h, AList.lookup_erase_ne h]

theorem lookup_apply_self (s : Store) (w : Write) : (w.apply s).lookup w.path = w.result (s.lookup w.path) := by
  rw [lookup_apply, if_pos rfl]

theorem lookup_apply_ne (s : Store) (w : Write) {q : DocPath} (h : q ≠ w.path) :
    (w.apply s).lookup q = s.lookup q := by
  rw [lookup_apply, if_neg h]

/-- the fields a write carries -/
def data : Write → Option Doc
  | add _ data => some data
  | update _ data => some data
  | delete _ => none

/-- what merging keeps, a write keeps of the documents of the store -/
theorem apply_of_merge {P : Doc → Prop} (hmerge : ∀ data old, P data → P old → P (data.merge old)) {s : Store}
    {w : Write} (hs : ∀ p d, s.lookup p = some d → P d) (hw : ∀ d ∈ w.data, P d) :
    ∀ p d, (w.apply s).lookup p = some d → P d := by
  intro p d hp
  rw [lookup_apply] at hp
  split_ifs at hp
  · cases w with
    | add q data => exact Option.some.inj hp ▸ hw data rfl
    | update q data =>
      obtain ⟨old, hold, rfl⟩ := Option.map_eq_some_iff.1 hp
      exact hmerge data old (hw data rfl) (hs p old hold)
    | delete q => cases hp
  · exact hs p d hp

end Write

/-! ## Several writes to one document -/

namespace Write

/-- what writes under one path, in this order, make of its document -/
def results (ws : List Write) (old : Option Doc) : Option Doc := ws.foldl (fun d w => w.result d) old

/-- the write decides the field `key`; an update decides the fields it names, the others all of them -/
def decides (key : String) : Write → Bool
  | update _ data => (data key).isSome
  | _ => true

theorem results_append (a b : List Write) (old : Option Doc) : results (a ++ b) old = results b (results a old) :=
  List.foldl_append

/-- what each write keeps of its document, they all keep -/
theorem results_keeps {P : Doc → Prop} {ws : List Write} {old : Option Doc}
    (h : ∀ w ∈ ws, ∀ old, (∀ d ∈ old, P d) → ∀ d ∈ w.result old, P d) (hold : ∀ d ∈ old, P d) :
    ∀ d ∈ results ws old, P d := by
  induction ws generalizing old with
  | nil => exact hold
  | cons w ws ih =>
    exact ih (fun w' hw' => h w' (List.mem_cons_of_mem _ hw')) (h w List.mem_cons_self old hold)

/-- updates never remove a document -/
theorem results_isSome {ws : List Write} (h : ∀ w ∈ ws, ∃ p data, w = update p data) {old : Option Doc}
    (hold : old.isSome) : (results ws old).isSome := by
  induction ws generalizing old with
  | nil => exact hold
  | cons w ws ih =>
    obtain ⟨p, data, rfl⟩ := h w List.mem_cons_self
    apply ih fun w' hw' => h w' (List.mem_cons_of_mem _ hw')
    simpa [result] using hold

/-- a field keeps its value through writes that do not decide it -/
theorem results_undecided {key : String} {ws : List Write} (h : ∀ w ∈ ws, w.decides key = false) (old : Option Doc) :
    (results ws old).map (fun d => d key) = old.map fun d => d key := by
  induction ws generalizing old with
  | nil => rfl
  | cons w ws ih =>
    have hw := h w List.mem_cons_self
    have ih' := ih (fun w' hw' => h w' (List.mem_cons_of_mem _ hw')) (w.result old)
    refine ih'.trans ?_
    cases w with
    | add p data => simp [decides] at hw
    | update p data =>
      have hnone : data key = none := by simpa [decides] using hw
      cases old with
      | none => rfl
      | some d => exact congrArg some (Doc.merge_none hnone)
    | delete p => simp [decides] at hw

/-- **The last writer of a field.** -/
theorem results_last {key : String} {a b : List Write} {p : DocPath} {data : Doc} {x : Value}
    (hkey : data key = some x) (hb : ∀ w ∈ b, w.decides key = false) {old : Option Doc} {d : Doc}
    (h : results (a ++ update p data :: b) old = some d) : d key = some x := by
  have hmap := results_undecided hb ((update p data).result (results a old))
  rw [results_append] at h
  have hd : results b ((update p data).result (results a old)) = some d := h
  rw [hd] at hmap
  obtain ⟨d', hd', hkeep⟩ := Option.map_eq_some_iff.1 hmap.symm
  obtain ⟨d₀, -, rfl⟩ := Option.map_eq_some_iff.1 hd'
  exact hkeep.symm.trans (Doc.merge_some hkey)

end Write

/-! ## Queries -/

/-- the documents of a query, with their ids -/
abbrev Snapshot := List (Segment × Doc)

/-- the documents stored in a collection -/
def docs (s : Store) (coll : List Segment) : Snapshot :=
  s.entries.filterMap fun e => if e.1.coll = coll then some (e.1.id, e.2) else none

theorem mem_docs {s : Store} {coll : List Segment} {e : Segment × Doc} :
    e ∈ docs s coll ↔ s.lookup ⟨coll, e.1⟩ = some e.2 := by
  rw [← Option.mem_def, AList.mem_lookup_iff]
  simp only [docs, List.mem_filterMap]
  refine ⟨?_, ?_⟩
  · rintro ⟨⟨p, d⟩, hmem, he⟩
    split_ifs at he with hc
    simp only [Option.some.injEq] at he
    subst he
    subst hc
    exact hmem
  · intro hmem
    exact ⟨_, hmem, by simp⟩

/-- the documents of a collection have distinct ids -/
theorem docs_nodup (s : Store) (coll : List Segment) : ((docs s coll).map Prod.fst).Nodup := by
  have hids : (docs s coll).map Prod.fst =
      (s.entries.map Sigma.fst).filterMap fun p => if p.coll = coll then some p.id else none := by
    rw [docs, List.map_filterMap, List.filterMap_map]
    refine List.filterMap_congr ?_
    intro e _
    simp only [Function.comp_apply]
    split_ifs <;> rfl
  rw [hids]
  refine List.Nodup.filterMap ?_ s.nodupKeys
  intro p q i hp hq
  simp only [Option.mem_def, Option.ite_none_right_eq_some, Option.some.injEq] at hp hq
  exact (DocPath.ext_iff p q).1 ⟨hp.1.trans hq.1.symm, hp.2.trans hq.2.symm⟩

/-- numbers sort before strings, `nan` before the other numbers -/
def Value.le : Value → Value → Bool
  | .double .nan, .double _ => true
  | .double (.num _), .double .nan => false
  | .double (.num a), .double (.num b) => a ≤ b
  | .double _, .string _ => true
  | .string _, .double _ => false
  | .string a, .string b => a ≤ b

/-- a comes before b: by the field, then by id -/
def before (field : String) (a b : Segment × Doc) : Bool :=
  match a.2 field, b.2 field with
  | some x, some y => if x = y then a.1.text ≤ b.1.text else x.le y
  | _, _ => true

/-- `order(by:)`: a document without the field is not in the result -/
def orderBy (field : String) (l : Snapshot) : Snapshot :=
  (l.filter fun e => (e.2 field).isSome).insertionSort fun a b => before field a b = true

theorem mem_orderBy {field : String} {l : Snapshot} {e : Segment × Doc} :
    e ∈ orderBy field l ↔ e ∈ l ∧ (e.2 field).isSome := by
  simp [orderBy, List.mem_filter]

theorem orderBy_nodup {field : String} {l : Snapshot} (h : (l.map Prod.fst).Nodup) :
    ((orderBy field l).map Prod.fst).Nodup := by
  have hperm : ((orderBy field l).map Prod.fst).Perm ((l.filter fun e => (e.2 field).isSome).map Prod.fst) :=
    (List.perm_insertionSort _ _).map _
  exact hperm.nodup_iff.2 (h.sublist (List.filter_sublist.map _))

theorem orderBy_perm {field : String} {l : Snapshot} (h : ∀ e ∈ l, (e.2 field).isSome) :
    (orderBy field l).Perm l := by
  refine (List.perm_insertionSort _ _).trans ?_
  rw [List.filter_eq_self.2 h]

end GradeKeep.Firestore
