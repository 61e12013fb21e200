/-
The request of the add-course page, and the server that answers it (app.js, routes/addCourse.js).

The page sends the JSON text of the object it filled. The server passes it through body-parser, which is not part of
this repository: `json` stands for it, and `BodyParser` says what its documentation promises of bodies up to `limit`
bytes and of larger ones, which it answers itself. The route logs the object and then the value of each of its
properties. The promise is needed only for texts as the page sends them (`JsonText.parse`): an object whose values are
strings.

Results:
- `data_eq`: the object with its order is filled by the entries of the form;
- `BodyParser.json_body`: body-parser gives the route an object that is enumerated like the page's;
- `BodyParser.post_body`: what the route logs and sends.
-/
import GradeKeep.Core.JsOrder
import GradeKeep.Core.JsonText
import GradeKeep.Web.AddCourse

namespace GradeKeep.AddCourse

open GradeKeep.JsObject GradeKeep.JsonText

/-! ## The request -/

/-- the `data` of the click handler of `#addCourse`, as `Page.posted`, with the order of its properties -/
def Page.data (p : Page) : Properties String :=
  let x := p.rows.map (·.name)
  let y := p.rows.map (·.weight)
  (x.zip y).foldl (fun data e => data.assign e.1 e.2) (Properties.empty.assign "_courseName" p.courseName)

/-- `JSON.stringify(data)` -/
def Page.body (p : Page) : String := stringify p.data.ordered

theorem data_eq (p : Page) : p.data = Properties.fill p.entries := by
  have hzip : (p.rows.map (·.name)).zip (p.rows.map (·.weight)) = p.rows.map Row.entry := by
    rw [List.zip_map']
    rfl
  rw [Page.data, hzip]
  rfl

/-! ## The server -/

/-- what `bodyParser.json()` with this limit hands to the route: what JSON.parse makes of the body, unless that is too
large -/
structure BodyParser (limit : ℕ) (json : String → Option (Properties String)) : Prop where
  within : ∀ body members, body.utf8ByteSize ≤ limit → parse body = some members →
    json body = some (Properties.ofMembers members)
  beyond : ∀ body, limit < body.utf8ByteSize → json body = none

/-- what `console.log` gets -/
inductive Line where
  | data (members : Members)
  | value (text : Option String)
deriving DecidableEq, Repr

/-- the handler of POST /addCourse: the lines it logs, and what it sends -/
def addCourse (data : Properties String) : List Line × String :=
  (.data data.ordered :: (data.ordered.map Prod.fst).map fun key => .value (data.get key), "ok")

def post (json : String → Option (Properties String)) (body : String) : Option (List Line × String) :=
  (json body).map addCourse

/-- the lines for an object with these members -/
def lines (members : Members) : List Line := .data members :: members.map fun e => .value (some e.2)

theorem addCourse_eq (data : Properties String) : addCourse data = (lines data.ordered, "ok") := by
  rw [addCourse, lines, List.map_map]
  congr 2
  refine List.map_congr_left ?_
  intro e he
  have hmem : (e.1, e.2) ∈ data.members := data.ordered_perm.mem_iff.1 he
  rw [Function.comp_apply, (data.mem_members_iff e.1 e.2).1 hmem]

section

variable {limit : ℕ} {json : String → Option (Properties String)}

theorem BodyParser.json_body (h : BodyParser limit json) (p : Page) : json p.body =
    if p.body.utf8ByteSize ≤ limit then some (Properties.ofMembers p.data.ordered) else none := by
  split_ifs with hsize
  · exact h.within _ _ hsize (parse_stringify _)
  · exact h.beyond _ (Nat.not_le.1 hsize)

theorem BodyParser.post_body (h : BodyParser limit json) (p : Page) :
    post json p.body = if p.body.utf8ByteSize ≤ limit then some (lines p.data.ordered, "ok") else none := by
  rw [post, h.json_body]
  split_ifs
  · rw [Option.map_some, addCourse_eq, Properties.ofMembers_ordered]
  · rfl

end

/-! ## A body-parser for the page -/

/-- knows the texts the page sends, and no other JSON -/
def pageJson (limit : ℕ) (body : String) : Option (Properties String) :=
  if body.utf8ByteSize ≤ limit then (parse body).map Properties.ofMembers else none

theorem bodyParser_pageJson (limit : ℕ) : BodyParser limit (pageJson limit) := by
  refine ⟨?_, ?_⟩
  · intro body members hsize hparse
    rw [pageJson, if_pos hsize, hparse, Option.map_some]
  · intro body hsize
    rw [pageJson, if_neg (Nat.not_le.2 hsize)]

end GradeKeep.AddCourse
