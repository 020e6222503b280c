import ExprFront.Program.Result
import ExprFront.Tree.Entry

/-!
# Reports

A report is a JSON array with one entry for each unit: its kind and its trees, or the message
and the location of its diagnostic. A failure without a diagnostic has no entry. The name of a bare
expression and the name of the source come from outside. A run hands them on without reading them,
so that the report can put any texts in their places.
-/

namespace ExprFront
set_option autoImplicit false

/-- What a report writes for the name of a bare expression and for the name of the source. -/
structure Naming where
  wrapper : String → CodeText
  source : String → CodeText

namespace Naming

/-- Names are written as they are. -/
def plain : Naming := ⟨CodeText.ofString, CodeText.ofString⟩

/-- Others are written in the places of the names. -/
def replaced (wrapper source : CodeText) : Naming := ⟨fun _ => wrapper, fun _ => source⟩

/-- The halves of pairs are put together in all names. -/
def joined (n : Naming) : Naming :=
  ⟨fun name => (n.wrapper name).joined, fun name => (n.source name).joined⟩

def place (n : Naming) (l : Location) : CodeText :=
  n.source l.filename ++ CodeText.ofString (":" ++ l.place)

end Naming

namespace SourceUnit

def functionEntry (type : String) (name : CodeText) (f : Definition) : Except TreeFault Json := do
  let body ← f.body.entry
  return .object
    [("type", .text type), ("prototype", signatureEntry name f.signature.params), ("body", body)]

def diagnosticEntry (n : Naming) (d : Diagnostic) : Json :=
  .object
    [("type", .text "error"), ("message", .text d.message),
      ("location", (d.location.map fun l => Json.text (n.place l)).getD .null)]

/-- The entry with its names as given. -/
def entryUnder? (n : Naming) : SourceUnit → Except TreeFault (Option Json)
  | .definition f => (functionEntry TokenKind.define.reportName f.signature.name f).map some
  | .declaration p =>
    .ok (some (.object
      [("type", .text TokenKind.external.reportName), ("prototype", p.entry)]))
  | .expression f => (functionEntry "expression" (n.wrapper f.signature.name) f).map some
  | .failure d => .ok (d.map (diagnosticEntry n))

def entry? (u : SourceUnit) : Except TreeFault (Option Json) := u.entryUnder? .plain

end SourceUnit

def entriesUnder (n : Naming) (units : List SourceUnit) : Except TreeFault (List Json) := do
  let entries ← units.mapM (SourceUnit.entryUnder? n)
  return entries.filterMap id

def reportUnder (n : Naming) (s : Json.Style) (units : List SourceUnit) :
    Except TreeFault String := do
  let entries ← entriesUnder n units
  return Json.document s (.array entries)

def reportEntries (units : List SourceUnit) : Except TreeFault (List Json) :=
  entriesUnder .plain units

def report (s : Json.Style) (units : List SourceUnit) : Except TreeFault String :=
  reportUnder .plain s units

def defaultStyle : Json.Style := .lines 4

end ExprFront
