import ExprFront.Json.Reading
import ExprFront.Program.Report

/-!
# What reports tell

The content of a unit is its kind and what its entry tells of it: names and parameters, the body
without the places of its nodes and with the texts of its numbers, and the message and the place of
a diagnostic. A report is read back entry by entry.
-/

namespace ExprFront
set_option autoImplicit false

/-- What an entry tells of an expression. A number is given by its full text. -/
inductive ExpressionContent
  | number (text : String)
  | variable (name : CodeText)
  | binary (op : Option CodeText) (lhs rhs : ExpressionContent)
  | call (callee : CodeText) (args : List ExpressionContent)

inductive UnitContent
  | definition (name : CodeText) (params : List CodeText) (body : ExpressionContent)
  | declaration (name : CodeText) (params : List CodeText)
  | expression (name : CodeText) (params : List CodeText) (body : ExpressionContent)
  | failure (message : CodeText) (place : Option CodeText)

/-- The name of the signature. -/
def UnitContent.name? : UnitContent → Option CodeText
  | .definition name _ _ | .declaration name _ | .expression name _ _ => some name
  | .failure _ _ => none

/-! ## Contents of trees -/

namespace Node

mutual

def content? : Node → Option ExpressionContent
  | .number x _ => some (.number x.text)
  | .variable name _ => some (.variable name)
  | .binary op lhs rhs _ => do
    let l ← content? lhs
    let r ← content? rhs
    return .binary (op.map CodeText.ofString) l r
  | .call callee args _ => do
    let items ← contents? args
    return .call callee items
  | _ => none

def contents? : List Node → Option (List ExpressionContent)
  | [] => some []
  | n :: ns => do
    let item ← content? n
    let items ← contents? ns
    return item :: items

end

end Node

/-- The content with the given names. A failure without a diagnostic has none. -/
def SourceUnit.contentUnder? (n : Naming) : SourceUnit → Option UnitContent
  | .definition f => f.body.content?.map
    (.definition f.signature.name (f.signature.params.map CodeText.ofString))
  | .declaration p => some (.declaration p.name (p.params.map CodeText.ofString))
  | .expression f => f.body.content?.map
    (.expression (n.wrapper f.signature.name) (f.signature.params.map CodeText.ofString))
  | .failure d => d.map fun d => .failure d.message (d.location.map n.place)

/-! ## Reading entries -/

namespace JsonTree

@[simp] def labels (texts : List String) : List CodeText := texts.map CodeText.ofString

def text? : JsonTree → Option CodeText
  | .text t => some t
  | _ => none

/-- A text that may be missing. -/
def textOrNull? : JsonTree → Option (Option CodeText)
  | .null => some none
  | .text t => some (some t)
  | _ => none

/-- The text of a name, whatever kind of token it is. -/
def name? : JsonTree → Option CodeText
  | .object [(k, .text _), (v, .text name)] =>
    if [k, v] = labels ["type", "value"] then some name else none
  | _ => none

/-- The name and the parameters of a signature. -/
def signature? : JsonTree → Option (CodeText × List CodeText)
  | .object [(n, name), (a, .array params)] =>
    if [n, a] = labels ["name", "args"] then do
      let name ← name.name?
      let params ← params.mapM name?
      return (name, params)
    else none
  | _ => none

mutual

def content? : JsonTree → Option ExpressionContent
  | .object [(k, .text kind), (v, .number t)] =>
    if [k, kind, v] = labels ["kind", "number", "value"] then some (.number (fullText t)) else none
  | .object [(k, .text kind), (n, .text name)] =>
    if [k, kind, n] = labels ["kind", "variable", "name"] then some (.variable name) else none
  | .object [(k, .text kind), (o, op), (l, lhs), (r, rhs)] =>
    if [k, kind, o, l, r] = labels ["kind", "binary", "op", "lhs", "rhs"] then do
      let op ← op.textOrNull?
      let l ← content? lhs
      let r ← content? rhs
      return .binary op l r
    else none
  | .object [(k, .text kind), (c, .text callee), (a, .array args)] =>
    if [k, kind, c, a] = labels ["kind", "call", "callee", "args"] then do
      let items ← contents? args
      return .call callee items
    else none
  | _ => none

def contents? : List JsonTree → Option (List ExpressionContent)
  | [] => some []
  | t :: ts => do
    let item ← content? t
    let items ← contents? ts
    return item :: items

end

/-- The content of a unit from its entry. -/
def unitContent? : JsonTree → Option UnitContent
  | .object [(t, .text type), (p, signature)] =>
    if [t, type, p] = labels ["type", "tok_extern", "prototype"] then do
      let (name, params) ← signature.signature?
      return .declaration name params
    else none
  | .object [(t, .text type), (k, first), (l, second)] =>
    if [t, type, k, l] = labels ["type", "tok_def", "prototype", "body"] then do
      let (name, params) ← first.signature?
      return .definition name params (← second.content?)
    else if [t, type, k, l] = labels ["type", "expression", "prototype", "body"] then do
      let (name, params) ← first.signature?
      return .expression name params (← second.content?)
    else if [t, type, k, l] = labels ["type", "error", "message", "location"] then do
      return .failure (← first.text?) (← second.textOrNull?)
    else none
  | _ => none

end JsonTree

/-- The contents of the units of a report. -/
def readReport (text : String) : Option (List UnitContent) :=
  match JsonTree.read text with
  | some (.array entries) => entries.mapM JsonTree.unitContent?
  | _ => none

end ExprFront
