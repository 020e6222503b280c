import ExprFront.Session.SourceUnit

/-!
# Moving locations

Tokens, trees and the states of a parse carry locations, and no step of a parse looks at one. So a
step commutes with every map of the locations: it does not matter whether they are moved before
the step or after it.
-/

namespace ExprFront
set_option autoImplicit false
variable (f : Location → Location)

/-! ## Tokens and trees -/

def Token.relocate (t : Token) : Token := ⟨t.lexeme, f t.location⟩

@[simp] theorem Token.relocate_lexeme (t : Token) : (t.relocate f).lexeme = t.lexeme := rfl

@[simp] theorem Token.relocate_location (t : Token) : (t.relocate f).location = f t.location := rfl

def Prototype.relocate (p : Prototype) : Prototype := { p with location := p.location.map f }

theorem Prototype.relocate_id (p : Prototype) : p.relocate id = p := by
  rw [relocate, Option.map_id, id]

namespace Node

mutual

def relocate : Node → Node
  | .number x l => .number x (l.map f)
  | .variable name l => .variable name (l.map f)
  | .binary op lhs rhs l => .binary op (relocate lhs) (relocate rhs) (l.map f)
  | .call callee args l => .call callee (relocateAll args) (l.map f)
  | .prototype p => .prototype (p.relocate f)
  | .function s body => .function (relocate s) (relocate body)
  | .datum d => .datum d

def relocateAll : List Node → List Node
  | [] => []
  | n :: ns => relocate n :: relocateAll ns

end

theorem relocateAll_eq_map (ns : List Node) : relocateAll f ns = ns.map (relocate f) := by
  induction ns with
  | nil => rfl
  | cons n ns ih => rw [relocateAll, ih, List.map_cons]

@[simp] theorem relocate_location? (n : Node) : (n.relocate f).location? = n.location?.map f := by
  cases n <;> rfl

mutual

theorem relocate_id : ∀ n : Node, n.relocate id = n
  | .number x l => by rw [relocate, Option.map_id, id]
  | .variable name l => by rw [relocate, Option.map_id, id]
  | .binary op lhs rhs l => by rw [relocate, relocate_id lhs, relocate_id rhs, Option.map_id, id]
  | .call callee args l => by rw [relocate, relocateAll_id args, Option.map_id, id]
  | .prototype p => by rw [relocate, p.relocate_id]
  | .function s body => by rw [relocate, relocate_id s, relocate_id body]
  | .datum d => rfl

theorem relocateAll_id : ∀ ns : List Node, relocateAll id ns = ns
  | [] => rfl
  | n :: ns => by rw [relocateAll, relocate_id n, relocateAll_id ns]

end

end Node

def Definition.relocate (d : Definition) : Definition :=
  ⟨d.signature.relocate f, d.body.relocate f⟩

theorem Definition.relocate_id (d : Definition) : d.relocate id = d := by
  rw [relocate, d.signature.relocate_id, d.body.relocate_id]

theorem Definition.relocate_wrap (name : String) (body : Node) :
    (wrap name body).relocate f = wrap name (body.relocate f) := by
  simp only [relocate, wrap, Prototype.relocate, Node.relocate_location?]

/-! ## States -/

def Waiting.relocate (w : Waiting) : Waiting := ⟨w.lhs.relocate f, w.op, f w.location⟩

def Bracket.relocate : Bracket → Bracket
  | .group => .group
  | .arguments callee l args => .arguments callee (f l) (Node.relocateAll f args)

def Enclosure.relocate (b : Enclosure) : Enclosure :=
  ⟨b.bracket.relocate f, b.outer.map (Waiting.relocate f)⟩

def Expected.relocate : Expected → Expected
  | .operand => .operand
  | .firstArgument => .firstArgument
  | .callOrVariable name l => .callOrVariable name (f l)
  | .operator e => .operator (e.relocate f)

def ExpressionState.relocate (s : ExpressionState) : ExpressionState :=
  ⟨s.expected.relocate f, s.chain.map (Waiting.relocate f), s.enclosures.map (Enclosure.relocate f)⟩

def SignatureState.relocate : SignatureState → SignatureState
  | .start => .start
  | .named name l => .named name (f l)
  | .opened name l params => .opened name (f l) params
  | .closed p => .closed (p.relocate f)

def DefinitionState.relocate : DefinitionState → DefinitionState
  | .signature s => .signature (s.relocate f)
  | .body p s => .body (p.relocate f) (s.relocate f)

/-! ## Steps -/

/-- Moving the locations before a step comes to moving them after it. -/
def Natural {σ α : Type} (onState : (Location → Location) → σ → σ)
    (onResult : (Location → Location) → α → α) (step : σ → Token → Step σ α) : Prop :=
  ∀ f s t, step (onState f s) (t.relocate f) = (step s t).map (onState f) (onResult f)

theorem Waiting.complete_relocate (w : Waiting) (e : Node) :
    (w.relocate f).complete (e.relocate f) = (w.complete e).relocate f := by
  simp only [complete, relocate, Node.relocate, Option.map_some]

namespace OperatorTable
variable (table : OperatorTable)

theorem reduce_relocate (least : Int) (ws : List Waiting) (e : Node) :
    table.reduce least (ws.map (Waiting.relocate f)) (e.relocate f) =
      Prod.map (List.map (Waiting.relocate f)) (Node.relocate f) (table.reduce least ws e) := by
  induction ws generalizing e with
  | nil => rfl
  | cons w ws ih =>
    have hop : (w.relocate f).op = w.op := rfl
    simp only [List.map_cons, reduce, hop, Waiting.complete_relocate, ih]
    split <;> rfl

theorem push_relocate (ws : List Waiting) (e : Node) (op : Char) (l : Location) :
    table.push (ws.map (Waiting.relocate f)) (e.relocate f) op (f l) =
      (table.push ws e op l).map (Waiting.relocate f) := by
  simp only [push, reduce_relocate]
  rfl

end OperatorTable

theorem completeAll_relocate (ws : List Waiting) (e : Node) :
    completeAll (ws.map (Waiting.relocate f)) (e.relocate f) = (completeAll ws e).relocate f := by
  induction ws generalizing e with
  | nil => rfl
  | cons w ws ih =>
    show completeAll (ws.map _) ((w.relocate f).complete (e.relocate f)) = _
    rw [w.complete_relocate, ih]
    rfl

namespace ExpressionState

theorem endChain_relocate (e : Node) (enclosures : List Enclosure) (t : Token) :
    endChain (e.relocate f) (enclosures.map (Enclosure.relocate f)) (t.relocate f) =
      (endChain e enclosures t).map (relocate f) (Node.relocate f) := by
  rcases enclosures with _ | ⟨⟨_ | ⟨callee, l, args⟩, outer⟩, rest⟩
  · rfl
  · show (if t.lexeme = .char ')' then _ else _) =
      Step.map _ _ (if t.lexeme = .char ')' then _ else _)
    split <;> rfl
  · have hargs : Node.relocateAll f args ++ [e.relocate f] = Node.relocateAll f (args ++ [e]) := by
      simp only [Node.relocateAll_eq_map, List.map_append, List.map_singleton]
    simp only [List.map_cons, Enclosure.relocate, Bracket.relocate, endChain, hargs]
    show (if t.lexeme = .char ')' then _ else if t.lexeme = .char ',' then _ else _) = _
    split
    · rfl
    · split <;> rfl

theorem threshold_relocate (outermost : Option Int) (enclosures : List Enclosure) :
    threshold outermost (enclosures.map (Enclosure.relocate f)) =
      threshold outermost enclosures := by
  simp only [threshold, List.isEmpty_map]

theorem afterOperand_relocate (table : OperatorTable) (outermost : Option Int) (e : Node)
    (chain : List Waiting) (enclosures : List Enclosure) (t : Token) :
    afterOperand table outermost (e.relocate f) (chain.map (Waiting.relocate f))
        (enclosures.map (Enclosure.relocate f)) (t.relocate f) =
      (afterOperand table outermost e chain enclosures t).map (relocate f) (Node.relocate f) := by
  simp only [afterOperand, Token.relocate_lexeme, Token.relocate_location, threshold_relocate,
    completeAll_relocate, OperatorTable.push_relocate, endChain_relocate]
  split
  · split <;> rfl
  · rfl

theorem beforeOperand_relocate (chain : List Waiting) (enclosures : List Enclosure) (t : Token) :
    beforeOperand (chain.map (Waiting.relocate f)) (enclosures.map (Enclosure.relocate f))
        (t.relocate f) =
      (beforeOperand chain enclosures t).map (relocate f) (Node.relocate f) := by
  simp only [beforeOperand, Token.relocate_lexeme]
  split <;> rfl

theorem firstArgument_relocate (enclosures : List Enclosure) (t : Token) :
    firstArgument (enclosures.map (Enclosure.relocate f)) (t.relocate f) =
      (firstArgument enclosures t).map (relocate f) (Node.relocate f) := by
  have hbefore := beforeOperand_relocate f [] enclosures t
  rcases enclosures with _ | ⟨⟨_ | ⟨callee, l, args⟩, outer⟩, rest⟩
  · exact hbefore
  · exact hbefore
  · show (if t.lexeme = .char ')' then _ else _) =
      Step.map _ _ (if t.lexeme = .char ')' then _ else _)
    split
    · rfl
    · exact hbefore

theorem step_natural (table : OperatorTable) (outermost : Option Int) :
    Natural relocate Node.relocate (step table outermost) := by
  intro f s t
  rcases s with ⟨x, chain, enclosures⟩
  cases x with
  | operand => exact beforeOperand_relocate f chain enclosures t
  | firstArgument => exact firstArgument_relocate f enclosures t
  | callOrVariable name l =>
    show (if t.lexeme = .char '(' then _ else _) =
      Step.map _ _ (if t.lexeme = .char '(' then _ else _)
    split
    · rfl
    · exact afterOperand_relocate f table outermost (.variable name (some l)) chain enclosures t
  | operator e => exact afterOperand_relocate f table outermost e chain enclosures t

end ExpressionState

theorem SignatureState.step_natural : Natural relocate Prototype.relocate step := by
  intro f s t
  cases s with
  | start =>
    simp only [relocate, step, Token.relocate_lexeme]
    split <;> rfl
  | named name l =>
    show (if t.lexeme = .char '(' then _ else _) =
      Step.map _ _ (if t.lexeme = .char '(' then _ else _)
    split <;> rfl
  | opened name l params =>
    simp only [relocate, step, Token.relocate_lexeme]
    split <;> rfl
  | closed p => rfl

namespace DefinitionState
variable (table : OperatorTable)

theorem bodyStep_relocate (p : Prototype) (s : ExpressionState) (t : Token) :
    bodyStep table (p.relocate f) (s.relocate f) (t.relocate f) =
      (bodyStep table p s t).map (relocate f) (Definition.relocate f) := by
  rw [bodyStep, ExpressionState.step_natural, bodyStep]
  cases s.step table (some 0) t <;> rfl

theorem step_natural : Natural relocate Definition.relocate (step table) := by
  intro f s t
  cases s with
  | signature s =>
    have hbody := fun p => bodyStep_relocate f table p .start t
    simp only [relocate, step, SignatureState.step_natural f s t]
    cases s.step t with
    | shift s' => rfl
    | done p => exact hbody p
    | refuse cause => rfl
  | body p s => exact bodyStep_relocate f table p s t

end DefinitionState

end ExprFront
