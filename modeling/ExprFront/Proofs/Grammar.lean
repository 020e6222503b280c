import ExprFront.Session.SourceUnit
import ExprFront.Proofs.Chains

/-!
# The grammar

    unit       ::= definition | declaration | expression | ';'
    definition ::= 'def' signature expression
    declaration ::= 'extern' signature
    signature  ::= NAME '(' NAME* ')'
    expression ::= operand (OPERATOR operand)*
    operand    ::= NUMBER | NAME | NAME '(' (expression (',' expression)*)? ')' | '(' expression ')'

An operator is a character to which the table gives a positive precedence. A derivation also
gives the tree of what it derives. Where brackets or commas are operators themselves, an
expression has to end in front of a token that is none, and a name is a variable only in front
of a token that opens no argument list; otherwise these conditions hold by themselves.
-/

namespace ExprFront
set_option autoImplicit false

def Token.isOperator (table : OperatorTable) (t : Token) : Bool :=
  match t.lexeme with
  | .char c => 0 < table.precedence c
  | _ => false

/-- None of the characters is an operator. -/
def OperatorTable.LeavesOut (table : OperatorTable) (cs : List Char) : Prop :=
  ∀ c ∈ cs, table.precedence c ≤ 0

instance (table : OperatorTable) (cs : List Char) : Decidable (table.LeavesOut cs) :=
  decidable_of_iff (cs.all fun c => table.precedence c ≤ 0) (by simp [OperatorTable.LeavesOut])

namespace Grammar

/-! ## What may follow a name -/

/-- Whether tokens end in a bare name. -/
def EndsInName (ts : List Token) : Prop :=
  ∃ t name, ts.getLast? = some t ∧ t.lexeme = .name name

/-- The next token does not make a call of a name at the end. -/
def NoCall (ts : List Token) (next : Token) : Prop :=
  EndsInName ts → next.lexeme ≠ .char '('

theorem endsInName_append_cons (ts : List Token) (u : Token) (us : List Token) :
    EndsInName (ts ++ u :: us) ↔ EndsInName (u :: us) := by
  simp only [EndsInName, List.getLast?_append, List.getLast?_cons, Option.some_or]

theorem endsInName_concat (ts : List Token) (t : Token) :
    EndsInName (ts ++ [t]) ↔ ∃ name, t.lexeme = .name name := by
  simp [EndsInName]

theorem endsInName_singleton (t : Token) : EndsInName [t] ↔ ∃ name, t.lexeme = .name name :=
  endsInName_concat [] t

theorem not_endsInName_concat {t : Token} {c : Char} (h : t.lexeme = .char c) (ts : List Token) :
    ¬ EndsInName (ts ++ [t]) := by
  rw [endsInName_concat, h]
  simp

/-! ## Expressions -/

section Expressions
variable (table : OperatorTable)

mutual

/-- The tokens of an operand, and its tree. -/
inductive Operand : List Token → Node → Prop
  | number {t : Token} {value : Binary64} (ht : t.lexeme = .number value) :
      Operand [t] (.number value (some t.location))
  | bareName {t : Token} {name : String} (ht : t.lexeme = .name name) :
      Operand [t] (.variable name (some t.location))
  | emptyCall {t o c : Token} {name : String} (ht : t.lexeme = .name name)
      (ho : o.lexeme = .char '(') (hc : c.lexeme = .char ')') :
      Operand [t, o, c] (.call name [] (some t.location))
  | call {t o : Token} {name : String} {ts : List Token} {args : List Node}
      (ht : t.lexeme = .name name) (ho : o.lexeme = .char '(') (hargs : ArgumentList ts args) :
      Operand (t :: o :: ts) (.call name args (some t.location))
  | group {o c : Token} {ts : List Token} {e : Node} {ks : List Link}
      (ho : o.lexeme = .char '(') (h : Chain ts e ks) (hc : c.lexeme = .char ')')
      (hn : c.isOperator table = false) :
      Operand (o :: (ts ++ [c])) (table.tree e ks)

/-- The tokens of a chain, its first operand, and its links. -/
inductive Chain : List Token → Node → List Link → Prop
  | single {ts : List Token} {e : Node} (h : Operand ts e) : Chain ts e []
  | cons {ts us : List Token} {o : Token} {c : Char} {e f : Node} {ks : List Link}
      (h : Operand ts e) (ho : o.lexeme = .char c) (hp : 0 < table.precedence c)
      (hs : NoCall ts o) (hr : Chain us f ks) :
      Chain (ts ++ o :: us) e (⟨c, o.location, f⟩ :: ks)

/-- The tokens of one or more arguments and the closing parenthesis, and their trees. -/
inductive ArgumentList : List Token → List Node → Prop
  | last {ts : List Token} {c : Token} {e : Node} {ks : List Link} (h : Chain ts e ks)
      (hc : c.lexeme = .char ')') (hn : c.isOperator table = false) :
      ArgumentList (ts ++ [c]) [table.tree e ks]
  | more {ts us : List Token} {c : Token} {e : Node} {ks : List Link} {args : List Node}
      (h : Chain ts e ks) (hc : c.lexeme = .char ',') (hn : c.isOperator table = false)
      (hr : ArgumentList us args) :
      ArgumentList (ts ++ c :: us) (table.tree e ks :: args)

end

/-! ## First and last tokens -/

def OpensOperand (t : Token) : Prop :=
  (∃ name, t.lexeme = .name name) ∨ (∃ value, t.lexeme = .number value) ∨ t.lexeme = .char '('

variable {table}

theorem OpensOperand.ne_define {t : Token} (h : OpensOperand t) : t.lexeme ≠ .define := by
  rcases h with ⟨name, h⟩ | ⟨value, h⟩ | h <;> simp [h]

theorem OpensOperand.ne_external {t : Token} (h : OpensOperand t) : t.lexeme ≠ .external := by
  rcases h with ⟨name, h⟩ | ⟨value, h⟩ | h <;> simp [h]

theorem Operand.opens {ts : List Token} {e : Node} (h : Operand table ts e) :
    ∃ t us, ts = t :: us ∧ OpensOperand t := by
  cases h with
  | number ht => exact ⟨_, _, rfl, .inr (.inl ⟨_, ht⟩)⟩
  | bareName ht => exact ⟨_, _, rfl, .inl ⟨_, ht⟩⟩
  | emptyCall ht => exact ⟨_, _, rfl, .inl ⟨_, ht⟩⟩
  | call ht => exact ⟨_, _, rfl, .inl ⟨_, ht⟩⟩
  | group ho => exact ⟨_, _, rfl, .inr (.inr ho)⟩

theorem Chain.opens {ts : List Token} {e : Node} {ks : List Link} (h : Chain table ts e ks) :
    ∃ t us, ts = t :: us ∧ OpensOperand t := by
  cases h with
  | single h => exact h.opens
  | cons h =>
    obtain ⟨t, us, rfl, ht⟩ := h.opens
    exact ⟨t, _, rfl, ht⟩

theorem Chain.ne_nil {ts : List Token} {e : Node} {ks : List Link} (h : Chain table ts e ks) :
    ts ≠ [] := by
  obtain ⟨t, us, rfl, -⟩ := h.opens
  exact List.cons_ne_nil t us

theorem ArgumentList.opens {ts : List Token} {args : List Node} (h : ArgumentList table ts args) :
    ∃ t us, ts = t :: us ∧ OpensOperand t := by
  cases h with
  | last h =>
    obtain ⟨t, us, rfl, ht⟩ := h.opens
    exact ⟨t, _, rfl, ht⟩
  | more h =>
    obtain ⟨t, us, rfl, ht⟩ := h.opens
    exact ⟨t, _, rfl, ht⟩

theorem ArgumentList.not_endsInName {ts : List Token} {args : List Node} :
    ArgumentList table ts args → ¬ EndsInName ts
  | .last _ hc _ => not_endsInName_concat hc _
  | @ArgumentList.more _ _ us _ _ _ _ _ _ _ hr => by
    obtain ⟨u, us, rfl, -⟩ := hr.opens
    rw [endsInName_append_cons]
    exact fun h => hr.not_endsInName ((endsInName_append_cons [_] u us).mp h)

theorem Chain.precedence_pos {ts : List Token} {e : Node} {ks : List Link} :
    Chain table ts e ks → ∀ k ∈ ks, 0 < table.precedence k.op
  | .single _ => by simp
  | .cons _ _ hp _ hr => List.forall_mem_cons.mpr ⟨hp, hr.precedence_pos⟩

variable (table)

/-- The tokens of an expression, and its tree. -/
def Expression (ts : List Token) (e : Node) : Prop :=
  ∃ f ks, Chain table ts f ks ∧ e = table.tree f ks

/-- An expression made of the tokens ends in front of the next one. -/
def Stops (ts : List Token) (next : Token) : Prop :=
  next.isOperator table = false ∧ NoCall ts next

variable {table}

theorem Expression.ne_nil {ts : List Token} {e : Node} (h : Expression table ts e) : ts ≠ [] := by
  obtain ⟨_, _, hc, -⟩ := h
  exact hc.ne_nil

end Expressions

/-! ## Units -/

/-- The tokens of a signature, and the signature. -/
inductive Signature : List Token → Prototype → Prop
  | mk {n o c : Token} {ps : List Token} {name : String} {params : List String}
      (hn : n.lexeme = .name name) (ho : o.lexeme = .char '(')
      (hp : ps.map Token.lexeme = params.map Lexeme.name) (hc : c.lexeme = .char ')') :
      Signature (n :: o :: (ps ++ [c])) ⟨name, params, some n.location⟩

/-- The tokens of a unit that is no separator, and the unit. Bare expressions are wrapped as
functions of the given name. -/
inductive UnitOf (table : OperatorTable) (anonymous : String) : List Token → SourceUnit → Prop
  | definition {d : Token} {ss es : List Token} {p : Prototype} {e : Node}
      (hd : d.lexeme = .define) (hs : Signature ss p) (he : Expression table es e) :
      UnitOf table anonymous (d :: (ss ++ es)) (.definition ⟨p, e⟩)
  | declaration {x : Token} {ss : List Token} {p : Prototype} (hx : x.lexeme = .external)
      (hs : Signature ss p) : UnitOf table anonymous (x :: ss) (.declaration p)
  | expression {es : List Token} {e : Node} (he : Expression table es e) :
      UnitOf table anonymous es (.expression (Definition.wrap anonymous e))

def OpensUnit (t : Token) : Prop :=
  t.lexeme = .define ∨ t.lexeme = .external ∨ OpensOperand t

theorem OpensUnit.ne_separator {t : Token} (h : OpensUnit t) : t.lexeme ≠ .char ';' := by
  rcases h with h | h | ⟨name, h⟩ | ⟨value, h⟩ | h <;> simp [h]

theorem UnitOf.opens {table : OperatorTable} {anonymous : String} {ts : List Token}
    {u : SourceUnit} (h : UnitOf table anonymous ts u) : ∃ t us, ts = t :: us ∧ OpensUnit t := by
  cases h with
  | definition hd => exact ⟨_, _, rfl, .inl hd⟩
  | declaration hx => exact ⟨_, _, rfl, .inr (.inl hx)⟩
  | expression he =>
    obtain ⟨f, ks, hchain, -⟩ := he
    obtain ⟨t, us, rfl, ht⟩ := hchain.opens
    exact ⟨t, us, rfl, .inr (.inr ht)⟩

theorem UnitOf.ne_failure {table : OperatorTable} {anonymous : String} {ts : List Token}
    {u : SourceUnit} (h : UnitOf table anonymous ts u) : u.kind ≠ .failure := by
  cases h <;> simp [SourceUnit.kind]

end Grammar

end ExprFront
