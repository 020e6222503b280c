import ExprFront.Proofs.Acceptance
import ExprFront.Proofs.Printing

/-!
# Reading printed programs

Tokens with the lexemes of a printable expression derive a single operand, and its tree is the
expression but for the locations. So a printed program is read back unit by unit: each unit stops
in front of the semicolon or the end that comes after it.
-/

namespace ExprFront
set_option autoImplicit false
open Grammar

/-! ## Trees without locations -/

namespace Node

mutual

def unlocated : Node → Node
  | .number x _ => .number x none
  | .variable name _ => .variable name none
  | .binary op lhs rhs _ => .binary op (unlocated lhs) (unlocated rhs) none
  | .call callee args _ => .call callee (unlocatedAll args) none
  | .prototype p => .prototype { p with location := none }
  | .function s body => .function (unlocated s) (unlocated body)
  | .datum d => .datum d

def unlocatedAll : List Node → List Node
  | [] => []
  | n :: ns => unlocated n :: unlocatedAll ns

end

end Node

def Prototype.unlocated (p : Prototype) : Prototype := { p with location := none }

def Definition.unlocated (f : Definition) : Definition := ⟨f.signature.unlocated, f.body.unlocated⟩

def SourceUnit.unlocated : SourceUnit → SourceUnit
  | .definition f => .definition f.unlocated
  | .declaration p => .declaration p.unlocated
  | .expression f => .expression f.unlocated
  | .failure d => .failure d

/-! ## Deriving printed expressions -/

namespace OperatorTable
variable (table : OperatorTable)

theorem tree_single (e : Node) (k : Link) :
    table.tree e [k] =
      .binary (some (String.singleton k.op)) e k.operand (some k.location) := by
  have hsplit : table.split [k] = some ([], k, []) := rfl
  rw [table.tree_of_split hsplit, tree_nil, tree_nil]

end OperatorTable

namespace Grammar
variable {table : OperatorTable}

theorem isOperator_of_char (h : table.LeavesOut ['(', ')', ',', ';']) {t : Token} {c : Char}
    (ht : t.lexeme = .char c) (hc : c ∈ ['(', ')', ',', ';']) : t.isOperator table = false := by
  refine Token.isOperator_of_leavesOut h ?_
  intro d hd
  rw [ht] at hd
  obtain rfl := Lexeme.char.inj hd
  exact hc

theorem arguments_of_lexemes (h : table.LeavesOut ['(', ')', ',', ';']) {n : Node} {ns : List Node}
    (hns : ∀ m ∈ n :: ns, ∀ ts : List Token, ts.map Token.lexeme = m.lexemes →
      ∃ e, Operand table ts e ∧ e.unlocated = m.unlocated)
    {ts : List Token} {c : Token} (hc : c.lexeme = .char ')')
    (hts : ts.map Token.lexeme = [.char ','].intercalate (Node.lexemesAll (n :: ns))) :
    ∃ args, ArgumentList table (ts ++ [c]) args ∧
      Node.unlocatedAll args = Node.unlocatedAll (n :: ns) := by
  induction ns generalizing n ts with
  | nil =>
    have hts : ts.map Token.lexeme = n.lexemes := by
      simpa [Node.lexemesAll] using hts
    obtain ⟨e, he, heq⟩ := hns n List.mem_cons_self ts hts
    refine ⟨[table.tree e []], .last (.single he) hc (isOperator_of_char h hc (by simp)), ?_⟩
    rw [table.tree_nil, Node.unlocatedAll, heq]
    rfl
  | cons m ns ih =>
    obtain ⟨hn, hns⟩ := List.forall_mem_cons.mp hns
    rw [Node.lexemesAll, Node.lexemesAll, List.intercalate_cons_cons, List.append_assoc] at hts
    obtain ⟨us, vs, rfl, hus, hvs⟩ := List.map_eq_append_iff.mp hts
    obtain ⟨k, vs, rfl, hk, hvs⟩ := List.map_eq_cons_iff.mp hvs
    obtain ⟨e, he, heq⟩ := hn us hus
    obtain ⟨args, hargs, hargseq⟩ := ih hns hvs
    refine ⟨table.tree e [] :: args, ?_, ?_⟩
    · rw [List.append_assoc]
      exact .more (.single he) hk (isOperator_of_char h hk (by simp)) hargs
    · rw [table.tree_nil, Node.unlocatedAll, heq, hargseq]
      rfl

theorem Operand.binary (h : table.LeavesOut ['(', ')', ',', ';']) {ls rs : List Token} {o k b : Token}
    {l r : Node} {c : Char} (ho : o.lexeme = .char '(') (hl : Operand table ls l)
    (hk : k.lexeme = .char c) (hp : 0 < table.precedence c) (hr : Operand table rs r)
    (hb : b.lexeme = .char ')') :
    Operand table (o :: (ls ++ k :: (rs ++ [b])))
      (.binary (some (String.singleton c)) l r (some k.location)) := by
  -- A name in front of the operator is no call, since an operator is no parenthesis.
  have hcall : NoCall ls k := by
    intro _ hopen
    obtain rfl := Lexeme.char.inj (hk.symm.trans hopen)
    have hle := h '(' (by simp)
    omega
  have hgroup := Operand.group ho (.cons hl hk hp hcall (.single hr)) hb
    (isOperator_of_char h hb (by simp))
  rwa [table.tree_single, List.append_assoc, List.cons_append] at hgroup

/-- Tokens with the lexemes of a printable expression are an operand with its tree. -/
theorem operand_of_lexemes (h : table.LeavesOut ['(', ')', ',', ';']) {n : Node}
    (hn : n.Printable table) {ts : List Token} (hts : ts.map Token.lexeme = n.lexemes) :
    ∃ e, Operand table ts e ∧ e.unlocated = n.unlocated := by
  induction hn generalizing ts with
  | @number x location hx =>
    obtain ⟨t, rfl, ht⟩ := List.map_eq_singleton_iff.mp hts
    exact ⟨_, .number ht, rfl⟩
  | @var name location hname =>
    obtain ⟨t, rfl, ht⟩ := List.map_eq_singleton_iff.mp hts
    exact ⟨_, .bareName ht, rfl⟩
  | @binary c lhs rhs location hc hp hl hr ihl ihr =>
    have hlexemes : ts.map Token.lexeme =
        .char '(' :: (lhs.lexemes ++ .char c :: (rhs.lexemes ++ [.char ')'])) := by
      simpa [Node.lexemes] using hts
    obtain ⟨o, us, rfl, ho, hus⟩ := List.map_eq_cons_iff.mp hlexemes
    obtain ⟨ls, us, rfl, hls, hus⟩ := List.map_eq_append_iff.mp hus
    obtain ⟨k, us, rfl, hk, hus⟩ := List.map_eq_cons_iff.mp hus
    obtain ⟨rs, us, rfl, hrs, hus⟩ := List.map_eq_append_iff.mp hus
    obtain ⟨b, rfl, hb⟩ := List.map_eq_singleton_iff.mp hus
    obtain ⟨l, hl, hleq⟩ := ihl hls
    obtain ⟨r, hr, hreq⟩ := ihr hrs
    refine ⟨_, .binary h ho hl hk hp hr hb, ?_⟩
    rw [Node.unlocated, Node.unlocated, hleq, hreq]
  | @call callee args location hf hargs ih =>
    obtain ⟨t, us, rfl, ht, hus⟩ := List.map_eq_cons_iff.mp hts
    obtain ⟨o, us, rfl, ho, hus⟩ := List.map_eq_cons_iff.mp hus
    obtain ⟨vs, us, rfl, hvs, hus⟩ := List.map_eq_append_iff.mp hus
    obtain ⟨b, rfl, hb⟩ := List.map_eq_singleton_iff.mp hus
    cases args with
    | nil =>
      obtain rfl : vs = [] := by simpa [Node.lexemesAll] using hvs
      exact ⟨_, .emptyCall ht ho hb, rfl⟩
    | cons n ns =>
      obtain ⟨es, hes, heq⟩ := arguments_of_lexemes h (fun m hm ts hts => ih m hm hts) hb hvs
      refine ⟨_, .call ht ho hes, ?_⟩
      rw [Node.unlocated, Node.unlocated, heq]

theorem signature_of_lexemes {p : Prototype} {ts : List Token}
    (hts : ts.map Token.lexeme = p.lexemes) :
    ∃ q, Signature ts q ∧ q.unlocated = p.unlocated := by
  obtain ⟨t, us, rfl, ht, hus⟩ := List.map_eq_cons_iff.mp hts
  obtain ⟨o, us, rfl, ho, hus⟩ := List.map_eq_cons_iff.mp hus
  obtain ⟨ps, us, rfl, hps, hus⟩ := List.map_eq_append_iff.mp hus
  obtain ⟨b, rfl, hb⟩ := List.map_eq_singleton_iff.mp hus
  exact ⟨_, .mk ht ho hps hb, rfl⟩

/-- Tokens with the lexemes of a printable unit are a unit, the same but for its locations. -/
theorem unitOf_of_lexemes (h : table.LeavesOut ['(', ')', ',', ';']) {anonymous : String}
    {u : SourceUnit} (hu : u.Printable table anonymous) {ts : List Token}
    (hts : ts.map Token.lexeme = u.lexemes) :
    ∃ v, UnitOf table anonymous ts v ∧ v.unlocated = u.unlocated := by
  cases hu with
  | @definition f hs hb =>
    obtain ⟨d, us, rfl, hd, hus⟩ := List.map_eq_cons_iff.mp hts
    obtain ⟨ss, es, rfl, hss, hes⟩ := List.map_eq_append_iff.mp hus
    obtain ⟨q, hq, hqeq⟩ := signature_of_lexemes hss
    obtain ⟨e, he, heq⟩ := operand_of_lexemes h hb hes
    refine ⟨_, .definition hd hq ⟨e, [], .single he, rfl⟩, ?_⟩
    rw [table.tree_nil, SourceUnit.unlocated, SourceUnit.unlocated, Definition.unlocated,
      Definition.unlocated, hqeq, heq]
  | @declaration p hp =>
    obtain ⟨x, us, rfl, hx, hus⟩ := List.map_eq_cons_iff.mp hts
    obtain ⟨q, hq, hqeq⟩ := signature_of_lexemes hus
    exact ⟨_, .declaration hx hq, congrArg SourceUnit.declaration hqeq⟩
  | @expression f hn hp hb =>
    obtain ⟨e, he, heq⟩ := operand_of_lexemes h hb hts
    refine ⟨_, .expression ⟨e, [], .single he, rfl⟩, ?_⟩
    rw [table.tree_nil, SourceUnit.unlocated, SourceUnit.unlocated, Definition.unlocated,
      Definition.unlocated, Prototype.unlocated, Prototype.unlocated, hn, hp]
    exact congrArg (fun b => SourceUnit.expression ⟨⟨anonymous, [], none⟩, b⟩) heq

end Grammar

/-! ## Reading printed programs -/

namespace Session

/-- A printed unit is read up to the semicolon or the end behind it. -/
theorem Ready.turn_of_lexemes {s : Session} (h : s.Ready)
    (hleaves : s.parser.table.LeavesOut ['(', ')', ',', ';']) {u : SourceUnit}
    (hu : u.Printable s.parser.table s.parser.anonymous) {ts us : List Token}
    (hupcoming : s.lookahead.upcoming = ts ++ us) (hts : ts.map Token.lexeme = u.lexemes)
    (hus : ∀ k, us.head? = some k → k.lexeme = .char ';') :
    ∃ v m, s.turn = (.unit v, s.moveTo m) ∧ v.unlocated = u.unlocated ∧ m.upcoming = us := by
  obtain ⟨v, hv, heq⟩ := unitOf_of_lexemes hleaves hu hts
  obtain ⟨m, hr, hm⟩ := Lookahead.reads_of_upcoming hupcoming
  have hstops : Stops s.parser.table ts m.token := by
    cases us with
    | nil => exact stops_of_isEnd (Lookahead.isEnd_of_upcoming_nil hm) ts
    | cons k us =>
      have hk := hus k rfl
      rw [Lookahead.token_of_upcoming_cons hm]
      refine ⟨isOperator_of_char hleaves hk (by simp), fun _ hopen => ?_⟩
      rw [hk] at hopen
      simp at hopen
  exact ⟨v, m, h.turn_of_derived hr hv hstops, heq, hm⟩

/-- A later state of the session, without a report in between. -/
structure Quiet (s s' : Session) : Prop where
  ready : s'.Ready
  table : s'.parser.table = s.parser.table
  anonymous : s'.parser.anonymous = s.parser.anonymous
  errors : s'.parser.errors = s.parser.errors
  aborted : s'.aborted = s.aborted

theorem quiet_moveTo (s : Session) (m : Lookahead) : Quiet s (s.moveTo m) :=
  ⟨s.ready_moveTo m, s.table_moveTo m, s.anonymous_moveTo m, s.errors_moveTo m, rfl⟩

theorem Quiet.trans {s s' s'' : Session} (h : Quiet s s') (h' : Quiet s' s'') : Quiet s s'' :=
  ⟨h'.ready, h'.table.trans h.table, h'.anonymous.trans h.anonymous, h'.errors.trans h.errors,
    h'.aborted.trans h.aborted⟩

/-- The session ends with the given units and reports nothing. -/
structure Delivers (s : Session) (units : List SourceUnit) : Prop where
  units : (unitsOf s.beats).map SourceUnit.unlocated = units.map SourceUnit.unlocated
  errors : s.final.parser.errors = s.parser.errors
  aborted : s.final.aborted = s.aborted

theorem Ready.delivers_nil {s : Session} (h : s.Ready) (he : s.lookahead.token.isEnd = true) :
    s.Delivers [] := by
  refine ⟨by rw [unitsOf_of_isEnd h he], ?_, ?_⟩
  · rw [final_of_last_turn (h.turn_of_isEnd he) rfl]
    exact s.parser.prime_errors
  · rw [final_of_last_turn (h.turn_of_isEnd he) rfl]
    rfl

theorem Delivers.unit {s s' : Session} {v u : SourceUnit} {units : List SourceUnit}
    (h : s'.Delivers units) (hq : Quiet s s') (hturn : s.turn = (.unit v, s'))
    (heq : v.unlocated = u.unlocated) : s.Delivers (u :: units) := by
  refine ⟨?_, ?_, ?_⟩
  · rw [unitsOf_of_turn hturn rfl, List.map_append, h.units]
    exact congrArg (fun x => x :: units.map SourceUnit.unlocated) heq
  · rw [final_of_turn hturn rfl, h.errors, hq.errors]
  · rw [final_of_turn hturn rfl, h.aborted, hq.aborted]

theorem Delivers.separator {s s' : Session} {units : List SourceUnit} (h : s'.Delivers units)
    (hq : Quiet s s') (hturn : s.turn = (.separator, s')) : s.Delivers units := by
  refine ⟨?_, ?_, ?_⟩
  · rw [unitsOf_of_turn hturn rfl, ← h.units]
    rfl
  · rw [final_of_turn hturn rfl, h.errors, hq.errors]
  · rw [final_of_turn hturn rfl, h.aborted, hq.aborted]

/-- The units of a printed program are read back. -/
theorem Ready.delivers_of_lexemes {s : Session} (h : s.Ready)
    (hleaves : s.parser.table.LeavesOut ['(', ')', ',', ';']) {units : List SourceUnit}
    (hu : ∀ u ∈ units, u.Printable s.parser.table s.parser.anonymous)
    (hts : s.lookahead.upcoming.map Token.lexeme =
      [.char ';'].intercalate (units.map SourceUnit.lexemes)) : s.Delivers units := by
  induction units generalizing s with
  | nil => exact h.delivers_nil (Lookahead.isEnd_of_upcoming_nil (List.map_eq_nil_iff.mp hts))
  | cons u units ih =>
    obtain ⟨hfirst, hrest⟩ := List.forall_mem_cons.mp hu
    cases units with
    | nil =>
      rw [List.map_singleton, List.intercalate_singleton] at hts
      obtain ⟨v, m, hturn, heq, hm⟩ :=
        h.turn_of_lexemes hleaves hfirst (List.append_nil _).symm hts (by simp)
      have hend := (s.ready_moveTo m).delivers_nil (Lookahead.isEnd_of_upcoming_nil hm)
      exact hend.unit (s.quiet_moveTo m) hturn heq
    | cons w units =>
      rw [List.map_cons, List.map_cons, List.intercalate_cons_cons, List.append_assoc] at hts
      obtain ⟨ts, us, hupcoming, hts, hus⟩ := List.map_eq_append_iff.mp hts
      obtain ⟨k, us, rfl, hk, hus⟩ := List.map_eq_cons_iff.mp hus
      obtain ⟨v, m, hturn, heq, hm⟩ := h.turn_of_lexemes hleaves hfirst hupcoming hts
        (by rintro j ⟨⟩; exact hk)
      -- The semicolon behind the unit takes a turn of its own.
      have hsemicolon : m.token.lexeme = .char ';' := by
        rw [Lookahead.token_of_upcoming_cons hm]
        exact hk
      have hseparator := (s.ready_moveTo m).turn_of_separator hsemicolon
      have hquiet := (s.moveTo m).quiet_moveTo m.advance
      have hboth := (s.quiet_moveTo m).trans hquiet
      have hnext : ((s.moveTo m).moveTo m.advance).Delivers (w :: units) := by
        refine ih hboth.ready ?_ ?_ ?_
        · rwa [hboth.table]
        · rwa [hboth.table, hboth.anonymous]
        · rw [lookahead_moveTo, Lookahead.upcoming_advance_of_cons hm]
          exact hus
      exact (hnext.separator hquiet hseparator).unit (s.quiet_moveTo m) hturn heq

end Session

/-- Printing the units of a program and running over the text gives the same units again, but for
their locations, and no diagnostic. -/
theorem Options.run_programText (o : Options) (name : Option String) (units : List SourceUnit)
    (h : o.table.LeavesOut ['(', ')', ',', ';'])
    (hu : ∀ u ∈ units, u.Printable o.table o.anonymous) :
    ∃ text, programText units = .ok text ∧
      (o.run text.toList name).success = true ∧ (o.run text.toList name).aborted = false ∧
      (o.run text.toList name).units.map SourceUnit.unlocated =
        units.map SourceUnit.unlocated := by
  obtain ⟨text, htext, hlexemes⟩ := programText_spelled hu
  have hts : (o.session text.toList name).lookahead.upcoming.map Token.lexeme =
      [.char ';'].intercalate (units.map SourceUnit.lexemes) := by
    have hmap := Scanner.map_lexeme_upcoming (Scanner.ofSource text.toList (o.nameOf name))
    have hblank : lexemesOf (' ' :: text.toList) = lexemesOf text.toList := lexemesOf_isBlank rfl _
    exact hmap.trans (hblank.trans hlexemes)
  have hdelivers := (o.ready_session text.toList name).delivers_of_lexemes h hu hts
  have hsuccess : (o.run text.toList name).success = true :=
    List.isEmpty_iff.mpr (congrArg Collector.diagnostics hdelivers.errors)
  exact ⟨text, htext, hsuccess, hdelivers.aborted, hdelivers.units⟩

/-- A definition whose body ends in a call, a bare expression that starts with a group, and a
declaration. -/
theorem Options.run_programText_default :
    let body : Node := .binary (some "*") (.variable "x" none)
      (.call "g" [.number ⟨false, 0x3FF8000000000000⟩ none, .variable "y" none] none) none
    let units : List SourceUnit := [.definition ⟨⟨"f", ["x", "y"], none⟩, body⟩,
      .expression ⟨⟨anonymousName, [], none⟩, body⟩, .declaration ⟨"g", [], none⟩]
    OperatorTable.default.LeavesOut ['(', ')', ',', ';'] ∧
    (∀ u ∈ units, u.Printable .default anonymousName) ∧
    ∃ text, programText units = .ok text ∧
      (Options.default.run text.toList none).success = true ∧
      (Options.default.run text.toList none).aborted = false ∧
      (Options.default.run text.toList none).units.map SourceUnit.unlocated =
        units.map SourceUnit.unlocated := by
  intro body units
  have hx : IsIdentifier "x" := by decide
  have hy : IsIdentifier "y" := by decide
  have hnumber : Binary64.ReadsBack ⟨false, 0x3FF8000000000000⟩ :=
    ⟨by decide +kernel, by decide +kernel⟩
  have hargs : ∀ a ∈ ([.number ⟨false, 0x3FF8000000000000⟩ none, .variable "y" none] : List Node),
      a.Printable .default :=
    List.forall_mem_cons.mpr ⟨.number hnumber, List.forall_mem_cons.mpr ⟨.var hy, by simp⟩⟩
  have hbody : body.Printable .default :=
    @Node.Printable.binary _ '*' _ _ _ (by decide) (by decide) (.var hx)
      (.call (by decide) hargs)
  have hf : Prototype.Printable ⟨"f", ["x", "y"], none⟩ :=
    ⟨by decide, List.forall_mem_cons.mpr ⟨hx, List.forall_mem_cons.mpr ⟨hy, by simp⟩⟩⟩
  have hg : Prototype.Printable ⟨"g", [], none⟩ := ⟨by decide, by simp⟩
  have hunits : ∀ u ∈ units, u.Printable .default anonymousName :=
    List.forall_mem_cons.mpr ⟨.definition hf hbody, List.forall_mem_cons.mpr
      ⟨.expression rfl rfl hbody, List.forall_mem_cons.mpr ⟨.declaration hg, by simp⟩⟩⟩
  exact ⟨by decide, hunits, Options.run_programText .default none units (by decide) hunits⟩

end ExprFront
