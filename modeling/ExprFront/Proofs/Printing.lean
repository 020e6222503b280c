import Mathlib.Data.List.Forall2
import ExprFront.Operator.Table
import ExprFront.Proofs.Lexing
import ExprFront.Session.SourceUnit
import ExprFront.Tree.Line

/-!
# Lexemes of printed trees

An expression is printed with parentheses around every operation, a signature with blanks between
its parameters, and a program with a semicolon between its units. A printed text has the lexemes
of what it was printed from, whatever comes after it that does not go on with a word or a number.
-/

namespace ExprFront
set_option autoImplicit false

/-! ## Spelling -/

/-- The text has the lexemes in front of anything that stands apart from it. -/
def Spelled (text : List Char) (ls : List Lexeme) : Prop :=
  ∀ rest, Apart rest → lexemesOf (text ++ rest) = ls ++ lexemesOf rest

theorem apart_nil : Apart [] := by
  intro c hc
  simp at hc

theorem apart_cons {c : Char} (h : isWordChar c = false ∧ isNumberChar c = false)
    (cs : List Char) : Apart (c :: cs) := by
  intro d hd
  obtain rfl := Option.some.inj hd
  exact h

theorem Spelled.lexemesOf {text : List Char} {ls : List Lexeme} (h : Spelled text ls) :
    lexemesOf text = ls := by
  have hnil := h [] apart_nil
  rwa [lexemesOf_nil, List.append_nil, List.append_nil] at hnil

theorem spelled_intercalate {sep : List Char} {ss : List Lexeme}
    (hs : ∀ rest, ExprFront.lexemesOf (sep ++ rest) = ss ++ ExprFront.lexemesOf rest)
    (ha : ∀ rest, Apart (sep ++ rest)) {texts : List (List Char)} {lss : List (List Lexeme)}
    (h : List.Forall₂ Spelled texts lss) : Spelled (sep.intercalate texts) (ss.intercalate lss) := by
  intro rest hr
  induction h with
  | nil => rfl
  | @cons text ls texts lss htext htexts ih =>
    cases htexts with
    | nil =>
      rw [List.intercalate_singleton, List.intercalate_singleton]
      exact htext rest hr
    | cons =>
      rw [List.intercalate_cons_cons, List.intercalate_cons_cons, List.append_assoc,
        List.append_assoc, List.append_assoc, List.append_assoc, htext _ (ha _), hs, ih]

/-! ## Names and numbers -/

/-- A letter and then letters and digits, but no keyword. -/
def IsIdentifier (name : String) : Prop :=
  name.toList.head?.any isLetter = true ∧ name.toList.all isWordChar = true ∧
    name ≠ "def" ∧ name ≠ "extern"

instance (name : String) : Decidable (IsIdentifier name) :=
  inferInstanceAs (Decidable (_ ∧ _ ∧ _ ∧ _))

theorem IsIdentifier.spelled {name : String} (h : IsIdentifier name) :
    Spelled name.toList [.name name] := by
  intro rest hr
  obtain ⟨hletter, hword, hd, hx⟩ := h
  cases hname : name.toList with
  | nil => simp [hname] at hletter
  | cons c cs =>
    rw [hname] at hletter hword
    have hc : isLetter c = true := by simpa using hletter
    have hcs : ∀ d ∈ cs, isWordChar d = true := by
      intro d hd
      exact List.all_eq_true.mp hword d (List.mem_cons_of_mem c hd)
    have hof : String.ofList (c :: cs) = name := by rw [← hname, String.ofList_toList]
    rw [lexemesOf_word hc hcs hr, hof, Lexeme.ofWord_of_ne hd hx]
    rfl

/-- The brief text of the number consists of digits and points and reads back. -/
def Binary64.ReadsBack (x : Binary64) : Prop :=
  x.briefText.toList.all isNumberChar = true ∧ Numeral.value x.briefText.toList = x

theorem Binary64.ReadsBack.spelled {x : Binary64} (h : x.ReadsBack) :
    Spelled x.briefText.toList [.number x] := by
  intro rest hr
  obtain ⟨hall, hvalue⟩ := h
  cases hx : x.briefText.toList with
  | nil =>
    -- Only zero has no digits, and its text has one.
    rw [hx] at hvalue
    have hzero : x = .zero := hvalue.symm
    rw [hzero] at hx
    exact absurd hx (by decide)
  | cons c cs =>
    rw [hx] at hall hvalue
    rw [lexemesOf_number (List.all_eq_true.mp hall) hr, hvalue]
    rfl

/-! ## Brackets and separators -/

theorem apart_blank (cs : List Char) : Apart (' ' :: cs) := apart_cons (by decide) cs

theorem apart_close (cs : List Char) : Apart (')' :: cs) := apart_cons (by decide) cs

theorem apart_open (cs : List Char) : Apart ('(' :: cs) := apart_cons (by decide) cs

theorem lexemesOf_group {l r : List Char} {ls rs : List Lexeme} {c : Char} (hl : Spelled l ls)
    (hr : Spelled r rs) (hc : IsSymbol c) (rest : List Char) :
    lexemesOf ('(' :: (l ++ ' ' :: c :: ' ' :: (r ++ ')' :: rest))) =
      .char '(' :: (ls ++ .char c :: (rs ++ .char ')' :: lexemesOf rest)) := by
  rw [lexemesOf_symbol (by decide), hl _ (apart_blank _), lexemesOf_isBlank rfl,
    lexemesOf_symbol hc, lexemesOf_isBlank rfl, hr _ (apart_close _), lexemesOf_symbol (by decide)]

theorem lexemesOf_brackets {name : String} {inner : List Char} {ls : List Lexeme}
    (hn : IsIdentifier name) (h : Spelled inner ls) (rest : List Char) :
    lexemesOf (name.toList ++ '(' :: (inner ++ ')' :: rest)) =
      .name name :: .char '(' :: (ls ++ .char ')' :: lexemesOf rest) := by
  rw [hn.spelled _ (apart_open _), lexemesOf_symbol (by decide), h _ (apart_close _),
    lexemesOf_symbol (by decide)]
  rfl

theorem spelled_commas {texts : List (List Char)} {lss : List (List Lexeme)}
    (h : List.Forall₂ Spelled texts lss) :
    Spelled ([',', ' '].intercalate texts) ([.char ','].intercalate lss) := by
  refine spelled_intercalate ?_ (fun rest => apart_cons (by decide) _) h
  intro rest
  have hcomma := lexemesOf_symbol (c := ',') (by decide) (' ' :: rest)
  have hblank : lexemesOf (' ' :: rest) = lexemesOf rest := lexemesOf_isBlank rfl rest
  rwa [hblank] at hcomma

theorem spelled_blanks {texts : List (List Char)} {lss : List (List Lexeme)}
    (h : List.Forall₂ Spelled texts lss) :
    Spelled ([' '].intercalate texts) (([] : List Lexeme).intercalate lss) :=
  spelled_intercalate (fun rest => lexemesOf_isBlank rfl rest) apart_blank h

theorem spelled_semicolons {texts : List (List Char)} {lss : List (List Lexeme)}
    (h : List.Forall₂ Spelled texts lss) :
    Spelled ([';', '\n'].intercalate texts) ([.char ';'].intercalate lss) := by
  refine spelled_intercalate ?_ (fun rest => apart_cons (by decide) _) h
  intro rest
  have hsemicolon := lexemesOf_symbol (c := ';') (by decide) ('\n' :: rest)
  have hblank : lexemesOf ('\n' :: rest) = lexemesOf rest := lexemesOf_isBlank rfl rest
  rwa [hblank] at hsemicolon

/-! ## Expressions -/

namespace Node

mutual

def lexemes : Node → List Lexeme
  | .number x _ => [.number x]
  | .variable name _ => [.name name]
  | .binary op lhs rhs _ =>
    .char '(' :: (lexemes lhs ++ (op.getD "").toList.map Lexeme.char ++ lexemes rhs ++ [.char ')'])
  | .call callee args _ =>
    .name callee :: .char '(' :: ([.char ','].intercalate (lexemesAll args) ++ [.char ')'])
  | _ => []

def lexemesAll : List Node → List (List Lexeme)
  | [] => []
  | n :: ns => lexemes n :: lexemesAll ns

end

/-- An expression that can be read back: its names are identifiers, its operators are symbols that
the table knows, and its numbers read back. -/
inductive Printable (table : OperatorTable) : Node → Prop
  | number {x : Binary64} {location : Option Location} (h : x.ReadsBack) :
      Printable table (.number x location)
  | var {name : String} {location : Option Location} (h : IsIdentifier name) :
      Printable table (.variable name location)
  | binary {c : Char} {lhs rhs : Node} {location : Option Location} (hc : IsSymbol c)
      (hp : 0 < table.precedence c) (hl : Printable table lhs) (hr : Printable table rhs) :
      Printable table (.binary (some (String.singleton c)) lhs rhs location)
  | call {callee : String} {args : List Node} {location : Option Location}
      (hf : IsIdentifier callee) (h : ∀ a ∈ args, Printable table a) :
      Printable table (.call callee args location)

theorem lines_spelled {ns : List Node}
    (h : ∀ n ∈ ns, ∃ text, n.line = .ok text ∧ Spelled text.toList n.lexemes) :
    ∃ texts, lines ns = .ok texts ∧
      List.Forall₂ Spelled (texts.map String.toList) (lexemesAll ns) := by
  induction ns with
  | nil => exact ⟨[], rfl, .nil⟩
  | cons n ns ih =>
    obtain ⟨⟨text, htext, hspelled⟩, hns⟩ := List.forall_mem_cons.mp h
    obtain ⟨texts, htexts, hspelleds⟩ := ih hns
    refine ⟨text :: texts, ?_, .cons hspelled hspelleds⟩
    rw [lines, htext, htexts]
    rfl

/-- A printable expression has a line, and the line has the lexemes of the expression. -/
theorem Printable.line_spelled {table : OperatorTable} {n : Node} (h : n.Printable table) :
    ∃ text, n.line = .ok text ∧ Spelled text.toList n.lexemes := by
  induction h with
  | @number x location h => exact ⟨_, rfl, h.spelled⟩
  | var h => exact ⟨_, rfl, h.spelled⟩
  | @binary c lhs rhs location hc hp hl hr ihl ihr =>
    obtain ⟨l, hl, hls⟩ := ihl
    obtain ⟨r, hr, hrs⟩ := ihr
    refine ⟨"(" ++ l ++ " " ++ String.singleton c ++ " " ++ r ++ ")", ?_, ?_⟩
    · rw [line, hl, hr]
      rfl
    · intro rest hrest
      have htext := lexemesOf_group hls hrs hc rest
      simpa [lexemes] using htext
  | @call callee args location hf h ih =>
    obtain ⟨texts, htexts, hspelled⟩ := lines_spelled ih
    refine ⟨callee ++ "(" ++ String.intercalate ", " texts ++ ")", ?_, ?_⟩
    · rw [line, htexts]
      rfl
    · intro rest hrest
      have htext := lexemesOf_brackets hf (spelled_commas hspelled) rest
      simpa [lexemes] using htext

end Node

/-! ## Signatures and units -/

def Prototype.lexemes (p : Prototype) : List Lexeme :=
  .name p.name :: .char '(' :: (p.params.map Lexeme.name ++ [.char ')'])

/-- A signature whose names are identifiers. -/
def Prototype.Printable (p : Prototype) : Prop :=
  IsIdentifier p.name ∧ ∀ q ∈ p.params, IsIdentifier q

theorem intercalate_names (params : List String) :
    ([] : List Lexeme).intercalate (params.map fun q => [.name q]) = params.map Lexeme.name := by
  induction params with
  | nil => rfl
  | cons q params ih =>
    cases params with
    | nil => rfl
    | cons r params =>
      rw [List.map_cons, List.map_cons, List.intercalate_cons_cons]
      exact congrArg (Lexeme.name q :: ·) ih

theorem Prototype.Printable.spelled {p : Prototype} (h : p.Printable) :
    Spelled (p.header " ").toList p.lexemes := by
  obtain ⟨hname, hparams⟩ := h
  have hspelled : List.Forall₂ Spelled (p.params.map String.toList)
      (p.params.map fun q => [.name q]) := by
    rw [List.forall₂_map_left_iff, List.forall₂_map_right_iff, List.forall₂_same]
    exact fun q hq => (hparams q hq).spelled
  intro rest hrest
  have htext := lexemesOf_brackets hname (spelled_blanks hspelled) rest
  rw [intercalate_names] at htext
  simpa [header, lexemes] using htext

namespace SourceUnit

/-- The text of a unit in a program. A failure has none. -/
def sourceText : SourceUnit → Except TreeFault String
  | .definition f => do
    let text ← f.body.line
    return "def " ++ f.signature.header " " ++ " " ++ text
  | .declaration p => .ok ("extern " ++ p.header " ")
  | .expression f => f.body.line
  | .failure _ => .ok ""

def lexemes : SourceUnit → List Lexeme
  | .definition f => .define :: (f.signature.lexemes ++ f.body.lexemes)
  | .declaration p => .external :: p.lexemes
  | .expression f => f.body.lexemes
  | .failure _ => []

/-- A unit that can be read back. Bare expressions are functions of the given name without
parameters. -/
inductive Printable (table : OperatorTable) (anonymous : String) : SourceUnit → Prop
  | definition {f : Definition} (hs : f.signature.Printable) (hb : f.body.Printable table) :
      Printable table anonymous (.definition f)
  | declaration {p : Prototype} (hp : p.Printable) : Printable table anonymous (.declaration p)
  | expression {f : Definition} (hn : f.signature.name = anonymous) (hp : f.signature.params = [])
      (hb : f.body.Printable table) : Printable table anonymous (.expression f)

theorem Printable.sourceText_spelled {table : OperatorTable} {anonymous : String}
    {u : SourceUnit} (h : u.Printable table anonymous) :
    ∃ text, u.sourceText = .ok text ∧ Spelled text.toList u.lexemes := by
  cases h with
  | @definition f hs hb =>
    obtain ⟨text, htext, hspelled⟩ := hb.line_spelled
    refine ⟨"def " ++ f.signature.header " " ++ " " ++ text, ?_, ?_⟩
    · rw [sourceText, htext]
      rfl
    · intro rest hrest
      have hbody := hspelled rest hrest
      have hheader := hs.spelled _ (apart_blank (text.toList ++ rest))
      have hdef := @lexemesOf_word 'd' ['e', 'f'] _ (by decide)
        (List.all_eq_true.mp (by decide))
        (apart_blank ((f.signature.header " ").toList ++ ' ' :: (text.toList ++ rest)))
      rw [lexemesOf_isBlank rfl, hheader, lexemesOf_isBlank rfl, hbody] at hdef
      simpa [lexemes, Lexeme.ofWord_define] using hdef
  | @declaration p hp =>
    refine ⟨_, rfl, ?_⟩
    intro rest hrest
    have hheader := hp.spelled rest hrest
    have hextern := @lexemesOf_word 'e' ['x', 't', 'e', 'r', 'n'] _ (by decide)
      (List.all_eq_true.mp (by decide)) (apart_blank ((p.header " ").toList ++ rest))
    rw [lexemesOf_isBlank rfl, hheader] at hextern
    simpa [lexemes, Lexeme.ofWord_external] using hextern
  | expression hn hp hb => exact hb.line_spelled

end SourceUnit

/-- The text of a program: its units with a semicolon and a line feed between them. -/
def programText (units : List SourceUnit) : Except TreeFault String := do
  let texts ← units.mapM SourceUnit.sourceText
  return String.intercalate ";\n" texts

/-- A program of printable units has a text with the lexemes of the units. -/
theorem programText_spelled {table : OperatorTable} {anonymous : String} {units : List SourceUnit}
    (h : ∀ u ∈ units, u.Printable table anonymous) :
    ∃ text, programText units = .ok text ∧
      lexemesOf text.toList = [.char ';'].intercalate (units.map SourceUnit.lexemes) := by
  have htexts : ∃ texts, units.mapM SourceUnit.sourceText = .ok texts ∧
      List.Forall₂ Spelled (texts.map String.toList) (units.map SourceUnit.lexemes) := by
    induction units with
    | nil => exact ⟨[], rfl, .nil⟩
    | cons u units ih =>
      obtain ⟨hu, hunits⟩ := List.forall_mem_cons.mp h
      obtain ⟨text, htext, hspelled⟩ := hu.sourceText_spelled
      obtain ⟨texts, htexts, hspelleds⟩ := ih hunits
      refine ⟨text :: texts, ?_, .cons hspelled hspelleds⟩
      rw [List.mapM_cons, htext, htexts]
      rfl
  obtain ⟨texts, htexts, hspelled⟩ := htexts
  refine ⟨String.intercalate ";\n" texts, ?_, ?_⟩
  · rw [programText, htexts]
    rfl
  · rw [String.toList_intercalate]
    exact (spelled_semicolons hspelled).lexemesOf

end ExprFront
