import ExprFront.Proofs.Occurrences
import ExprFront.Proofs.Turns

/-!
# Where trees stand

Each node of a parsed unit stands where its own lexeme does: a number, a name, a callee or an
operator. In the order of the source, an operator between its operands and a callee before its
arguments, the nodes of a unit stand one behind the other among the tokens of the unit, and those of
later units stand further on.
-/

namespace ExprFront
set_option autoImplicit false
open Grammar

/-! ## The order of the source -/

namespace Node

mutual

/-- The nodes of an expression in the order of the source. -/
def inOrder : Node → List Node
  | .binary op lhs rhs l => inOrder lhs ++ .binary op lhs rhs l :: inOrder rhs
  | .call callee args l => .call callee args l :: inOrderAll args
  | n => [n]

def inOrderAll : List Node → List Node
  | [] => []
  | n :: ns => inOrder n ++ inOrderAll ns

end

/-- The location of an expression or of a signature. -/
def place? : Node → Option Location
  | .prototype p => p.location
  | n => n.location?

/-- The first node has a place in front of that of the second one. -/
def Precedes (m n : Node) : Prop :=
  ∃ l k, m.place? = some l ∧ n.place? = some k ∧ l.Before k

/-- The text is the own lexeme of the node, as long as that can be in front of `rest`. -/
inductive Shows (rest : List Char) : Node → List Char → Prop
  | number {text : List Char} {l : Option Location} (ht : IsNumeral text)
      (hr : ∀ c, rest.head? = some c → isNumberChar c = false) :
      Shows rest (.number (Numeral.value text) l) text
  | var {name : String} {l : Option Location} (ht : IsLexeme rest name.toList) :
      Shows rest (.variable name l) name.toList
  | callee {name : String} {args : List Node} {l : Option Location}
      (ht : IsLexeme rest name.toList) : Shows rest (.call name args l) name.toList
  | operator {c : Char} {lhs rhs : Node} {l : Option Location} :
      Shows rest (.binary (some (String.singleton c)) lhs rhs l) [c]
  | prototype {p : Prototype} (ht : IsLexeme rest p.name.toList) :
      Shows rest (.prototype p) p.name.toList

/-! ## Tokens of nodes -/

/-- The token that a node was made of. -/
def mark? : Node → Option Token
  | .number x l => l.map (Token.mk (.number x))
  | .variable name l => l.map (Token.mk (.name name))
  | .binary op _ _ l => (op.bind singleChar?).bind fun c => l.map (Token.mk (.char c))
  | .call callee _ l => l.map (Token.mk (.name callee))
  | .prototype p => p.location.map (Token.mk (.name p.name))
  | .function .. | .datum _ => none

theorem place?_of_mark? {n : Node} {t : Token} (h : n.mark? = some t) :
    n.place? = some t.location := by
  cases n with
  | number x l =>
    obtain ⟨k, rfl, rfl⟩ := Option.map_eq_some_iff.mp h
    rfl
  | «variable» name l =>
    obtain ⟨k, rfl, rfl⟩ := Option.map_eq_some_iff.mp h
    rfl
  | binary op lhs rhs l =>
    obtain ⟨c, -, h⟩ := Option.bind_eq_some_iff.mp h
    obtain ⟨k, rfl, rfl⟩ := Option.map_eq_some_iff.mp h
    rfl
  | call callee args l =>
    obtain ⟨k, rfl, rfl⟩ := Option.map_eq_some_iff.mp h
    rfl
  | prototype p =>
    obtain ⟨k, hk, rfl⟩ := Option.map_eq_some_iff.mp h
    exact hk
  | function s body => simp [mark?] at h
  | datum d => simp [mark?] at h

theorem precedes_of_mark? {m n : Node} {t u : Token} (hm : m.mark? = some t)
    (hn : n.mark? = some u) (h : t.Before u) : m.Precedes n :=
  ⟨_, _, place?_of_mark? hm, place?_of_mark? hn, h⟩

end Node

theorem Spells.eq_of_name {text : List Char} {name : String} (h : Spells text (.name name)) :
    text = name.toList := by
  cases h
  exact String.toList_ofList.symm

theorem IsLexeme.stops_of_isNumeral {text rest : List Char} (h : IsLexeme rest text)
    (ht : IsNumeral text) : ∀ c, rest.head? = some c → isNumberChar c = false := by
  cases h with
  | word hl hr =>
    obtain ⟨c, cs, rfl, hc, -⟩ := hl
    rw [not_isLetter_of_isNumberChar (ht.2 c List.mem_cons_self)] at hc
    simp at hc
  | numeral hl hr => exact hr
  | @mark c hc =>
    have hnumber := ht.2 c List.mem_cons_self
    rw [hc.2.1] at hnumber
    simp at hnumber

/-- A node shows the text of its token. -/
theorem Node.shows_of_mark? {n : Node} {t : Token} {text rest : List Char} (h : n.mark? = some t)
    (hl : IsLexeme rest text) (hs : Spells text t.lexeme) : n.Shows rest text := by
  cases n with
  | number x l =>
    obtain ⟨k, -, rfl⟩ := Option.map_eq_some_iff.mp h
    cases hs with
    | numeral ht =>
      exact .number ht (hl.stops_of_isNumeral ht)
  | «variable» name l =>
    obtain ⟨k, -, rfl⟩ := Option.map_eq_some_iff.mp h
    obtain rfl := hs.eq_of_name
    exact .var hl
  | binary op lhs rhs l =>
    obtain ⟨c, hop, h⟩ := Option.bind_eq_some_iff.mp h
    obtain ⟨k, -, rfl⟩ := Option.map_eq_some_iff.mp h
    obtain ⟨s, rfl, hc⟩ := Option.bind_eq_some_iff.mp hop
    obtain rfl := (singleChar?_eq_some_iff s c).mp hc
    cases hs
    exact .operator
  | call callee args l =>
    obtain ⟨k, -, rfl⟩ := Option.map_eq_some_iff.mp h
    obtain rfl := hs.eq_of_name
    exact .callee hl
  | prototype p =>
    obtain ⟨k, -, rfl⟩ := Option.map_eq_some_iff.mp h
    obtain rfl := hs.eq_of_name
    exact .prototype hl
  | function s body => simp [mark?] at h
  | datum d => simp [mark?] at h

/-! ## Derived trees -/

/-- The nodes were made of some of the tokens, in the same order. -/
def MadeOf (marks : List (Option Token)) (ts : List Token) : Prop :=
  ∃ us : List Token, marks = us.map some ∧ us.Sublist ts

theorem MadeOf.nil (ts : List Token) : MadeOf [] ts := ⟨[], rfl, List.nil_sublist ts⟩

theorem MadeOf.append {a b : List (Option Token)} {ts us : List Token} (ha : MadeOf a ts)
    (hb : MadeOf b us) : MadeOf (a ++ b) (ts ++ us) := by
  obtain ⟨vs, rfl, hvs⟩ := ha
  obtain ⟨ws, rfl, hws⟩ := hb
  exact ⟨vs ++ ws, List.map_append.symm, hvs.append hws⟩

theorem MadeOf.mark {a : List (Option Token)} {ts : List Token} (t : Token) (h : MadeOf a ts) :
    MadeOf (some t :: a) (t :: ts) := by
  obtain ⟨us, rfl, hus⟩ := h
  exact ⟨t :: us, rfl, hus.cons_cons t⟩

theorem MadeOf.skip {a : List (Option Token)} {ts : List Token} (t : Token) (h : MadeOf a ts) :
    MadeOf a (t :: ts) := by
  obtain ⟨us, rfl, hus⟩ := h
  exact ⟨us, rfl, hus.cons t⟩

theorem MadeOf.before {a : List (Option Token)} {ts : List Token} (h : MadeOf a ts)
    (us : List Token) : MadeOf a (ts ++ us) := by
  obtain ⟨vs, rfl, hvs⟩ := h
  exact ⟨vs, rfl, hvs.trans (List.sublist_append_left ts us)⟩

namespace Node

/-- The marks of the nodes of an expression, in the order of the source. -/
def marks (n : Node) : List (Option Token) := n.inOrder.map mark?

theorem marks_number (x : Binary64) (l : Location) :
    (Node.number x (some l)).marks = [some ⟨.number x, l⟩] := rfl

theorem marks_variable (name : String) (l : Location) :
    (Node.variable name (some l)).marks = [some ⟨.name name, l⟩] := rfl

theorem marks_binary (op : Option String) (lhs rhs : Node) (l : Option Location) :
    (Node.binary op lhs rhs l).marks =
      lhs.marks ++ (Node.binary op lhs rhs l).mark? :: rhs.marks := by
  rw [marks, inOrder, List.map_append, List.map_cons]
  rfl

theorem marks_call (callee : String) (args : List Node) (l : Location) :
    (Node.call callee args (some l)).marks = some ⟨.name callee, l⟩ :: args.flatMap marks := by
  have hall : ∀ ns : List Node, (inOrderAll ns).map mark? = ns.flatMap marks := by
    intro ns
    induction ns with
    | nil => rfl
    | cons n ns ih =>
      rw [inOrderAll, List.map_append, ih, List.flatMap_cons]
      rfl
  rw [marks, inOrder, List.map_cons, hall]
  rfl

end Node

/-- The marks of a link: its operator, and then its operand. -/
def Link.marks (k : Link) : List (Option Token) :=
  some ⟨.char k.op, k.location⟩ :: k.operand.marks

/-- However a chain is split, its nodes stay in order. -/
theorem OperatorTable.marks_tree (table : OperatorTable) (e : Node) (ks : List Link) :
    (table.tree e ks).marks = e.marks ++ ks.flatMap Link.marks := by
  fun_induction tree table e ks with
  | case1 e ks h =>
    rw [(table.split_eq_none_iff ks).mp h, List.flatMap_nil, List.append_nil]
  | case2 e ks before k after h ihb iha =>
    have hmark : (Node.binary (some (String.singleton k.op)) (table.tree e before)
        (table.tree k.operand after) (some k.location)).mark? =
          some ⟨.char k.op, k.location⟩ := by
      simp only [Node.mark?, Option.bind_some, (singleChar?_eq_some_iff _ k.op).mpr rfl,
        Option.map_some]
    rw [Node.marks_binary, ihb, iha, hmark, table.split_append h, List.flatMap_append,
      List.flatMap_cons, Link.marks]
    simp only [List.append_assoc, List.cons_append]

namespace Grammar
variable {table : OperatorTable}

theorem mk_location {t : Token} {x : Lexeme} (h : t.lexeme = x) : Token.mk x t.location = t := by
  rw [← h]

mutual

theorem Operand.madeOf {ts : List Token} {e : Node} : Operand table ts e → MadeOf e.marks ts
  | .number ht => by
    rw [Node.marks_number, mk_location ht]
    exact .mark _ (.nil [])
  | .bareName ht => by
    rw [Node.marks_variable, mk_location ht]
    exact .mark _ (.nil [])
  | .emptyCall ht _ _ => by
    rw [Node.marks_call, mk_location ht]
    exact .mark _ (.nil _)
  | .call ht _ hargs => by
    rw [Node.marks_call, mk_location ht]
    exact .mark _ (hargs.madeOf.skip _)
  | .group _ h _ _ => by
    rw [table.marks_tree]
    exact (h.madeOf.before _).skip _

theorem Chain.madeOf {ts : List Token} {e : Node} {ks : List Link} :
    Chain table ts e ks → MadeOf (e.marks ++ ks.flatMap Link.marks) ts
  | .single h => by
    rw [List.flatMap_nil, List.append_nil]
    exact h.madeOf
  | .cons h ho _ _ hr => by
    rw [List.flatMap_cons, Link.marks, mk_location ho]
    exact h.madeOf.append (hr.madeOf.mark _)

theorem ArgumentList.madeOf {ts : List Token} {args : List Node} :
    ArgumentList table ts args → MadeOf (args.flatMap Node.marks) ts
  | .last h _ _ => by
    rw [List.flatMap_singleton, table.marks_tree]
    exact h.madeOf.before _
  | .more h _ _ hr => by
    rw [List.flatMap_cons, table.marks_tree]
    exact h.madeOf.append (hr.madeOf.skip _)

end

theorem Expression.madeOf {ts : List Token} {e : Node} (h : Expression table ts e) :
    MadeOf e.marks ts := by
  obtain ⟨f, ks, hchain, rfl⟩ := h
  rw [table.marks_tree]
  exact hchain.madeOf

theorem Signature.madeOf {ts : List Token} {p : Prototype} (h : Signature ts p) :
    MadeOf [(Node.prototype p).mark?] ts := by
  cases h with
  | mk hn ho hp hc =>
    have hmark := mk_location hn
    simp only [Node.mark?, Option.map_some, hmark]
    exact .mark _ (.nil _)

end Grammar

/-! ## Units -/

/-- The nodes of a unit in the order of the source. The signature of a bare expression is not in the
source. -/
def SourceUnit.inOrder : SourceUnit → List Node
  | .definition f => .prototype f.signature :: f.body.inOrder
  | .declaration p => [.prototype p]
  | .expression f => f.body.inOrder
  | .failure _ => []

theorem Grammar.UnitOf.madeOf {table : OperatorTable} {anonymous : String} {ts : List Token}
    {u : SourceUnit} (h : UnitOf table anonymous ts u) : MadeOf (u.inOrder.map Node.mark?) ts := by
  cases h with
  | definition hd hs he => exact (hs.madeOf.append he.madeOf).skip _
  | declaration hx hs => exact hs.madeOf.skip _
  | expression he => exact he.madeOf

theorem MadeOf.exists_mem {ns : List Node} {ts : List Token} (h : MadeOf (ns.map Node.mark?) ts) :
    ∀ n ∈ ns, ∃ t ∈ ts, n.mark? = some t := by
  obtain ⟨us, hus, hsub⟩ := h
  intro n hn
  have hmem : n.mark? ∈ us.map some := hus ▸ List.mem_map_of_mem hn
  obtain ⟨t, ht, hmark⟩ := List.mem_map.mp hmem
  exact ⟨t, hsub.subset ht, hmark.symm⟩

theorem MadeOf.pairwise {ns : List Node} {ts : List Token} (h : MadeOf (ns.map Node.mark?) ts)
    (hts : ts.Pairwise Token.Before) : ns.Pairwise Node.Precedes := by
  obtain ⟨us, hus, hsub⟩ := h
  have hmarks : (ns.map Node.mark?).Pairwise fun a b =>
      ∀ t u, a = some t → b = some u → t.Before u := by
    rw [hus, List.pairwise_map]
    refine (hts.sublist hsub).imp ?_
    rintro t u htu _ _ ⟨⟩ ⟨⟩
    exact htu
  refine (List.pairwise_map.mp hmarks).imp_of_mem ?_
  intro m n hm hn hmn
  have hexists : ∀ n ∈ ns, ∃ t ∈ ts, n.mark? = some t :=
    MadeOf.exists_mem ⟨us, hus, hsub⟩
  obtain ⟨t, -, ht⟩ := hexists m hm
  obtain ⟨u, -, hu⟩ := hexists n hn
  exact Node.precedes_of_mark? ht hu (hmn t u ht hu)

/-- The unit stands where the tokens do: each of its nodes shows its own lexeme at the place of one of
them, and the nodes stand one behind the other. -/
structure SourceUnit.Located (filename : String) (source : List Char) (ts : List Token)
    (u : SourceUnit) : Prop where
  shown : ∀ n ∈ u.inOrder, ∃ t ∈ ts, n.place? = some t.location ∧
    ∃ before text rest, Occurs filename source before text rest t ∧ n.Shows rest text
  ordered : u.inOrder.Pairwise Node.Precedes

theorem Grammar.UnitOf.located {table : OperatorTable} {anonymous filename : String}
    {source : List Char} {l m : Lookahead} {ts : List Token} {u : SourceUnit}
    (h : UnitOf table anonymous ts u) (hr : l.Reads ts m) (hl : StandsIn filename source l) :
    u.Located filename source ts where
  shown := by
    intro n hn
    obtain ⟨t, ht, hmark⟩ := h.madeOf.exists_mem n hn
    obtain ⟨before, text, rest, hoccurs, hlexeme, hspells⟩ := hl.occurs_of_reads hr t ht
    exact ⟨t, ht, Node.place?_of_mark? hmark, before, text, rest, hoccurs,
      Node.shows_of_mark? hmark hlexeme hspells⟩
  ordered := h.madeOf.pairwise (List.pairwise_append.mp (hl.ascend hr)).1

/-! ## Sessions -/

namespace Session

/-- The nodes of the unit of the turn, if it made one. -/
def Beat.nodes (b : Beat) : List Node :=
  b.turn.unit?.toList.flatMap SourceUnit.inOrder

/-- The nodes of the turns were made of upcoming tokens, those of later turns of later tokens. -/
structure Ascending (l : Lookahead) (bs : List Beat) : Prop where
  upcoming : ∀ b ∈ bs, ∀ n ∈ b.nodes, ∃ t ∈ l.upcoming, n.mark? = some t
  ordered : bs.Pairwise fun b c => ∀ m ∈ b.nodes, ∀ n ∈ c.nodes, m.Precedes n

theorem ascending_singleton {l : Lookahead} {b : Beat} (h : b.nodes = []) : Ascending l [b] where
  upcoming := by simp [h]
  ordered := List.pairwise_singleton _ b

theorem Ascending.cons {l m : Lookahead} {b : Beat} {bs : List Beat} (h : Ascending m bs)
    (ts : List Token) (hb : ∀ n ∈ b.nodes, ∃ t ∈ ts, n.mark? = some t)
    (hsub : (ts ++ m.upcoming).Sublist l.upcoming) (hl : l.upcoming.Pairwise Token.Before) :
    Ascending l (b :: bs) where
  upcoming := by
    rw [List.forall_mem_cons]
    constructor
    · intro n hn
      obtain ⟨t, ht, hmark⟩ := hb n hn
      exact ⟨t, hsub.subset (List.mem_append_left _ ht), hmark⟩
    · intro c hc n hn
      obtain ⟨t, ht, hmark⟩ := h.upcoming c hc n hn
      exact ⟨t, hsub.subset (List.mem_append_right _ ht), hmark⟩
  ordered := by
    rw [List.pairwise_cons]
    refine ⟨?_, h.ordered⟩
    intro c hc n hn k hk
    obtain ⟨t, ht, hmark⟩ := hb n hn
    obtain ⟨u, hu, hmark'⟩ := h.upcoming c hc k hk
    exact Node.precedes_of_mark? hmark hmark'
      ((List.pairwise_append.mp (hl.sublist hsub)).2.2 t ht u hu)

theorem Live.ascending {filename : String} {source : List Char} {s : Session} (h : s.Live)
    (hs : StandsIn filename source s.lookahead) : Ascending s.lookahead s.beats := by
  induction s, h using Live.induction with
  | aborted s h ht =>
    rw [beats_of_last_turn ht rfl]
    exact ascending_singleton rfl
  | endOfInput s h he ht =>
    rw [beats_of_last_turn ht rfl]
    exact ascending_singleton rfl
  | separator s h hsep ht h' ih =>
    have hr := Lookahead.Reads.single (Token.isEnd_of_char hsep)
    rw [beats_of_turn ht rfl]
    refine (ih hs.advance).cons [] (by simp [Beat.nodes, Turn.unit?]) ?_
      hs.pairwise_upcoming
    rw [hr.upcoming]
    exact List.sublist_append_right _ _
  | derived s h ts m u hr hu ht h' ih =>
    rw [beats_of_turn ht rfl]
    refine (ih (hr.keeps (fun l hl => hl.advance) hs)).cons ts ?_ ?_ hs.pairwise_upcoming
    · simpa [Beat.nodes, Turn.unit?] using hu.madeOf.exists_mem
    · rw [hr.upcoming]
      exact List.Sublist.refl _
  | failed s h ts m cause he hr hf ht h' ih =>
    have hm : StandsIn filename source m := hr.keeps (fun l hl => hl.advance) hs
    rw [beats_of_turn ht rfl]
    refine (ih hm.advance).cons [] (by simp [Beat.nodes, Turn.unit?, SourceUnit.inOrder]) ?_
      hs.pairwise_upcoming
    rw [hr.upcoming]
    exact (hr.scanned h.scanned).advance_upcoming_sublist.trans (List.sublist_append_right _ _)

end Session

/-- Every unit that is parsed stands where its tokens do, and its trees stand behind those of the
units before. -/
theorem Options.run_located (o : Options) (source : List Char) (name : Option String) :
    let s := o.session source name
    (∀ b ∈ s.beats, ∀ u, b.turn = .unit u → u.kind ≠ .failure →
      ∃ ts, b.before.lookahead.Reads ts b.after.lookahead ∧
        u.Located (o.nameOf name) source ts) ∧
    s.beats.Pairwise fun b c => ∀ m ∈ b.nodes, ∀ n ∈ c.nodes, m.Precedes n := by
  intro s
  have hlive : s.Live := o.live_session source name
  have hstands : StandsIn (o.nameOf name) source s.lookahead :=
    standsIn_ofSource (o.nameOf name) source
  refine ⟨?_, (hlive.ascending hstands).ordered⟩
  intro b hb u hu hkind
  obtain ⟨hbefore, hturn, -, -⟩ := hlive.forall_beats b hb
  obtain ⟨hin, -⟩ := hlive.keeps (fun l hl => hl.advance) hstands b hb
  rw [hu] at hturn
  obtain ⟨ts, hr, hunit⟩ := hbefore.derived_of_unit hturn hkind
  exact ⟨ts, hr, hunit.located hr hin⟩

/-- A definition, in whose body a call stands behind an operator. -/
theorem Options.run_located_default :
    let source := "def f(x) x+g(y)".toList
    let s := Options.default.session source none
    ∃ b u ts, b ∈ s.beats ∧ b.turn = .unit u ∧
      u.inOrder.map Node.mark? = [some ⟨.name "f", ⟨"<stdin>", 1, 5⟩⟩,
        some ⟨.name "x", ⟨"<stdin>", 1, 10⟩⟩, some ⟨.char '+', ⟨"<stdin>", 1, 11⟩⟩,
        some ⟨.name "g", ⟨"<stdin>", 1, 12⟩⟩, some ⟨.name "y", ⟨"<stdin>", 1, 14⟩⟩] ∧
      b.before.lookahead.Reads ts b.after.lookahead ∧ u.Located "<stdin>" source ts := by
  intro source s
  have hfirst : s.beats.head?.bind (fun b => b.turn.unit?.map
      fun u => (u.kind, u.inOrder.map Node.mark?)) =
        some (.definition, [some ⟨.name "f", ⟨"<stdin>", 1, 5⟩⟩,
          some ⟨.name "x", ⟨"<stdin>", 1, 10⟩⟩, some ⟨.char '+', ⟨"<stdin>", 1, 11⟩⟩,
          some ⟨.name "g", ⟨"<stdin>", 1, 12⟩⟩, some ⟨.name "y", ⟨"<stdin>", 1, 14⟩⟩]) := by
    decide +kernel
  obtain ⟨b, hb, hunit⟩ := Option.bind_eq_some_iff.mp hfirst
  obtain ⟨u, hu, hmarks⟩ := Option.map_eq_some_iff.mp hunit
  have hmem : b ∈ s.beats := List.mem_of_head? hb
  have hturn : b.turn = .unit u := Turn.eq_unit_of_unit? hu
  have hdefinition : u.kind = .definition := congrArg Prod.fst hmarks
  have hkind : u.kind ≠ .failure := by
    rw [hdefinition]
    decide
  obtain ⟨hlocated, -⟩ := Options.run_located .default source none
  obtain ⟨ts, hr, hl⟩ := hlocated b hmem u hturn hkind
  exact ⟨b, u, ts, hmem, hturn, congrArg Prod.snd hmarks, hr, hl⟩

end ExprFront
