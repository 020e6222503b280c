import ExprFront.Proofs.OutlineTexts
import ExprFront.Proofs.Showing
import ExprFront.Proofs.Traversals

/-!
# Outlines read back

An outline has one line for each node in the order of the walk, indented by its depth. The text
gives back the lines, and these the tree, since what stands below a node is what is deeper. So two
nodes with one text differ at most in locations and in what the brief text of a number leaves out.
-/

namespace ExprFront
set_option autoImplicit false

namespace Node

/-! ## Lines -/

mutual

/-- The nodes of an expression in order, each with its depth, where `depth` is that of the
expression. A function is followed by its body one level deeper. -/
def levels (depth : Nat) : Node → List (Nat × Node)
  | .binary op lhs rhs l =>
    (depth, .binary op lhs rhs l) :: (levels (depth + 1) lhs ++ levels (depth + 1) rhs)
  | .call callee args l => (depth, .call callee args l) :: levelsAll (depth + 1) args
  | .function s body => (depth, .function s body) :: levels (depth + 1) body
  | n => [(depth, n)]

def levelsAll (depth : Nat) : List Node → List (Nat × Node)
  | [] => []
  | n :: ns => levels depth n ++ levelsAll depth ns

end

theorem levelsAll_eq_flatMap (depth : Nat) (ns : List Node) :
    levelsAll depth ns = ns.flatMap (levels depth) := by
  induction ns with
  | nil => rfl
  | cons n ns ih => rw [levelsAll, ih, List.flatMap_cons]

theorem levels_of_children {n : Node} {ns : List Node} (h : n.children? = some ns) (depth : Nat) :
    n.levels depth = (depth, n) :: ns.flatMap (levels (depth + 1)) := by
  cases n <;> simp only [children?, Option.some.injEq, reduceCtorEq] at h <;> subst h <;>
    simp [levels, levelsAll_eq_flatMap]

/-- What the line of a node says. -/
def label : Node → String
  | .number x _ => "Number: " ++ x.briefText
  | .variable name _ => "Variable: " ++ name
  | .binary op _ _ _ => "Binary " ++ displayOperator op
  | .call callee _ _ => "Call: " ++ callee
  | .prototype p => "Extern: " ++ p.header ", "
  | .function (.prototype p) _ => "Function: " ++ p.header ", "
  | _ => ""

def outlineLine (m : Nat × Node) : OutlineLine := ⟨m.1, m.2.label⟩

/-- The lines of a node that stands at a depth. -/
def outlineLines (depth : Nat) (n : Node) : List OutlineLine := (n.levels depth).map outlineLine

theorem outlineLines_of_children {n : Node} {ns : List Node} (h : n.children? = some ns)
    (depth : Nat) :
    n.outlineLines depth = ⟨depth, n.label⟩ :: ns.flatMap (outlineLines (depth + 1)) := by
  rw [outlineLines, levels_of_children h, List.map_cons, List.map_flatMap]
  rfl

/-- The depths leave the order of the nodes as it is. -/
theorem IsExpression.levels_snd {n : Node} (h : n.IsExpression) (depth : Nat) :
    (n.levels depth).map Prod.snd = n.preorder := by
  induction h generalizing depth with
  | number value location => rfl
  | var name location => rfl
  | binary hl hr ihl ihr =>
    simp only [levels, preorder, List.map_cons, List.map_append, ihl, ihr]
  | @call callee args location h ih =>
    have hargs : (args.flatMap (levels (depth + 1))).map Prod.snd = args.flatMap preorder := by
      rw [List.map_flatMap]
      exact List.flatMap_congr fun a ha => ih a ha (depth + 1)
    rw [levels, levelsAll_eq_flatMap, preorder, preorderAll_eq_flatMap, List.map_cons, hargs]

theorem IsExpression.isHandMade {n : Node} (h : n.IsExpression) : n.IsHandMade := by
  induction h with
  | number value location => exact .number value location
  | var name location => exact .var name location
  | binary hl hr ihl ihr => exact .binary ihl ihr
  | call h ih => exact .call ih

theorem IsExpression.datum_notMem {n : Node} (h : n.IsExpression) (d : Datum) :
    .datum d ∉ n.preorder := by
  induction h with
  | number value location => simp [preorder]
  | var name location => simp [preorder]
  | binary hl hr ihl ihr => simp [preorder, ihl, ihr]
  | call h ih => simpa [preorder, preorderAll_eq_flatMap] using ih

/-- The lines stand in the order of the walk. -/
theorem IsExpression.levels_walk {n : Node} (h : n.IsExpression) (depth : Nat) :
    (n.levels depth).map Prod.snd = n.walk.nodes := by
  rw [h.levels_snd, (h.isHandMade.traversed h.datum_notMem).walk]

theorem outlineAllAt_eq {ns : List Node} {depth : Nat}
    (h : ∀ n ∈ ns, n.outlineAt depth = .ok (n.outlineLines depth)) :
    outlineAllAt depth ns = .ok (ns.flatMap (outlineLines depth)) := by
  induction ns with
  | nil => rfl
  | cons n ns ih =>
    obtain ⟨hn, hns⟩ := List.forall_mem_cons.mp h
    rw [outlineAllAt, hn, ih hns, List.flatMap_cons]
    rfl

theorem IsExpression.outlineAt_eq {n : Node} (h : n.IsExpression) (depth : Nat) :
    n.outlineAt depth = .ok (n.outlineLines depth) := by
  induction h generalizing depth with
  | number value location => rfl
  | var name location => rfl
  | @binary op lhs rhs location hl hr ihl ihr =>
    have hlines := outlineLines_of_children (n := .binary op lhs rhs location) rfl depth
    rw [outlineAt, ihl, ihr, hlines, List.flatMap_cons, List.flatMap_singleton]
    rfl
  | @call callee args location h ih =>
    have hlines := outlineLines_of_children (n := .call callee args location) rfl depth
    rw [outlineAt, outlineAllAt_eq fun a ha => ih a ha (depth + 1), hlines]
    rfl

/-! ## Trees from lines -/

/-- The nodes are equal but for locations and for what the brief text of a number leaves out. -/
inductive Alike : Node → Node → Prop
  | number {x y : Binary64} {k l : Option Location} (h : x.briefText = y.briefText) :
    Alike (.number x k) (.number y l)
  | var (name : String) (k l : Option Location) : Alike (.variable name k) (.variable name l)
  | binary (op : Option String) {lhs lhs' rhs rhs' : Node} (k l : Option Location)
    (hl : Alike lhs lhs') (hr : Alike rhs rhs') :
    Alike (.binary op lhs rhs k) (.binary op lhs' rhs' l)
  | call (callee : String) {args args' : List Node} (k l : Option Location)
    (h : List.Forall₂ Alike args args') : Alike (.call callee args k) (.call callee args' l)
  | signature (name : String) (params : List String) (k l : Option Location) :
    Alike (.prototype ⟨name, params, k⟩) (.prototype ⟨name, params, l⟩)
  | function {s s' body body' : Node} (hs : Alike s s') (hb : Alike body body') :
    Alike (.function s body) (.function s' body')

theorem displayOperator_injective {op op' : Option String}
    (h : displayOperator op = displayOperator op') : op = op' := by
  have hnone : ∀ s, Text.quote s ≠ Datum.null.display := by
    intro s hs
    have hhead := congrArg (fun t => t.toList.head?) hs
    have hquote : Text.enclosingQuote s.toList = 'N' := by
      simpa [Text.quote, Text.quoted, Datum.display] using hhead
    rcases Text.isQuote_enclosingQuote s.toList with h | h <;> rw [h] at hquote <;>
      exact absurd hquote (by decide)
  cases op with
  | none =>
    cases op' with
    | none => rfl
    | some t => exact absurd h.symm (hnone t)
  | some s =>
    cases op' with
    | none => exact absurd h (hnone s)
    | some t => exact congrArg some (Text.quote_injective h)

/-- The first letter of a line tells what kind of node it is about. -/
def initial : Node → Char
  | .number .. => 'N'
  | .variable .. => 'V'
  | .binary .. => 'B'
  | .call .. => 'C'
  | .prototype .. => 'E'
  | .function .. => 'F'
  | .datum .. => ' '

theorem initial_label {n : Node} (h : n.children?.isSome) :
    (∃ cs, n.label.toList = n.initial :: cs) ∧ n.initial ∈ ['N', 'V', 'B', 'C'] := by
  match n with
  | .number _ _ | .variable _ _ | .binary _ _ _ _ | .call _ _ _ =>
    exact ⟨⟨_, String.toList_append⟩, by simp [initial]⟩
  | .prototype _ | .function _ _ | .datum _ => simp [children?] at h

theorem initial_eq_of_label {m n : Node} (hm : ∃ cs, m.label.toList = m.initial :: cs)
    (hn : ∃ cs, n.label.toList = n.initial :: cs) (h : m.label = n.label) :
    m.initial = n.initial := by
  obtain ⟨cs, hm⟩ := hm
  obtain ⟨ds, hn⟩ := hn
  rw [h, hn] at hm
  exact (List.cons.inj hm).1.symm

/-- A line and the trees below it determine a tree. -/
theorem alike_of_label {m n : Node} (hm : m.IsExpression) (hn : n.IsExpression)
    (hlabel : m.label = n.label) {ms ns : List Node} (hms : m.children? = some ms)
    (hns : n.children? = some ns) (h : List.Forall₂ Alike ms ns) : m.Alike n := by
  have hinitial : m.initial = n.initial :=
    initial_eq_of_label (initial_label (by simp [hms])).1 (initial_label (by simp [hns])).1 hlabel
  cases hm with
  | number x k =>
    cases hn with
    | number y l => exact .number (by simpa [label] using hlabel)
    | var | binary | call => simp [initial] at hinitial
  | var s k =>
    cases hn with
    | var t l =>
      obtain rfl : s = t := by simpa [label] using hlabel
      exact .var s k l
    | number | binary | call => simp [initial] at hinitial
  | @binary op lhs rhs k hl hr =>
    cases hn with
    | @binary op' lhs' rhs' l hl' hr' =>
      obtain rfl : op = op' := displayOperator_injective (by simpa [label] using hlabel)
      obtain rfl := Option.some.inj hms
      obtain rfl := Option.some.inj hns
      obtain ⟨hlhs, hrhs, -⟩ : lhs.Alike lhs' ∧ rhs.Alike rhs' ∧ List.Forall₂ Alike [] [] := by
        simpa using h
      exact .binary op k l hlhs hrhs
    | number | var | call => simp [initial] at hinitial
  | @call callee args k =>
    cases hn with
    | @call callee' args' l =>
      obtain rfl : callee = callee' := by simpa [label] using hlabel
      obtain rfl := Option.some.inj hms
      obtain rfl := Option.some.inj hns
      exact .call callee k l h
    | number | var | binary => simp [initial] at hinitial

/-- What follows lines of the depth is not as deep. -/
def Shallower (depth : Nat) (ls : List OutlineLine) : Prop := ∀ l ∈ ls.head?, l.level < depth

theorem IsExpression.children {n : Node} (h : n.IsExpression) :
    ∃ ns, n.children? = some ns ∧ ∀ m ∈ ns, m.IsExpression := by
  cases h with
  | number | var => exact ⟨[], rfl, by simp⟩
  | binary hl hr => exact ⟨_, rfl, by simp [hl, hr]⟩
  | call h => exact ⟨_, rfl, h⟩

theorem IsExpression.outlineLines_cons {n : Node} (h : n.IsExpression) (depth : Nat) :
    ∃ ls, n.outlineLines depth = ⟨depth, n.label⟩ :: ls := by
  obtain ⟨ns, hns, -⟩ := h.children
  exact ⟨_, outlineLines_of_children hns depth⟩

theorem Shallower.behind {depth : Nat} {us : List OutlineLine} (h : Shallower depth us)
    {ns : List Node} (hns : ∀ n ∈ ns, n.IsExpression) :
    Shallower (depth + 1) (ns.flatMap (outlineLines depth) ++ us) := by
  cases ns with
  | nil => exact fun l hl => Nat.lt_succ_of_lt (h l hl)
  | cons n ns =>
    obtain ⟨ls, hls⟩ := (hns n List.mem_cons_self).outlineLines_cons depth
    intro l hl
    rw [List.flatMap_cons, hls] at hl
    obtain rfl := Option.some.inj hl
    exact Nat.lt_succ_self depth

/-- No tree begins where a line is not as deep. -/
theorem Shallower.ne_behind {depth : Nat} {us : List OutlineLine} (h : Shallower depth us) {n : Node}
    (hn : n.IsExpression) (ls : List OutlineLine) : us ≠ n.outlineLines depth ++ ls := by
  obtain ⟨ms, hms⟩ := hn.outlineLines_cons depth
  rintro rfl
  rw [hms] at h
  exact Nat.lt_irrefl depth (h ⟨depth, n.label⟩ rfl)

/-- Trees in a row are read back from their lines, which end where a line is not as deep. -/
theorem alike_of_outlineLines {ms ns : List Node} {depth : Nat} {us vs : List OutlineLine}
    (hms : ∀ m ∈ ms, m.IsExpression) (hns : ∀ n ∈ ns, n.IsExpression)
    (hus : Shallower depth us) (hvs : Shallower depth vs)
    (h : ms.flatMap (outlineLines depth) ++ us = ns.flatMap (outlineLines depth) ++ vs) :
    List.Forall₂ Alike ms ns ∧ us = vs := by
  -- By the weight of the first trees, since the trees below a node are again in a row.
  match ms, ns with
  | [], [] => exact ⟨.nil, h⟩
  | [], n :: ns =>
    rw [List.flatMap_cons, List.append_assoc] at h
    exact absurd h (hus.ne_behind (hns n List.mem_cons_self) _)
  | m :: ms, [] =>
    rw [List.flatMap_cons, List.append_assoc] at h
    exact absurd h.symm (hvs.ne_behind (hms m List.mem_cons_self) _)
  | m :: ms, n :: ns =>
    obtain ⟨hm, hms⟩ := List.forall_mem_cons.mp hms
    obtain ⟨hn, hns⟩ := List.forall_mem_cons.mp hns
    obtain ⟨cs, hcs, hcsx⟩ := hm.children
    obtain ⟨ds, hds, hdsx⟩ := hn.children
    simp only [List.flatMap_cons, outlineLines_of_children hcs, outlineLines_of_children hds,
      List.cons_append, List.append_assoc, List.cons.injEq, OutlineLine.mk.injEq, true_and] at h
    obtain ⟨hlabel, hbelow⟩ := h
    obtain ⟨hchildren, hbehind⟩ :=
      alike_of_outlineLines hcsx hdsx (hus.behind hms) (hvs.behind hns) hbelow
    obtain ⟨hrest, hend⟩ := alike_of_outlineLines hms hns hus hvs hbehind
    exact ⟨.cons (alike_of_label hm hn hlabel hcs hds hchildren) hrest, hend⟩
termination_by weightAll ms
decreasing_by
  all_goals
    have := weightAll_children hcs
    simp only [weightAll]
    omega

/-! ## Nodes that are printed -/

/-- The node is an expression, a signature, or a function of a signature and an expression. -/
inductive IsPrintable : Node → Prop
  | expression {e : Node} (h : e.IsExpression) : IsPrintable e
  | signature (p : Prototype) : IsPrintable (.prototype p)
  | function (p : Prototype) {e : Node} (h : e.IsExpression) :
    IsPrintable (.function (.prototype p) e)

/-- The names in the line of a node. -/
def names : Node → List String
  | .variable name _ => [name]
  | .call callee _ _ => [callee]
  | .prototype p => p.name :: p.params
  | .function (.prototype p) _ => p.name :: p.params
  | _ => []

/-- All names in the lines of the node are identifiers. -/
def HasAsciiNames (n : Node) : Prop :=
  ∀ m ∈ (n.levels 0).map Prod.snd, ∀ name ∈ m.names, IsAsciiName name

theorem IsPrintable.outlineAt_eq {n : Node} (h : n.IsPrintable) :
    n.outlineAt 0 = .ok (n.outlineLines 0) := by
  cases h with
  | expression h => exact h.outlineAt_eq 0
  | signature p => rfl
  | @function p e h =>
    rw [outlineAt, h.outlineAt_eq 1]
    rfl

theorem IsExpression.isSome_children? {n m : Node} (h : n.IsExpression) (hm : m ∈ n.preorder) :
    m.children?.isSome :=
  h.isHandMade.isSome_children? hm fun d hd => h.datum_notMem d (hd ▸ hm)

theorem newline_notMem_label {n : Node} (h : ∀ name ∈ n.names, IsAsciiName name) :
    '\n' ∉ n.label.toList := by
  have hname : ∀ name ∈ n.names, '\n' ∉ name.toList :=
    fun name hn => (h name hn).notMem rfl (by decide)
  have happend : ∀ {s t : String}, '\n' ∉ s.toList → '\n' ∉ t.toList → '\n' ∉ (s ++ t).toList := by
    intro s t hs ht
    rw [String.toList_append, List.mem_append, not_or]
    exact ⟨hs, ht⟩
  have hheader : ∀ p : Prototype, (∀ name ∈ p.name :: p.params, IsAsciiName name) →
      '\n' ∉ (p.header ", ").toList := fun p hp =>
    Prototype.HasAsciiNames.newline_notMem (List.forall_mem_cons.mp hp)
  unfold label
  split
  · exact happend (by decide) (Binary64.newline_notMem_briefText _)
  · next name _ => exact happend (by decide) (hname name List.mem_cons_self)
  · next op _ _ _ =>
    refine happend (by decide) ?_
    cases op with
    | none => decide
    | some s => exact Text.newline_notMem_quote s
  · next callee _ _ => exact happend (by decide) (hname callee List.mem_cons_self)
  · next p => exact happend (by decide) (hheader p h)
  · next p _ => exact happend (by decide) (hheader p h)
  · decide

theorem plain_outlineLine {m : Nat × Node} {c : Char} {cs : List Char}
    (hlabel : m.2.label.toList = c :: cs) (hc : c ≠ ' ')
    (h : ∀ name ∈ m.2.names, IsAsciiName name) : (outlineLine m).Plain :=
  ⟨⟨c, cs, hlabel, hc⟩, newline_notMem_label h⟩

theorem IsExpression.plain_outlineLines {e : Node} (he : e.IsExpression)
    (h : ∀ m ∈ e.preorder, ∀ name ∈ m.names, IsAsciiName name) (depth : Nat) :
    ∀ l ∈ e.outlineLines depth, l.Plain := by
  intro l hl
  obtain ⟨⟨k, m⟩, hm, rfl⟩ := List.mem_map.mp hl
  have hmem : m ∈ e.preorder := by
    rw [← he.levels_snd depth]
    exact List.mem_map_of_mem hm
  obtain ⟨⟨cs, hcs⟩, hinitial⟩ := initial_label (he.isSome_children? hmem)
  refine plain_outlineLine hcs ?_ (h m hmem)
  intro hblank
  rw [hblank] at hinitial
  exact absurd hinitial (by decide)

theorem IsPrintable.plain_outlineLines {n : Node} (hn : n.IsPrintable) (h : n.HasAsciiNames) :
    ∀ l ∈ n.outlineLines 0, l.Plain := by
  cases hn with
  | expression he =>
    rw [HasAsciiNames, he.levels_snd] at h
    exact he.plain_outlineLines h 0
  | signature p =>
    refine List.forall_mem_singleton.mpr ?_
    exact plain_outlineLine String.toList_append (by decide) (h _ List.mem_cons_self)
  | @function p e he =>
    have hlevels : ((Node.function (.prototype p) e).levels 0).map Prod.snd =
        .function (.prototype p) e :: e.preorder := by
      rw [levels, List.map_cons, he.levels_snd]
    rw [HasAsciiNames, hlevels, List.forall_mem_cons] at h
    rw [outlineLines, levels, List.map_cons, List.forall_mem_cons]
    exact ⟨plain_outlineLine String.toList_append (by decide) h.1, he.plain_outlineLines h.2 1⟩

theorem IsPrintable.initial_label {n : Node} (h : n.IsPrintable) :
    ∃ cs, n.label.toList = n.initial :: cs := by
  cases h with
  | expression he =>
    obtain ⟨ns, hns, -⟩ := he.children
    exact (Node.initial_label (by simp [hns])).1
  | signature | function => exact ⟨_, String.toList_append⟩

theorem IsPrintable.outlineLines_cons {n : Node} (h : n.IsPrintable) :
    ∃ ls, n.outlineLines 0 = ⟨0, n.label⟩ :: ls := by
  cases h with
  | expression he => exact he.outlineLines_cons 0
  | signature | function => exact ⟨_, rfl⟩

theorem IsExpression.initial_ne {e : Node} (h : e.IsExpression) :
    e.initial ≠ 'E' ∧ e.initial ≠ 'F' := by
  cases h <;> simp [initial]

theorem IsExpression.alike {d e : Node} {depth : Nat} (hd : d.IsExpression) (he : e.IsExpression)
    (h : d.outlineLines depth = e.outlineLines depth) : d.Alike e := by
  have hforest : [d].flatMap (outlineLines depth) ++ [] = [e].flatMap (outlineLines depth) ++ [] := by
    simpa using h
  obtain ⟨halike, -⟩ := alike_of_outlineLines (by simpa using hd) (by simpa using he)
    (by simp [Shallower]) (by simp [Shallower]) hforest
  simpa using halike

theorem alike_signature {p q : Prototype} (hp : p.HasAsciiNames) (hq : q.HasAsciiNames)
    (h : p.header ", " = q.header ", ") : Alike (.prototype p) (.prototype q) := by
  obtain ⟨hname, hparams⟩ := hp.header_inj hq h
  obtain ⟨name, params, k⟩ := p
  obtain ⟨name', params', l⟩ := q
  obtain rfl : name = name' := hname
  obtain rfl : params = params' := hparams
  exact .signature name params k l

theorem HasAsciiNames.signature {p : Prototype} {n : Node} {rest : List Node}
    (hn : n.names = p.name :: p.params) (hlevels : (n.levels 0).map Prod.snd = n :: rest)
    (h : n.HasAsciiNames) : p.HasAsciiNames := by
  rw [HasAsciiNames, hlevels, List.forall_mem_cons, hn] at h
  exact List.forall_mem_cons.mp h.1

/-- Nodes of different kinds have different lines, and those of one kind are read back. -/
theorem IsPrintable.alike {m n : Node} (hm : m.IsPrintable) (hn : n.IsPrintable)
    (hmnames : m.HasAsciiNames) (hnnames : n.HasAsciiNames)
    (h : m.outlineLines 0 = n.outlineLines 0) : m.Alike n := by
  have hlabel : m.label = n.label := by
    obtain ⟨_, hms⟩ := hm.outlineLines_cons
    obtain ⟨_, hns⟩ := hn.outlineLines_cons
    rw [hms, hns] at h
    exact congrArg OutlineLine.label (List.cons.inj h).1
  have hinitial : m.initial = n.initial :=
    initial_eq_of_label hm.initial_label hn.initial_label hlabel
  cases hm with
  | expression he =>
    cases hn with
    | expression he' => exact he.alike he' h
    | signature => exact absurd hinitial he.initial_ne.1
    | function => exact absurd hinitial he.initial_ne.2
  | signature p =>
    cases hn with
    | expression he' => exact absurd hinitial.symm he'.initial_ne.1
    | signature q =>
      exact alike_signature (hmnames.signature rfl rfl) (hnnames.signature rfl rfl)
        (by simpa [label] using hlabel)
    | function => simp [initial] at hinitial
  | @function p e he =>
    cases hn with
    | expression he' => exact absurd hinitial.symm he'.initial_ne.2
    | signature => simp [initial] at hinitial
    | @function q e' he' =>
      have hbodies : e.outlineLines 1 = e'.outlineLines 1 := (List.cons.inj h).2
      exact .function (alike_signature (hmnames.signature rfl rfl) (hnnames.signature rfl rfl)
        (by simpa [label] using hlabel)) (he.alike he' hbodies)

end Node

/-! ## The printer -/

namespace OutlinePrinter

/-- The print of the node consists of the lines, and leaves the printer at the first level. -/
def Prints (p : OutlinePrinter) (n : Node) (ls : List OutlineLine) : Prop :=
  p.print n = (.ok (String.intercalate "\n" (ls.map OutlineLine.text)), ⟨ls.map OutlineLine.text, 0⟩)

theorem prints_outlineLines (p : OutlinePrinter) {n : Node} (h : n.IsPrintable) :
    p.Prints n (n.outlineLines 0) :=
  p.print_of_outlineAt h.outlineAt_eq

theorem alike_of_print (p : OutlinePrinter) {m n : Node} (hm : m.IsPrintable) (hn : n.IsPrintable)
    (hmnames : m.HasAsciiNames) (hnnames : n.HasAsciiNames) (h : (p.print m).1 = (p.print n).1) :
    m.Alike n := by
  rw [p.prints_outlineLines hm, p.prints_outlineLines hn, Except.ok.injEq] at h
  have hcons : ∀ {k : Node}, k.IsPrintable → k.outlineLines 0 ≠ [] := by
    intro k hk hnil
    obtain ⟨ls, hls⟩ := hk.outlineLines_cons
    rw [hnil] at hls
    exact absurd hls (by simp)
  have hlines := OutlineLine.eq_of_text (hm.plain_outlineLines hmnames)
    (hn.plain_outlineLines hnnames) ⟨fun h => absurd h (hcons hm), fun h => absurd h (hcons hn)⟩ h
  exact hm.alike hn hmnames hnnames hlines

/-- Whatever was printed or refused before, the print of an expression has one line for each node
in the order of the walk, indented by its depth; a signature has one line; and a function has a
line for its signature and its body one level deeper. Nodes of which the names are identifiers and
that are printed alike are alike. -/
theorem print_faithful (history : List Node) :
    let p := (new.printAll history).2
    (∀ e : Node, e.IsExpression →
      p.Prints e (e.outlineLines 0) ∧ (e.levels 0).map Prod.snd = e.walk.nodes) ∧
    (∀ s : Prototype, p.Prints (.prototype s) [⟨0, "Extern: " ++ s.header ", "⟩]) ∧
    (∀ (s : Prototype) (e : Node), e.IsExpression →
      p.Prints (.function (.prototype s) e)
        (⟨0, "Function: " ++ s.header ", "⟩ :: e.outlineLines 1) ∧
      (e.levels 1).map Prod.snd = e.walk.nodes) ∧
    ∀ m n : Node, m.IsPrintable → n.IsPrintable → m.HasAsciiNames → n.HasAsciiNames →
      (p.print m).1 = (p.print n).1 → m.Alike n := by
  intro p
  exact ⟨fun e he => ⟨p.prints_outlineLines (.expression he), he.levels_walk 0⟩,
    fun s => p.prints_outlineLines (.signature s),
    fun s e he => ⟨p.prints_outlineLines (.function s he), he.levels_walk 1⟩,
    fun m n hm hn hmnames hnnames h => p.alike_of_print hm hn hmnames hnnames h⟩

/-- A print that was refused below the first level does not show in the next one. -/
theorem print_faithful_after_refusal :
    let x : Node := .variable "x" none
    let body : Node := .call "g" [x, x] none
    let f (l : Option Location) : Node := .function (.prototype ⟨"f", ["x"], l⟩) body
    let p := (new.printAll [.binary (some "+") x .missing none]).2
    p.level = 1 ∧ body.IsExpression ∧
    p.Prints (f none) (⟨0, "Function: f(x)"⟩ :: body.outlineLines 1) ∧
    (f none).HasAsciiNames ∧ (f (some ⟨"a", 1, 5⟩)).HasAsciiNames ∧
    (p.print (f none)).1 = (p.print (f (some ⟨"a", 1, 5⟩))).1 ∧
    (f none).Alike (f (some ⟨"a", 1, 5⟩)) := by
  intro x body f p
  have hbody : body.IsExpression := .call (by simp [x, Node.IsExpression.var])
  have hletters : IsAsciiName "f" ∧ IsAsciiName "g" ∧ IsAsciiName "x" :=
    ⟨⟨'f', [], rfl, by decide, by simp⟩, ⟨'g', [], rfl, by decide, by simp⟩,
      ⟨'x', [], rfl, by decide, by simp⟩⟩
  have hnames : ∀ l, (f l).HasAsciiNames := by
    intro l
    simp [Node.HasAsciiNames, f, body, x, Node.levels, Node.levelsAll, Node.names, hletters]
  have hprint : (p.print (f none)).1 = (p.print (f (some ⟨"a", 1, 5⟩))).1 := by
    rw [p.print_eq, p.print_eq]
    rfl
  obtain ⟨-, -, hprints, halike⟩ :=
    print_faithful [.binary (some "+") x .missing none]
  exact ⟨rfl, hbody, (hprints ⟨"f", ["x"], none⟩ body hbody).1, hnames _, hnames _, hprint,
    halike _ _ (.function _ hbody) (.function _ hbody) (hnames _) (hnames _) hprint⟩

end OutlinePrinter

end ExprFront
