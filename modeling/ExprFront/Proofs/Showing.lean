import Mathlib.Data.List.Forall2
import ExprFront.Command.Trees
import ExprFront.Proofs.Grammar

/-!
# Showing parsed trees

The trees that are derived consist of numbers, variables, operations and calls, so that they all
have an outline and an entry. So the tree command gets to the end of a source that can be decoded,
if it can write its output.
-/

namespace ExprFront
set_option autoImplicit false

namespace Node

/-- The node is an expression down to its leaves. -/
inductive IsExpression : Node → Prop
  | number (value : Binary64) (location : Option Location) : IsExpression (.number value location)
  | var (name : String) (location : Option Location) : IsExpression (.variable name location)
  | binary {op : Option String} {lhs rhs : Node} {location : Option Location}
      (hl : IsExpression lhs) (hr : IsExpression rhs) : IsExpression (.binary op lhs rhs location)
  | call {callee : String} {args : List Node} {location : Option Location}
      (h : ∀ a ∈ args, IsExpression a) : IsExpression (.call callee args location)

/-! ## Outlines and entries -/

theorem outlineAllAt_ok {ns : List Node} {level : Nat}
    (h : ∀ n ∈ ns, ∃ ls, n.outlineAt level = .ok ls) :
    ∃ ls, outlineAllAt level ns = .ok ls := by
  induction ns with
  | nil => exact ⟨[], rfl⟩
  | cons n ns ih =>
    obtain ⟨⟨l, hl⟩, hns⟩ := List.forall_mem_cons.mp h
    obtain ⟨r, hr⟩ := ih hns
    rw [outlineAllAt, hl, hr]
    exact ⟨_, rfl⟩

theorem IsExpression.outlineAt_ok {n : Node} (h : n.IsExpression) (level : Nat) :
    ∃ ls, n.outlineAt level = .ok ls := by
  induction h generalizing level with
  | number value location => exact ⟨_, rfl⟩
  | var name location => exact ⟨_, rfl⟩
  | binary hl hr ihl ihr =>
    obtain ⟨l, hl⟩ := ihl (level + 1)
    obtain ⟨r, hr⟩ := ihr (level + 1)
    rw [outlineAt, hl, hr]
    exact ⟨_, rfl⟩
  | call h ih =>
    obtain ⟨ls, hls⟩ := outlineAllAt_ok fun a ha => ih a ha (level + 1)
    rw [outlineAt, hls]
    exact ⟨_, rfl⟩

theorem entries_ok {ns : List Node} (h : ∀ n ∈ ns, ∃ j, n.entry = .ok j) :
    ∃ js, entries ns = .ok js := by
  induction ns with
  | nil => exact ⟨[], rfl⟩
  | cons n ns ih =>
    obtain ⟨⟨j, hj⟩, hns⟩ := List.forall_mem_cons.mp h
    obtain ⟨js, hjs⟩ := ih hns
    rw [entries, hj, hjs]
    exact ⟨_, rfl⟩

theorem IsExpression.entry_ok {n : Node} (h : n.IsExpression) : ∃ j, n.entry = .ok j := by
  induction h with
  | number value location => exact ⟨_, rfl⟩
  | var name location => exact ⟨_, rfl⟩
  | binary hl hr ihl ihr =>
    obtain ⟨l, hl⟩ := ihl
    obtain ⟨r, hr⟩ := ihr
    rw [entry, hl, hr]
    exact ⟨_, rfl⟩
  | call h ih =>
    obtain ⟨js, hjs⟩ := entries_ok ih
    rw [entry, hjs]
    exact ⟨_, rfl⟩

end Node

/-! ## Derived trees -/

theorem OperatorTable.isExpression_tree (table : OperatorTable) {e : Node} {ks : List Link}
    (he : e.IsExpression) (hks : ∀ k ∈ ks, k.operand.IsExpression) :
    (table.tree e ks).IsExpression := by
  fun_induction tree table e ks with
  | case1 => exact he
  | case2 e ks before k after h ihb iha =>
    rw [table.split_append h, List.forall_mem_append, List.forall_mem_cons] at hks
    obtain ⟨hb, hk, ha⟩ := hks
    exact .binary (ihb he hb) (iha hk ha)

namespace Grammar
variable {table : OperatorTable}

mutual

theorem Operand.isExpression {ts : List Token} {e : Node} : Operand table ts e → e.IsExpression
  | .number _ => .number _ _
  | .bareName _ => .var _ _
  | .emptyCall _ _ _ => .call (by simp)
  | .call _ _ hargs => .call hargs.isExpression
  | .group _ h _ _ => table.isExpression_tree h.isExpression.1 h.isExpression.2

theorem Chain.isExpression {ts : List Token} {e : Node} {ks : List Link} :
    Chain table ts e ks → e.IsExpression ∧ ∀ k ∈ ks, k.operand.IsExpression
  | .single h => ⟨h.isExpression, by simp⟩
  | .cons h _ _ _ hr =>
    ⟨h.isExpression, List.forall_mem_cons.mpr ⟨hr.isExpression.1, hr.isExpression.2⟩⟩

theorem ArgumentList.isExpression {ts : List Token} {args : List Node} :
    ArgumentList table ts args → ∀ a ∈ args, a.IsExpression
  | .last h _ _ => List.forall_mem_cons.mpr
    ⟨table.isExpression_tree h.isExpression.1 h.isExpression.2, by simp⟩
  | .more h _ _ hr => List.forall_mem_cons.mpr
    ⟨table.isExpression_tree h.isExpression.1 h.isExpression.2, hr.isExpression⟩

end

theorem Expression.isExpression {ts : List Token} {e : Node} (h : Expression table ts e) :
    e.IsExpression := by
  obtain ⟨f, ks, hc, rfl⟩ := h
  exact table.isExpression_tree hc.isExpression.1 hc.isExpression.2

end Grammar

/-! ## Units -/

/-- The unit has an outline, if it has a tree, and an entry, whatever the names. -/
structure SourceUnit.Shown (u : SourceUnit) : Prop where
  outline : ∀ n, u.node? = some n → ∃ text, n.outline = .ok text
  entry : ∀ names : Naming, ∃ j, u.entryUnder? names = .ok (some j)

theorem SourceUnit.shown_failure (d : Diagnostic) : (failure (some d)).Shown where
  outline := by simp [node?]
  entry := fun _ => ⟨_, rfl⟩

theorem Definition.outline_ok (p : Prototype) {e : Node} (h : e.IsExpression) :
    ∃ text, (Definition.mk p e).node.outline = .ok text := by
  obtain ⟨ls, hls⟩ := h.outlineAt_ok 1
  rw [node, Node.outline, Node.outlineAt, hls]
  exact ⟨_, rfl⟩

theorem SourceUnit.functionEntry_ok (type : String) (name : CodeText) (p : Prototype) {e : Node}
    (h : e.IsExpression) : ∃ j, functionEntry type name ⟨p, e⟩ = .ok j := by
  obtain ⟨j, hj⟩ := h.entry_ok
  rw [functionEntry, hj]
  exact ⟨_, rfl⟩

theorem Grammar.UnitOf.shown {table : OperatorTable} {anonymous : String} {ts : List Token}
    {u : SourceUnit} (h : UnitOf table anonymous ts u) : u.Shown := by
  cases h with
  | definition hd hs he =>
    refine ⟨?_, fun names => ?_⟩
    · rintro n ⟨⟩
      exact Definition.outline_ok _ he.isExpression
    · obtain ⟨j, hj⟩ := SourceUnit.functionEntry_ok _ _ _ he.isExpression
      rw [SourceUnit.entryUnder?, hj]
      exact ⟨_, rfl⟩
  | declaration hx hs =>
    refine ⟨?_, fun names => ⟨_, rfl⟩⟩
    rintro n ⟨⟩
    exact ⟨_, rfl⟩
  | @expression es e he =>
    refine ⟨?_, fun names => ?_⟩
    · rintro n ⟨⟩
      exact Definition.outline_ok _ he.isExpression
    · let f := Definition.wrap anonymous e
      obtain ⟨j, hj⟩ := SourceUnit.functionEntry_ok "expression" (names.wrapper f.signature.name)
        f.signature he.isExpression
      have hj : SourceUnit.functionEntry _ (names.wrapper f.signature.name) f = .ok j := hj
      rw [SourceUnit.entryUnder?, hj]
      exact ⟨_, rfl⟩

/-- No unit is left out of the entries. -/
theorem entriesUnder_ok (names : Naming) {units : List SourceUnit} (h : ∀ u ∈ units, u.Shown) :
    ∃ entries, entriesUnder names units = .ok entries ∧
      List.Forall₂ (fun u j => u.entryUnder? names = .ok (some j)) units entries := by
  have hmap : ∃ entries, units.mapM (SourceUnit.entryUnder? names) = .ok (entries.map some) ∧
      List.Forall₂ (fun u j => u.entryUnder? names = .ok (some j)) units entries := by
    induction units with
    | nil => exact ⟨[], rfl, .nil⟩
    | cons u units ih =>
      obtain ⟨hu, hus⟩ := List.forall_mem_cons.mp h
      obtain ⟨j, hj⟩ := hu.entry names
      obtain ⟨entries, hentries, hall⟩ := ih hus
      refine ⟨j :: entries, ?_, .cons hj hall⟩
      rw [List.mapM_cons, hj, hentries]
      rfl
  obtain ⟨entries, hentries, hall⟩ := hmap
  refine ⟨entries, ?_, hall⟩
  have hsome : (entries.map some).filterMap id = entries := by simp
  rw [entriesUnder, hentries]
  exact congrArg Except.ok hsome

theorem reportEntries_ok {units : List SourceUnit} (h : ∀ u ∈ units, u.Shown) :
    ∃ entries, reportEntries units = .ok entries ∧
      List.Forall₂ (fun u j => u.entry? = .ok (some j)) units entries :=
  entriesUnder_ok .plain h

theorem report_ok (style : Json.Style) {units : List SourceUnit} (h : ∀ u ∈ units, u.Shown) :
    ∃ text, report style units = .ok text := by
  obtain ⟨entries, hentries, -⟩ := entriesUnder_ok .plain h
  rw [report, reportUnder, hentries]
  exact ⟨_, rfl⟩

/-! ## The tree command -/

namespace TreeCommand

/-- The output file can be written, if there is one. -/
def Settings.Writable (w : Settings) : Prop := ∀ path reason, w.output ≠ some (path, some reason)

variable {w : Settings}

theorem write_ok (h : w.Writable) (line : String) (c : Console) :
    ∃ c', write w line c = .ok c' := by
  unfold write
  split
  · exact ⟨_, rfl⟩
  · exact ⟨_, rfl⟩
  · next path reason hw => exact absurd hw (h path reason)

theorem writeTurn_ok (h : w.Writable) {t : Turn} (ht : ∀ u, t = .unit u → u.Shown) (c : Console) :
    ∃ c', writeTurn w t c = .ok c' := by
  unfold writeTurn
  split
  · next u =>
    split
    · next n hn =>
      split
      · exact ⟨_, rfl⟩
      · obtain ⟨text, htext⟩ := (ht u rfl).outline n hn
        rw [htext]
        exact write_ok h text c
    · exact ⟨_, rfl⟩
    · exact ⟨_, rfl⟩
  · exact ⟨_, rfl⟩

theorem writeBeats_ok (h : w.Writable) {source : OpenSource} (hs : source.text.fault = none)
    {bs : List Session.Beat} (hb : ∀ b ∈ bs, ∀ u, b.turn = .unit u → u.Shown) (c : Console) :
    ∃ c', writeBeats w source bs c = .ok c' := by
  induction bs generalizing c with
  | nil => exact ⟨c, rfl⟩
  | cons b bs ih =>
    obtain ⟨hb, hbs⟩ := List.forall_mem_cons.mp hb
    simp only [writeBeats, hs]
    obtain ⟨c', hc'⟩ := writeTurn_ok h hb
      (((if source.terminal && b.turn.prompts then c.prompt promptText else c).journalAll w.verbose
        (b.journal.filterMap JournalEntry.record?)))
    rw [hc']
    exact ih hbs c'

theorem writeReport_ok (h : w.Writable) {r : Result} (hr : ∀ u ∈ r.units, u.Shown) (c : Console) :
    ∃ c', writeReport w r c = .ok c' := by
  unfold writeReport
  split
  · obtain ⟨text, htext⟩ := report_ok defaultStyle hr
    obtain ⟨c', hc'⟩ := write_ok h text c
    simp only [htext, hc']
    exact ⟨c', rfl⟩
  · exact ⟨c, rfl⟩

theorem close_exitCode (r : Result) (c : Console) :
    (close w r c).exitCode = .success ↔ r.success = true := by
  simp only [close]
  split
  · next h => simp [h]
  · next h => simp [h]

/-- The command gets to the end, and its exit code tells whether there was a diagnostic. -/
theorem writeAll_ok (h : w.Writable) {source : OpenSource} (hs : source.text.fault = none)
    (o : Options)
    (hunits : ∀ u ∈ (o.run source.text.chars (some source.name)).units, u.Shown) (c : Console) :
    ∃ t, writeAll w o source c = .ok t ∧
      (t.exitCode = .success ↔ (o.run source.text.chars (some source.name)).success = true) := by
  let session := o.session source.text.chars (some source.name)
  let r := Result.ofBeats session session.beats
  have hbeats : ∀ b ∈ session.beats, ∀ u, b.turn = .unit u → u.Shown := by
    intro b hb u hu
    refine hunits u (List.mem_filterMap.mpr ⟨b, hb, ?_⟩)
    rw [hu]
    rfl
  obtain ⟨c₁, h₁⟩ := writeBeats_ok h hs hbeats c
  obtain ⟨c₂, h₂⟩ := writeReport_ok h hunits (c₁.journal w.verbose r.record)
  have hall : writeAll w o source c = .ok (close w r c₂) := by
    have hbind : writeAll w o source c = writeBeats w source session.beats c >>= fun c =>
      writeReport w r (c.journal w.verbose r.record) >>= fun c => .ok (close w r c) := rfl
    have hreport : writeReport w r (c₁.journal w.verbose r.record) = .ok c₂ := h₂
    rw [hbind, h₁]
    exact congrArg (· >>= fun c => Except.ok (close w r c)) hreport
  exact ⟨_, hall, close_exitCode r c₂⟩

end TreeCommand

end ExprFront
