import ExprFront.Proofs.Showing
import ExprFront.Proofs.Turns

/-!
# What is reported

An attempt that succeeds reports nothing, and one that fails reports a single syntax error, at the
token where it stops. So the diagnostics of a run are those of its failures, in order, and the
report of a run leaves out no unit.
-/

namespace ExprFront
set_option autoImplicit false
open Grammar

def Diagnostic.IsSyntactic (d : Diagnostic) : Prop :=
  match d.detail with
  | .unexpected _ => True
  | .missing _ _ => True
  | .general c _ _ => c = .syntactic

theorem Lookahead.diagnostic_isSyntactic (l : Lookahead) (cause : Refusal) :
    (l.diagnostic cause).IsSyntactic := by
  cases cause <;> trivial

/-! ## Attempts -/

namespace Parser

/-- The attempt reported nothing if it succeeded, and one syntax error at the current token if not. -/
inductive Reports {α : Type} (p : Parser) : Attempt α × Parser → Prop
  | parsed {a : α} {q : Parser} (h : q.errors = p.errors) : Reports p (.parsed a, q)
  | refused {q : Parser} {t : Token} {d : Diagnostic} (ht : q.current = some t)
      (hl : d.location = some t.location) (hs : d.IsSyntactic) (h : q.errors = p.errors.add d) :
      Reports p (.refused, q)

section Reports
variable {α : Type} {p q : Parser}

theorem Reports.of_errors {r : Attempt α × Parser} (he : q.errors = p.errors) (h : q.Reports r) :
    p.Reports r := by
  cases h with
  | parsed h => exact .parsed (h.trans he)
  | refused ht hl hs h => exact .refused ht hl hs (he ▸ h)

theorem Reports.map {β : Type} {r : Attempt α × Parser} (f : α → β) (h : p.Reports r) :
    p.Reports (r.1.map f, r.2) := by
  cases h with
  | parsed h => exact .parsed h
  | refused ht hl hs h => exact .refused ht hl hs h

theorem reports_attempt {σ : Type} {step : σ → Token → Step σ α} {l : Lookahead} (h : p.At l)
    (hend : LeavesEnd step) (s : σ) : p.Reports (p.attempt step s) := by
  obtain ⟨ts, m, a, -, -, ha⟩ | ⟨ts, m, s', cause, -, -, -, ha⟩ := attempt_cases h hend s
  · rw [ha]
    exact .parsed rfl
  · rw [ha]
    exact .refused (p.reported_at m cause).1 rfl (m.diagnostic_isSyntactic cause) rfl

variable {l : Lookahead}

theorem reports_operand (h : p.At l) : p.Reports p.operand :=
  reports_attempt h (ExpressionState.leavesEnd p.table none) .start

theorem reports_expression (h : p.At l) : p.Reports p.expression :=
  reports_attempt h (ExpressionState.leavesEnd p.table (some 0)) .start

theorem reports_bareExpression (h : p.At l) : p.Reports p.bareExpression :=
  (reports_expression h).map (Definition.wrap p.anonymous)

theorem reports_signature (h : p.At l) : p.Reports p.signature :=
  reports_attempt h SignatureState.leavesEnd .start

theorem reports_definition (p : Parser) : p.Reports p.definition :=
  .of_errors p.advance_errors
    (reports_attempt p.advance_at (DefinitionState.leavesEnd p.table) (.signature .start))

theorem reports_declaration (p : Parser) : p.Reports p.declaration :=
  .of_errors p.advance_errors (reports_signature p.advance_at)

/-- Operands that are taken report nothing, so that the one that is refused reports alone. -/
theorem reports_alternate (p : Parser) : p.Reports ((.refused : Attempt α), p.alternate) := by
  fun_induction alternate p with
  | case1 p e q h ih =>
    have hr := reports_operand p.advance_at
    rw [h] at hr
    cases hr with
    | parsed he => exact ih.of_errors he
  | case2 p q h =>
    have hr := reports_operand p.advance_at
    rw [h] at hr
    cases hr with
    | refused ht hl hs he => exact .refused ht hl hs he
  | case3 p q h =>
    have hr := reports_operand p.advance_at
    rw [h] at hr
    cases hr

theorem reports_chain (h : p.At l) (least : Int) (lhs : Node) : p.Reports (p.chain least lhs) := by
  simp only [chain, h.1]
  split
  · exact reports_attempt h (ExpressionState.leavesEnd p.table (some least)) (.after lhs)
  · exact p.reports_alternate

end Reports

end Parser

/-! ## Sessions -/

namespace Session

/-- Every unit is derived from some tokens or fails with a diagnostic. -/
theorem Live.unit_derived_or_failed {s : Session} (h : s.Live) :
    ∀ u ∈ unitsOf s.beats,
      (∃ ts, UnitOf s.parser.table s.parser.anonymous ts u) ∨ ∃ d, u = .failure (some d) := by
  induction s, h using Live.induction with
  | aborted s h ht =>
    rw [unitsOf_of_last_turn ht rfl]
    simp
  | endOfInput s h he ht =>
    rw [unitsOf_of_last_turn ht rfl]
    simp
  | separator s h hs ht h' ih =>
    rw [unitsOf_of_turn ht rfl]
    rwa [table_moveTo, anonymous_moveTo] at ih
  | derived s h ts m u hr hu ht h' ih =>
    rw [unitsOf_of_turn ht rfl]
    rw [table_moveTo, anonymous_moveTo] at ih
    exact List.forall_mem_cons.mpr ⟨.inl ⟨ts, hu⟩, ih⟩
  | failed s h ts m cause he hr hf ht h' ih =>
    rw [unitsOf_of_turn ht rfl]
    rw [table_skip, anonymous_skip] at ih
    exact List.forall_mem_cons.mpr ⟨.inr ⟨_, rfl⟩, ih⟩

theorem Live.final_diagnostics {s : Session} (h : s.Live) :
    s.final.parser.errors.diagnostics =
      s.parser.errors.diagnostics ++ (unitsOf s.beats).filterMap SourceUnit.diagnostic? := by
  induction s, h using Live.induction with
  | aborted s h ht =>
    rw [final_of_last_turn ht rfl, unitsOf_of_last_turn ht rfl, List.filterMap_nil, List.append_nil]
    rfl
  | endOfInput s h he ht =>
    rw [final_of_last_turn ht rfl, unitsOf_of_last_turn ht rfl, List.filterMap_nil, List.append_nil]
    exact congrArg Collector.diagnostics s.parser.prime_errors
  | separator s h hs ht h' ih =>
    rw [final_of_turn ht rfl, unitsOf_of_turn ht rfl, ih, errors_moveTo]
    rfl
  | derived s h ts m u hr hu ht h' ih =>
    have hnone : u.diagnostic? = none := by cases hu <;> rfl
    rw [final_of_turn ht rfl, unitsOf_of_turn ht rfl, ih, errors_moveTo, List.filterMap_append]
    simp only [Turn.unit?, Option.toList_some, List.filterMap_cons, hnone, List.filterMap_nil,
      List.nil_append]
  | failed s h ts m cause he hr hf ht h' ih =>
    rw [final_of_turn ht rfl, unitsOf_of_turn ht rfl, ih, errors_skip, Collector.add,
      List.append_assoc]
    rfl

theorem Live.no_diagnostic_iff {s : Session} (h : s.Live) :
    (unitsOf s.beats).filterMap SourceUnit.diagnostic? = [] ↔
      ∀ u ∈ unitsOf s.beats, u.kind ≠ .failure := by
  rw [List.filterMap_eq_nil_iff]
  refine forall_congr' fun u => forall_congr' fun hu => ?_
  obtain ⟨ts, hu⟩ | ⟨d, rfl⟩ := h.unit_derived_or_failed u hu
  · have hnone : u.diagnostic? = none := by cases hu <;> rfl
    simp only [hnone, hu.ne_failure, ne_eq, not_false_eq_true]
  · simp [SourceUnit.diagnostic?, SourceUnit.kind]

theorem Live.units_shown {s : Session} (h : s.Live) : ∀ u ∈ unitsOf s.beats, u.Shown := by
  intro u hu
  obtain ⟨ts, hu⟩ | ⟨d, rfl⟩ := h.unit_derived_or_failed u hu
  · exact hu.shown
  · exact SourceUnit.shown_failure d

theorem Live.failure_diagnostic {s : Session} (h : s.Live) :
    ∀ u ∈ unitsOf s.beats, u.kind = .failure → ∃ d, u = .failure (some d) := by
  intro u hu hkind
  obtain ⟨ts, hu⟩ | hd := h.unit_derived_or_failed u hu
  · exact absurd hkind hu.ne_failure
  · exact hd

end Session

/-- An attempt reports one error if it fails and none if it succeeds. So the diagnostics of a run are
those of its failures, each of which has one, and all units get into the report. -/
theorem Options.run_reports :
    (∀ (p : Parser) (t : Token), p.current = some t →
      p.Reports p.operand ∧ (∀ least lhs, p.Reports (p.chain least lhs)) ∧
      p.Reports p.expression ∧ p.Reports p.signature ∧ p.Reports p.definition ∧
      p.Reports p.declaration ∧ p.Reports p.bareExpression) ∧
    ∀ (o : Options) (source : List Char) (name : Option String),
      let r := o.run source name
      (∀ u ∈ r.units, u.kind = .failure → ∃ d, u = .failure (some d)) ∧
      r.units.filterMap SourceUnit.diagnostic? = r.diagnostics ∧
      (r.success = true ↔ ∀ u ∈ r.units, u.kind ≠ .failure) ∧
      ∃ entries, reportEntries r.units = .ok entries ∧
        List.Forall₂ (fun u j => u.entry? = .ok (some j)) r.units entries := by
  constructor
  · intro p t ht
    have h : p.At ⟨t, p.scanner⟩ := ⟨ht, rfl⟩
    exact ⟨Parser.reports_operand h, Parser.reports_chain h, Parser.reports_expression h,
      Parser.reports_signature h, p.reports_definition, p.reports_declaration,
      Parser.reports_bareExpression h⟩
  · intro o source name r
    have hlive := o.live_session source name
    have hdiagnostics : r.diagnostics = r.units.filterMap SourceUnit.diagnostic? :=
      hlive.final_diagnostics
    have hsuccess : r.success = true ↔ ∀ u ∈ r.units, u.kind ≠ .failure := by
      rw [Result.success, hdiagnostics, List.isEmpty_iff]
      exact hlive.no_diagnostic_iff
    exact ⟨hlive.failure_diagnostic, hdiagnostics.symm, hsuccess, reportEntries_ok hlive.units_shown⟩

/-- A group that breaks off, so that its attempt fails and the run has a failure. -/
theorem Options.run_reports_default :
    let p := (Options.default.session "(1;".toList none).parser.prime
    let r := Options.default.run "(1;".toList none
    p.current = some ⟨.char '(', ⟨"<stdin>", 1, 1⟩⟩ ∧ p.Reports p.expression ∧
      r.units.map SourceUnit.kind = [.failure] ∧
      r.units.filterMap SourceUnit.diagnostic? = r.diagnostics ∧ r.diagnostics.length = 1 := by
  intro p r
  have ht : p.current = some ⟨.char '(', ⟨"<stdin>", 1, 1⟩⟩ := by decide +kernel
  have hkinds : r.units.map SourceUnit.kind = [.failure] := by decide +kernel
  have hlength : r.diagnostics.length = 1 := by decide +kernel
  obtain ⟨-, -, hexpression, -⟩ := Options.run_reports.1 p _ ht
  obtain ⟨-, hdiagnostics, -⟩ := Options.run_reports.2 .default "(1;".toList none
  exact ⟨ht, hexpression, hkinds, hdiagnostics, hlength⟩

end ExprFront
