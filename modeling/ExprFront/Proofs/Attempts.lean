import ExprFront.Proofs.UnitReading

/-!
# Attempts

An attempt starts at a lookahead and either yields what its tokens derive, in front of the next
one, or reports a refusal at the token where it stops. A unit is made by one attempt, and one
token is skipped after a refusal.
-/

namespace ExprFront
set_option autoImplicit false
open Grammar

namespace Parser

/-! ## Where a parser stands -/

/-- The parser has read its first token and stands at the lookahead. -/
def At (p : Parser) (l : Lookahead) : Prop :=
  p.current = some l.token ∧ p.scanner = l.scanner

theorem moveTo_at (p : Parser) (l : Lookahead) : (p.moveTo l).At l := ⟨rfl, rfl⟩

theorem advance_at (p : Parser) : p.advance.At (.ofScanner p.scanner) := p.moveTo_at _

theorem advance_errors (p : Parser) : p.advance.errors = p.errors := rfl

theorem advance_of_at {p : Parser} {l : Lookahead} (h : p.At l) : p.advance = p.moveTo l.advance := by
  rw [advance, h.2]
  rfl

/-- The parser at a lookahead with a refusal of its token reported. -/
def reported (p : Parser) (l : Lookahead) (cause : Refusal) : Parser :=
  { p.moveTo l with errors := p.errors.add (l.diagnostic cause) }

theorem reported_at (p : Parser) (l : Lookahead) (cause : Refusal) : (p.reported l cause).At l :=
  ⟨rfl, rfl⟩

/-! ## Attempts -/

section Attempts
variable {σ α : Type} {step : σ → Token → Step σ α} {s : σ}

theorem attempt_of_at {p : Parser} {l : Lookahead} (h : p.At l) (step : σ → Token → Step σ α)
    (s : σ) : p.attempt step s = p.settle (l.run step s) := by
  simp only [attempt, h.1, h.2]

theorem attempt_eq_parsed_iff {p q : Parser} {a : α} :
    p.attempt step s = (.parsed a, q) ↔
      ∃ l ts m, p.At l ∧ l.Reads ts m ∧ Ends step (step s) ts m.token a ∧ q = p.moveTo m := by
  constructor
  · intro h
    cases hc : p.current with
    | none => simp [attempt, hc] at h
    | some t =>
      have hat : p.At ⟨t, p.scanner⟩ := ⟨hc, rfl⟩
      rw [attempt_of_at hat] at h
      cases hr : (Lookahead.mk t p.scanner).run step s with
      | mk r m =>
        rw [hr] at h
        cases r with
        | error cause => simp [settle] at h
        | ok b =>
          obtain ⟨rfl, rfl⟩ : b = a ∧ p.moveTo m = q := by simpa [settle] using h
          obtain ⟨ts, hreads, hends⟩ := Lookahead.run_eq_ok_iff.mp hr
          exact ⟨_, ts, m, hat, hreads, hends, rfl⟩
  · rintro ⟨l, ts, m, hat, hreads, hends, rfl⟩
    rw [attempt_of_at hat, Lookahead.run_eq_ok_iff.mpr ⟨ts, hreads, hends⟩]
    rfl

/-- An attempt that does not succeed reports one refusal, where it stops. -/
theorem attempt_cases {p : Parser} {l : Lookahead} (h : p.At l) (hend : LeavesEnd step) (s : σ) :
    (∃ ts m a, l.Reads ts m ∧ Ends step (step s) ts m.token a ∧
        p.attempt step s = (.parsed a, p.moveTo m)) ∨
      ∃ ts m s' cause, l.Reads ts m ∧ Shifts step s ts s' ∧ step s' m.token = .refuse cause ∧
        p.attempt step s = (.refused, p.reported m cause) := by
  rw [attempt_of_at h]
  cases hr : l.run step s with
  | mk r m =>
    cases r with
    | ok a =>
      obtain ⟨ts, hreads, hends⟩ := Lookahead.run_eq_ok_iff.mp hr
      exact .inl ⟨ts, m, a, hreads, hends, rfl⟩
    | error cause =>
      obtain ⟨ts, s', hreads, hshifts, hrefuse⟩ := (Lookahead.run_eq_error_iff hend).mp hr
      exact .inr ⟨ts, m, s', cause, hreads, hshifts, hrefuse, rfl⟩

end Attempts

/-- An expression is read exactly if its tokens derive it and it stops in front of the next one;
the parser then stands there and has reported nothing. -/
theorem expression_eq_parsed_iff (p q : Parser) (e : Node) :
    p.expression = (.parsed e, q) ↔
      ∃ l ts m, p.At l ∧ l.Reads ts m ∧ Expression p.table ts e ∧ Stops p.table ts m.token ∧
        q = p.moveTo m := by
  rw [expression, attempt_eq_parsed_iff]
  simp only [ExpressionState.ends_start_iff, and_assoc]

/-! ## Units -/

theorem concludeUnit_bareExpression (p : Parser) (reported : Nat) :
    concludeUnit .expression reported p.bareExpression =
      concludeUnit (fun e => .expression (Definition.wrap p.anonymous e)) reported p.expression := by
  rw [bareExpression]
  rcases p.expression with ⟨_ | _ | _, q⟩ <;> rfl

theorem concludeUnit_reported {α : Type} (make : α → SourceUnit) (p : Parser) (l : Lookahead)
    (cause : Refusal) :
    concludeUnit make p.errors.count (.refused, p.reported l cause) =
      (.failure (some (l.diagnostic cause)), (p.reported l cause).advance) := by
  have hcount : p.errors.count < (p.reported l cause).errors.count := p.errors.count_lt_add _
  have hlast : (p.reported l cause).errors.diagnostics.getLast? = some (l.diagnostic cause) :=
    List.getLast?_concat
  simp only [concludeUnit, hcount, if_true, hlast]

/-- The unit of an attempt is made of what the parse has read, or is the failure of the refused
token, which is skipped. -/
theorem concludeUnit_attempt {σ α : Type} {p : Parser} {l : Lookahead} (h : p.At l)
    (make : α → SourceUnit) {step : σ → Token → Step σ α} (hend : LeavesEnd step) (s : σ) :
    (∃ ts m a, l.Reads ts m ∧ Ends step (step s) ts m.token a ∧
        concludeUnit make p.errors.count (p.attempt step s) = (make a, p.moveTo m)) ∨
      ∃ ts m s' cause, l.Reads ts m ∧ Shifts step s ts s' ∧ step s' m.token = .refuse cause ∧
        concludeUnit make p.errors.count (p.attempt step s) =
          (.failure (some (m.diagnostic cause)), (p.reported m cause).advance) := by
  obtain ⟨ts, m, a, hreads, hends, ha⟩ | ⟨ts, m, s', cause, hreads, hshifts, hrefuse, ha⟩ :=
    attempt_cases h hend s
  · refine .inl ⟨ts, m, a, hreads, hends, ?_⟩
    rw [ha]
    rfl
  · refine .inr ⟨ts, m, s', cause, hreads, hshifts, hrefuse, ?_⟩
    rw [ha, concludeUnit_reported]

/-- The parse of a unit of the given kind reads the tokens and refuses the next one. -/
inductive Refuses (table : OperatorTable) : UnitKind → List Token → Token → Prop
  | definition {d t : Token} {ts : List Token} {s : DefinitionState} {cause : Refusal}
      (hd : d.lexeme = .define) (h : Shifts (DefinitionState.step table) (.signature .start) ts s)
      (hr : s.step table t = .refuse cause) : Refuses table .definition (d :: ts) t
  | declaration {x t : Token} {ts : List Token} {s : SignatureState} {cause : Refusal}
      (hx : x.lexeme = .external) (h : Shifts SignatureState.step .start ts s)
      (hr : s.step t = .refuse cause) : Refuses table .declaration (x :: ts) t
  | expression {t : Token} {ts : List Token} {s : ExpressionState} {cause : Refusal}
      (h : Shifts (ExpressionState.step table (some 0)) .start ts s)
      (hr : s.step table (some 0) t = .refuse cause) : Refuses table .expression ts t

theorem unit_define {t : Token} (ht : t.lexeme = .define) (p : Parser) :
    p.unit t = concludeUnit .definition p.errors.count p.definition := by
  simp only [unit, ht, UnitKind.ofLexeme]

theorem unit_external {t : Token} (ht : t.lexeme = .external) (p : Parser) :
    p.unit t = concludeUnit .declaration p.errors.count p.declaration := by
  simp only [unit, ht, UnitKind.ofLexeme]

theorem ofLexeme_expression {l : Lexeme} (hd : l ≠ .define) (hx : l ≠ .external) :
    UnitKind.ofLexeme l = .expression := by
  unfold UnitKind.ofLexeme
  split
  · next => exact absurd rfl hd
  · next => exact absurd rfl hx
  · rfl

theorem unit_expression {t : Token} (hd : t.lexeme ≠ .define) (hx : t.lexeme ≠ .external)
    (p : Parser) :
    p.unit t = concludeUnit (fun e => .expression (Definition.wrap p.anonymous e)) p.errors.count
      p.expression := by
  simp only [unit, ofLexeme_expression hd hx, concludeUnit_bareExpression]

/-- A unit is what its tokens derive, or the failure of the token at which its attempt stops. -/
theorem unit_cases {p : Parser} {l : Lookahead} (h : p.At l) (he : l.token.isEnd = false) :
    (∃ ts m u, l.Reads ts m ∧ UnitOf p.table p.anonymous ts u ∧
        p.unit l.token = (u, p.moveTo m)) ∨
      ∃ ts m cause, l.Reads ts m ∧ Refuses p.table (.ofLexeme l.token.lexeme) ts m.token ∧
        p.unit l.token =
          (.failure (some (m.diagnostic cause)), (p.reported m cause).advance) := by
  by_cases hd : l.token.lexeme = .define
  · rw [unit_define hd, definition, advance_of_at h, hd]
    obtain ⟨ts, m, d, hr, hends, hu⟩ | ⟨ts, m, s, cause, hr, hshifts, hrefuse, hu⟩ :=
      concludeUnit_attempt (p.moveTo_at l.advance) .definition (DefinitionState.leavesEnd p.table)
        (.signature .start)
    · obtain ⟨ss, es, s, e, rfl, hs, hexp, -, rfl⟩ := DefinitionState.ends_start_iff.mp hends
      exact .inl ⟨l.token :: (ss ++ es), m, _, ⟨rfl, he, hr⟩, .definition hd hs hexp, hu⟩
    · exact .inr ⟨l.token :: ts, m, cause, ⟨rfl, he, hr⟩, .definition hd hshifts hrefuse, hu⟩
  · by_cases hx : l.token.lexeme = .external
    · rw [unit_external hx, declaration, advance_of_at h, hx]
      obtain ⟨ts, m, s, hr, hends, hu⟩ | ⟨ts, m, s, cause, hr, hshifts, hrefuse, hu⟩ :=
        concludeUnit_attempt (p.moveTo_at l.advance) .declaration SignatureState.leavesEnd .start
      · have hs := SignatureState.ends_start_iff.mp hends
        exact .inl ⟨l.token :: ts, m, _, ⟨rfl, he, hr⟩, .declaration hx hs, hu⟩
      · exact .inr ⟨l.token :: ts, m, cause, ⟨rfl, he, hr⟩, .declaration hx hshifts hrefuse, hu⟩
    · rw [unit_expression hd hx, expression, ofLexeme_expression hd hx]
      obtain ⟨ts, m, e, hr, hends, hu⟩ | ⟨ts, m, s, cause, hr, hshifts, hrefuse, hu⟩ :=
        concludeUnit_attempt h (fun e => .expression (Definition.wrap p.anonymous e))
          (ExpressionState.leavesEnd p.table (some 0)) .start
      · obtain ⟨hexp, -⟩ := ExpressionState.ends_start_iff.mp hends
        exact .inl ⟨ts, m, _, hr, .expression hexp, hu⟩
      · exact .inr ⟨ts, m, cause, hr, .expression hshifts hrefuse, hu⟩

/-- A derived unit is read if no expression goes on after its tokens. -/
theorem unit_of_derived {p : Parser} {l m : Lookahead} {ts : List Token} {u : SourceUnit}
    (h : p.At l) (hr : l.Reads ts m) (hu : UnitOf p.table p.anonymous ts u)
    (hs : Stops p.table ts m.token) : p.unit l.token = (u, p.moveTo m) := by
  cases hu with
  | @definition d ss es s e hd hsig he =>
    obtain ⟨rfl, -, hr⟩ := hr
    -- The body is not empty, so that the definition ends in a name only if the body does.
    have hstop : Stops p.table es m.token := by
      obtain ⟨f, ks, hchain, -⟩ := he
      obtain ⟨t, us, rfl, -⟩ := hchain.opens
      exact ⟨hs.1, fun hend => hs.2 ((endsInName_append_cons (l.token :: ss) t us).mpr hend)⟩
    have hends := DefinitionState.ends_start_iff.mpr ⟨ss, es, s, e, rfl, hsig, he, hstop, rfl⟩
    have hparsed := attempt_eq_parsed_iff.mpr
      ⟨l.advance, ss ++ es, m, p.moveTo_at l.advance, hr, hends, rfl⟩
    rw [unit_define hd, definition, advance_of_at h]
    exact congrArg (concludeUnit SourceUnit.definition _) hparsed
  | @declaration x ss s hx hsig =>
    obtain ⟨rfl, -, hr⟩ := hr
    have hends : Ends SignatureState.step (SignatureState.step .start) ss m.token s :=
      SignatureState.ends_start_iff.mpr hsig
    have hparsed := attempt_eq_parsed_iff.mpr
      ⟨l.advance, ss, m, p.moveTo_at l.advance, hr, hends, rfl⟩
    rw [unit_external hx, declaration, advance_of_at h]
    exact congrArg (concludeUnit SourceUnit.declaration _) hparsed
  | @expression es e he =>
    have hends := ExpressionState.ends_start_iff.mpr ⟨he, hs⟩
    have hparsed := attempt_eq_parsed_iff.mpr ⟨l, ts, m, h, hr, hends, rfl⟩
    obtain ⟨f, ks, hchain, -⟩ := he
    obtain ⟨t, us, rfl, ht⟩ := hchain.opens
    obtain ⟨rfl, -, -⟩ := hr
    rw [unit_expression ht.ne_define ht.ne_external]
    exact congrArg (concludeUnit _ _) hparsed

end Parser

end ExprFront
