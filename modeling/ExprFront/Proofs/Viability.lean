import ExprFront.Proofs.Partition

/-!
# Viable prefixes

Tokens are viable if some unit starts with them. Where brackets and commas are no operators, a parse
can be completed from every state: what is missing is an operand and the ends of the open brackets.
So whatever a parse has read is viable, and with a token that it refuses it no longer is.
-/

namespace ExprFront
set_option autoImplicit false
open Grammar

/-! ## Completing a parse -/

section Begins
variable {σ α : Type} {step : σ → Token → Step σ α}

/-- A parse from the state may read the tokens first and come to an end later. -/
def Begins (step : σ → Token → Step σ α) (s : σ) (ts : List Token) : Prop :=
  ∃ us next a, Ends step (step s) (ts ++ us) next a

theorem Shifts.begins {s s' : σ} {ts : List Token} (h : Shifts step s ts s')
    (h' : Begins step s' []) : Begins step s ts := by
  obtain ⟨us, next, a, hus⟩ := h'
  exact ⟨us, next, a, h.ends hus⟩

theorem begins_of_shift {s s' : σ} (t : Token) (h : step s t = .shift s')
    (h' : Begins step s' []) : Begins step s [] := by
  obtain ⟨us, next, a, hus⟩ := h'
  exact ⟨t :: us, next, a, s', h, hus⟩

theorem begins_of_done {s : σ} {a : α} (next : Token) (h : step s next = .done a) :
    Begins step s [] := ⟨[], next, a, h⟩

/-- A parse takes one way through given tokens, so that none gets past a token refused there. -/
theorem Shifts.not_begins {s s' : σ} {ts : List Token} {t : Token} {cause : Refusal}
    (h : Shifts step s ts s') (hr : step s' t = .refuse cause) : ¬ Begins step s (ts ++ [t]) := by
  rintro ⟨us, next, a, hends⟩
  rw [List.append_assoc] at hends
  induction ts generalizing s with
  | nil =>
    obtain rfl : s = s' := h
    obtain ⟨r, hshift, -⟩ := hends
    simp [hr] at hshift
  | cons u ts ih =>
    obtain ⟨q, hq, h⟩ := h
    obtain ⟨r, hshift, hends⟩ := hends
    obtain rfl := Step.shift.inj (hq.symm.trans hshift)
    exact ih h hends

end Begins

/-- A token for a lexeme that stands nowhere. -/
def Lexeme.token (l : Lexeme) : Token := ⟨l, ⟨"", 0, 0⟩⟩

namespace ExpressionState
variable {table : OperatorTable}

/-- After an operand the open brackets are closed one by one. -/
theorem begins_operator (hc : table.precedence ')' ≤ 0) (e : Node) (chain : List Waiting)
    (enclosures : List Enclosure) :
    Begins (step table (some 0)) ⟨.operator e, chain, enclosures⟩ [] := by
  induction enclosures generalizing e chain with
  | nil => exact begins_of_done Lexeme.endOfInput.token rfl
  | cons b rest ih =>
    have htakes : takesToken table (threshold (some 0) (b :: rest)) (Lexeme.char ')').token =
        false := by
      rw [threshold_cons, takesToken_zero]
      exact decide_eq_false (by omega)
    have hstep : step table (some 0) ⟨.operator e, chain, b :: rest⟩ (Lexeme.char ')').token =
        endChain (completeAll chain e) (b :: rest) (Lexeme.char ')').token :=
      afterOperand_of_not_takes htakes
    rcases b with ⟨_ | ⟨callee, location, args⟩, outer⟩
    · exact begins_of_shift _ (hstep.trans (endChain_group rfl _ outer rest)) (ih _ outer)
    · exact begins_of_shift _ (hstep.trans (endChain_last rfl _ callee location args outer rest))
        (ih _ outer)

theorem begins_nil (hc : table.precedence ')' ≤ 0) (s : ExpressionState) :
    Begins (step table (some 0)) s [] := by
  rcases s with ⟨x, chain, enclosures⟩
  let number := (Lexeme.number .zero).token
  have hnumber : number.lexeme = .number .zero := rfl
  cases x with
  | operand =>
    have hstep : beforeOperand chain enclosures number = _ :=
      beforeOperand_number hnumber chain enclosures
    exact begins_of_shift number hstep (begins_operator hc _ chain enclosures)
  | firstArgument =>
    have hopens : OpensOperand number := .inr (.inl ⟨.zero, hnumber⟩)
    have hstep : firstArgument enclosures number = _ :=
      (firstArgument_of_opens hopens enclosures).trans (beforeOperand_number hnumber [] enclosures)
    exact begins_of_shift number hstep (begins_operator hc _ [] enclosures)
  | callOrVariable name location =>
    -- The name calls without arguments, since in front of the end it might be a variable.
    have ho : (Lexeme.char '(').token.lexeme = .char '(' := rfl
    have hclose : (Lexeme.char ')').token.lexeme = .char ')' := rfl
    exact begins_of_shift _ (callOrVariable_opens ho name location chain enclosures)
      (begins_of_shift _ (if_pos hclose) (begins_operator hc _ chain enclosures))
  | operator e => exact begins_operator hc e chain enclosures

end ExpressionState

namespace SignatureState

theorem shifts_closed (s : SignatureState) : ∃ us p, Shifts step s us (.closed p) := by
  let name := (Lexeme.name "f").token
  let opening := (Lexeme.char '(').token
  let closing := (Lexeme.char ')').token
  cases s with
  | start => exact ⟨[name, opening, closing], _, _, rfl, _, rfl, _, rfl, rfl⟩
  | named => exact ⟨[opening, closing], _, _, rfl, _, rfl, rfl⟩
  | opened => exact ⟨[closing], _, _, rfl, rfl⟩
  | closed p => exact ⟨[], p, rfl⟩

theorem begins_nil (s : SignatureState) : Begins step s [] := by
  obtain ⟨us, p, h⟩ := s.shifts_closed
  exact ⟨us, Lexeme.endOfInput.token, p, ends_iff.mpr ⟨_, h, rfl⟩⟩

end SignatureState

namespace DefinitionState
variable {table : OperatorTable}

theorem begins_nil (hc : table.precedence ')' ≤ 0) (s : DefinitionState) :
    Begins (step table) s [] := by
  have hbody : ∀ p s, ∃ us next d, Ends (step table) (bodyStep table p s) us next d := by
    intro p s
    obtain ⟨us, next, e, hus⟩ := s.begins_nil hc
    exact ⟨us, next, _, ends_body_iff.mpr ⟨e, hus, rfl⟩⟩
  cases s with
  | signature s =>
    obtain ⟨ss, p, hss⟩ := s.shifts_closed
    obtain ⟨us, next, d, hus⟩ := hbody p .start
    have hends := ends_iff.mpr ⟨_, hss, (rfl : SignatureState.step _ (us.headD next) = .done p)⟩
    exact ⟨ss ++ us, next, d, ends_signature_iff.mpr ⟨ss, us, p, rfl, hends, hus⟩⟩
  | body p s => exact hbody p s

end DefinitionState

/-! ## Viable tokens -/

namespace Grammar

/-- Some unit of the given kind starts with the tokens. -/
def Viable (table : OperatorTable) (anonymous : String) (kind : UnitKind) (ts : List Token) :
    Prop :=
  ∃ us u, UnitOf table anonymous (ts ++ us) u ∧ u.kind = kind

variable {table : OperatorTable} {anonymous : String}

theorem viable_expression_iff (ts : List Token) :
    Viable table anonymous .expression ts ↔
      Begins (ExpressionState.step table (some 0)) .start ts := by
  constructor
  · rintro ⟨us, u, hu, hkind⟩
    generalize hts : ts ++ us = vs at hu
    cases hu with
    | expression he =>
      rw [← hts] at he
      exact ⟨us, Lexeme.endOfInput.token, _, ExpressionState.ends_start_iff.mpr
        ⟨he, stops_of_isEnd rfl _⟩⟩
    | definition | declaration => simp [SourceUnit.kind] at hkind
  · rintro ⟨us, next, e, hends⟩
    obtain ⟨he, -⟩ := ExpressionState.ends_start_iff.mp hends
    exact ⟨us, _, .expression he, rfl⟩

theorem viable_definition_iff {d : Token} (hd : d.lexeme = .define) (ts : List Token) :
    Viable table anonymous .definition (d :: ts) ↔
      Begins (DefinitionState.step table) (.signature .start) ts := by
  constructor
  · rintro ⟨us, u, hu, hkind⟩
    rw [List.cons_append] at hu
    generalize hts : d :: (ts ++ us) = vs at hu
    cases hu with
    | @definition d' ss es p e _ hs he =>
      obtain ⟨-, hts⟩ := List.cons.inj hts
      exact ⟨us, Lexeme.endOfInput.token, _, DefinitionState.ends_start_iff.mpr
        ⟨ss, es, p, e, hts, hs, he, stops_of_isEnd rfl es, rfl⟩⟩
    | declaration | expression => simp [SourceUnit.kind] at hkind
  · rintro ⟨us, next, f, hends⟩
    obtain ⟨ss, es, p, e, hts, hs, he, -, rfl⟩ := DefinitionState.ends_start_iff.mp hends
    refine ⟨us, .definition ⟨p, e⟩, ?_, rfl⟩
    rw [List.cons_append, hts]
    exact .definition hd hs he

theorem viable_declaration_iff {x : Token} (hx : x.lexeme = .external) (ts : List Token) :
    Viable table anonymous .declaration (x :: ts) ↔ Begins SignatureState.step .start ts := by
  constructor
  · rintro ⟨us, u, hu, hkind⟩
    rw [List.cons_append] at hu
    generalize hts : x :: (ts ++ us) = vs at hu
    cases hu with
    | declaration _ hs =>
      obtain ⟨-, rfl⟩ := List.cons.inj hts
      exact ⟨us, Lexeme.endOfInput.token, _, SignatureState.ends_start_iff.mpr hs⟩
    | definition | expression => simp [SourceUnit.kind] at hkind
  · rintro ⟨us, next, p, hends⟩
    have hs := SignatureState.ends_start_iff.mp hends
    exact ⟨us, _, .declaration hx hs, rfl⟩

end Grammar

/-- A parse refuses a token as soon as what it has read cannot go on with it, and no earlier. -/
theorem Parser.Refuses.viable {table : OperatorTable} (hc : table.precedence ')' ≤ 0)
    {kind : UnitKind} {ts : List Token} {t : Token} (h : Parser.Refuses table kind ts t)
    (anonymous : String) :
    Viable table anonymous kind ts ∧ ¬ Viable table anonymous kind (ts ++ [t]) := by
  cases h with
  | definition hd h hr =>
    rw [List.cons_append, viable_definition_iff hd, viable_definition_iff hd]
    exact ⟨h.begins (DefinitionState.begins_nil hc _), h.not_begins hr⟩
  | declaration hx h hr =>
    rw [List.cons_append, viable_declaration_iff hx, viable_declaration_iff hx]
    exact ⟨h.begins (SignatureState.begins_nil _), h.not_begins hr⟩
  | expression h hr =>
    rw [viable_expression_iff, viable_expression_iff]
    exact ⟨h.begins (ExpressionState.begins_nil hc _), h.not_begins hr⟩

/-! ## Failures of a session -/

namespace Session

/-- The unit of the turn failed at a token, after what some unit of its kind starts with, and no unit
of that kind starts with the token as well. -/
def Beat.FailsEarly (table : OperatorTable) (anonymous : String) (b : Beat) : Prop :=
  ∃ used t, b.FailsAt used t ∧
    (∀ used' t', b.FailsAt used' t' → used' = used ∧ t' = t) ∧
    Viable table anonymous (.ofLexeme b.before.lookahead.token.lexeme) used ∧
    ¬ Viable table anonymous (.ofLexeme b.before.lookahead.token.lexeme) (used ++ [t])

theorem failsEarly_skip {s : Session} (hc : s.parser.table.precedence ')' ≤ 0)
    {used : List Token} {m : Lookahead} (cause : Refusal) (hr : s.lookahead.Reads used m)
    (hf : Parser.Refuses s.parser.table (.ofLexeme s.lookahead.token.lexeme) used m.token) :
    Beat.FailsEarly s.parser.table s.parser.anonymous
      ⟨s, .unit (.failure (some (m.diagnostic cause))), s.skip m cause⟩ := by
  refine ⟨used, m.token, (failsAt_skip_iff cause hr).mpr ⟨rfl, rfl⟩, ?_, hf.viable hc _⟩
  intro used' t' hfails
  exact (failsAt_skip_iff cause hr).mp hfails

end Session

/-- Where brackets and commas are no operators, every failure of a run is reported at the earliest
token possible, which is the end of the input or one with which no unit goes on. -/
theorem Options.run_failsEarly (o : Options) (source : List Char) (name : Option String)
    (h : o.table.LeavesOut ['(', ')', ',']) :
    ∀ b ∈ (o.session source name).beats, ∀ d, b.turn = .unit (.failure d) →
      b.FailsEarly o.table o.anonymous := by
  rintro ⟨s, t, s'⟩ hb d rfl
  obtain ⟨hlive, hturn, htable, hanonymous⟩ := (o.live_session source name).forall_beats _ hb
  have hlive : s.Live := hlive
  have htable : s.parser.table = o.table := htable
  have hanonymous : s.parser.anonymous = o.anonymous := hanonymous
  have hc : s.parser.table.precedence ')' ≤ 0 := htable ▸ h ')' (by simp)
  rw [← htable, ← hanonymous]
  cases hlive.taken hturn Turn.noConfusion with
  | derived hr hu => exact absurd rfl hu.ne_failure
  | failed he hr hf => exact Session.failsEarly_skip hc _ hr hf

/-- An argument list that breaks off after a comma. -/
theorem Options.run_failsEarly_default :
    let s := Options.default.session "f(1, ;".toList none
    OperatorTable.default.LeavesOut ['(', ')', ','] ∧
      ∃ d, ⟨s, .unit (.failure d), s.turn.2⟩ ∈ s.beats ∧
        Session.Beat.FailsEarly .default anonymousName ⟨s, .unit (.failure d), s.turn.2⟩ := by
  intro s
  have hkind : s.turn.1.unit?.map SourceUnit.kind = some .failure := by decide +kernel
  obtain ⟨d, hd⟩ : ∃ d, s.turn.1 = .unit (.failure d) := by
    generalize s.turn.1 = t at hkind ⊢
    rcases t with _ | _ | ⟨_ | _ | _ | d⟩ | _ | _
    case unit.failure => exact ⟨d, rfl⟩
    all_goals simp [Turn.unit?, SourceUnit.kind] at hkind
  have hturn : s.turn = (.unit (.failure d), s.turn.2) := Prod.ext hd rfl
  have hmem : ⟨s, .unit (.failure d), s.turn.2⟩ ∈ s.beats := by
    rw [Session.beats_of_turn hturn rfl]
    exact List.mem_cons_self
  have hleaves : OperatorTable.default.LeavesOut ['(', ')', ','] := by decide
  exact ⟨hleaves, d, hmem, Options.run_failsEarly .default _ none hleaves _ hmem d rfl⟩

end ExprFront
