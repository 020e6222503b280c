import ExprFront.Proofs.ExpressionDerivation

/-!
# Reading units

A definition is read as a signature and then as an expression. An attempt that succeeds has read
what the grammar allows and nothing else. A unit that is no failure is what its tokens derive,
and a derived unit is read if no expression goes on after it.
-/

namespace ExprFront
set_option autoImplicit false
open Grammar

/-! ## Signatures -/

namespace SignatureState

theorem leavesEnd : LeavesEnd step := by
  intro s s' t h
  rw [Bool.eq_false_iff]
  intro he
  have ht := Token.lexeme_of_isEnd he
  cases s <;> simp [step, ht] at h

theorem step_opened_eq_shift {name : String} {location : Location} {params : List String}
    {t : Token} {s : SignatureState} (h : step (.opened name location params) t = .shift s) :
    (∃ param, t.lexeme = .name param ∧ s = .opened name location (params ++ [param])) ∨
      t.lexeme = .char ')' ∧ s = .closed ⟨name, params, some location⟩ := by
  simp only [step] at h
  split at h
  · next param ht => exact .inl ⟨param, ht, (Step.shift.inj h).symm⟩
  · next ht => exact .inr ⟨ht, (Step.shift.inj h).symm⟩
  · simp at h

theorem shifts_opened {ps : List Token} {names : List String}
    (h : ps.map Token.lexeme = names.map Lexeme.name) (name : String) (location : Location)
    (params : List String) :
    Shifts step (.opened name location params) ps (.opened name location (params ++ names)) := by
  induction ps generalizing names params with
  | nil =>
    obtain rfl : names = [] := by simpa using h
    rw [List.append_nil]
    exact .refl _
  | cons t ps ih =>
    cases names with
    | nil => simp at h
    | cons n names =>
      obtain ⟨ht, h⟩ := List.cons.inj h
      have hstep : step (.opened name location params) t =
          .shift (.opened name location (params ++ [n])) := by
        simp only [step, ht]
      have hrest := ih h (params ++ [n])
      rw [List.append_assoc, List.singleton_append] at hrest
      exact .cons hstep hrest

theorem of_ends_opened {name : String} {location : Location} {params : List String}
    {ts : List Token} {next : Token} {p : Prototype}
    (h : Ends step (step (.opened name location params)) ts next p) :
    ∃ ps c names, ts = ps ++ [c] ∧ ps.map Token.lexeme = names.map Lexeme.name ∧
      c.lexeme = .char ')' ∧ p = ⟨name, params ++ names, some location⟩ := by
  induction ts generalizing params with
  | nil =>
    have h : step (.opened name location params) next = .done p := h
    simp only [step] at h
    split at h <;> simp at h
  | cons t ts ih =>
    obtain ⟨s, hs, h⟩ := h
    obtain ⟨param, ht, rfl⟩ | ⟨ht, rfl⟩ := step_opened_eq_shift hs
    · obtain ⟨ps, c, names, rfl, hps, hc, rfl⟩ := ih h
      refine ⟨t :: ps, c, param :: names, rfl, ?_, hc, ?_⟩
      · rw [List.map_cons, List.map_cons, ht, hps]
      · rw [List.append_assoc, List.singleton_append]
    · cases ts with
      | nil =>
        obtain rfl := Step.done.inj h
        exact ⟨[], t, [], rfl, rfl, ht, by rw [List.append_nil]⟩
      | cons u us =>
        obtain ⟨r, hr, -⟩ := h
        simp [step] at hr

/-- What is read as a signature is one, whatever comes after it. -/
theorem ends_start_iff {ts : List Token} {next : Token} {p : Prototype} :
    Ends step (step .start) ts next p ↔ Signature ts p := by
  constructor
  · intro h
    cases ts with
    | nil =>
      have h : step .start next = .done p := h
      simp only [step] at h
      split at h <;> simp at h
    | cons n ts =>
      obtain ⟨s, hs, h⟩ := h
      simp only [step] at hs
      split at hs
      · next name hn =>
        obtain rfl := Step.shift.inj hs
        cases ts with
        | nil =>
          have h : step (.named name n.location) next = .done p := h
          simp only [step] at h
          split at h <;> simp at h
        | cons o ts =>
          obtain ⟨r, hr, h⟩ := h
          simp only [step] at hr
          split at hr
          · next ho =>
            obtain rfl := Step.shift.inj hr
            obtain ⟨ps, c, names, rfl, hps, hc, rfl⟩ := of_ends_opened h
            exact .mk hn ho hps hc
          · simp at hr
      · simp at hs
  · rintro @⟨n, o, c, ps, name, params, hn, ho, hps, hc⟩
    have hname : step .start n = .shift (.named name n.location) := by simp only [step, hn]
    have hopen : step (.named name n.location) o = .shift (.opened name n.location []) := if_pos ho
    have hclose : step (.opened name n.location params) c =
        .shift (.closed ⟨name, params, some n.location⟩) := by simp only [step, hc]
    have hparams := shifts_opened hps name n.location []
    have hshifts := Shifts.cons hname (.cons hopen (hparams.trans (.single hclose)))
    exact ends_iff.mpr ⟨_, hshifts, rfl⟩

end SignatureState

/-! ## Definitions -/

namespace DefinitionState
variable {table : OperatorTable}

theorem leavesEnd (table : OperatorTable) : LeavesEnd (step table) := by
  have hbody : ∀ p s s' t, bodyStep table p s t = .shift s' → t.isEnd = false := by
    intro p s s' t h
    unfold bodyStep at h
    cases hs : s.step table (some 0) t with
    | shift r => exact ExpressionState.leavesEnd table (some 0) s r t hs
    | done e => simp [hs, Step.map] at h
    | refuse cause => simp [hs, Step.map] at h
  intro s s' t h
  cases s with
  | signature s =>
    cases hs : s.step t with
    | shift r => exact SignatureState.leavesEnd s r t hs
    | done p =>
      simp only [step, hs] at h
      exact hbody p .start s' t h
    | refuse cause => simp [step, hs] at h
  | body p s => exact hbody p s s' t h

theorem ends_body_iff {p : Prototype} {s : ExpressionState} {ts : List Token} {next : Token}
    {d : Definition} :
    Ends (step table) (bodyStep table p s) ts next d ↔
      ∃ e, Ends (ExpressionState.step table (some 0)) (s.step table (some 0)) ts next e ∧
        d = ⟨p, e⟩ := by
  induction ts generalizing s with
  | nil =>
    simp only [Ends, bodyStep]
    cases s.step table (some 0) next with
    | shift r => simp [Step.map]
    | done e => simp [Step.map, eq_comm]
    | refuse cause => simp [Step.map]
  | cons t ts ih =>
    simp only [Ends, bodyStep]
    cases s.step table (some 0) t with
    | shift r =>
      have hr := ih (s := r)
      simp only [Step.map, Step.shift.injEq, exists_eq_left']
      exact hr
    | done e => simp [Step.map]
    | refuse cause => simp [Step.map]

theorem ends_signature_iff {s : SignatureState} {ts : List Token} {next : Token}
    {d : Definition} :
    Ends (step table) (step table (.signature s)) ts next d ↔
      ∃ ss es p, ts = ss ++ es ∧ Ends SignatureState.step s.step ss (es.headD next) p ∧
        Ends (step table) (bodyStep table p .start) es next d := by
  constructor
  · intro h
    induction ts generalizing s with
    | nil =>
      have h : step table (.signature s) next = .done d := h
      cases hs : s.step next with
      | shift r => simp [step, hs] at h
      | done p =>
        simp only [step, hs] at h
        exact ⟨[], [], p, rfl, hs, h⟩
      | refuse cause => simp [step, hs] at h
    | cons t ts ih =>
      obtain ⟨x, hx, h⟩ := h
      cases hs : s.step t with
      | shift r =>
        simp only [step, hs] at hx
        obtain rfl := Step.shift.inj hx
        obtain ⟨ss, es, p, rfl, hss, h⟩ := ih h
        exact ⟨t :: ss, es, p, rfl, ⟨r, hs, hss⟩, h⟩
      | done p =>
        simp only [step, hs] at hx
        exact ⟨[], t :: ts, p, rfl, hs, x, hx, h⟩
      | refuse cause => simp [step, hs] at hx
  · rintro ⟨ss, es, p, rfl, hss, h⟩
    induction ss generalizing s with
    | nil =>
      -- The token that ends the signature is looked at again, as the first one of the body.
      have hs : s.step (es.headD next) = .done p := hss
      have hbody : step table (.signature s) (es.headD next) =
          bodyStep table p .start (es.headD next) := by simp only [step, hs]
      exact (Ends.congr hbody).mpr h
    | cons t ss ih =>
      obtain ⟨r, hr, hss⟩ := hss
      exact ⟨.signature r, by simp only [step, hr], ih hss⟩

/-- A definition is a signature and an expression that stops in front of the next token. -/
theorem ends_start_iff {ts : List Token} {next : Token} {d : Definition} :
    Ends (step table) (step table (.signature .start)) ts next d ↔
      ∃ ss es p e, ts = ss ++ es ∧ Signature ss p ∧ Expression table es e ∧
        Stops table es next ∧ d = ⟨p, e⟩ := by
  rw [ends_signature_iff]
  simp only [ends_body_iff, SignatureState.ends_start_iff, ExpressionState.ends_start_iff]
  constructor
  · rintro ⟨ss, es, p, rfl, hs, e, ⟨he, hstop⟩, rfl⟩
    exact ⟨ss, es, p, e, rfl, hs, he, hstop, rfl⟩
  · rintro ⟨ss, es, p, e, rfl, hs, he, hstop, rfl⟩
    exact ⟨ss, es, p, rfl, hs, e, ⟨he, hstop⟩, rfl⟩

end DefinitionState

end ExprFront
