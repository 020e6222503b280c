import ExprFront.Proofs.ExpressionDerivation

/-!
# Operands under waiting operators

A bare operand is read by steps that take no operator outside of brackets. Where operators wait for
their right operand, the same steps are taken above them, until the operand is complete. What
follows is a step behind the operand, which the waiting operators see.
-/

namespace ExprFront
set_option autoImplicit false

namespace ExpressionState
variable {table : OperatorTable} {outermost : Option Int} {base : List Waiting}

/-- The same brackets and chains, but for operators that wait below an outermost chain that is
empty. -/
inductive Below (base : List Waiting) :
    List Waiting → List Enclosure → List Waiting → List Enclosure → Prop
  | outermost : Below base [] [] base []
  | inner (b : Bracket) (chain : List Waiting) {outer outer' : List Waiting}
      {rest rest' : List Enclosure} (h : Below base outer rest outer' rest') :
      Below base chain (⟨b, outer⟩ :: rest) chain (⟨b, outer'⟩ :: rest')

/-- The second state is the first one with operators waiting below. -/
structure Lifts (base : List Waiting) (s s' : ExpressionState) : Prop where
  expected : s'.expected = s.expected
  below : Below base s.chain s.enclosures s'.chain s'.enclosures
  first : s.expected = .firstArgument → s.enclosures ≠ []

/-- A step under waiting operators is the same step, unless the operand is complete. Then it is a
step behind the operand. -/
def StepLifts (table : OperatorTable) (outermost : Option Int) (base : List Waiting) (t : Token)
    (r r' : Step ExpressionState Node) : Prop :=
  match r with
  | .shift s => ∃ s', r' = .shift s' ∧ Lifts base s s'
  | .done e => r' = afterOperand table outermost e base [] t
  | .refuse cause => r' = .refuse cause

variable {chain chain' : List Waiting} {enclosures enclosures' : List Enclosure}

theorem stepLifts_shift {x : Expected} (t : Token)
    (h : Below base chain enclosures chain' enclosures')
    (hx : x = .firstArgument → enclosures ≠ []) :
    StepLifts table outermost base t (.shift ⟨x, chain, enclosures⟩)
      (.shift ⟨x, chain', enclosures'⟩) :=
  ⟨_, rfl, rfl, h, hx⟩

variable (table outermost) in
theorem beforeOperand_lifts (h : Below base chain enclosures chain' enclosures') (t : Token) :
    StepLifts table outermost base t (beforeOperand chain enclosures t)
      (beforeOperand chain' enclosures' t) := by
  unfold beforeOperand
  split
  · exact stepLifts_shift t h (by simp)
  · exact stepLifts_shift t h (by simp)
  · exact stepLifts_shift t (h.inner .group []) (by simp)
  · exact rfl

theorem afterOperand_lifts (h : Below base chain enclosures chain' enclosures') (e : Node)
    (t : Token) :
    StepLifts table outermost base t (afterOperand table none e chain enclosures t)
      (afterOperand table outermost e chain' enclosures' t) := by
  cases h with
  | outermost =>
    -- A bare operand takes no operator, so that it is complete here.
    have htakes : takesToken table (threshold none []) t = false := by
      unfold takesToken
      split <;> rfl
    rw [afterOperand_of_not_takes htakes]
    exact rfl
  | @inner b _ outer outer' rest rest' h =>
    cases htakes : takesToken table (some 0) t with
    | true =>
      obtain ⟨c, ht, hc⟩ := takesToken_eq_true htakes
      rw [afterOperand_of_takes ht hc, afterOperand_of_takes ht hc]
      exact stepLifts_shift t (h.inner b _) (by simp)
    | false =>
      rw [afterOperand_of_not_takes htakes, afterOperand_of_not_takes htakes]
      cases b with
      | group =>
        simp only [endChain]
        split
        · exact stepLifts_shift t h (by simp)
        · exact rfl
      | arguments callee location args =>
        simp only [endChain]
        split
        · exact stepLifts_shift t h (by simp)
        · split
          · exact stepLifts_shift t (h.inner _ _) (by simp)
          · exact rfl

variable (table outermost) in
theorem step_lifts {s s' : ExpressionState} (h : Lifts base s s') (t : Token) :
    StepLifts table outermost base t (step table none s t) (step table outermost s' t) := by
  rcases s with ⟨x, chain, enclosures⟩
  rcases s' with ⟨x', chain', enclosures'⟩
  obtain ⟨hx, hbelow, hfirst⟩ := h
  have hbelow : Below base chain enclosures chain' enclosures' := hbelow
  have hx : x' = x := hx
  subst hx
  cases x' with
  | operand => exact beforeOperand_lifts table outermost hbelow t
  | operator e => exact afterOperand_lifts hbelow e t
  | callOrVariable name location =>
    simp only [step]
    split
    · exact stepLifts_shift t (hbelow.inner _ _) (by simp)
    · exact afterOperand_lifts hbelow _ t
  | firstArgument =>
    cases hbelow with
    | outermost => exact absurd rfl (hfirst rfl)
    | @inner b _ outer outer' rest rest' h =>
      have hbefore := beforeOperand_lifts table outermost (h.inner b []) t
      cases b with
      | group => exact hbefore
      | arguments callee location args =>
        simp only [step, firstArgument]
        split
        · exact stepLifts_shift t h (by simp)
        · exact hbefore

/-- A run depends on its state through the first step only. -/
theorem run_congr_step {s s' : ExpressionState} {l : Lookahead}
    (h : step table outermost s l.token = step table outermost s' l.token) :
    l.run (step table outermost) s = l.run (step table outermost) s' := by
  rw [Lookahead.run, Lookahead.run, h]

variable (table outermost) in
/-- What follows an operand under waiting operators, unless it was refused. -/
def resume (ws : List Waiting) :
    Except Refusal Node × Lookahead → Except Refusal Node × Lookahead
  | (.ok e, m) => m.run (step table outermost) ⟨.operator e, ws, []⟩
  | (.error cause, m) => (.error cause, m)

/-- An operand under waiting operators is read as if they were not there. -/
theorem run_lifts {l : Lookahead} {s s' : ExpressionState} (h : Lifts base s s') :
    l.run (step table outermost) s' =
      resume table outermost base (l.run (step table none) s) := by
  -- On the steps of the bare operand; that the one state lifts the other is what the run keeps.
  fun_induction Lookahead.run (step table none) l s generalizing s' with
  | case1 l s e hdone =>
    have hstep := step_lifts table outermost h l.token
    rw [hdone] at hstep
    exact run_congr_step hstep
  | case2 l s cause hrefuse =>
    have hstep := step_lifts table outermost h l.token
    rw [hrefuse] at hstep
    exact Lookahead.run_of_refuse hstep
  | case3 l s r hshift he => exact absurd (leavesEnd table none s r _ hshift) (by simp [he])
  | case4 l s r hshift he ih =>
    have hstep := step_lifts table outermost h l.token
    rw [hshift] at hstep
    obtain ⟨r', hshift', hr⟩ := hstep
    rw [Lookahead.run_of_shift hshift' (by simpa using he)]
    exact ih hr

theorem start_lifts (base : List Waiting) : Lifts base .start ⟨.operand, base, []⟩ :=
  ⟨rfl, .outermost, Expected.noConfusion⟩

end ExpressionState

end ExprFront
