import ExprFront.Proofs.ExpressionReading

/-!
# Deriving what is read

A parse that is done has read an operand, a chain or an argument list first, whatever it went on
with. Each statement speaks of all that such a parse reads; they are proved together, by
induction on the number of tokens.
-/

namespace ExprFront
set_option autoImplicit false

namespace ExpressionState
open Grammar

/-! ## Single steps -/

theorem beforeOperand_ne_done (chain : List Waiting) (enclosures : List Enclosure) (t : Token)
    (e : Node) : beforeOperand chain enclosures t ≠ .done e := by
  unfold beforeOperand
  split <;> simp

theorem beforeOperand_eq_shift {chain : List Waiting} {enclosures : List Enclosure} {t : Token}
    {s : ExpressionState} (h : beforeOperand chain enclosures t = .shift s) :
    (∃ name, t.lexeme = .name name ∧ s = ⟨.callOrVariable name t.location, chain, enclosures⟩) ∨
      (∃ value, t.lexeme = .number value ∧
        s = ⟨.operator (.number value (some t.location)), chain, enclosures⟩) ∨
      t.lexeme = .char '(' ∧ s = ⟨.operand, [], ⟨.group, chain⟩ :: enclosures⟩ := by
  unfold beforeOperand at h
  split at h
  · next name ht => exact .inl ⟨name, ht, (Step.shift.inj h).symm⟩
  · next value ht => exact .inr (.inl ⟨value, ht, (Step.shift.inj h).symm⟩)
  · next ht => exact .inr (.inr ⟨ht, (Step.shift.inj h).symm⟩)
  · simp at h

theorem takesToken_eq_true {table : OperatorTable} {least : Option Int} {t : Token}
    (h : takesToken table least t = true) : ∃ c, t.lexeme = .char c ∧ takes table least c = true := by
  unfold takesToken at h
  split at h
  · next c hc => exact ⟨c, hc, h⟩
  · simp at h

/-- What is taken is an operator, unless the outermost threshold is negative. -/
theorem precedence_pos_of_takes {table : OperatorTable} {outermost : Option Int}
    (hleast : ∀ n, outermost = some n → 0 ≤ n) {enclosures : List Enclosure} {c : Char}
    (h : takes table (threshold outermost enclosures) c = true) : 0 < table.precedence c := by
  cases enclosures with
  | nil =>
    cases outermost with
    | none => exact absurd h Bool.false_ne_true
    | some n =>
      have hn : n ≤ table.precedence c := of_decide_eq_true h
      have hpos := hleast n rfl
      rw [← table.precedence_nonneg_iff]
      omega
  | cons b rest => exact (takes_zero table c).mp h

theorem threshold_cons (outermost : Option Int) (b : Enclosure) (rest : List Enclosure) :
    threshold outermost (b :: rest) = some 0 := rfl

theorem leavesEnd (table : OperatorTable) (outermost : Option Int) :
    LeavesEnd (step table outermost) := by
  intro s s' t h
  rw [Bool.eq_false_iff]
  intro he
  have ht := Token.lexeme_of_isEnd he
  have hbefore : ∀ chain enclosures, beforeOperand chain enclosures t = .refuse .operand := by
    intro chain enclosures
    simp only [beforeOperand, ht]
  have hafter : ∀ e chain enclosures,
      afterOperand table outermost e chain enclosures t ≠ .shift s' := by
    intro e chain enclosures
    simp only [afterOperand, ht]
    unfold endChain
    split <;> simp [ht]
  rcases s with ⟨x, chain, enclosures⟩
  cases x with
  | operand =>
    have h : beforeOperand chain enclosures t = .shift s' := h
    simp [hbefore] at h
  | firstArgument =>
    have h : firstArgument enclosures t = .shift s' := h
    unfold firstArgument at h
    split at h <;> simp [ht, hbefore] at h
  | callOrVariable name location =>
    simp only [step, ht, reduceCtorEq, if_false] at h
    exact hafter _ _ _ h
  | operator e => exact hafter e chain enclosures h

/-! ## What a finished parse has read -/

variable (table : OperatorTable) (outermost : Option Int)

/-- A parse that reads the tokens from in front of an operand reads an operand first. -/
def DerivesOperand (us : List Token) : Prop :=
  ∀ (chain : List Waiting) (enclosures : List Enclosure) (next : Token) (a : Node),
    Ends (step table outermost) (beforeOperand chain enclosures) us next a →
    ∃ ts rest e, us = ts ++ rest ∧ Operand table ts e ∧ NoCall ts (rest.headD next) ∧
      Ends (step table outermost) (afterOperand table outermost e chain enclosures) rest next a

/-- It reads a chain first, as long as possible. -/
def DerivesChain (us : List Token) : Prop :=
  ∀ (chain : List Waiting) (enclosures : List Enclosure) (next : Token) (a : Node),
    Ends (step table outermost) (beforeOperand chain enclosures) us next a →
    ∃ ts rest e ks, us = ts ++ rest ∧ Chain table ts e ks ∧
      (∀ k ∈ ks, takes table (threshold outermost enclosures) k.op = true) ∧
      NoCall ts (rest.headD next) ∧
      takesToken table (threshold outermost enclosures) (rest.headD next) = false ∧
      Ends (step table outermost)
        (endChain (completeAll (table.load chain e ks).1 (table.load chain e ks).2) enclosures)
        rest next a

/-- In an argument list it reads the remaining arguments first. -/
def DerivesArguments (us : List Token) : Prop :=
  ∀ (callee : String) (location : Location) (done : List Node) (outer : List Waiting)
    (enclosures : List Enclosure) (next : Token) (a : Node),
    Ends (step table outermost)
      (beforeOperand [] (⟨.arguments callee location done, outer⟩ :: enclosures)) us next a →
    ∃ ts rest args, us = ts ++ rest ∧ ArgumentList table ts args ∧
      Ends (step table outermost)
        (afterOperand table outermost (.call callee (done ++ args) (some location)) outer enclosures)
        rest next a

variable {table outermost}

/-- The operand is a call, since its name is followed by a parenthesis. -/
theorem derives_call {t o : Token} {name : String} {us : List Token} (ht : t.lexeme = .name name)
    (ho : o.lexeme = .char '(') (hargs : DerivesArguments table outermost us)
    {chain : List Waiting} {enclosures : List Enclosure} {next : Token} {a : Node}
    (h : Ends (step table outermost)
      (firstArgument (⟨.arguments name t.location [], chain⟩ :: enclosures)) us next a) :
    ∃ ts rest e, t :: o :: us = ts ++ rest ∧ Operand table ts e ∧ NoCall ts (rest.headD next) ∧
      Ends (step table outermost) (afterOperand table outermost e chain enclosures) rest next a := by
  by_cases hc : (us.headD next).lexeme = .char ')'
  · cases us with
    | nil =>
      have hc : next.lexeme = .char ')' := hc
      have h : firstArgument _ next = _ := h
      simp [firstArgument, hc] at h
    | cons c us =>
      have hc : c.lexeme = .char ')' := hc
      obtain ⟨s, hs, h⟩ := h
      rw [firstArgument, if_pos hc] at hs
      obtain rfl := Step.shift.inj hs
      exact ⟨[t, o, c], us, _, rfl, .emptyCall ht ho hc,
        fun hend => absurd hend (not_endsInName_concat hc [t, o]), h⟩
  · have hfirst : firstArgument (⟨.arguments name t.location [], chain⟩ :: enclosures)
        (us.headD next) =
        beforeOperand [] (⟨.arguments name t.location [], chain⟩ :: enclosures) (us.headD next) :=
      if_neg hc
    obtain ⟨ts, rest, args, rfl, hts, hrest⟩ :=
      hargs name t.location [] chain enclosures next a ((Ends.congr hfirst).mp h)
    have hop : Operand table (t :: o :: ts) _ := .call ht ho hts
    refine ⟨t :: o :: ts, rest, _, rfl, hop, ?_, hrest⟩
    intro hend
    obtain ⟨u, vs, rfl, -⟩ := hts.opens
    exact absurd ((endsInName_append_cons [t, o] u vs).mp hend) hts.not_endsInName

/-- The operand is a group, and the chain in it ends in front of the closing parenthesis. -/
theorem derives_group {o : Token} {us : List Token} (ho : o.lexeme = .char '(')
    (hchain : DerivesChain table outermost us) {chain : List Waiting}
    {enclosures : List Enclosure} {next : Token} {a : Node}
    (h : Ends (step table outermost) (beforeOperand [] (⟨.group, chain⟩ :: enclosures)) us next a) :
    ∃ ts rest e, o :: us = ts ++ rest ∧ Operand table ts e ∧ NoCall ts (rest.headD next) ∧
      Ends (step table outermost) (afterOperand table outermost e chain enclosures) rest next a := by
  obtain ⟨ts, rest, f, ks, rfl, hts, -, hs, hn, hrest⟩ := hchain [] _ next a h
  rw [threshold_cons, takesToken_zero] at hn
  rw [table.completeAll_load] at hrest
  cases rest with
  | nil =>
    have hrest : endChain _ _ next = _ := hrest
    simp only [endChain] at hrest
    split at hrest <;> simp at hrest
  | cons c rest =>
    obtain ⟨s, hshift, hrest⟩ := hrest
    simp only [endChain] at hshift
    split at hshift
    · next hc =>
      obtain rfl := Step.shift.inj hshift
      refine ⟨o :: (ts ++ [c]), rest, _, by simp, .group ho hts hc hn, ?_, hrest⟩
      exact fun hend => absurd hend (not_endsInName_concat hc (o :: ts))
    · simp at hshift

theorem derivesOperand {us : List Token}
    (hchain : ∀ vs, vs.length < us.length → DerivesChain table outermost vs)
    (hargs : ∀ vs, vs.length < us.length → DerivesArguments table outermost vs) :
    DerivesOperand table outermost us := by
  intro chain enclosures next a h
  cases us with
  | nil => exact absurd h (beforeOperand_ne_done chain enclosures next a)
  | cons t us =>
    obtain ⟨s, hs, h⟩ := h
    obtain ⟨name, ht, rfl⟩ | ⟨value, ht, rfl⟩ | ⟨ht, rfl⟩ := beforeOperand_eq_shift hs
    · by_cases ho : (us.headD next).lexeme = .char '('
      · cases us with
        | nil =>
          have ho : next.lexeme = .char '(' := ho
          have h : step table outermost _ next = _ := h
          rw [callOrVariable_opens ho] at h
          simp at h
        | cons o us =>
          have ho : o.lexeme = .char '(' := ho
          obtain ⟨s, hs, h⟩ := h
          rw [callOrVariable_opens ho] at hs
          obtain rfl := Step.shift.inj hs
          have hlt : us.length < (t :: o :: us).length := by
            rw [List.length_cons, List.length_cons]
            omega
          exact derives_call ht ho (hargs us hlt) h
      · have hvariable : step table outermost ⟨.callOrVariable name t.location, chain, enclosures⟩
            (us.headD next) =
            afterOperand table outermost (.variable name (some t.location)) chain enclosures
              (us.headD next) := if_neg ho
        exact ⟨[t], us, _, rfl, .bareName ht, fun _ => ho, (Ends.congr hvariable).mp h⟩
    · refine ⟨[t], us, _, rfl, .number ht, ?_, h⟩
      intro hend
      rw [endsInName_singleton, ht] at hend
      simp at hend
    · exact derives_group ht (hchain us (by simp)) h

theorem derivesChain (hleast : ∀ n, outermost = some n → 0 ≤ n) {us : List Token}
    (hoperand : DerivesOperand table outermost us)
    (hchain : ∀ vs, vs.length < us.length → DerivesChain table outermost vs) :
    DerivesChain table outermost us := by
  intro chain enclosures next a h
  obtain ⟨ts, rest, e, rfl, hts, hs, hrest⟩ := hoperand chain enclosures next a h
  cases htakes : takesToken table (threshold outermost enclosures) (rest.headD next) with
  | false =>
    refine ⟨ts, rest, e, [], rfl, .single hts, by simp, hs, htakes, ?_⟩
    exact (Ends.congr (afterOperand_of_not_takes htakes)).mp hrest
  | true =>
    obtain ⟨c, ho, hc⟩ := takesToken_eq_true htakes
    cases rest with
    | nil =>
      have ho : next.lexeme = .char c := ho
      have hrest : afterOperand table outermost e chain enclosures next = _ := hrest
      rw [afterOperand_of_takes ho hc] at hrest
      simp at hrest
    | cons o rest =>
      have ho : o.lexeme = .char c := ho
      obtain ⟨s, hshift, hrest⟩ := hrest
      rw [afterOperand_of_takes ho hc] at hshift
      obtain rfl := Step.shift.inj hshift
      have hlt : rest.length < (ts ++ o :: rest).length := by
        rw [List.length_append, List.length_cons]
        omega
      obtain ⟨vs, rest, f, ks, rfl, hvs, hks, hs', hn, hrest⟩ := hchain rest hlt _ _ next a hrest
      refine ⟨ts ++ o :: vs, rest, e, ⟨c, o.location, f⟩ :: ks, by simp, ?_, ?_, ?_, hn, hrest⟩
      · exact .cons hts ho (precedence_pos_of_takes hleast hc) hs hvs
      · exact List.forall_mem_cons.mpr ⟨hc, hks⟩
      · obtain ⟨v, vs, rfl, -⟩ := hvs.opens
        intro hend
        rw [endsInName_append_cons] at hend
        exact hs' ((endsInName_append_cons [o] v vs).mp hend)

theorem derivesArguments {us : List Token} (hchain : DerivesChain table outermost us)
    (hargs : ∀ vs, vs.length < us.length → DerivesArguments table outermost vs) :
    DerivesArguments table outermost us := by
  intro callee location done outer enclosures next a h
  obtain ⟨ts, rest, e, ks, rfl, hts, -, hs, hn, hrest⟩ := hchain [] _ next a h
  rw [threshold_cons, takesToken_zero] at hn
  rw [table.completeAll_load] at hrest
  cases rest with
  | nil =>
    have hrest : endChain _ _ next = _ := hrest
    simp only [endChain] at hrest
    split at hrest
    · simp at hrest
    · split at hrest <;> simp at hrest
  | cons c rest =>
    obtain ⟨s, hshift, hrest⟩ := hrest
    simp only [endChain] at hshift
    split at hshift
    · next hc =>
      obtain rfl := Step.shift.inj hshift
      exact ⟨ts ++ [c], rest, _, by simp, .last hts hc hn, hrest⟩
    · split at hshift
      · next hc =>
        obtain rfl := Step.shift.inj hshift
        have hlt : rest.length < (ts ++ c :: rest).length := by
          rw [List.length_append, List.length_cons]
          omega
        obtain ⟨vs, rest, args, rfl, hvs, hrest⟩ := hargs rest hlt callee location _ outer
          enclosures next a hrest
        refine ⟨ts ++ c :: vs, rest, _, by simp, .more hts hc hn hvs, ?_⟩
        rw [List.append_assoc] at hrest
        exact hrest
      · simp at hshift

theorem derives (hleast : ∀ n, outermost = some n → 0 ≤ n) (us : List Token) :
    DerivesChain table outermost us ∧ DerivesArguments table outermost us := by
  -- On the number of tokens: what stands in brackets or behind an operator has fewer of them. The
  -- stacks have to stay general, since the inner chains are read with other ones.
  induction h : us.length using Nat.strongRecOn generalizing us with
  | ind n ih =>
    have hchains : ∀ vs : List Token, vs.length < us.length → DerivesChain table outermost vs :=
      fun vs hlt => (ih vs.length (h ▸ hlt) vs rfl).1
    have hargs : ∀ vs : List Token, vs.length < us.length → DerivesArguments table outermost vs :=
      fun vs hlt => (ih vs.length (h ▸ hlt) vs rfl).2
    have hchain := derivesChain hleast (derivesOperand hchains hargs) hchains
    exact ⟨hchain, derivesArguments hchain hargs⟩

/-! ## Whole expressions -/

/-- A parse from the start is done exactly in front of the token at which an expression
stops. -/
theorem ends_start_iff {ts : List Token} {next : Token} {e : Node} :
    Ends (step table (some 0)) (step table (some 0) .start) ts next e ↔
      Expression table ts e ∧ Stops table ts next := by
  constructor
  · intro h
    obtain ⟨us, rest, f, ks, rfl, hus, -, hs, hn, hrest⟩ :=
      (derives (fun n hn => Int.le_of_eq (Option.some.inj hn)) ts).1 [] [] next e h
    rw [table.completeAll_load] at hrest
    cases rest with
    | nil =>
      rw [List.append_nil]
      obtain rfl := Step.done.inj hrest
      exact ⟨⟨f, ks, hus, rfl⟩, (takesToken_zero table next).symm.trans hn, hs⟩
    | cons c rest =>
      obtain ⟨s, hs, -⟩ := hrest
      simp [endChain] at hs
  · rintro ⟨⟨f, ks, h, rfl⟩, hn, hs⟩
    have hk : ∀ k ∈ ks, takes table (threshold (some 0) []) k.op = true :=
      fun k hk => (takes_zero table _).mpr (h.precedence_pos k hk)
    have htakes : takesToken table (threshold (some 0) []) next = false :=
      (takesToken_zero table next).trans hn
    obtain ⟨x, hx, hsettled⟩ := Chain.shifts h [] [] hk
    have hdone := (step_settled hsettled hs (table.load [] f ks).1 []).trans
      (afterOperand_of_not_takes htakes)
    rw [table.completeAll_load] at hdone
    exact ends_iff.mpr ⟨_, hx, hdone⟩

end ExpressionState

end ExprFront
