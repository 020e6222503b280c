import ExprFront.Proofs.Grammar
import ExprFront.Proofs.Runs

/-!
# Reading what is derived

A parse that stands in front of an operand reads the tokens of any derived operand, chain or
argument list, under whatever waits around it. The operators of a chain go on the stack, and an
argument list completes its call.
-/

namespace ExprFront
set_option autoImplicit false

/-! ## Operators -/

theorem OperatorTable.precedence_pos_or (table : OperatorTable) (c : Char) :
    0 < table.precedence c ∨ table.precedence c = OperatorTable.notAnOperator := by
  unfold OperatorTable.precedence
  split
  · exact .inr rfl
  · split
    · split
      · next hn => exact .inl hn
      · exact .inr rfl
    · exact .inr rfl

theorem OperatorTable.precedence_nonneg_iff (table : OperatorTable) (c : Char) :
    0 ≤ table.precedence c ↔ 0 < table.precedence c := by
  rcases table.precedence_pos_or c with h | h
  · omega
  · rw [h]
    decide

theorem Token.isOperator_of_isEnd (table : OperatorTable) {t : Token} (h : t.isEnd = true) :
    t.isOperator table = false := by
  rw [isOperator, lexeme_of_isEnd h]

/-- Every expression stops in front of the end of the input. -/
theorem Grammar.stops_of_isEnd {table : OperatorTable} {t : Token} (h : t.isEnd = true)
    (ts : List Token) : Stops table ts t := by
  refine ⟨Token.isOperator_of_isEnd table h, ?_⟩
  intro _ hopen
  rw [Token.lexeme_of_isEnd h] at hopen
  exact Lexeme.noConfusion hopen

namespace ExpressionState

/-- Whether a chain with a given threshold takes a token as an operator. -/
def takesToken (table : OperatorTable) (least : Option Int) (t : Token) : Bool :=
  match t.lexeme with
  | .char c => takes table least c
  | _ => false

theorem takes_zero (table : OperatorTable) (c : Char) :
    takes table (some 0) c = true ↔ 0 < table.precedence c := by
  rw [takes, decide_eq_true_eq, table.precedence_nonneg_iff]

theorem takesToken_zero (table : OperatorTable) (t : Token) :
    takesToken table (some 0) t = t.isOperator table := by
  unfold takesToken Token.isOperator
  cases t.lexeme with
  | char c => exact decide_eq_decide.mpr (table.precedence_nonneg_iff c)
  | _ => rfl

theorem afterOperand_of_takes {table : OperatorTable} {outermost : Option Int} {e : Node}
    {chain : List Waiting} {enclosures : List Enclosure} {t : Token} {c : Char}
    (ht : t.lexeme = .char c) (h : takes table (threshold outermost enclosures) c = true) :
    afterOperand table outermost e chain enclosures t =
      .shift ⟨.operand, table.push chain e c t.location, enclosures⟩ := by
  simp only [afterOperand, ht, h, if_true]

theorem afterOperand_of_not_takes {table : OperatorTable} {outermost : Option Int} {e : Node}
    {chain : List Waiting} {enclosures : List Enclosure} {t : Token}
    (h : takesToken table (threshold outermost enclosures) t = false) :
    afterOperand table outermost e chain enclosures t =
      endChain (completeAll chain e) enclosures t := by
  unfold takesToken at h
  unfold afterOperand
  split
  · next c hc =>
    rw [hc] at h
    have h : takes table (threshold outermost enclosures) c = false := h
    rw [h]
    rfl
  · rfl

/-! ## After an operand -/

open Grammar

/-- The parse has read the tokens of an operand with the tree `e`. A bare name may still become
a call. -/
inductive Settled (ts : List Token) (e : Node) : Expected → Prop
  | operator (h : ¬ EndsInName ts) : Settled ts e (.operator e)
  | bareName {name : String} {location : Location} (h : EndsInName ts)
      (he : e = .variable name (some location)) : Settled ts e (.callOrVariable name location)

theorem Settled.congr {ts us : List Token} {e : Node} {x : Expected} (h : Settled ts e x)
    (hiff : EndsInName ts ↔ EndsInName us) : Settled us e x := by
  cases h with
  | operator h => exact .operator fun hu => h (hiff.mpr hu)
  | bareName h he => exact .bareName (hiff.mp h) he

variable {table : OperatorTable} {outermost : Option Int}

theorem step_settled {ts : List Token} {e : Node} {x : Expected} (h : Settled ts e x)
    {next : Token} (hn : NoCall ts next) (chain : List Waiting) (enclosures : List Enclosure) :
    step table outermost ⟨x, chain, enclosures⟩ next =
      afterOperand table outermost e chain enclosures next := by
  cases h with
  | operator => rfl
  | bareName h he =>
    rw [he]
    exact if_neg (hn h)

/-! ## In front of an operand -/

theorem beforeOperand_name {t : Token} {name : String} (ht : t.lexeme = .name name)
    (chain : List Waiting) (enclosures : List Enclosure) :
    beforeOperand chain enclosures t =
      .shift ⟨.callOrVariable name t.location, chain, enclosures⟩ := by
  simp only [beforeOperand, ht]

theorem beforeOperand_number {t : Token} {value : Binary64} (ht : t.lexeme = .number value)
    (chain : List Waiting) (enclosures : List Enclosure) :
    beforeOperand chain enclosures t =
      .shift ⟨.operator (.number value (some t.location)), chain, enclosures⟩ := by
  simp only [beforeOperand, ht]

theorem beforeOperand_group {t : Token} (ht : t.lexeme = .char '(') (chain : List Waiting)
    (enclosures : List Enclosure) :
    beforeOperand chain enclosures t = .shift ⟨.operand, [], ⟨.group, chain⟩ :: enclosures⟩ := by
  simp only [beforeOperand, ht]

theorem callOrVariable_opens {o : Token} (ho : o.lexeme = .char '(') (name : String)
    (location : Location) (chain : List Waiting) (enclosures : List Enclosure) :
    step table outermost ⟨.callOrVariable name location, chain, enclosures⟩ o =
      .shift ⟨.firstArgument, [], ⟨.arguments name location [], chain⟩ :: enclosures⟩ :=
  if_pos ho

/-- An argument list that is not closed at once starts like an operand. -/
theorem firstArgument_of_opens {t : Token} (ht : OpensOperand t) (enclosures : List Enclosure) :
    firstArgument enclosures t = beforeOperand [] enclosures t := by
  have hne : t.lexeme ≠ .char ')' := by
    rcases ht with ⟨name, h⟩ | ⟨value, h⟩ | h <;> simp [h]
  unfold firstArgument
  split
  · rw [if_neg hne]
  · rfl

/-! ## At the end of a chain -/

theorem endChain_group {c : Token} (hc : c.lexeme = .char ')') (e : Node)
    (outer : List Waiting) (rest : List Enclosure) :
    endChain e (⟨.group, outer⟩ :: rest) c = .shift ⟨.operator e, outer, rest⟩ :=
  if_pos hc

theorem endChain_last {c : Token} (hc : c.lexeme = .char ')') (e : Node) (callee : String)
    (location : Location) (args : List Node) (outer : List Waiting) (rest : List Enclosure) :
    endChain e (⟨.arguments callee location args, outer⟩ :: rest) c =
      .shift ⟨.operator (.call callee (args ++ [e]) (some location)), outer, rest⟩ :=
  if_pos hc

theorem endChain_more {c : Token} (hc : c.lexeme = .char ',') (e : Node) (callee : String)
    (location : Location) (args : List Node) (outer : List Waiting) (rest : List Enclosure) :
    endChain e (⟨.arguments callee location args, outer⟩ :: rest) c =
      .shift ⟨.operand, [], ⟨.arguments callee location (args ++ [e]), outer⟩ :: rest⟩ := by
  have hne : c.lexeme ≠ .char ')' := by simp [hc]
  rw [endChain, if_neg hne, if_pos hc]

/-! ## Reading derivations -/

/-- A chain in brackets is taken up to the token that ends it, which then meets the bracket. -/
theorem step_endChain {ts : List Token} {f : Node} {ks : List Link} {x : Expected} {c : Token}
    (h : Settled ts (table.load [] f ks).2 x) (hc : c.isOperator table = false) (hs : NoCall ts c)
    (outermost : Option Int) (b : Enclosure) (rest : List Enclosure) :
    step table outermost ⟨x, (table.load [] f ks).1, b :: rest⟩ c =
      endChain (table.tree f ks) (b :: rest) c := by
  have htakes : takesToken table (threshold outermost (b :: rest)) c = false :=
    (takesToken_zero table c).trans hc
  rw [step_settled h hs, afterOperand_of_not_takes htakes, table.completeAll_load]

mutual

theorem Operand.shifts {ts : List Token} {e : Node} :
    Operand table ts e → ∀ (chain : List Waiting) (enclosures : List Enclosure),
      ∃ x, Shifts (step table outermost) ⟨.operand, chain, enclosures⟩ ts ⟨x, chain, enclosures⟩ ∧
        Settled ts e x
  | .number ht, chain, enclosures => by
    refine ⟨_, .single (beforeOperand_number ht chain enclosures), .operator ?_⟩
    rw [endsInName_singleton, ht]
    simp
  | .bareName ht, chain, enclosures => by
    refine ⟨_, .single (beforeOperand_name ht chain enclosures), .bareName ?_ rfl⟩
    exact (endsInName_singleton _).mpr ⟨_, ht⟩
  | @Operand.emptyCall _ t o c name ht ho hc, chain, enclosures => by
    refine ⟨_, ?_, .operator (not_endsInName_concat hc [t, o])⟩
    exact .cons (beforeOperand_name ht chain enclosures)
      (.cons (callOrVariable_opens ho name t.location chain enclosures) (.single (if_pos hc)))
  | @Operand.call _ t o name us args ht ho hargs, chain, enclosures => by
    have hs := ArgumentList.shifts hargs name t.location [] chain enclosures
    obtain ⟨u, us, rfl, hu⟩ := hargs.opens
    obtain ⟨r, hr, hs⟩ := hs
    have hend : ¬ EndsInName (t :: o :: u :: us) := fun h =>
      hargs.not_endsInName ((endsInName_append_cons [t, o] u us).mp h)
    refine ⟨_, ?_, .operator hend⟩
    exact .cons (beforeOperand_name ht chain enclosures)
      (.cons (callOrVariable_opens ho name t.location chain enclosures)
        (.cons ((firstArgument_of_opens hu _).trans hr) hs))
  | @Operand.group _ o c us f ks ho h hc hn, chain, enclosures => by
    have hk := fun k hk => (takes_zero table _).mpr (h.precedence_pos k hk)
    obtain ⟨x, hs, hx⟩ := Chain.shifts h [] (⟨.group, chain⟩ :: enclosures) hk
    have hend := step_endChain hx hn (fun _ => by simp [hc]) outermost ⟨.group, chain⟩ enclosures
    refine ⟨_, ?_, .operator (not_endsInName_concat hc (o :: us))⟩
    exact .cons (beforeOperand_group ho chain enclosures)
      (hs.trans (.single (hend.trans (endChain_group hc _ chain enclosures))))

theorem Chain.shifts {ts : List Token} {e : Node} {ks : List Link} :
    Chain table ts e ks → ∀ (chain : List Waiting) (enclosures : List Enclosure),
      (∀ k ∈ ks, takes table (threshold outermost enclosures) k.op = true) →
      ∃ x, Shifts (step table outermost) ⟨.operand, chain, enclosures⟩ ts
          ⟨x, (table.load chain e ks).1, enclosures⟩ ∧
        Settled ts (table.load chain e ks).2 x
  | .single h, chain, enclosures, _ => Operand.shifts h chain enclosures
  | @Chain.cons _ us vs o c e f ks h ho hp hs hr, chain, enclosures, hk => by
    -- The first operand goes on the stack with its operator, and the rest is read above it.
    obtain ⟨hk, hks⟩ := List.forall_mem_cons.mp hk
    obtain ⟨x, hx, hsettled⟩ := Operand.shifts h chain enclosures
    obtain ⟨y, hy, hend⟩ := Chain.shifts hr (table.push chain e c o.location) enclosures hks
    have hstep := (step_settled hsettled hs chain enclosures).trans (afterOperand_of_takes ho hk)
    obtain ⟨v, vs, rfl, -⟩ := hr.opens
    refine ⟨y, hx.trans (.cons hstep hy), hend.congr ?_⟩
    rw [endsInName_append_cons]
    exact (endsInName_append_cons [o] v vs).symm

theorem ArgumentList.shifts {ts : List Token} {args : List Node} :
    ArgumentList table ts args → ∀ (callee : String) (location : Location) (done : List Node)
      (outer : List Waiting) (rest : List Enclosure),
      Shifts (step table outermost)
        ⟨.operand, [], ⟨.arguments callee location done, outer⟩ :: rest⟩ ts
        ⟨.operator (.call callee (done ++ args) (some location)), outer, rest⟩
  | .last h hc hn, callee, location, done, outer, rest => by
    have hk := fun k hk => (takes_zero table _).mpr (h.precedence_pos k hk)
    obtain ⟨x, hs, hx⟩ := Chain.shifts h [] (⟨.arguments callee location done, outer⟩ :: rest) hk
    have hend := step_endChain hx hn (fun _ => by simp [hc]) outermost
      ⟨.arguments callee location done, outer⟩ rest
    exact hs.trans (.single (hend.trans (endChain_last hc _ callee location done outer rest)))
  | @ArgumentList.more _ us vs c f ks args h hc hn hr, callee, location, done, outer, rest => by
    have hk := fun k hk => (takes_zero table _).mpr (h.precedence_pos k hk)
    obtain ⟨x, hs, hx⟩ := Chain.shifts h [] (⟨.arguments callee location done, outer⟩ :: rest) hk
    have hend := step_endChain hx hn (fun _ => by simp [hc]) outermost
      ⟨.arguments callee location done, outer⟩ rest
    have hmore := hend.trans (endChain_more hc _ callee location done outer rest)
    have hrest := ArgumentList.shifts hr callee location (done ++ [table.tree f ks]) outer rest
    rw [List.append_assoc, List.singleton_append] at hrest
    exact hs.trans (.cons hmore hrest)

end

end ExpressionState

end ExprFront
