import ExprFront.Proofs.Attempts
import ExprFront.Proofs.WaitingOperators

/-!
# Precedence climbing

A chain can be read without a stack, by a loop that folds operators onto its left operand and, where
a tighter one follows, lets a loop of its own with a higher threshold take the right operand first.
This loop ends from everywhere, and it comes to what the parse with a stack comes to.
-/

namespace ExprFront
set_option autoImplicit false
open Grammar

/-! ## Tokens as operators -/

namespace Token

/-- The precedence of a token, which is that of no operator unless it is a character. -/
def precedence (table : OperatorTable) (t : Token) : Int :=
  match t.lexeme with
  | .char c => table.precedence c
  | _ => OperatorTable.notAnOperator

/-- The operation of a token. One that is no character leaves it without an operator. -/
def operation (t : Token) (lhs rhs : Node) : Node :=
  .binary (t.lexeme.char?.map String.singleton) lhs rhs (some t.location)

variable {table : OperatorTable} {t : Token}

theorem precedence_of_char {c : Char} (h : t.lexeme = .char c) :
    t.precedence table = table.precedence c := by rw [precedence, h]

theorem operation_of_char {c : Char} (h : t.lexeme = .char c) (lhs rhs : Node) :
    t.operation lhs rhs = (Waiting.mk lhs c t.location).complete rhs := by
  rw [operation, h]
  rfl

theorem notAnOperator_le_precedence (table : OperatorTable) (t : Token) :
    OperatorTable.notAnOperator ≤ t.precedence table := by
  unfold precedence
  split
  · next c hc =>
    rcases table.precedence_pos_or c with h | h
    · rw [OperatorTable.notAnOperator]
      omega
    · exact Int.le_of_eq h.symm
  · exact Int.le_refl _

theorem exists_char_of_precedence (h : 0 ≤ t.precedence table) : ∃ c, t.lexeme = .char c := by
  unfold precedence at h
  split at h
  · next c hc => exact ⟨c, hc⟩
  · exact absurd h (by decide)

end Token

/-! ## The loop -/

/-- Precedence climbing from the operand `lhs`, in front of the current token. Operators of at least
the given precedence are folded onto the operand, and where a tighter one follows, the loop for
operators tighter than the first takes the right operand before that. It comes to an operand, or to
a refusal of the token at which it stops. -/
inductive Climbs (table : OperatorTable) :
    Int → Node → Lookahead → Except Refusal Node → Lookahead → Prop
  | stop {least : Int} {lhs : Node} {l : Lookahead} (h : l.token.precedence table < least) :
      Climbs table least lhs l (.ok lhs) l
  | refused {least : Int} {lhs : Node} {l m : Lookahead} {cause : Refusal}
      (h : least ≤ l.token.precedence table)
      (ho : l.advance.run (ExpressionState.step table none) .start = (.error cause, m)) :
      Climbs table least lhs l (.error cause) m
  | fold {least : Int} {lhs rhs : Node} {l m n : Lookahead} {r : Except Refusal Node}
      (h : least ≤ l.token.precedence table)
      (ho : l.advance.run (ExpressionState.step table none) .start = (.ok rhs, m))
      (hm : m.token.precedence table ≤ l.token.precedence table)
      (hr : Climbs table least (l.token.operation lhs rhs) m r n) : Climbs table least lhs l r n
  | raise {least : Int} {lhs rhs tight : Node} {l m k n : Lookahead} {r : Except Refusal Node}
      (h : least ≤ l.token.precedence table)
      (ho : l.advance.run (ExpressionState.step table none) .start = (.ok rhs, m))
      (hm : l.token.precedence table < m.token.precedence table)
      (ht : Climbs table (l.token.precedence table + 1) rhs m (.ok tight) k)
      (hr : Climbs table least (l.token.operation lhs tight) k r n) : Climbs table least lhs l r n
  | raiseRefused {least : Int} {lhs rhs : Node} {l m n : Lookahead} {cause : Refusal}
      (h : least ≤ l.token.precedence table)
      (ho : l.advance.run (ExpressionState.step table none) .start = (.ok rhs, m))
      (hm : l.token.precedence table < m.token.precedence table)
      (ht : Climbs table (l.token.precedence table + 1) rhs m (.error cause) n) :
      Climbs table least lhs l (.error cause) n

section Loop
variable {table : OperatorTable}

/-- The loop hands over in front of a token that it does not take. -/
theorem Climbs.precedence_lt {least : Int} {lhs e : Node} {l m : Lookahead}
    (h : Climbs table least lhs l (.ok e) m) : m.token.precedence table < least := by
  generalize hr : Except.ok e = r at h
  induction h with
  | stop h => exact h
  | refused => simp at hr
  | fold h ho hm hr' ih => exact ih hr
  | raise h ho hm ht hr' iht ih => exact ih hr
  | raiseRefused => simp at hr

/-- With a negative threshold every token is taken, so that the loop only ends in a refusal. -/
theorem Climbs.eq_error {least : Int} {lhs : Node} {r : Except Refusal Node} {l m : Lookahead}
    (h : Climbs table least lhs l r m) (hleast : least < 0) : ∃ cause, r = .error cause := by
  cases r with
  | error cause => exact ⟨cause, rfl⟩
  | ok e =>
    have hlt := h.precedence_lt
    have hle := Token.notAnOperator_le_precedence table m.token
    rw [OperatorTable.notAnOperator] at hle
    omega

/-- The loop ends, since every operand is at least one token and the end of the input is none. -/
theorem exists_climbs (table : OperatorTable) (least : Int) (lhs : Node) (l : Lookahead) :
    ∃ r m, Climbs table least lhs l r m ∧ m.remaining ≤ l.remaining := by
  induction hn : l.remaining using Nat.strongRecOn generalizing least lhs l with
  | ind n ih =>
    by_cases h : l.token.precedence table < least
    · exact ⟨_, l, .stop h, Nat.le_of_eq hn⟩
    have h : least ≤ l.token.precedence table := Int.not_lt.mp h
    have hadvance : l.advance.remaining ≤ n := by
      have := l.advance_remaining_le
      have : l.scanner.remaining ≤ l.remaining := Nat.le_add_right _ _
      omega
    have hrun := Lookahead.run_remaining_lt (ExpressionState.step table none) l.advance .start
      (ExpressionState.step_start_ne_done table none)
    have hle := Lookahead.run_eq_or_remaining_lt (ExpressionState.step table none) l.advance .start
    cases ho : l.advance.run (ExpressionState.step table none) .start with
    | mk r m =>
      rw [ho] at hrun hle
      cases r with
      | error cause =>
        have hm : m.remaining ≤ l.advance.remaining := by
          rcases hle with hm | hm
          · exact Nat.le_of_eq (congrArg Lookahead.remaining hm)
          · exact Nat.le_of_lt hm
        exact ⟨_, m, .refused h ho, Nat.le_trans hm hadvance⟩
      | ok rhs =>
        have hm : m.remaining < n := Nat.lt_of_lt_of_le (hrun rhs rfl) hadvance
        by_cases hp : m.token.precedence table ≤ l.token.precedence table
        · obtain ⟨r, k, hclimbs, hk⟩ := ih _ hm least (l.token.operation lhs rhs) m rfl
          exact ⟨r, k, .fold h ho hp hclimbs, by omega⟩
        have hp : l.token.precedence table < m.token.precedence table := Int.not_le.mp hp
        obtain ⟨r, k, htight, hk⟩ := ih _ hm (l.token.precedence table + 1) rhs m rfl
        cases r with
        | error cause => exact ⟨_, k, .raiseRefused h ho hp htight, by omega⟩
        | ok tight =>
          obtain ⟨r, j, hclimbs, hj⟩ :=
            ih k.remaining (by omega) least (l.token.operation lhs tight) k rfl
          exact ⟨r, j, .raise h ho hp htight hclimbs, by omega⟩

end Loop

/-! ## The stack in place of the loops -/

theorem OperatorTable.push_of_lt {table : OperatorTable} {ws : List Waiting} {c : Char}
    (h : ∀ w ∈ ws, table.precedence w.op < table.precedence c) (e : Node) (location : Location) :
    table.push ws e c location = ⟨e, c, location⟩ :: ws := by
  cases ws with
  | nil => rfl
  | cons w ws =>
    have hw : ¬ table.precedence c ≤ table.precedence w.op := by
      have := h w List.mem_cons_self
      omega
    simp only [push, reduce, if_neg hw]

namespace ExpressionState
variable {table : OperatorTable} {n : Int} {ws : List Waiting} {l m : Lookahead}

theorem takesToken_eq_false_iff (hn : 0 ≤ n) (t : Token) :
    takesToken table (some n) t = false ↔ t.precedence table < n := by
  unfold takesToken Token.precedence
  cases t.lexeme with
  | char c => exact decide_eq_false_iff_not.trans Int.not_le
  | _ =>
    simp only [OperatorTable.notAnOperator, true_iff]
    omega

theorem step_operator_of_takes {t : Token} {c : Char} (ht : t.lexeme = .char c)
    (h : takes table (some n) c = true) (e : Node) (ws : List Waiting) :
    step table (some n) ⟨.operator e, ws, []⟩ t =
      .shift ⟨.operand, table.push ws e c t.location, []⟩ :=
  afterOperand_of_takes ht h

theorem step_operator_of_not_takes {t : Token} (h : takesToken table (some n) t = false)
    (e : Node) (ws : List Waiting) :
    step table (some n) ⟨.operator e, ws, []⟩ t = .done (completeAll ws e) :=
  afterOperand_of_not_takes h

/-- In front of a token that is not taken, the operand is the right one of all that wait. -/
theorem resume_of_lt (hn : 0 ≤ n) (h : l.token.precedence table < n) (e : Node) :
    resume table (some n) ws (.ok e, l) = (.ok (completeAll ws e), l) := by
  have htakes := (takesToken_eq_false_iff hn l.token).mpr h
  exact Lookahead.run_of_done (step_operator_of_not_takes htakes e ws)

/-- In front of an operator that binds tighter than all that wait, that one waits above them while
the next operand is read. -/
theorem resume_of_le (hn : 0 ≤ n) (h : n ≤ l.token.precedence table)
    (hws : ∀ w ∈ ws, table.precedence w.op < l.token.precedence table) (e : Node) :
    ∃ w : Waiting, table.precedence w.op = l.token.precedence table ∧
      (∀ v ∈ w :: ws, table.precedence v.op < l.token.precedence table + 1) ∧
      w.complete = l.token.operation e ∧
      resume table (some n) ws (.ok e, l) =
        resume table (some n) (w :: ws) (l.advance.run (step table none) .start) := by
  obtain ⟨c, hc⟩ := Token.exists_char_of_precedence (Int.le_trans hn h)
  have hp : l.token.precedence table = table.precedence c := Token.precedence_of_char hc
  rw [hp] at h hws
  have hend : l.token.isEnd = false := by simp [Token.isEnd, hc]
  have hstep : step table (some n) ⟨.operator e, ws, []⟩ l.token =
      .shift ⟨.operand, ⟨e, c, l.token.location⟩ :: ws, []⟩ := by
    rw [← OperatorTable.push_of_lt hws]
    exact step_operator_of_takes hc (decide_eq_true h) e ws
  refine ⟨⟨e, c, l.token.location⟩, hp.symm,
    List.forall_mem_cons.mpr ⟨hp ▸ Int.lt_succ _, ?_⟩, ?_, ?_⟩
  · intro v hv
    have := hws v hv
    omega
  · funext rhs
    exact (Token.operation_of_char hc e rhs).symm
  · rw [resume, Lookahead.run_of_shift hstep hend]
    exact run_lifts (start_lifts _)

/-- In front of a token that binds no tighter, a waiting operator is as good as complete. -/
theorem resume_fold {w : Waiting} (h : m.token.precedence table ≤ table.precedence w.op)
    (rhs : Node) :
    resume table (some n) (w :: ws) (.ok rhs, m) =
      resume table (some n) ws (.ok (w.complete rhs), m) := by
  apply run_congr_step
  cases htakes : takesToken table (some n) m.token with
  | true =>
    obtain ⟨c, hc, htakes⟩ := takesToken_eq_true htakes
    rw [Token.precedence_of_char hc] at h
    have hpush : table.push (w :: ws) rhs c m.token.location =
        table.push ws (w.complete rhs) c m.token.location := by
      simp only [OperatorTable.push, OperatorTable.reduce, if_pos h]
    rw [step_operator_of_takes hc htakes, step_operator_of_takes hc htakes, hpush]
  | false =>
    rw [step_operator_of_not_takes htakes, step_operator_of_not_takes htakes]
    rfl

end ExpressionState

open ExpressionState in
/-- A loop is a part of the run with a stack: above operators that bind looser than all it takes,
the run goes through the loop and on from what the loop comes to. -/
theorem Climbs.resume_eq {table : OperatorTable} {least : Int} {lhs : Node} {l m : Lookahead}
    {r : Except Refusal Node} (h : Climbs table least lhs l r m) {n : Int} (hn : 0 ≤ n)
    (hle : n ≤ least) {ws : List Waiting} (hws : ∀ w ∈ ws, table.precedence w.op < least) :
    resume table (some n) ws (.ok lhs, l) = resume table (some n) ws (r, m) := by
  -- The stack is general, since an inner loop runs above the operator that called for it.
  induction h generalizing ws with
  | stop => rfl
  | @refused least lhs l m cause h ho =>
    obtain ⟨w, -, -, -, hrun⟩ := resume_of_le hn (Int.le_trans hle h)
      (fun w hw => Int.lt_of_lt_of_le (hws w hw) h) lhs
    rw [hrun, ho]
    rfl
  | @fold least lhs rhs l m k r h ho hm hr ih =>
    obtain ⟨w, hp, -, hcomplete, hrun⟩ := resume_of_le hn (Int.le_trans hle h)
      (fun w hw => Int.lt_of_lt_of_le (hws w hw) h) lhs
    rw [hrun, ho, resume_fold (hp ▸ hm), hcomplete, ih hle hws]
  | @raise least lhs rhs tight l m j k r h ho hm ht hr iht ih =>
    obtain ⟨w, hp, hall, hcomplete, hrun⟩ := resume_of_le hn (Int.le_trans hle h)
      (fun w hw => Int.lt_of_lt_of_le (hws w hw) h) lhs
    -- The inner loop hands over in front of a token that binds no tighter than the operator.
    have hj : j.token.precedence table ≤ table.precedence w.op := by
      have := ht.precedence_lt
      omega
    rw [hrun, ho, iht (by omega) hall, resume_fold hj, hcomplete, ih hle hws]
  | @raiseRefused least lhs rhs l m k cause h ho hm ht iht =>
    obtain ⟨w, -, hall, -, hrun⟩ := resume_of_le hn (Int.le_trans hle h)
      (fun w hw => Int.lt_of_lt_of_le (hws w hw) h) lhs
    rw [hrun, ho, iht (by omega) hall]
    rfl

/-! ## The links of a chain -/

namespace Grammar

/-- The tokens of the operators and operands that follow the first operand of a chain, and its
links. -/
inductive Links (table : OperatorTable) : List Token → List Link → Prop
  | none : Links table [] []
  | some {o : Token} {c : Char} {ts : List Token} {e : Node} {ks : List Link}
      (ho : o.lexeme = .char c) (hp : 0 < table.precedence c) (h : Chain table ts e ks) :
      Links table (o :: ts) (⟨c, o.location, e⟩ :: ks)

/-- Links of operators that have at least the given precedence. -/
structure LinksFrom (table : OperatorTable) (least : Int) (ts : List Token) (ks : List Link) :
    Prop where
  links : Links table ts ks
  least_le : ∀ k ∈ ks, least ≤ table.precedence k.op

/-- From the lookahead on, no more tokens than these are links of at least the given precedence. -/
structure LongestLinks (table : OperatorTable) (least : Int) (l : Lookahead) (ts : List Token)
    (ks : List Link) : Prop where
  linksFrom : LinksFrom table least ts ks
  longest : ∀ us js, LinksFrom table least us js → us <+: l.upcoming → us.length ≤ ts.length

/-- The first node stands at the left edge of the second. -/
inductive LeftEdge (e : Node) : Node → Prop
  | self : LeftEdge e e
  | binary {lhs : Node} (h : LeftEdge e lhs) (op : Option String) (rhs : Node)
      (location : Option Location) : LeftEdge e (.binary op lhs rhs location)

theorem leftEdge_tree (table : OperatorTable) (e : Node) (ks : List Link) :
    LeftEdge e (table.tree e ks) := by
  fun_induction table.tree e ks with
  | case1 => exact .self
  | case2 e ks before k after h ihb iha => exact ihb.binary _ _ _

end Grammar

/-- A parse that is done in front of a token does not read it. -/
theorem Ends.not_shifts {σ α : Type} {step : σ → Token → Step σ α} {s s' : σ} {ts us : List Token}
    {next : Token} {a : α} (h : Ends step (step s) ts next a) :
    ¬ Shifts step s (ts ++ next :: us) s' := by
  induction ts generalizing s with
  | nil =>
    rintro ⟨r, hr, -⟩
    have h : step s next = .done a := h
    simp [h] at hr
  | cons t ts ih =>
    rintro ⟨r, hr, hs⟩
    obtain ⟨q, hq, h⟩ := h
    rw [hq] at hr
    obtain rfl := Step.shift.inj hr
    exact ih h hs

namespace ExpressionState
variable {table : OperatorTable} {least : Int} {lhs : Node}

theorem shifts_of_linksFrom {ts : List Token} {ks : List Link} (h : LinksFrom table least ts ks)
    (lhs : Node) : ∃ s, Shifts (step table (some least)) (.after lhs) ts s := by
  obtain ⟨hlinks, hleast⟩ := h
  cases hlinks with
  | none => exact ⟨_, .refl _⟩
  | @some o c us e js ho hp hchain =>
    obtain ⟨hc, hjs⟩ := List.forall_mem_cons.mp hleast
    have htakes : ∀ k ∈ js, takes table (threshold (some least) []) k.op = true :=
      fun k hk => decide_eq_true (hjs k hk)
    obtain ⟨x, hx, -⟩ := Chain.shifts hchain (table.push [] lhs c o.location) [] htakes
    exact ⟨_, .cons (step_operator_of_takes ho (decide_eq_true hc) lhs []) hx⟩

/-- A chain that goes on behind an operand is done in front of a token that it does not take, and
has read links whose operators it takes. -/
theorem linksFrom_of_ends (hleast : 0 ≤ least) {ts : List Token} {next : Token} {e : Node}
    (h : Ends (step table (some least)) (step table (some least) (.after lhs)) ts next e) :
    ∃ ks, LinksFrom table least ts ks ∧ next.precedence table < least ∧ e = table.tree lhs ks := by
  cases htakes : takesToken table (some least) (ts.headD next) with
  | false =>
    have hdone := step_operator_of_not_takes htakes lhs []
    cases ts with
    | nil =>
      refine ⟨[], ⟨.none, by simp⟩, (takesToken_eq_false_iff hleast next).mp htakes, ?_⟩
      rw [table.tree_nil]
      exact Step.done.inj (h.symm.trans hdone)
    | cons t ts =>
      obtain ⟨s, hs, -⟩ := h
      exact absurd (hs.symm.trans hdone) (by simp)
  | true =>
    obtain ⟨c, ho, hc⟩ := takesToken_eq_true htakes
    have hstep := step_operator_of_takes ho hc lhs []
    cases ts with
    | nil => exact absurd (h.symm.trans hstep) (by simp)
    | cons o ts =>
      obtain ⟨s, hs, h⟩ := h
      obtain rfl := Step.shift.inj (hs.symm.trans hstep)
      have hbound : ∀ n, some least = some n → 0 ≤ n := fun n hn => Option.some.inj hn ▸ hleast
      obtain ⟨us, rest, f, ks, rfl, hchain, hks, -, hn, hrest⟩ :=
        (derives hbound ts).1 _ [] next e h
      cases rest with
      | nil =>
        rw [List.append_nil]
        have hlt := (takesToken_eq_false_iff hleast next).mp hn
        have hpos : 0 < table.precedence c := by
          have hc : least ≤ table.precedence c := of_decide_eq_true hc
          rw [← table.precedence_nonneg_iff]
          exact Int.le_trans hleast hc
        refine ⟨⟨c, o.location, f⟩ :: ks, ⟨.some ho hpos hchain, ?_⟩, hlt, ?_⟩
        · exact List.forall_mem_cons.mpr
            ⟨of_decide_eq_true hc, fun k hk => of_decide_eq_true (hks k hk)⟩
        · rw [← table.completeAll_load]
          exact (Step.done.inj hrest).symm
      | cons t rest =>
        obtain ⟨s, hs, -⟩ := hrest
        simp [endChain] at hs

/-- No other links from there on are longer than those that the chain has read. -/
theorem longestLinks_of_ends (hleast : 0 ≤ least) {l m : Lookahead} {ts : List Token} {e : Node}
    (hr : l.Reads ts m)
    (h : Ends (step table (some least)) (step table (some least) (.after lhs)) ts m.token e) :
    ∃ ks, LongestLinks table least l ts ks ∧ m.token.precedence table < least ∧
      e = table.tree lhs ks := by
  obtain ⟨ks, hks, hlt, he⟩ := linksFrom_of_ends hleast h
  refine ⟨ks, ⟨hks, ?_⟩, hlt, he⟩
  intro us js hjs hprefix
  refine Nat.le_of_not_lt fun hlonger => ?_
  rw [hr.upcoming] at hprefix
  -- The longer links go on with the token in front of which the chain is done.
  obtain ⟨vs, rfl⟩ : ts <+: us :=
    List.prefix_of_prefix_length_le (List.prefix_append _ _) hprefix (by omega)
  obtain ⟨ws, hws⟩ := (List.prefix_append_right_inj ts).mp hprefix
  cases vs with
  | nil => simp at hlonger
  | cons v vs =>
    obtain rfl := Lookahead.token_of_upcoming_cons hws.symm
    obtain ⟨s, hs⟩ := shifts_of_linksFrom hjs lhs
    exact h.not_shifts hs

end ExpressionState

/-! ## Chains of a parser -/

namespace Parser
variable {p : Parser} {l m : Lookahead}

theorem moveTo_of_at (h : p.At l) : p.moveTo l = p := by
  obtain ⟨hcurrent, hscanner⟩ := h
  rw [moveTo, ← hcurrent, ← hscanner]

/-- How tokens and operands go on taking turns, unless an operand was refused. -/
def alternateAfter (p : Parser) : Except Refusal Node × Lookahead → Parser
  | (.ok _, m) => (p.moveTo m).alternate
  | (.error cause, m) => p.reported m cause

theorem alternate_moveTo (p : Parser) (l : Lookahead) :
    (p.moveTo l).alternate =
      p.alternateAfter (l.advance.run (ExpressionState.step p.table none) .start) := by
  have hoperand : (p.moveTo l).advance.operand =
      p.settle (l.advance.run (ExpressionState.step p.table none) .start) := by
    rw [advance_of_at (p.moveTo_at l), operand, attempt_of_at (moveTo_at _ _)]
    rfl
  rw [alternate, hoperand]
  rcases l.advance.run (ExpressionState.step p.table none) .start with ⟨_ | _, m⟩ <;> rfl

/-- While a loop runs, tokens and operands take turns, whatever its threshold. -/
theorem alternate_of_climbs {least : Int} {lhs : Node} {r : Except Refusal Node}
    (h : Climbs p.table least lhs l r m) : (p.moveTo l).alternate = p.alternateAfter (r, m) := by
  generalize htable : p.table = table at h
  induction h with
  | stop => rfl
  | refused h ho => rw [alternate_moveTo, htable, ho]
  | fold h ho hm hr ih =>
    rw [alternate_moveTo, htable, ho]
    exact ih
  | raise h ho hm ht hr iht ih =>
    rw [alternate_moveTo, htable, ho]
    exact iht.trans ih
  | raiseRefused h ho hm ht iht =>
    rw [alternate_moveTo, htable, ho]
    exact iht

theorem chain_of_at (h : p.At l) {least : Int} (hleast : 0 ≤ least) (lhs : Node) :
    p.chain least lhs =
      p.settle (l.run (ExpressionState.step p.table (some least)) (.after lhs)) := by
  rw [chain, h.1]
  simp only [hleast, if_true]
  exact attempt_of_at h _ _

/-- The chain comes to what the loop comes to. -/
theorem chain_of_climbs (h : p.At l) {least : Int} {lhs : Node} {r : Except Refusal Node}
    (hclimbs : Climbs p.table least lhs l r m) : p.chain least lhs = p.settle (r, m) := by
  by_cases hleast : 0 ≤ least
  · have hrun : l.run (ExpressionState.step p.table (some least)) (.after lhs) = (r, m) := by
      have hresume := hclimbs.resume_eq hleast (Int.le_refl _) (List.forall_mem_nil _)
      cases r with
      | error cause => exact hresume
      | ok e => exact hresume.trans (ExpressionState.resume_of_lt hleast hclimbs.precedence_lt e)
    rw [chain_of_at h hleast, hrun]
  · obtain ⟨cause, rfl⟩ := hclimbs.eq_error (Int.not_le.mp hleast)
    have halternate := alternate_of_climbs hclimbs
    rw [moveTo_of_at h] at halternate
    rw [chain, h.1]
    simp only [hleast, if_false, halternate]
    rfl

/-- A chain with a threshold for operators that yields a tree has read the longest links it could
take, and the tree is the one of the operand and these links. -/
theorem longestLinks_of_chain (h : p.At l) {least : Int} (hleast : 0 ≤ least) {lhs e : Node}
    {q : Parser} (hparsed : p.chain least lhs = (.parsed e, q)) :
    ∃ ts ks m, q = p.moveTo m ∧ l.Reads ts m ∧ LongestLinks p.table least l ts ks ∧
      m.token.precedence p.table < least ∧ e = p.table.tree lhs ks := by
  rw [chain_of_at h hleast] at hparsed
  cases hr : l.run (ExpressionState.step p.table (some least)) (.after lhs) with
  | mk r m =>
    rw [hr] at hparsed
    cases r with
    | error cause => simp [settle] at hparsed
    | ok f =>
      obtain ⟨rfl, rfl⟩ : f = e ∧ p.moveTo m = q := by simpa [settle] using hparsed
      obtain ⟨ts, hreads, hends⟩ := Lookahead.run_eq_ok_iff.mp hr
      obtain ⟨ks, hlinks, hlt, he⟩ := ExpressionState.longestLinks_of_ends hleast hreads hends
      exact ⟨ts, ks, m, rfl, hreads, hlinks, hlt, he⟩

/-- The parse of a chain is the loop of precedence climbing, which ends from everywhere. A tree that
it yields is that of the operand and of the longest links with operators of at least the given
precedence, exactly these are read, and the next token binds looser. With a negative threshold there
is no tree, and one refusal is reported. -/
theorem chain_climbs (h : p.At l) (least : Int) (lhs : Node) :
    (∃ r m, Climbs p.table least lhs l r m ∧ p.chain least lhs = p.settle (r, m)) ∧
      (0 ≤ least → ∀ e q, p.chain least lhs = (.parsed e, q) →
        ∃ ts ks m, q = p.moveTo m ∧ l.Reads ts m ∧ LongestLinks p.table least l ts ks ∧
          m.token.precedence p.table < least ∧ e = p.table.tree lhs ks ∧ LeftEdge lhs e) ∧
      (least < 0 → ∃ m cause, p.chain least lhs = (.refused, p.reported m cause)) := by
  obtain ⟨r, m, hclimbs, -⟩ := exists_climbs p.table least lhs l
  have hchain := chain_of_climbs h hclimbs
  refine ⟨⟨r, m, hclimbs, hchain⟩, ?_, ?_⟩
  · intro hleast e q hparsed
    obtain ⟨ts, ks, m, hq, hreads, hlinks, hlt, rfl⟩ := longestLinks_of_chain h hleast hparsed
    exact ⟨ts, ks, m, hq, hreads, hlinks, hlt, rfl, leftEdge_tree p.table lhs ks⟩
  · intro hleast
    obtain ⟨cause, rfl⟩ := hclimbs.eq_error hleast
    exact ⟨m, cause, hchain⟩

/-- Behind the first operand of `a+b*c<d`, a chain for operators as tight as a sum yields a tree and
leaves the comparison, and one with a negative threshold runs into the end. -/
theorem chain_climbs_from_sum :
    let primed :=
      (Parser.ofScanner (.ofSource "a+b*c<d".toList "") .default anonymousName none).advance
    let p := primed.advance
    let a := Node.variable "a" (some ⟨"", 1, 1⟩)
    (∃ e ts ks m, p.chain 20 a = (.parsed e, p.moveTo m) ∧
        LongestLinks p.table 20 (.ofScanner primed.scanner) ts ks ∧ e = p.table.tree a ks) ∧
      ∃ m cause, p.chain (-1) a = (.refused, p.reported m cause) := by
  intro primed p a
  have h := primed.advance_at
  have hok : ((Lookahead.ofScanner primed.scanner).run
      (ExpressionState.step p.table (some 20)) (.after a)).1.isOk = true := by decide +kernel
  have hchain := chain_of_at h (by decide : (0 : Int) ≤ 20) a
  cases hr : (Lookahead.ofScanner primed.scanner).run
      (ExpressionState.step p.table (some 20)) (.after a) with
  | mk r k =>
    rw [hr] at hok hchain
    cases r with
    | error cause => exact Bool.noConfusion hok
    | ok e =>
      obtain ⟨ts, ks, -, -, -, hlinks, -, htree, -⟩ :=
        (chain_climbs h 20 a).2.1 (by decide) e _ hchain
      exact ⟨⟨e, ts, ks, k, hchain, hlinks, htree⟩, (chain_climbs h (-1) a).2.2 (by decide)⟩

end Parser

end ExprFront
