import ExprFront.Proofs.Inert
import ExprFront.Proofs.TableOrder

/-!
# The order of the operators

How high the precedences are does not matter, only which characters are operators and which of them
bind tighter. With tables that agree on this, two parses of the same tokens go through the same
states and two sessions take the same turns.
-/

namespace ExprFront
set_option autoImplicit false

/-! ## What a parse knows -/

def Waiting.Known (T : OperatorTable) (cs : List Char) (w : Waiting) : Prop :=
  w.op ∈ cs ∧ 0 < T.precedence w.op

def Token.CharIn (cs : List Char) (t : Token) : Prop := ∀ c, t.lexeme = .char c → c ∈ cs

theorem Token.charIn_of_isEnd (cs : List Char) {t : Token} (h : t.isEnd = true) : t.CharIn cs := by
  intro c hc
  rw [lexeme_of_isEnd h] at hc
  cases hc

section Parses
variable {T U : OperatorTable} {cs : List Char}

namespace OperatorTable

theorem SameOrder.reduce_eq (h : T.SameOrder U cs) {c : Char} (hc : c ∈ cs)
    (hpos : 0 < T.precedence c) {ws : List Waiting} (hws : ∀ w ∈ ws, w.Known T cs) (e : Node) :
    U.reduce (U.precedence c) ws e = T.reduce (T.precedence c) ws e := by
  induction ws generalizing e with
  | nil => rfl
  | cons w ws ih =>
    obtain ⟨⟨hw, hwpos⟩, hws⟩ := List.forall_mem_cons.mp hws
    have hlt := h.lt_iff w.op hw c hc hwpos hpos
    -- The thresholds differ as numbers, but the same operators reach them.
    have hle : U.precedence c ≤ U.precedence w.op ↔ T.precedence c ≤ T.precedence w.op := by omega
    simp only [reduce, hle, ih hws]

theorem SameOrder.push_eq (h : T.SameOrder U cs) {c : Char} (hc : c ∈ cs)
    (hpos : 0 < T.precedence c) {ws : List Waiting} (hws : ∀ w ∈ ws, w.Known T cs) (e : Node)
    (location : Location) : U.push ws e c location = T.push ws e c location := by
  simp only [push, h.reduce_eq hc hpos hws]

theorem mem_push {ws : List Waiting} {e : Node} {c : Char} {location : Location} {w : Waiting}
    (h : w ∈ T.push ws e c location) : w.op = c ∨ w ∈ ws := by
  obtain rfl | h := List.mem_cons.mp h
  · exact .inl rfl
  · exact .inr ((T.reduce_suffix _ ws e).subset h)

end OperatorTable

/-! ## Parses -/

namespace ExpressionState

/-- All operators that wait, in the innermost chain and around the open brackets. -/
def waiting (s : ExpressionState) : List Waiting :=
  s.chain ++ s.enclosures.flatMap Enclosure.outer

theorem waiting_of_beforeOperand {chain : List Waiting} {enclosures : List Enclosure} {t : Token}
    {s : ExpressionState} (h : beforeOperand chain enclosures t = .shift s) :
    s.waiting = chain ++ enclosures.flatMap Enclosure.outer := by
  unfold beforeOperand at h
  split at h <;> cases h <;> simp [waiting]

theorem waiting_of_endChain {e : Node} {enclosures : List Enclosure} {t : Token}
    {s : ExpressionState} (h : endChain e enclosures t = .shift s) :
    s.waiting = enclosures.flatMap Enclosure.outer := by
  unfold endChain at h
  split at h
  · cases h
  · split at h <;> cases h
    rfl
  · split at h
    · cases h
      rfl
    · split at h <;> cases h
      rfl

theorem waiting_of_firstArgument {enclosures : List Enclosure} {t : Token} {s : ExpressionState}
    (h : firstArgument enclosures t = .shift s) :
    s.waiting = enclosures.flatMap Enclosure.outer := by
  unfold firstArgument at h
  split at h
  · split at h
    · cases h
      rfl
    · exact (waiting_of_beforeOperand h).trans (List.nil_append _)
  · exact waiting_of_beforeOperand h

theorem threshold_zero (enclosures : List Enclosure) : threshold (some 0) enclosures = some 0 := by
  unfold threshold
  split <;> rfl

/-- What waits after a token waited before it, or is the token. -/
theorem mem_waiting_of_step {s s' : ExpressionState} {t : Token}
    (h : step T (some 0) s t = .shift s') {w : Waiting} (hw : w ∈ s'.waiting) :
    w ∈ s.waiting ∨ t.lexeme = .char w.op ∧ 0 < T.precedence w.op := by
  have hafter : ∀ e, afterOperand T (some 0) e s.chain s.enclosures t = .shift s' →
      w ∈ s.waiting ∨ t.lexeme = .char w.op ∧ 0 < T.precedence w.op := by
    intro e h
    unfold afterOperand at h
    split at h
    · next c hc =>
      split at h
      · next htakes =>
        cases h
        rw [threshold_zero, takes_zero] at htakes
        obtain hw | hw := List.mem_append.mp hw
        · obtain hop | hw := OperatorTable.mem_push hw
          · exact .inr (hop ▸ ⟨hc, htakes⟩)
          · exact .inl (List.mem_append_left _ hw)
        · exact .inl (List.mem_append_right _ hw)
      · rw [waiting_of_endChain h] at hw
        exact .inl (List.mem_append_right _ hw)
    · rw [waiting_of_endChain h] at hw
      exact .inl (List.mem_append_right _ hw)
  rcases s with ⟨x, chain, enclosures⟩
  cases x with
  | operand =>
    have h : beforeOperand chain enclosures t = .shift s' := h
    rw [waiting_of_beforeOperand h] at hw
    exact .inl hw
  | firstArgument =>
    have h : firstArgument enclosures t = .shift s' := h
    rw [waiting_of_firstArgument h] at hw
    exact .inl (List.mem_append_right _ hw)
  | callOrVariable name location =>
    simp only [step] at h
    split at h
    · cases h
      exact .inl (by simpa [waiting] using hw)
    · exact hafter _ h
  | operator e => exact hafter e h

/-- The operators that wait are known. -/
def Known (T : OperatorTable) (cs : List Char) (s : ExpressionState) : Prop :=
  ∀ w ∈ s.waiting, w.Known T cs

theorem known_start (T : OperatorTable) (cs : List Char) : Known T cs .start := by
  intro w hw
  simp [waiting, start] at hw

theorem Known.step {s s' : ExpressionState} (hs : s.Known T cs) {t : Token} (ht : t.CharIn cs)
    (h : step T (some 0) s t = .shift s') : s'.Known T cs := by
  intro w hw
  obtain hw | ⟨hc, hpos⟩ := mem_waiting_of_step h hw
  · exact hs w hw
  · exact ⟨ht _ hc, hpos⟩

theorem Known.step_eq {s : ExpressionState} (hs : s.Known T cs) (h : T.SameOrder U cs) {t : Token}
    (ht : t.CharIn cs) : ExpressionState.step U (some 0) s t = ExpressionState.step T (some 0) s t := by
  have hafter : ∀ e, afterOperand U (some 0) e s.chain s.enclosures t =
      afterOperand T (some 0) e s.chain s.enclosures t := by
    intro e
    unfold afterOperand
    split
    · next c hc =>
      have hmem := ht c hc
      have htakes : takes U (some 0) c = takes T (some 0) c := by
        rw [Bool.eq_iff_iff, takes_zero, takes_zero]
        exact (h.pos_iff c hmem).symm
      rw [threshold_zero, htakes]
      split
      · next hpos =>
        have hchain : ∀ w ∈ s.chain, w.Known T cs := fun w hw => hs w (List.mem_append_left _ hw)
        rw [h.push_eq hmem ((takes_zero T c).mp hpos) hchain]
      · rfl
    · rfl
  rcases s with ⟨x, chain, enclosures⟩
  cases x with
  | operand => rfl
  | firstArgument => rfl
  | callOrVariable name location =>
    simp only [ExpressionState.step]
    split
    · rfl
    · exact hafter _
  | operator e => exact hafter e

end ExpressionState

namespace DefinitionState

/-- The operators that wait in the body are known. -/
def Known (T : OperatorTable) (cs : List Char) : DefinitionState → Prop
  | .signature _ => True
  | .body _ s => s.Known T cs

theorem known_of_bodyStep {p : Prototype} {s : ExpressionState} (hs : s.Known T cs) {t : Token}
    (ht : t.CharIn cs) {r : DefinitionState} (h : bodyStep T p s t = .shift r) : r.Known T cs := by
  unfold bodyStep at h
  cases hstep : s.step T (some 0) t with
  | shift s' =>
    rw [hstep] at h
    obtain rfl := Step.shift.inj h
    exact hs.step ht hstep
  | done e => simp [hstep, Step.map] at h
  | refuse cause => simp [hstep, Step.map] at h

theorem Known.step {s s' : DefinitionState} (hs : s.Known T cs) {t : Token} (ht : t.CharIn cs)
    (h : step T s t = .shift s') : s'.Known T cs := by
  cases s with
  | body p s => exact known_of_bodyStep hs ht h
  | signature s =>
    unfold DefinitionState.step at h
    cases hstep : s.step t with
    | shift r =>
      simp only [hstep] at h
      obtain rfl := Step.shift.inj h
      trivial
    | done p =>
      simp only [hstep] at h
      exact known_of_bodyStep (ExpressionState.known_start T cs) ht h
    | refuse cause => simp [hstep] at h

theorem Known.step_eq {s : DefinitionState} (hs : s.Known T cs) (h : T.SameOrder U cs) {t : Token}
    (ht : t.CharIn cs) : DefinitionState.step U s t = DefinitionState.step T s t := by
  have hbody : ∀ p (r : ExpressionState), r.Known T cs → bodyStep U p r t = bodyStep T p r t := by
    intro p r hr
    rw [bodyStep, hr.step_eq h ht, bodyStep]
  cases s with
  | body p s => exact hbody p s hs
  | signature s =>
    cases hstep : s.step t with
    | shift r => simp only [DefinitionState.step, hstep]
    | done p =>
      simp only [DefinitionState.step, hstep]
      exact hbody p .start (ExpressionState.known_start T cs)
    | refuse cause => simp only [DefinitionState.step, hstep]

end DefinitionState

theorem OperatorTable.SameOrder.run_expression (h : T.SameOrder U cs) {l : Lookahead}
    (hl : ∀ t ∈ l.upcoming, t.CharIn cs) :
    l.run (ExpressionState.step U (some 0)) .start =
      l.run (ExpressionState.step T (some 0)) .start :=
  Lookahead.run_congr (fun _ _ hs ht => hs.step_eq h ht) (fun _ _ _ hs ht hstep => hs.step ht hstep)
    (fun _ => Token.charIn_of_isEnd cs) (ExpressionState.known_start T cs) hl

theorem OperatorTable.SameOrder.run_definition (h : T.SameOrder U cs) {l : Lookahead}
    (hl : ∀ t ∈ l.upcoming, t.CharIn cs) :
    l.run (DefinitionState.step U) (.signature .start) =
      l.run (DefinitionState.step T) (.signature .start) := by
  have hstart : (DefinitionState.signature .start).Known T cs := trivial
  exact Lookahead.run_congr (fun _ _ hs ht => hs.step_eq h ht)
    (fun _ _ _ hs ht hstep => hs.step ht hstep) (fun _ => Token.charIn_of_isEnd cs) hstart hl

end Parses

/-! ## Attempts -/

namespace Parser

def withTable (U : OperatorTable) (p : Parser) : Parser := { p with table := U }

variable {U : OperatorTable} {cs : List Char}

theorem inert_withTable (U : OperatorTable) : Inert (withTable U) :=
  ⟨fun _ => rfl, fun _ => rfl, fun _ => rfl, fun _ => rfl, fun _ _ => rfl, fun _ _ _ => rfl⟩

theorem unit_withTable {p : Parser} {l : Lookahead} (h : p.At l) (ho : p.table.SameOrder U cs)
    (hl : ∀ t ∈ l.upcoming, t.CharIn cs) (he : l.token.isEnd = false) :
    (p.withTable U).unit l.token = Prod.map id (withTable U) (p.unit l.token) := by
  have hnext : ∀ t ∈ l.advance.upcoming, t.CharIn cs :=
    fun t ht => hl t ((Lookahead.Reads.single he).upcoming_subset ht)
  exact (inert_withTable U).unit h (ho.run_expression hl) (ho.run_definition hnext)

end Parser

/-! ## Sessions -/

namespace Session

def withTable (U : OperatorTable) (s : Session) : Session :=
  { s with parser := s.parser.withTable U }

variable {U : OperatorTable} {cs : List Char}

theorem dispatch_withTable {s : Session} (ho : s.parser.table.SameOrder U cs)
    (hl : ∀ t ∈ s.lookahead.upcoming, t.CharIn cs) :
    (s.withTable U).dispatch = Prod.map id (withTable U) s.dispatch := by
  have ho : s.parser.prime.table.SameOrder U cs := s.parser.prime_table.symm ▸ ho
  exact dispatch_mapParser (Parser.inert_withTable U)
    fun he => Parser.unit_withTable s.parser.prime_at ho hl he

theorem turn_withTable {s s' : Session} {t : Turn} (ho : s.parser.table.SameOrder U cs)
    (hl : ∀ t ∈ s.lookahead.upcoming, t.CharIn cs) (h : s.turn = (t, s')) :
    (s.withTable U).turn = (t, s'.withTable U) := by
  have hdispatch : (s.withTable U).dispatch = Prod.map id (withTable U) s.dispatch :=
    dispatch_withTable ho hl
  have hturn : (s.withTable U).turn = Prod.map id (withTable U) s.turn := by
    have hstage : (s.withTable U).stage = s.stage := rfl
    have herrors : (s.withTable U).parser.errors = s.parser.errors := rfl
    unfold turn
    rw [hstage, herrors]
    cases s.stage with
    | finished => rfl
    | running => exact hdispatch
    | afterFailure =>
      simp only
      split
      · rfl
      · exact hdispatch
  rw [hturn, h]
  rfl

/-- With the other table the session makes the same units and ends in the same way. -/
def Alike (U : OperatorTable) (s : Session) : Prop :=
  unitsOf (s.withTable U).beats = unitsOf s.beats ∧ (s.withTable U).final = s.final.withTable U

theorem alike_of_last_turn {s s' : Session} {t : Turn} (h : s.turn = (t, s'))
    (h' : (s.withTable U).turn = (t, s'.withTable U)) (hc : continues t = false) : s.Alike U := by
  constructor
  · rw [unitsOf_of_last_turn h hc, unitsOf_of_last_turn h' hc]
  · rw [final_of_last_turn h hc, final_of_last_turn h' hc]

theorem Alike.cons {s s' : Session} {t : Turn} (h : s.turn = (t, s'))
    (h' : (s.withTable U).turn = (t, s'.withTable U)) (hc : continues t = true)
    (ha : s'.Alike U) : s.Alike U := by
  constructor
  · rw [unitsOf_of_turn h hc, unitsOf_of_turn h' hc, ha.1]
  · rw [final_of_turn h hc, final_of_turn h' hc, ha.2]

theorem Live.alike {s : Session} (h : s.Live) (ho : s.parser.table.SameOrder U cs)
    (hl : ∀ t ∈ s.lookahead.upcoming, t.CharIn cs) : s.Alike U := by
  induction s, h using Live.induction with
  | aborted s h ht => exact alike_of_last_turn ht (turn_withTable ho hl ht) rfl
  | endOfInput s h he ht => exact alike_of_last_turn ht (turn_withTable ho hl ht) rfl
  | separator s h hs ht h' ih =>
    have hsub := h.scanned.advance_upcoming_sublist.subset
    rw [table_moveTo] at ih
    exact (ih ho fun t ht => hl t (hsub ht)).cons ht (turn_withTable ho hl ht) rfl
  | derived s h ts m u hr hu ht h' ih =>
    have hsub := hr.upcoming_subset
    rw [table_moveTo] at ih
    exact (ih ho fun t ht => hl t (hsub ht)).cons ht (turn_withTable ho hl ht) rfl
  | failed s h ts m cause he hr hf ht h' ih =>
    have hsub := hr.upcoming_subset
    have hskipped := (hr.scanned h.scanned).advance_upcoming_sublist.subset
    rw [table_skip] at ih
    exact (ih ho fun t ht => hl t (hsub (hskipped ht))).cons ht (turn_withTable ho hl ht) rfl

end Session

/-! ## Runs -/

/-- The characters that are tokens of a source. -/
def Options.charsOf (o : Options) (source : List Char) (name : Option String) : List Char :=
  (o.tokensOf source name).filterMap fun t => t.lexeme.char?

theorem Options.charIn_charsOf {o : Options} {source : List Char} {name : Option String} :
    ∀ t ∈ (o.session source name).lookahead.upcoming, t.CharIn (o.charsOf source name) := by
  intro t ht c hc
  rw [upcoming_session] at ht
  exact List.mem_filterMap.mpr ⟨t, ht, by rw [hc]; rfl⟩

theorem Result.ofSession_withTable {s : Session} {U : OperatorTable} (h : s.Alike U) :
    ofSession (s.withTable U) = ofSession s := by
  have hofSession : ∀ s : Session, ofSession s =
      ⟨s.parser.scanner.filename, unitsOf s.beats, s.final.parser.errors.diagnostics,
        s.final.parser.scanner.count, s.final.aborted⟩ := fun _ => rfl
  rw [hofSession, hofSession, h.1, h.2]
  rfl

/-- The result of a run depends on the table only through the order of the operators that occur. So
neither other precedences in the same order, nor entries for what is no operator or does not occur,
nor the order of the entries make a difference. -/
theorem Options.run_sameOrder (o : Options) (source : List Char) (name : Option String) :
    let run (T : OperatorTable) := { o with table := T }.run source name
    let cs := o.charsOf source name
    (∀ T U : OperatorTable, T.SameOrder U cs → run T = run U) ∧
    (∀ (T : OperatorTable) (f : Int → Int), (∀ n, 0 < f n ↔ 0 < n) →
      (∀ m n, 0 < m → m < n → f m < f n) → run (T.rescale f) = run T) ∧
    (∀ (T : OperatorTable) (c : Char) (n : Int),
      c ∉ cs ∨ 128 ≤ c.toNat ∨ n ≤ 0 ∧ T.precedence c ≤ 0 → run (T.insert c n) = run T) ∧
    ∀ T U : OperatorTable, (∀ c, T.find? c = U.find? c) → run T = run U := by
  intro run cs
  have hrun : ∀ T U : OperatorTable, T.SameOrder U cs → run T = run U := by
    intro T U h
    have hlive := { o with table := T }.live_session source name
    exact (Result.ofSession_withTable (hlive.alike h charIn_charsOf)).symm
  refine ⟨hrun, ?_, ?_, ?_⟩
  · intro T f hf hmono
    exact hrun _ _ (.rescale T cs hf hmono)
  · intro T c n h
    exact hrun _ _ (.insert T h)
  · intro T U h
    exact hrun _ _ (.of_precedence_eq fun c _ => OperatorTable.precedence_congr (h c))

/-- A source that uses two of four operators. -/
theorem Options.run_sameOrder_default :
    let source := "a+b*c".toList
    let run (T : OperatorTable) := { Options.default with table := T }.run source none
    let low : OperatorTable := ⟨[('+', 1), ('*', 2)]⟩
    let turned : OperatorTable := ⟨[('*', 2), ('+', 1)]⟩
    Options.default.charsOf source none = ['+', '*'] ∧
      OperatorTable.default.SameOrder low ['+', '*'] ∧ run .default = run low ∧
      run (low.rescale (3 * ·)) = run low ∧ run (low.insert '|' 5) = run low ∧
      run low = run turned := by
  intro source run low turned
  have hcs : Options.default.charsOf source none = ['+', '*'] := by decide +kernel
  have horder : OperatorTable.default.SameOrder low ['+', '*'] := by
    constructor
    · intro c hc
      obtain rfl | rfl : c = '+' ∨ c = '*' := by simpa using hc
      · decide
      · decide
    · intro c hc d hd _ _
      obtain rfl | rfl : c = '+' ∨ c = '*' := by simpa using hc
      · obtain rfl | rfl : d = '+' ∨ d = '*' := by simpa using hd
        · decide
        · decide
      · obtain rfl | rfl : d = '+' ∨ d = '*' := by simpa using hd
        · decide
        · decide
  have hfind : ∀ c, low.find? c = turned.find? c := by
    intro c
    simp only [OperatorTable.find?, low, turned, OperatorTable.lookup_cons_ite]
    by_cases hplus : c = '+'
    · simp [hplus]
    · simp [hplus]
  obtain ⟨hsame, hrescale, hinsert, hturned⟩ := Options.run_sameOrder .default source none
  refine ⟨hcs, horder, hsame _ _ (hcs.symm ▸ horder), hrescale low _ ?_ ?_, hinsert low _ _ ?_,
    hturned _ _ hfind⟩
  · intro n
    omega
  · intro m n _ hlt
    omega
  · rw [hcs]
    exact .inl (by decide)

end ExprFront
