import ExprFront.Proofs.SourceLines

/-!
# The state of a reader

A reader is one character ahead of its scanner. What it has read up to and with that character tells
all that it keeps: the place of the lookahead, the place behind it, and the text of the line. Since no
token spans lines, a parser knows the line of its current token whatever it was asked for.
-/

namespace ExprFront
set_option autoImplicit false

/-! ## Readers -/

namespace Reader

/-- The lookahead, or nothing once the end was seen. -/
def lookahead? (r : Reader) : Option Char := r.pending.head?

/-- The position of the next character to be read. -/
def nextPosition (r : Reader) : Position :=
  match r.pending with
  | [] => r.position
  | c :: _ => r.position.next c

/-- The reader has read the first `n` characters of the source. The last one of them is its
lookahead, unless it has seen the end. -/
structure HasRead (source : List Char) (n : Nat) (r : Reader) : Prop where
  le_length : n ≤ source.length
  ahead : ∀ c, r.lookahead? = some c →
    0 < n ∧ source[n - 1]? = some c ∧ r.position = .after (source.take (n - 1))
  exhausted : r.lookahead? = none → n = source.length ∧ r.position = .after source
  next : r.nextPosition = .after (source.take n)
  line : r.lineText = String.ofList (lastLine (source.take n))

/-- A reader that has passed the first of two texts has read one character of the other. -/
theorem Tracks.hasRead {a rest : List Char} {r : Reader} (h : r.Tracks (a ++ rest))
    (hpending : r.pending = rest) (hposition : r.position = .after a) :
    r.HasRead (a ++ rest) (r.charactersRead (a ++ rest).length) := by
  obtain ⟨before, hsource, hline⟩ := h
  obtain rfl : a = before := by
    rw [hpending] at hsource
    exact List.append_cancel_right hsource
  rw [hpending] at hline
  have hcount : r.charactersRead (a ++ rest).length =
      min (a.length + rest.length) (a.length + 1) := by
    rw [charactersRead, hpending, List.length_append]
    omega
  rw [hcount]
  cases rest with
  | nil =>
    have hmin : min (a.length + 0) (a.length + 1) = a.length := by omega
    rw [List.length_nil, hmin]
    have hnone : r.lookahead? = none := by rw [lookahead?, hpending]; rfl
    have htake : (a ++ []).take a.length = a := List.take_left
    constructor
    · simp
    · simp [hnone]
    · intro _
      exact ⟨by simp, by rw [List.append_nil, hposition]⟩
    · rw [htake, nextPosition, hpending, hposition]
    · rw [htake, lineText, hline]
      simp
  | cons c rest =>
    have hmin : min (a.length + (rest.length + 1)) (a.length + 1) = a.length + 1 := by omega
    rw [List.length_cons, hmin]
    have hsome : r.lookahead? = some c := by rw [lookahead?, hpending]; rfl
    have htake : (a ++ c :: rest).take (a.length + 1) = a ++ [c] := by
      rw [List.take_append, Nat.add_sub_cancel_left, List.take_of_length_le (Nat.le_succ _)]
      rfl
    constructor
    · simp
    · intro d hd
      obtain rfl : c = d := Option.some.inj (hsome.symm.trans hd)
      refine ⟨Nat.succ_pos _, ?_, ?_⟩
      · simp
      · rw [Nat.add_sub_cancel, List.take_left, hposition]
    · simp [hsome]
    · rw [htake, Position.after_concat, nextPosition, hpending, hposition]
    · rw [htake, lineText, hline]
      rfl

end Reader

/-! ## Calls of a scanner -/

/-- The calls of a scanner make one lookahead after the other. -/
theorem Scanner.exists_call {P : Lookahead → Prop} (hadvance : ∀ l, P l → P l.advance) {s : Scanner}
    (hs : P (.ofScanner s)) (n : Nat) :
    ∃ l, P l ∧ (s.listing (n + 1))[n]? = some (l.token, l.scanner) ∧
      l.scanner.count = s.count + (n + 1) := by
  induction n generalizing s with
  | zero => exact ⟨.ofScanner s, hs, rfl, s.next_count⟩
  | succ n ih =>
    obtain ⟨l, hl, hentry, hcount⟩ := ih (s := s.next.2) (hadvance _ hs)
    refine ⟨l, hl, hentry, ?_⟩
    rw [hcount, s.next_count]
    omega

/-! ## Requests to a parser -/

theorem Lookahead.run_keeps {σ α : Type} {P : Lookahead → Prop}
    (hadvance : ∀ l, P l → P l.advance) (step : σ → Token → Step σ α) {l : Lookahead} (hl : P l)
    (s : σ) : P (l.run step s).2 := by
  fun_induction run step l s with
  | case1 => exact hl
  | case2 => exact hl
  | case3 => exact hl
  | case4 l s s' h he ih => exact ih (hadvance l hl)

namespace Parser

/-- What a parser may be asked for, and what its owner may change. -/
inductive Request
  | advance
  | operand
  | expression
  | chain (least : Int) (lhs : Node)
  | signature
  | definition
  | declaration
  | bareExpression
  | numberHere
  | nameHere
  | groupHere
  | setTable (table : OperatorTable)
  | setErrors (errors : Collector)

def perform (p : Parser) : Request → Parser
  | .advance => p.advance
  | .operand => p.operand.2
  | .expression => p.expression.2
  | .chain least lhs => (p.chain least lhs).2
  | .signature => p.signature.2
  | .definition => p.definition.2
  | .declaration => p.declaration.2
  | .bareExpression => p.bareExpression.2
  | .numberHere => p.numberHere.2
  | .nameHere => p.nameHere.2
  | .groupHere => p.groupHere.2
  | .setTable table => { p with table := table }
  | .setErrors errors => { p with errors := errors }

/-- The parser stands at a lookahead of the given kind, or will stand at one when it starts. -/
structure Holds (P : Lookahead → Prop) (p : Parser) : Prop where
  started : ∀ t, p.current = some t → P ⟨t, p.scanner⟩
  next : P (.ofScanner p.scanner)

section Holds
variable {P : Lookahead → Prop} {p : Parser}

theorem holds_moveTo (hadvance : ∀ l, P l → P l.advance) (p : Parser) {l : Lookahead} (hl : P l) :
    (p.moveTo l).Holds P := by
  refine ⟨?_, hadvance l hl⟩
  rintro t ⟨⟩
  exact hl

theorem Holds.advance (hadvance : ∀ l, P l → P l.advance) (h : p.Holds P) : p.advance.Holds P :=
  p.holds_moveTo hadvance h.next

theorem Holds.attempt (hadvance : ∀ l, P l → P l.advance) (h : p.Holds P) {σ α : Type}
    (step : σ → Token → Step σ α) (s : σ) : (p.attempt step s).2.Holds P := by
  unfold Parser.attempt
  split
  · exact h
  · next t ht =>
    have hrun := Lookahead.run_keeps hadvance step (h.started t ht) s
    generalize (Lookahead.mk t p.scanner).run step s = r at hrun ⊢
    rcases r with ⟨cause | a, m⟩
    · have hmoved := p.holds_moveTo hadvance hrun
      exact ⟨hmoved.started, hmoved.next⟩
    · exact p.holds_moveTo hadvance hrun

theorem Holds.alternate (hadvance : ∀ l, P l → P l.advance) (h : p.Holds P) :
    p.alternate.Holds P := by
  have hoperand : ∀ p : Parser, p.Holds P → p.advance.operand.2.Holds P :=
    fun p h => (h.advance hadvance).attempt hadvance _ _
  fun_induction Parser.alternate p with
  | case1 p e q hq ih =>
    have hnext := hoperand p h
    rw [hq] at hnext
    exact ih hnext
  | case2 p q hq =>
    have hnext := hoperand p h
    rwa [hq] at hnext
  | case3 p q hq =>
    have hnext := hoperand p h
    rwa [hq] at hnext

theorem Holds.chain (hadvance : ∀ l, P l → P l.advance) (h : p.Holds P) (least : Int)
    (lhs : Node) : (p.chain least lhs).2.Holds P := by
  unfold Parser.chain
  split
  · split
    · exact h.attempt hadvance _ _
    · exact h.alternate hadvance
  · split
    · exact h
    · have hnext : p.advance.expression.2.Holds P := (h.advance hadvance).attempt hadvance _ _
      split
      · next q hq =>
        rwa [hq] at hnext
      · exact hnext

/-- Whatever a parser is asked for, it goes on from one lookahead to the next. -/
theorem Holds.perform (hadvance : ∀ l, P l → P l.advance) (h : p.Holds P) (r : Request) :
    (p.perform r).Holds P := by
  have hnext := h.advance hadvance
  cases r with
  | advance => exact hnext
  | operand | expression | signature => exact h.attempt hadvance _ _
  | bareExpression =>
    show p.expression.2.Holds P
    exact h.attempt hadvance _ _
  | chain least lhs => exact h.chain hadvance least lhs
  | definition | declaration | groupHere => exact hnext.attempt hadvance _ _
  | numberHere =>
    show p.numberHere.2.Holds P
    unfold Parser.numberHere
    split
    · exact h
    · exact hnext
  | nameHere =>
    show p.nameHere.2.Holds P
    unfold Parser.nameHere
    split
    · exact h
    · exact hnext.attempt hadvance _ _
  | setTable | setErrors => exact ⟨h.started, h.next⟩

theorem Holds.performAll (hadvance : ∀ l, P l → P l.advance) (h : p.Holds P)
    (requests : List Request) : (requests.foldl Parser.perform p).Holds P := by
  induction requests generalizing p with
  | nil => exact h
  | cons r requests ih => exact ih (h.perform hadvance r)

end Holds

end Parser

/-! ## The state behind every call -/

/-- After every call the reader keeps what it has read, one character beyond the token, which does not
span lines. So a parser finds a source line for its current token, whatever it was asked for. -/
theorem Scanner.calls_keep (source : List Char) (filename : String) :
    (∀ n, ∃ t s, ((ofSource source filename).listing (n + 1))[n]? = some (t, s) ∧
      s.reader.HasRead source (s.reader.charactersRead source.length) ∧
      t.location.line = s.line ∧
      (t.isEnd = true → t.location = s.reader.nextPosition.within filename) ∧ s.count = n + 1) ∧
    ∀ (table : OperatorTable) (anonymous : String) (limit : Option Int)
      (requests : List Parser.Request) (t : Token) (cause : Refusal),
      let p := requests.foldl Parser.perform
        (.ofScanner (.ofSource source filename) table anonymous limit)
      p.current = some t →
        ((Lookahead.mk t p.scanner).diagnostic cause).sourceLine =
          some p.scanner.reader.lineText := by
  let P (l : Lookahead) : Prop := StandsIn filename source l ∧ l.Tracks source
  have hadvance : ∀ l, P l → P l.advance := fun l h => ⟨h.1.advance, h.2.advance⟩
  have hfirst : P (.ofScanner (.ofSource source filename)) :=
    ⟨standsIn_ofSource filename source, tracks_ofSource filename source⟩
  constructor
  · intro n
    obtain ⟨l, ⟨hstands, htracks⟩, hentry, hcount⟩ := exists_call hadvance hfirst n
    obtain ⟨before, text, rest, hoccurs, hbetween⟩ := hstands.occurs
    have hsource : source = before ++ text ++ rest := by
      rw [List.append_assoc, ← hoccurs.source_eq]
    have hread : l.scanner.reader.HasRead source
        (l.scanner.reader.charactersRead source.length) := by
      have htracks : l.scanner.reader.Tracks source := htracks
      rw [hsource] at htracks ⊢
      exact htracks.hasRead hbetween.pending hbetween.position
    have hcount : l.scanner.count = n + 1 := hcount.trans (Nat.zero_add _)
    refine ⟨l.token, l.scanner, hentry, hread, hstands.line_eq, ?_, hcount⟩
    intro he
    obtain ⟨rfl, rfl, rfl⟩ := hoccurs.before_eq he
    rw [hoccurs.location_eq, Reader.nextPosition, hbetween.pending, hbetween.position,
      List.append_nil]
  · intro table anonymous limit requests t cause p ht
    have hheld : Parser.Holds P (.ofScanner (.ofSource source filename) table anonymous limit) :=
      ⟨by simp [Parser.ofScanner], hfirst⟩
    have hp := (hheld.performAll hadvance requests).started t ht
    exact if_pos hp.1.line_eq

/-- An expression that breaks off on its second line, of which one more character has been read. -/
theorem Scanner.calls_keep_second_line :
    let source := "1 +\n) x".toList
    let p := [Parser.Request.advance, .expression].foldl Parser.perform
      (.ofScanner (.ofSource source "") .default anonymousName none)
    ∃ t, p.current = some t ∧ t.location = ⟨"", 2, 1⟩ ∧
      ∀ cause, ((Lookahead.mk t p.scanner).diagnostic cause).sourceLine = some ") " := by
  intro source p
  have ht : p.current = some ⟨.char ')', ⟨"", 2, 1⟩⟩ := by decide +kernel
  have hline : p.scanner.reader.lineText = ") " := by decide +kernel
  refine ⟨_, ht, rfl, ?_⟩
  intro cause
  rw [← hline]
  exact (Scanner.calls_keep source "").2 .default anonymousName none [.advance, .expression] _
    cause ht

end ExprFront
