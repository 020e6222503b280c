import Mathlib.Algebra.BigOperators.Group.List.Basic
import Mathlib.Data.List.Forall2
import ExprFront.Proofs.Turns

/-!
# Segments of a session

Without a limit, a session cuts the tokens of its source into one segment for each of its turns
but the last, which finds the end. A failure takes the tokens up to the refused one and that
one too, unless it is the end, which is then scanned once more.
-/

namespace ExprFront
set_option autoImplicit false
open Grammar

namespace Session

/-! ## Segments -/

namespace Beat

/-- The unit of the turn failed at a token: the tokens before it were read, the diagnostic stands
at it, and the session stands behind it afterwards. -/
def FailsAt (b : Beat) (used : List Token) (t : Token) : Prop :=
  ∃ m d, b.turn = .unit (.failure (some d)) ∧ b.before.lookahead.Reads used m ∧ m.token = t ∧
    d.location = some t.location ∧ b.after.lookahead = m.advance

inductive Takes (b : Beat) : List Token → Prop
  | separator (h : b.turn = .separator) (hs : b.before.lookahead.token.lexeme = .char ';')
      (ha : b.after.lookahead = b.before.lookahead.advance) : Takes b [b.before.lookahead.token]
  | unit {u : SourceUnit} {ts : List Token} (h : b.turn = .unit u) (hu : u.kind ≠ .failure)
      (hr : b.before.lookahead.Reads ts b.after.lookahead) : Takes b ts
  | failure {used : List Token} {t : Token} (h : b.FailsAt used t) (he : t.isEnd = false) :
      Takes b (used ++ [t])
  | failureAtEnd {used : List Token} {t : Token} (h : b.FailsAt used t) (he : t.isEnd = true) :
      Takes b used

/-- The unit of the turn failed at the end of the input. -/
def FailsAtEnd (b : Beat) : Prop := ∃ used t, b.FailsAt used t ∧ t.isEnd = true

end Beat

def lastUnit? (bs : List Beat) : Option Beat :=
  (bs.filter fun b => b.turn.unit?.isSome).getLast?

theorem lastUnit?_cons (b : Beat) (bs : List Beat) :
    lastUnit? (b :: bs) = (lastUnit? bs).or (if b.turn.unit?.isSome then some b else none) := by
  unfold lastUnit?
  rw [List.filter_cons]
  split
  · rw [List.getLast?_cons]
    cases (bs.filter fun b => b.turn.unit?.isSome).getLast? <;> rfl
  · rw [Option.or_none]

def LastFailsAtEnd (bs : List Beat) : Prop := ∃ b, lastUnit? bs = some b ∧ b.FailsAtEnd

theorem lastFailsAtEnd_cons {b : Beat} (h : ¬ b.FailsAtEnd) (bs : List Beat) :
    LastFailsAtEnd (b :: bs) ↔ LastFailsAtEnd bs := by
  unfold LastFailsAtEnd
  rw [lastUnit?_cons]
  cases lastUnit? bs with
  | some c => rfl
  | none =>
    split
    · constructor
      · rintro ⟨c, hc, hends⟩
        obtain rfl := Option.some.inj hc
        exact absurd hends h
      · simp
    · rfl

theorem lastFailsAtEnd_of_last {b : Beat} (h : b.FailsAtEnd) {bs : List Beat}
    (hnone : lastUnit? bs = none) : LastFailsAtEnd (b :: bs) := by
  have hunit : b.turn.unit?.isSome = true := by
    obtain ⟨used, t, ⟨m, d, hd, -⟩, -⟩ := h
    rw [hd]
    rfl
  refine ⟨b, ?_, h⟩
  rw [lastUnit?_cons, hnone, if_pos hunit]
  rfl

/-! ## One turn -/

/-- The number of tokens that were scanned up to the lookahead. -/
def count (s : Session) : Nat := s.lookahead.scanner.count

/-- What a beat takes from a steady session that goes on. -/
structure Beat.Cuts (b : Beat) (g : List Token) : Prop where
  takes : b.Takes g
  ne_nil : g ≠ []
  upcoming : b.before.lookahead.upcoming = g ++ b.after.lookahead.upcoming
  count : ¬ b.FailsAtEnd ∧ b.after.count = b.before.count + g.length ∨
    b.FailsAtEnd ∧ b.after.lookahead.token.isEnd = true ∧
      b.after.count = b.before.count + g.length + 1

theorem Beat.not_failsAtEnd {b : Beat} (h : ∀ d, b.turn ≠ .unit (.failure d)) : ¬ b.FailsAtEnd := by
  rintro ⟨used, t, ⟨m, d, hd, -⟩, -⟩
  exact h _ hd

theorem cuts_separator {s : Session} (hs : s.lookahead.token.lexeme = .char ';') :
    Beat.Cuts ⟨s, .separator, s.moveTo s.lookahead.advance⟩ [s.lookahead.token] := by
  have hr := Lookahead.Reads.single (Token.isEnd_of_char hs)
  exact ⟨.separator rfl hs rfl, by simp, hr.upcoming, .inl ⟨Beat.not_failsAtEnd (by simp), hr.count⟩⟩

theorem cuts_derived {s : Session} {ts : List Token} {m : Lookahead} {u : SourceUnit}
    {table : OperatorTable} {anonymous : String} (hr : s.lookahead.Reads ts m)
    (hu : UnitOf table anonymous ts u) : Beat.Cuts ⟨s, .unit u, s.moveTo m⟩ ts := by
  obtain ⟨t, us, rfl, -⟩ := hu.opens
  have hne : ∀ d, Turn.unit u ≠ .unit (.failure d) := by
    intro d hd
    obtain rfl := Turn.unit.inj hd
    exact hu.ne_failure rfl
  exact ⟨.unit rfl hu.ne_failure hr, by simp, hr.upcoming, .inl ⟨Beat.not_failsAtEnd hne, hr.count⟩⟩

/-- A failure has one offending token, since the count tells how many were read before it. -/
theorem failsAt_skip_iff {s : Session} {used : List Token} {m : Lookahead} (cause : Refusal)
    (hr : s.lookahead.Reads used m) {used' : List Token} {t : Token} :
    Beat.FailsAt ⟨s, .unit (.failure (some (m.diagnostic cause))), s.skip m cause⟩ used' t ↔
      used' = used ∧ t = m.token := by
  constructor
  · rintro ⟨n, d, -, hr', rfl, -, ha⟩
    have ha : m.advance = n.advance := ha
    have hr' : s.lookahead.Reads used' n := hr'
    have hcount : m.advance.scanner.count = n.advance.scanner.count := by rw [ha]
    rw [m.advance_count, n.advance_count, hr.count, hr'.count] at hcount
    obtain ⟨rfl, rfl⟩ := hr.unique hr' (by omega)
    exact ⟨rfl, rfl⟩
  · rintro ⟨rfl, rfl⟩
    exact ⟨m, m.diagnostic cause, rfl, hr, rfl, rfl, rfl⟩

theorem failsAtEnd_skip_iff {s : Session} {used : List Token} {m : Lookahead} (cause : Refusal)
    (hr : s.lookahead.Reads used m) :
    Beat.FailsAtEnd ⟨s, .unit (.failure (some (m.diagnostic cause))), s.skip m cause⟩ ↔
      m.token.isEnd = true := by
  simp only [Beat.FailsAtEnd, failsAt_skip_iff cause hr]
  constructor
  · rintro ⟨used', t, ⟨-, rfl⟩, he⟩
    exact he
  · intro he
    exact ⟨used, m.token, ⟨rfl, rfl⟩, he⟩

theorem cuts_failed {s : Session} (hs : s.lookahead.Scanned) (he : s.lookahead.token.isEnd = false)
    {used : List Token} {m : Lookahead} (cause : Refusal) (hr : s.lookahead.Reads used m) :
    ∃ g, Beat.Cuts ⟨s, .unit (.failure (some (m.diagnostic cause))), s.skip m cause⟩ g := by
  have hfails := (failsAt_skip_iff cause hr).mpr ⟨rfl, rfl⟩
  cases hm : m.token.isEnd with
  | false =>
    have hread := hr.trans (Lookahead.Reads.single hm)
    refine ⟨used ++ [m.token], .failure hfails hm, by simp, hread.upcoming, .inl ⟨?_, hread.count⟩⟩
    rw [failsAtEnd_skip_iff cause hr, hm]
    exact Bool.false_ne_true
  | true =>
    have hadvance := (hr.scanned hs).advance_isEnd hm
    refine ⟨used, .failureAtEnd hfails hm, ?_, ?_, .inr ⟨?_, hadvance, ?_⟩⟩
    · rintro rfl
      have heq : s.lookahead = m := hr
      rw [heq, hm] at he
      simp at he
    · rw [lookahead_skip, Lookahead.upcoming_of_isEnd hadvance, hr.upcoming,
        Lookahead.upcoming_of_isEnd hm]
    · exact (failsAtEnd_skip_iff cause hr).mpr hm
    · rw [count, lookahead_skip, m.advance_count, hr.count]
      rfl

/-! ## Whole sessions -/

/-- One segment for each turn of a session but the last, which finds the end. Together the
segments are all that is upcoming. -/
structure Segmented (s : Session) (body : List Beat) (last : Beat) (cut : List (List Token)) :
    Prop where
  beats : s.beats = body ++ [last]
  finds_end : last.turn = .endOfInput
  takes : List.Forall₂ Beat.Takes body cut
  ne_nil : ∀ g ∈ cut, g ≠ []
  flatten : cut.flatten = s.lookahead.upcoming

theorem Segmented.cons {s s' : Session} {t : Turn} (ht : s.turn = (t, s'))
    (hc : continues t = true) {g : List Token} (hg : Beat.Cuts ⟨s, t, s'⟩ g) {body : List Beat}
    {last : Beat} {cut : List (List Token)} (h : s'.Segmented body last cut) :
    s.Segmented (⟨s, t, s'⟩ :: body) last (g :: cut) where
  beats := by rw [beats_of_turn ht hc, h.beats, List.cons_append]
  finds_end := h.finds_end
  takes := .cons hg.takes h.takes
  ne_nil := List.forall_mem_cons.mpr ⟨hg.ne_nil, h.ne_nil⟩
  flatten := by rw [List.flatten_cons, h.flatten, hg.upcoming]

theorem Steady.segmented {s : Session} (h : s.Steady) :
    ∃ body last cut, s.Segmented body last cut := by
  induction s, h using Steady.induction with
  | endOfInput s h he ht =>
    have hcut := Lookahead.upcoming_of_isEnd he
    exact ⟨[], _, [], beats_of_last_turn ht rfl, rfl, .nil, by simp, hcut.symm⟩
  | separator s h hs ht h' ih =>
    obtain ⟨body, last, cut, hsegmented⟩ := ih
    exact ⟨_, last, _, hsegmented.cons ht rfl (cuts_separator hs)⟩
  | derived s h ts m u hr hu ht h' ih =>
    obtain ⟨body, last, cut, hsegmented⟩ := ih
    exact ⟨_, last, _, hsegmented.cons ht rfl (cuts_derived hr hu)⟩
  | failed s h ts m cause he hr ht h' ih =>
    obtain ⟨body, last, cut, hsegmented⟩ := ih
    obtain ⟨g, hg⟩ := cuts_failed h.scanned he cause hr
    exact ⟨_, last, _, hsegmented.cons ht rfl hg⟩

/-- The number of tokens that a session has scanned in the end: all that are upcoming, and the end
once more if the last unit failed there. -/
def Counts (s : Session) : Prop :=
  let n := s.count + s.lookahead.upcoming.length
  ¬ LastFailsAtEnd s.beats ∧ s.final.parser.scanner.count = n ∨
    LastFailsAtEnd s.beats ∧ s.final.parser.scanner.count = n + 1

theorem counts_of_isEnd {s : Session} (h : s.Ready) (he : s.lookahead.token.isEnd = true) :
    s.Counts := by
  have ht := h.turn_of_isEnd he
  refine .inl ⟨?_, ?_⟩
  · rw [beats_of_last_turn ht rfl]
    rintro ⟨b, hb, -⟩
    simp [lastUnit?, Turn.unit?] at hb
  · rw [final_of_last_turn ht rfl, Lookahead.upcoming_of_isEnd he]
    exact congrArg Scanner.count s.parser.prime_at.2

theorem Counts.cons {s s' : Session} (hready : s'.Ready) {t : Turn} (ht : s.turn = (t, s'))
    (hc : continues t = true) {g : List Token} (hg : Beat.Cuts ⟨s, t, s'⟩ g) (h : s'.Counts) :
    s.Counts := by
  have hlength : s.lookahead.upcoming.length = g.length + s'.lookahead.upcoming.length := by
    rw [hg.upcoming, List.length_append]
  unfold Counts at h ⊢
  rw [beats_of_turn ht hc, final_of_turn ht hc]
  obtain ⟨hnot, hcount⟩ | ⟨hfails, he, hcount⟩ := hg.count
  · have hcount : s'.count = s.count + g.length := hcount
    rw [lastFailsAtEnd_cons hnot]
    obtain ⟨hl, hfinal⟩ | ⟨hl, hfinal⟩ := h
    · exact .inl ⟨hl, by omega⟩
    · exact .inr ⟨hl, by omega⟩
  · -- Behind the end nothing but the end is found, so that no unit can follow.
    have he : s'.lookahead.token.isEnd = true := he
    have hcount : s'.count = s.count + g.length + 1 := hcount
    have hnone : lastUnit? s'.beats = none := by
      rw [beats_of_last_turn (hready.turn_of_isEnd he) rfl]
      rfl
    obtain ⟨-, hfinal⟩ | ⟨⟨b, hb, -⟩, -⟩ := h
    · exact .inr ⟨lastFailsAtEnd_of_last hfails hnone, by omega⟩
    · rw [hnone] at hb
      simp at hb

theorem Steady.counts {s : Session} (h : s.Steady) : s.Counts := by
  induction s, h using Steady.induction with
  | endOfInput s h he => exact counts_of_isEnd h.ready he
  | separator s h hs ht h' ih => exact ih.cons h'.ready ht rfl (cuts_separator hs)
  | derived s h ts m u hr hu ht h' ih => exact ih.cons h'.ready ht rfl (cuts_derived hr hu)
  | failed s h ts m cause he hr ht h' ih =>
    obtain ⟨g, hg⟩ := cuts_failed h.scanned he cause hr
    exact ih.cons h'.ready ht rfl hg

theorem Segmented.units_length_le {s : Session} {body : List Beat} {last : Beat}
    {cut : List (List Token)} (h : s.Segmented body last cut) :
    (unitsOf s.beats).length ≤ s.lookahead.upcoming.length := by
  have hlast : (unitsOf s.beats).length = (unitsOf body).length := by
    rw [h.beats, unitsOf, unitsOf, List.filterMap_append, List.length_append]
    simp [Turn.unit?, h.finds_end]
  have hbody : (unitsOf body).length ≤ cut.length := by
    rw [← h.takes.length_eq]
    exact List.length_filterMap_le _ _
  have hcut : cut.length ≤ cut.flatten.length := by
    have hone : ∀ i ∈ cut.map List.length, 1 ≤ i := by
      intro i hi
      obtain ⟨g, hg, rfl⟩ := List.mem_map.mp hi
      exact List.length_pos_iff.mpr (h.ne_nil g hg)
    have hsum := List.length_le_sum_of_one_le _ hone
    rwa [List.length_map, ← List.length_flatten] at hsum
  have hflatten : cut.flatten.length = s.lookahead.upcoming.length := by rw [h.flatten]
  omega

end Session

/-- Without a limit a run takes its source apart into non-empty segments, one for each separator
and each unit, and nothing is lost or used twice. -/
theorem Options.run_segmented (table : OperatorTable) (anonymous filename : String)
    (source : List Char) (name : Option String) :
    let o : Options := ⟨table, anonymous, filename, none⟩
    let s := o.session source name
    let r := o.run source name
    let tokens := o.tokensOf source name
    (∃ body last cut, s.beats = body ++ [last] ∧ last.turn = .endOfInput ∧
      List.Forall₂ Session.Beat.Takes body cut ∧ (∀ g ∈ cut, g ≠ []) ∧ cut.flatten = tokens) ∧
    r.aborted = false ∧ r.units.length ≤ tokens.length ∧
    (¬ Session.LastFailsAtEnd s.beats ∧ r.tokenCount = tokens.length + 1 ∨
      Session.LastFailsAtEnd s.beats ∧ r.tokenCount = tokens.length + 2) := by
  intro o s r tokens
  have hsteady : s.Steady := steady_session rfl source name
  have htokens : s.lookahead.upcoming = tokens := o.upcoming_session source name
  obtain ⟨body, last, cut, h⟩ := hsteady.segmented
  have hcounts := hsteady.counts
  have hcount : r.tokenCount = s.final.parser.scanner.count := rfl
  have hone : s.count = 1 := rfl
  refine ⟨⟨body, last, cut, h.beats, h.finds_end, h.takes, h.ne_nil, h.flatten.trans htokens⟩,
    hsteady.final_aborted, ?_, ?_⟩
  · rw [← htokens]
    exact h.units_length_le
  · rw [Session.Counts, htokens, hone] at hcounts
    obtain ⟨hl, hfinal⟩ | ⟨hl, hfinal⟩ := hcounts
    · exact .inl ⟨hl, by omega⟩
    · exact .inr ⟨hl, by omega⟩

end ExprFront
