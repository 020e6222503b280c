import ExprFront.Proofs.Cuts
import ExprFront.Proofs.Reports

/-!
# Acceptance

A session without a limit has no failure exactly if the tokens of its source can be cut into
pieces: a unit is read as far as it goes, and where it goes into the next piece, both together are
one unit as well.
-/

namespace ExprFront
set_option autoImplicit false
open Grammar

/-! ## Tokens at the start of a piece -/

theorem Token.isOperator_of_leavesOut {table : OperatorTable} {cs : List Char}
    (h : table.LeavesOut cs) {t : Token} (ht : ∀ c, t.lexeme = .char c → c ∈ cs) :
    t.isOperator table = false := by
  unfold isOperator
  split
  · next c hc =>
    have hle := h c (ht c hc)
    rw [decide_eq_false_iff_not]
    omega
  · rfl

namespace Grammar
variable {table : OperatorTable} {anonymous : String}

theorem Piece.opens {g : List Token} (h : Piece table anonymous g) :
    ∃ t us, g = t :: us ∧ (t.lexeme = .char ';' ∨ OpensUnit t) := by
  obtain ⟨t, rfl, ht⟩ | ⟨u, hu⟩ := h
  · exact ⟨t, [], rfl, .inl ht⟩
  · obtain ⟨t, us, rfl, ht⟩ := hu.opens
    exact ⟨t, us, rfl, .inr ht⟩

/-- The pieces of a program stop operators. -/
theorem isOperator_of_upcoming (h : table.LeavesOut ['(', ')', ',', ';']) {m : Lookahead}
    {cut : List (List Token)} (hcut : ∀ g ∈ cut, Piece table anonymous g)
    (hm : m.upcoming = cut.flatten) : m.token.isOperator table = false := by
  cases cut with
  | nil => exact Token.isOperator_of_isEnd table (Lookahead.isEnd_of_upcoming_nil hm)
  | cons g cut =>
    obtain ⟨t, us, rfl, ht⟩ := (hcut g List.mem_cons_self).opens
    obtain rfl := Lookahead.token_of_upcoming_cons hm
    refine Token.isOperator_of_leavesOut h ?_
    intro c hc
    rcases ht with ht | ht | ht | ⟨name, ht⟩ | ⟨value, ht⟩ | ht <;> rw [ht] at hc <;> cases hc <;>
      simp

/-- A unit that could go on into the next piece is one piece with it. -/
theorem joined_of_upcoming {g : List Token} {u : SourceUnit} (hu : UnitOf table anonymous g u)
    (hend : EndsInName g) {m : Lookahead} {cut : List (List Token)}
    (hcut : ∀ g ∈ cut, Piece table anonymous g) (hm : m.upcoming = cut.flatten)
    (ho : m.token.lexeme = .char '(') :
    ∃ g' rest, cut = g' :: rest ∧ Piece table anonymous (g ++ g') := by
  cases cut with
  | nil =>
    have he := Lookahead.isEnd_of_upcoming_nil hm
    rw [Token.isEnd_of_char ho] at he
    exact absurd he Bool.false_ne_true
  | cons g' cut =>
    obtain ⟨hg, -⟩ := List.forall_mem_cons.mp hcut
    obtain ⟨t, us, rfl, -⟩ := hg.opens
    obtain rfl := Lookahead.token_of_upcoming_cons hm
    obtain ⟨t, ht, hs⟩ | ⟨v, hv⟩ := hg
    · obtain ⟨rfl, -⟩ := List.cons.inj ht
      simp [ho] at hs
    · exact ⟨_, cut, rfl, .inr (hu.join hend hv ⟨_, us, rfl, ho⟩)⟩

end Grammar

namespace Session

/-! ## Pieces of an accepted program -/

/-- The turns of a session without failures cut what is upcoming into pieces. -/
theorem Steady.program {s : Session} (h : s.Steady)
    (hunits : ∀ u ∈ unitsOf s.beats, u.kind ≠ .failure) :
    Program s.parser.table s.parser.anonymous s.lookahead.upcoming := by
  induction s, h using Steady.induction with
  | endOfInput s h he => exact ⟨[], (Lookahead.upcoming_of_isEnd he).symm, by simp⟩
  | separator s h hs ht h' ih =>
    have he := Token.isEnd_of_char hs
    rw [unitsOf_of_turn ht rfl] at hunits
    obtain ⟨cut, hflatten, hcut⟩ := ih hunits
    rw [table_moveTo, anonymous_moveTo] at hcut
    refine ⟨[s.lookahead.token] :: cut, ?_, List.forall_mem_cons.mpr ⟨.inl ⟨_, rfl, hs⟩, hcut⟩⟩
    rw [Lookahead.upcoming_of_not_isEnd he, List.flatten_cons, hflatten]
    rfl
  | derived s h ts m u hr hu ht h' ih =>
    rw [unitsOf_of_turn ht rfl] at hunits
    obtain ⟨cut, hflatten, hcut⟩ := ih fun v hv => hunits v (List.mem_append_right _ hv)
    rw [table_moveTo, anonymous_moveTo] at hcut
    refine ⟨ts :: cut, ?_, List.forall_mem_cons.mpr ⟨.inr ⟨u, hu⟩, hcut⟩⟩
    rw [hr.upcoming, List.flatten_cons, hflatten]
    rfl
  | failed s h ts m cause he hr ht h' ih =>
    rw [unitsOf_of_turn ht rfl] at hunits
    exact absurd rfl (hunits (.failure (some (m.diagnostic cause))) (by simp [Turn.unit?]))

/-! ## Acceptance of programs -/

theorem unitsOf_of_isEnd {s : Session} (h : s.Ready) (he : s.lookahead.token.isEnd = true) :
    unitsOf s.beats = [] := unitsOf_of_last_turn (h.turn_of_isEnd he) rfl

/-- A session has no failure if what is upcoming can be cut into pieces. -/
theorem Ready.no_failure {s : Session} (h : s.Ready)
    (hleaves : s.parser.table.LeavesOut ['(', ')', ',', ';']) {cut : List (List Token)}
    (hcut : ∀ g ∈ cut, Piece s.parser.table s.parser.anonymous g)
    (hflatten : s.lookahead.upcoming = cut.flatten) :
    ∀ u ∈ unitsOf s.beats, u.kind ≠ .failure := by
  -- The number of pieces decreases, and not the tokens: a unit that goes on into the next piece is
  -- looked at again, in the same session, once the two are joined.
  induction hn : cut.length using Nat.strongRecOn generalizing s cut with
  | ind n ih =>
    cases cut with
    | nil =>
      rw [unitsOf_of_isEnd h (Lookahead.isEnd_of_upcoming_nil hflatten)]
      simp
    | cons g cut =>
      obtain ⟨hg, hcut⟩ := List.forall_mem_cons.mp hcut
      have hlength : cut.length < n := by
        rw [← hn, List.length_cons]
        omega
      obtain ⟨m, hr, hm⟩ := Lookahead.reads_of_upcoming hflatten
      have hrest : ∀ u ∈ unitsOf (s.moveTo m).beats, u.kind ≠ .failure := by
        refine ih cut.length hlength (s.ready_moveTo m) ?_ ?_ hm rfl
        · rwa [table_moveTo]
        · rwa [table_moveTo, anonymous_moveTo]
      obtain ⟨t, rfl, ht⟩ | ⟨u, hu⟩ := hg
      · obtain ⟨rfl, -, rfl⟩ := hr
        rw [unitsOf_of_turn (h.turn_of_separator ht) rfl]
        exact hrest
      · by_cases hcall : NoCall g m.token
        · have hturn := h.turn_of_derived hr hu ⟨isOperator_of_upcoming hleaves hcut hm, hcall⟩
          rw [unitsOf_of_turn hturn rfl]
          exact List.forall_mem_cons.mpr ⟨hu.ne_failure, hrest⟩
        · obtain ⟨hend, ho⟩ : EndsInName g ∧ m.token.lexeme = .char '(' := by
            simpa [NoCall] using hcall
          -- Joined with the next piece, the unit leaves one piece less.
          obtain ⟨g', rest, rfl, hjoined⟩ := joined_of_upcoming hu hend hcut hm ho
          obtain ⟨-, hcut⟩ := List.forall_mem_cons.mp hcut
          have hflatten : s.lookahead.upcoming = ((g ++ g') :: rest).flatten := by
            simpa using hflatten
          exact ih (rest.length + 1) (by simpa using hlength) h hleaves
            (List.forall_mem_cons.mpr ⟨hjoined, hcut⟩) hflatten rfl

end Session

/-- Where brackets, commas and semicolons are no operators, a run without a limit succeeds exactly
if its tokens can be cut into pieces. Success means that no unit is a failure, and it is what
the exit code of the tree command tells. -/
theorem Options.run_success_iff (table : OperatorTable) (anonymous filename : String)
    (source : List Char) (name : Option String)
    (h : table.LeavesOut ['(', ')', ',', ';']) :
    let o : Options := ⟨table, anonymous, filename, none⟩
    let r := o.run source name
    let accepted := Program table anonymous (o.tokensOf source name)
    (r.success = true ↔ accepted) ∧
    (r.success = true ↔ ∀ u ∈ r.units, u.kind ≠ .failure) ∧
    ∀ (w : TreeCommand.Settings) (path : String) (terminal : Bool) (c : Console),
      w.Writable → name = some path →
      ∃ t, TreeCommand.writeAll w o ⟨path, ⟨source, none⟩, terminal⟩ c = .ok t ∧
        (t.exitCode = .success ↔ accepted) := by
  intro o r accepted
  have hsteady := steady_session (o := o) rfl source name
  have htokens := o.upcoming_session source name
  have hsuccess : r.success = true ↔ ∀ u ∈ r.units, u.kind ≠ .failure := by
    have hdiagnostics : r.diagnostics = r.units.filterMap SourceUnit.diagnostic? :=
      hsteady.final_diagnostics
    rw [Result.success, hdiagnostics, List.isEmpty_iff]
    exact hsteady.no_diagnostic_iff
  have haccepted : r.success = true ↔ accepted := by
    rw [hsuccess]
    constructor
    · intro hunits
      have hprogram : Program table anonymous (o.session source name).lookahead.upcoming :=
        hsteady.program hunits
      rwa [htokens] at hprogram
    · rintro ⟨cut, hflatten, hcut⟩
      exact hsteady.ready.no_failure h hcut (htokens.trans hflatten.symm)
  refine ⟨haccepted, hsuccess, ?_⟩
  intro w path terminal c hw hpath
  subst hpath
  have hfault : (OpenSource.mk path ⟨source, none⟩ terminal).text.fault = none := rfl
  obtain ⟨t, ht, hexit⟩ := TreeCommand.writeAll_ok hw hfault o hsteady.units_shown c
  exact ⟨t, ht, hexit.trans haccepted⟩

/-- Two bare expressions, of which the second one starts with a group. -/
theorem Options.run_success_iff_default :
    OperatorTable.default.LeavesOut ['(', ')', ',', ';'] ∧
      ((Options.default.run "x\n(y)".toList none).success = true ↔
        Program OperatorTable.default anonymousName
          (Options.default.tokensOf "x\n(y)".toList none)) :=
  ⟨by decide, (Options.run_success_iff .default anonymousName "<stdin>" "x\n(y)".toList none
    (by decide)).1⟩

end ExprFront
