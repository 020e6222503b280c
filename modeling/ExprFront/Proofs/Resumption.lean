import ExprFront.Proofs.Pulls
import ExprFront.Proofs.Simulation
import ExprFront.Proofs.Standing

/-!
# Resuming behind a turn

Whatever a session without a limit has taken so far, at any turn it goes on like a new session on
the text that starts at the current token. Only the locations tell that there was something before.
-/

namespace ExprFront
set_option autoImplicit false

theorem SourceUnit.relocate_id {u : SourceUnit} (h : u.kind ≠ .failure) : u.relocate id = u := by
  cases u with
  | definition d => exact congrArg definition d.relocate_id
  | declaration p => exact congrArg declaration p.relocate_id
  | expression d => exact congrArg expression d.relocate_id
  | failure d => exact absurd rfl h

/-! ## Lookaheads on a text and on its rest -/

/-- Both stand in front of the same text, the first one with `base` before what the second one has
before it. -/
def Behind (filename : String) (base : List Char) (l m : Lookahead) : Prop :=
  ∃ before rest, l.Stands filename (base ++ before) rest ∧ m.Stands filename before rest

section
variable {filename : String} {base : List Char} {l m : Lookahead}

theorem Behind.token (h : Behind filename base l m) :
    l.token.relocate id =
      m.token.relocate (Location.offset ((Position.after base).within filename)) := by
  obtain ⟨before, rest, hl, hm⟩ := h
  rw [hl.token, hm.token]
  exact congrArg (Token.mk _) (Position.within_append base before filename)

theorem Behind.advance (h : Behind filename base l m) :
    Behind filename base l.advance m.advance := by
  obtain ⟨before, rest, hl, hm⟩ := h
  obtain ⟨g, rest', hrest, hg, hr⟩ := (exists_isGap (rest.drop (lexemeAt rest).2)).1
  have hl' := hl.advance hrest hg hr
  rw [List.append_assoc base, List.append_assoc base] at hl'
  exact ⟨_, rest', hl', hm.advance hrest hg hr⟩

end

def BothUnlimited (c c' : Collector) : Prop := c.limit = none ∧ c'.limit = none

theorem simulation_behind (filename : String) (base : List Char) :
    Simulation id (Location.offset ((Position.after base).within filename)) (Behind filename base)
      BothUnlimited where
  token := Behind.token
  advance := Behind.advance
  add := fun _ _ h => h
  full := by
    rintro c c' ⟨hc, hc'⟩
    simp only [Collector.isFull, hc, hc']

/-! ## Turns of a session -/

namespace Session

theorem beats_of_append {s : Session} {pre post : List Beat} {b : Beat}
    (h : s.beats = pre ++ b :: post) : b.before.beats = b :: post := by
  induction pre generalizing s with
  | nil =>
    have hbefore : b.before = s := by
      rw [beats] at h
      split at h
      · exact congrArg Beat.before (List.cons.inj h).1.symm
      · exact congrArg Beat.before (List.cons.inj h).1.symm
    rw [hbefore, h]
    rfl
  | cons c pre ih =>
    rw [beats] at h
    split at h
    · exact ih (List.cons.inj h).2
    · exact absurd (List.cons.inj h).2.symm (by simp)

/-- What every advance keeps holds at every turn. -/
theorem Steady.forall_beats {P : Lookahead → Prop} (hadvance : ∀ l, P l → P l.advance)
    {s : Session} (h : s.Steady) (hs : P s.lookahead) :
    ∀ b ∈ s.beats, b.before.Steady ∧ P b.before.lookahead ∧ b.before.aborted = s.aborted := by
  induction s, h using Steady.induction with
  | endOfInput s h he ht =>
    rw [beats_of_last_turn ht rfl, List.forall_mem_singleton]
    exact ⟨h, hs, rfl⟩
  | separator s h hsep ht h' ih =>
    rw [beats_of_turn ht rfl, List.forall_mem_cons]
    exact ⟨⟨h, hs, rfl⟩, ih (hadvance _ hs)⟩
  | derived s h ts m u hr hu ht h' ih =>
    rw [beats_of_turn ht rfl, List.forall_mem_cons]
    exact ⟨⟨h, hs, rfl⟩, ih (hr.keeps hadvance hs)⟩
  | failed s h ts m cause he hr ht h' ih =>
    rw [beats_of_turn ht rfl, List.forall_mem_cons]
    exact ⟨⟨h, hs, rfl⟩, ih (hadvance m (hr.keeps hadvance hs))⟩

end Session

/-! ## Runs -/

namespace Options

/-- A session that stands in front of a text makes the units of a run on it. -/
theorem units_of_stands {o : Options} {name : Option String} {s : Session} (hs : s.Paused)
    (htable : s.parser.table = o.table) (hanonymous : s.parser.anonymous = o.anonymous)
    (ho : o.limit = none) {base rest : List Char}
    (hl : s.lookahead.Stands (o.nameOf name) base rest) :
    (unitsOf s.beats).map (SourceUnit.relocate id) = (o.run rest name).units.map
      (SourceUnit.relocate (Location.offset ((Position.after base).within (o.nameOf name)))) := by
  obtain ⟨-, hleaves⟩ := hs.restart
  have hm : (o.session rest name).lookahead.Stands (o.nameOf name) [] rest :=
    Scanner.stands_ofSource (o.nameOf name) .nil hl.noGap
  have hbehind : Behind (o.nameOf name) base s.restart.lookahead (o.session rest name).lookahead :=
    ⟨[], rest, by rwa [List.append_nil], hm⟩
  have hrelated : s.restart.Related (Behind (o.nameOf name) base) BothUnlimited
      (o.session rest name) :=
    ⟨⟨hbehind, htable, hanonymous, hs.unlimited, ho⟩, rfl, rfl⟩
  rw [← hleaves.units]
  exact ((simulation_behind (o.nameOf name) base).beats hrelated).1

/-- At any turn of a run without a limit, the units to come are those of a run on the text that
starts at the token of the turn, up to where that is. -/
theorem run_memoryless (table : OperatorTable) (anonymous filename : String) (source : List Char)
    (name : Option String) (pre post : List Session.Beat) (b : Session.Beat)
    (hbeats : (Options.session ⟨table, anonymous, filename, none⟩ source name).beats =
      pre ++ b :: post) :
    let o : Options := ⟨table, anonymous, filename, none⟩
    let start := b.before.lookahead.token.location
    (∃ before rest, source = before ++ rest ∧
      start = (Position.after before).within (o.nameOf name)) ∧
    ∀ before rest, source = before ++ rest →
      start = (Position.after before).within (o.nameOf name) →
      (unitsOf (b :: post)).map (SourceUnit.relocate id) =
        (o.run rest name).units.map (SourceUnit.relocate start.offset) := by
  intro o start
  let s := o.session source name
  have hsteady : s.Steady := steady_session rfl source name
  have hmem : b ∈ s.beats := hbeats ▸ List.mem_append_right pre List.mem_cons_self
  obtain ⟨hb, hstands, haborted⟩ :=
    hsteady.forall_beats (fun l h => h.advance) (standsIn_ofSource (o.nameOf name) source) b hmem
  obtain ⟨-, -, htable, hanonymous⟩ := hsteady.toLive.forall_beats b hmem
  obtain ⟨base, rest, rfl, hl⟩ := hstands
  have hstart : start = (Position.after base).within (o.nameOf name) :=
    congrArg Token.location hl.token
  refine ⟨⟨base, rest, rfl, hstart⟩, ?_⟩
  intro before rest' hsource hstart'
  have hposition : Position.after base = Position.after before :=
    Position.within_inj (hstart.symm.trans hstart')
  obtain rfl := Position.after_inj hsource hposition
  obtain rfl := List.append_cancel_left hsource
  have hunits := units_of_stands (hb.paused haborted) htable hanonymous rfl hl
  rw [Session.beats_of_append hbeats, ← hstart] at hunits
  exact hunits

/-- Behind a call that breaks off, in the middle of a line. -/
theorem run_memoryless_default :
    let s := Options.default.session "f(1;g(x)\ny".toList none
    ∃ pre b post, s.beats = pre ++ b :: post ∧
      b.before.lookahead.token.location = ⟨"<stdin>", 1, 5⟩ ∧
      (unitsOf s.beats).map SourceUnit.kind = [.failure, .expression, .expression] ∧
      (unitsOf (b :: post)).map (SourceUnit.relocate id) =
        (Options.default.run "g(x)\ny".toList none).units.map
          (SourceUnit.relocate (Location.offset ⟨"<stdin>", 1, 5⟩)) := by
  intro s
  have hsecond : s.beats[1]?.map (fun b => b.before.lookahead.token.location) =
      some ⟨"<stdin>", 1, 5⟩ := by
    decide +kernel
  obtain ⟨b, hb, hlocation⟩ := Option.map_eq_some_iff.mp hsecond
  obtain ⟨hlength, rfl⟩ := List.getElem?_eq_some_iff.mp hb
  have hkinds : (unitsOf s.beats).map SourceUnit.kind = [.failure, .expression, .expression] := by
    decide +kernel
  have hbeats : s.beats = s.beats.take 1 ++ s.beats[1] :: s.beats.drop 2 := by
    rw [← List.drop_eq_getElem_cons hlength, List.take_append_drop]
  obtain ⟨-, hunits⟩ := run_memoryless .default anonymousName "<stdin>" "f(1;g(x)\ny".toList none
    _ _ _ hbeats
  have hrest := hunits "f(1;".toList "g(x)\ny".toList rfl hlocation
  rw [hlocation] at hrest
  exact ⟨_, _, _, hbeats, hlocation, hkinds, hrest⟩

end Options
end ExprFront
