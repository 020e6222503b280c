import ExprFront.Proofs.Seams
import ExprFront.Proofs.SourceLines

/-!
# Programs one after the other

A run on two programs with a semicolon on a line between them is the run on the first one, followed
by the run on the second one some lines further down. This holds whenever the first program has no
errors, whatever the second one looks like.
-/

namespace ExprFront
set_option autoImplicit false

/-! ## Moving down -/

def Location.moveDown (n : Nat) (l : Location) : Location := { l with line := l.line + n }

/-- Only the location is moved. The source line stays what it is. -/
def Diagnostic.moveDown (n : Nat) (d : Diagnostic) : Diagnostic :=
  { d with location := d.location.map (Location.moveDown n) }

namespace SourceUnit

def moveDown (n : Nat) : SourceUnit → SourceUnit
  | .definition f => .definition (f.relocate (Location.moveDown n))
  | .declaration p => .declaration (p.relocate (Location.moveDown n))
  | .expression f => .expression (f.relocate (Location.moveDown n))
  | .failure d => .failure (d.map (Diagnostic.moveDown n))

theorem diagnostic?_moveDown (n : Nat) (u : SourceUnit) :
    (u.moveDown n).diagnostic? = u.diagnostic?.map (Diagnostic.moveDown n) := by
  cases u <;> rfl

theorem moveDown_of_ne_failure {u : SourceUnit} (h : u.kind ≠ .failure) (n : Nat) :
    u.moveDown n = u.relocate (Location.moveDown n) := by
  cases u with
  | definition | declaration | expression => rfl
  | failure d => exact absurd rfl h

end SourceUnit

section
variable {base : List Char} (hbase : lastLine base = [])
include hbase

/-- Behind whole lines, all places are moved down alike. -/
theorem Location.offset_eq_moveDown (filename : String) :
    offset ((Position.after base).within filename) = moveDown (base.count '\n') := by
  have hcolumn : (Position.after base).column = 1 := by rw [Position.after_column, hbase]; rfl
  have hline : (Position.after base).line = 1 + base.count '\n' := rfl
  funext l
  simp only [offset, moveDown, Position.within, hcolumn, hline, Location.mk.injEq, true_and]
  constructor
  · omega
  · split <;> omega

theorem shownLine_append (before text rest : List Char) :
    shownLine (base ++ before) text rest = shownLine before text rest := by
  have hlast : lastLine (base ++ before) = lastLine before := by
    by_cases hmem : '\n' ∈ before
    · exact lastLine_append_of_mem base hmem
    · rw [lastLine_append_of_notMem base hmem, lastLine_of_notMem hmem, hbase, List.nil_append]
  rw [shownLine, shownLine, hlast]

end

/-! ## Diagnostics in a source -/

theorem Occurs.moveDown {filename : String} {source base before text rest : List Char} {t : Token}
    (hbase : lastLine base = []) (h : Occurs filename source before text rest t) :
    Occurs filename (base ++ source) (base ++ before) text rest
      (t.relocate (Location.moveDown (base.count '\n'))) where
  source_eq := by rw [h.source_eq, List.append_assoc]
  location_eq := by
    rw [Position.within_append, Location.offset_eq_moveDown hbase, ← h.location_eq]
    rfl
  reads := h.reads

namespace Diagnostic

/-- The diagnostic is about a token of the source and shows the line of that. -/
def IsIn (filename : String) (source : List Char) (d : Diagnostic) : Prop :=
  ∃ (t : Token) (before text rest : List Char) (cause : Refusal),
    Occurs filename source before text rest t ∧
      d = ⟨cause.detail t.lexeme, some t.location, some (String.ofList (shownLine before text rest))⟩

variable {filename : String} {source : List Char} {d d' : Diagnostic}

theorem IsIn.moveDown {base : List Char} (hbase : lastLine base = []) (h : d.IsIn filename source) :
    (d.moveDown (base.count '\n')).IsIn filename (base ++ source) := by
  obtain ⟨t, before, text, rest, cause, hoccurs, rfl⟩ := h
  have hshown := shownLine_append hbase before text rest
  exact ⟨_, _, text, rest, cause, hoccurs.moveDown hbase, by rw [hshown]; rfl⟩

/-- The source line is told by the place. -/
theorem IsIn.eq_of_location (h : d.IsIn filename source) (h' : d'.IsIn filename source)
    (hdetail : d.detail = d'.detail) (hlocation : d.location = d'.location) : d = d' := by
  obtain ⟨t, before, text, rest, cause, hoccurs, rfl⟩ := h
  obtain ⟨t', before', text', rest', cause', hoccurs', rfl⟩ := h'
  obtain ⟨rfl, rfl, rfl⟩ := hoccurs.unique hoccurs' (Option.some.inj hlocation)
  rw [Diagnostic.mk.injEq]
  exact ⟨hdetail, hlocation, rfl⟩

end Diagnostic

/-! ## Sessions in a source -/

/-- The lookahead stands in the source, and its scanner keeps the line there. -/
structure Lookahead.OnTrack (filename : String) (source : List Char) (l : Lookahead) : Prop where
  stands : StandsIn filename source l
  tracks : l.Tracks source

section
variable {filename : String} {source base : List Char} {l : Lookahead}

theorem Lookahead.OnTrack.advance (h : l.OnTrack filename source) :
    l.advance.OnTrack filename source :=
  ⟨h.stands.advance, h.tracks.advance⟩

theorem onTrack_ofSource (filename : String) (source : List Char) :
    (Lookahead.ofScanner (.ofSource source filename)).OnTrack filename source :=
  ⟨standsIn_ofSource filename source, tracks_ofSource filename source⟩

/-- The unit is a failure only with a diagnostic that is in the source. -/
def SourceUnit.IsIn (filename : String) (source : List Char) (u : SourceUnit) : Prop :=
  u.kind = .failure → ∃ d : Diagnostic, u = .failure (some d) ∧ d.IsIn filename source

theorem Session.Live.units_isIn {s : Session} (h : s.Live)
    (hs : s.lookahead.OnTrack filename source) :
    ∀ u ∈ unitsOf s.beats, u.IsIn filename source := by
  intro u hu hkind
  obtain ⟨d, rfl⟩ := h.failure_diagnostic u hu hkind
  have hmem : d ∈ (unitsOf s.beats).filterMap SourceUnit.diagnostic? :=
    List.mem_filterMap.mpr ⟨_, hu, rfl⟩
  obtain ⟨m, cause, hm, hd⟩ := h.diagnostic_at (fun _ hl => hl.advance) hs d hmem
  obtain ⟨before, text, rest, hoccurs, heq⟩ := Lookahead.diagnostic_eq hm.stands hm.tracks cause
  exact ⟨d, rfl, m.token, before, text, rest, cause, hoccurs, hd.trans heq⟩

/-- Units that look the same up to their places are the same up to the lines before them, source
lines included. -/
theorem SourceUnit.IsIn.eq_moveDown (hbase : lastLine base = []) {u v : SourceUnit}
    (hu : u.IsIn filename (base ++ source)) (hv : v.IsIn filename source)
    (h : u.relocate id = v.relocate (Location.offset ((Position.after base).within filename))) :
    u = v.moveDown (base.count '\n') := by
  rw [Location.offset_eq_moveDown hbase] at h
  have hkind : u.kind = v.kind := by
    have hkind := congrArg SourceUnit.kind h
    rwa [relocate_kind, relocate_kind] at hkind
  by_cases hfailure : v.kind = .failure
  · obtain ⟨d, rfl, hd⟩ := hu (hkind.trans hfailure)
    obtain ⟨e, rfl, he⟩ := hv hfailure
    -- Moving leaves out the source lines, which the places of the diagnostics tell.
    have hrelocate := Option.some.inj (SourceUnit.failure.inj h)
    have hdetail := congrArg Diagnostic.detail hrelocate
    have hlocation := congrArg Diagnostic.location hrelocate
    rw [Diagnostic.relocate, Option.map_id] at hlocation
    rw [hd.eq_of_location (he.moveDown hbase) hdetail hlocation]
    rfl
  · rw [relocate_id (hkind ▸ hfailure)] at h
    rw [h, moveDown_of_ne_failure hfailure]

theorem map_eq_of_map_eq {α β γ : Type} {f : α → γ} {g : β → γ} {h : β → α} {xs : List α}
    {ys : List β} (hmap : xs.map f = ys.map g)
    (heq : ∀ x ∈ xs, ∀ y ∈ ys, f x = g y → x = h y) : xs = ys.map h := by
  induction xs generalizing ys with
  | nil =>
    obtain rfl : ys = [] := List.map_eq_nil_iff.mp hmap.symm
    rfl
  | cons x xs ih =>
    obtain ⟨y, ys, rfl, hxy, hrest⟩ := List.map_eq_cons_iff.mp hmap.symm
    have hhead := heq x List.mem_cons_self y List.mem_cons_self hxy.symm
    have htail := ih hrest.symm fun x hx y hy =>
      heq x (List.mem_cons_of_mem _ hx) y (List.mem_cons_of_mem _ hy)
    rw [List.map_cons, ← hhead, ← htail]

end

/-! ## Behind the semicolon -/

/-- What stands between the two programs. -/
def between : List Char := ['\n', ';', '\n']

theorem lastLine_between (a : List Char) : lastLine (a ++ between) = [] := by
  rw [lastLine_append_of_mem a (by decide)]
  rfl

/-- The first lookahead is behind the second one by whole texts and by `k` tokens. -/
def BehindBy (filename : String) (base : List Char) (k : Nat) (l m : Lookahead) : Prop :=
  Behind filename base l m ∧ l.scanner.count = m.scanner.count + k

theorem simulation_behindBy (filename : String) (base : List Char) (k : Nat) :
    Simulation id (Location.offset ((Position.after base).within filename))
      (BehindBy filename base k) BothUnlimited where
  token := fun h => h.1.token
  advance := by
    rintro l m ⟨hbehind, hcount⟩
    refine ⟨hbehind.advance, ?_⟩
    rw [l.advance_count, m.advance_count, hcount]
    omega
  add := (simulation_behind filename base).add
  full := (simulation_behind filename base).full

section
variable {filename : String} {a b : List Char} {l : Lookahead}

/-- In front of the semicolon one token is left before the second program. -/
theorem behindBy_of_stands (h : l.Stands filename (a ++ ['\n']) (';' :: '\n' :: b)) :
    BehindBy filename (a ++ between) l.scanner.count l.advance
      (.ofScanner (.ofSource b filename)) := by
  obtain ⟨g, rest, rfl, hg, hr⟩ := (exists_isGap b).1
  have hstands : l.advance.Stands filename (a ++ between ++ g) rest := by
    have hbefore : a ++ between ++ g = a ++ ['\n'] ++ [';'] ++ '\n' :: g := by simp [between]
    rw [hbefore]
    exact h.advance (.refl ('\n' :: g ++ rest)) (.blank rfl hg) hr
  refine ⟨⟨g, rest, hstands, Scanner.stands_ofSource filename hg hr⟩, ?_⟩
  rw [l.advance_count]
  exact Nat.add_comm _ 1

end

/-! ## Runs -/

/-- The session `s` behind the session `s'` makes its units further down, and scans as many tokens
more as it had scanned before. -/
theorem Session.units_of_behindBy {filename : String} {base source : List Char} {k : Nat}
    (hbase : lastLine base = []) {s s' : Session} (h : s.Live) (h' : s'.Live)
    (hs : s.lookahead.OnTrack filename (base ++ source))
    (hs' : s'.lookahead.OnTrack filename source)
    (hrelated : s.Related (BehindBy filename base k) BothUnlimited s') :
    unitsOf s.beats = (unitsOf s'.beats).map (SourceUnit.moveDown (base.count '\n')) ∧
      s.final.lookahead.scanner.count = s'.final.lookahead.scanner.count + k := by
  obtain ⟨hunits, hfinal⟩ := (simulation_behindBy filename base k).beats hrelated
  refine ⟨map_eq_of_map_eq hunits ?_, hfinal.parser.lookahead.2⟩
  intro u hu v hv huv
  exact (h.units_isIn hs u hu).eq_moveDown hbase (h'.units_isIn hs' v hv) huv

namespace Options

theorem diagnostics_run (o : Options) (source : List Char) (name : Option String) :
    (o.run source name).diagnostics =
      (o.run source name).units.filterMap SourceUnit.diagnostic? :=
  (o.live_session source name).final_diagnostics

theorem tokenCount_run (o : Options) (source : List Char) (name : Option String) :
    (o.run source name).tokenCount =
      (o.session source name).final.lookahead.scanner.count := by
  rw [Session.lookahead_scanner ((o.live_session source name).final_current (.inl rfl))]
  rfl

/-- The run on both programs makes the units of the first one and then goes on in the second one. -/
theorem reaches_second {o : Options} (ho : o.limit = none)
    (hsemicolon : o.table.precedence ';' ≤ 0) {a : List Char} {name : Option String}
    (ha : ∀ u ∈ (o.run a name).units, u.kind ≠ .failure) (b : List Char) :
    ∃ t, (o.session (a ++ following b) name).Reaches (o.run a name).units t ∧
      t.Related (BehindBy (o.nameOf name) (a ++ between) (o.run a name).tokenCount) BothUnlimited
        (o.session b name) := by
  have hseam := seam_ofSource (o.nameOf name) a b
  obtain ⟨t, hfirst, hstands, hcount⟩ := (steady_session ho a name).reaches_seam
    (o.ready_session (a ++ following b) name) ha hseam rfl rfl hsemicolon
  have hseparator : t.lookahead.token.lexeme = .char ';' := congrArg Token.lexeme hstands.token
  have hreaches := hfirst.trans (hfirst.ready.reaches_separator hseparator)
  rw [List.append_nil] at hreaches
  have hbehind := behindBy_of_stands hstands
  rw [hcount] at hbehind
  refine ⟨_, hreaches, ⟨hbehind, hreaches.table, hreaches.anonymous, ?_⟩, rfl, hreaches.aborted⟩
  rw [hreaches.errors]
  exact ⟨ho, ho⟩

/-- Where a semicolon is no operator, a program without errors may go before any other one, with a
semicolon on a line between them. The units of the first program stay as they are, and those of the
second one are moved down, with its errors and their source lines. -/
theorem run_concatenated {o : Options} (ho : o.limit = none)
    (hsemicolon : o.table.precedence ';' ≤ 0) {a : List Char} {name : Option String}
    (ha : (o.run a name).success = true) (b : List Char) :
    let r := o.run (a ++ "\n;\n".toList ++ b) name
    let n := a.count '\n' + 2
    r.units = (o.run a name).units ++ (o.run b name).units.map (SourceUnit.moveDown n) ∧
      r.diagnostics = (o.run b name).diagnostics.map (Diagnostic.moveDown n) ∧
      r.tokenCount = (o.run a name).tokenCount + (o.run b name).tokenCount := by
  intro r n
  let base := a ++ between
  have hsource : a ++ following b = base ++ b := (List.append_assoc a between b).symm
  have hlines : base.count '\n' = n := List.count_append
  have hr : r = o.run (base ++ b) name := rfl
  have hnone : (o.run a name).units.filterMap SourceUnit.diagnostic? = [] := by
    rw [← diagnostics_run]
    exact List.isEmpty_iff.mp ha
  have hfirst : ∀ u ∈ (o.run a name).units, u.kind ≠ .failure :=
    (o.live_session a name).no_diagnostic_iff.mp hnone
  obtain ⟨t, hreaches, hrelated⟩ := reaches_second ho hsemicolon hfirst b
  rw [hsource] at hreaches
  have hlive := o.live_session (base ++ b) name
  have htrack := hreaches.keeps _ (fun _ hl => hl.advance) (onTrack_ofSource _ (base ++ b))
  obtain ⟨hsecond, hcount⟩ := Session.units_of_behindBy (lastLine_between a) (hreaches.live hlive)
    (o.live_session b name) htrack (onTrack_ofSource _ b) hrelated
  have hunits : r.units =
      (o.run a name).units ++ (o.run b name).units.map (SourceUnit.moveDown n) := by
    rw [hr, ← hlines]
    exact hreaches.units.trans (congrArg _ hsecond)
  refine ⟨hunits, ?_, ?_⟩
  · rw [hr, diagnostics_run, diagnostics_run, ← hr, hunits, List.filterMap_append, hnone,
      List.nil_append, List.filterMap_map, List.map_filterMap]
    exact List.filterMap_congr fun u _ => u.diagnostic?_moveDown n
  · rw [hr, tokenCount_run, tokenCount_run o b, hreaches.final, hcount]
    exact Nat.add_comm _ _

/-- The first program ends in a comment behind a name, and the second one starts with a group that
breaks off. -/
theorem run_concatenated_default :
    let a := "extern f(x)\nf # f".toList
    let b := "(1;\ny".toList
    let r := default.run (a ++ "\n;\n".toList ++ b) none
    (default.run a none).success = true ∧
      (default.run b none).diagnostics.map Diagnostic.location = [some ⟨"<stdin>", 1, 3⟩] ∧
      r.units = (default.run a none).units ++
        (default.run b none).units.map (SourceUnit.moveDown 3) ∧
      r.diagnostics.map Diagnostic.location = [some ⟨"<stdin>", 4, 3⟩] ∧
      r.tokenCount = (default.run a none).tokenCount + (default.run b none).tokenCount := by
  intro a b r
  have ha : (default.run a none).success = true := by decide +kernel
  have hlocation :
      (default.run b none).diagnostics.map Diagnostic.location = [some ⟨"<stdin>", 1, 3⟩] := by
    decide +kernel
  obtain ⟨hunits, hdiagnostics, hcount⟩ :=
    run_concatenated (o := default) rfl (by decide) ha b
  have hmoved : r.diagnostics.map Diagnostic.location =
      ((default.run b none).diagnostics.map Diagnostic.location).map
        (Option.map (Location.moveDown 3)) := by
    rw [hdiagnostics, List.map_map, List.map_map]
    rfl
  rw [hlocation] at hmoved
  exact ⟨ha, hlocation, hunits, hmoved, hcount⟩

end Options

end ExprFront
