import ExprFront.Proofs.ReportContent
import ExprFront.Proofs.Simulation

/-!
# The names of a run

A run reads neither the name of bare expressions nor the name of its source. Under other names its
units are the same but for these. So a run without names, in whose report the names are put in, has
the report of the run with the names.
-/

namespace ExprFront
set_option autoImplicit false

/-! ## The name of bare expressions -/

def SourceUnit.rename (name : String) : SourceUnit → SourceUnit
  | .expression f => .expression ⟨{ f.signature with name := name }, f.body⟩
  | u => u

@[simp] theorem SourceUnit.rename_kind (name : String) (u : SourceUnit) :
    (u.rename name).kind = u.kind := by
  cases u <;> rfl

def Turn.rename (name : String) : Turn → Turn
  | .unit u => .unit (u.rename name)
  | t => t

@[simp] theorem Turn.rename_unit? (name : String) (t : Turn) :
    (t.rename name).unit? = t.unit?.map (SourceUnit.rename name) := by
  cases t <;> rfl

theorem Session.continues_rename (name : String) (t : Turn) :
    continues (t.rename name) = continues t := by
  cases t <;> rfl

namespace Parser
variable (name : String) (p : Parser)

def rename : Parser := { p with anonymous := name }

theorem prime_rename : (p.rename name).prime = p.prime.rename name := by
  show (if p.current.isNone then p.advance.rename name else p.rename name) = _
  unfold prime
  split <;> rfl

section
variable {σ α : Type}

theorem attempt_rename (step : σ → Token → Step σ α) (s : σ) :
    (p.rename name).attempt step s = Prod.map id (rename name) (p.attempt step s) := by
  have hcurrent : (p.rename name).current = p.current := rfl
  unfold attempt
  rw [hcurrent]
  cases p.current with
  | none => rfl
  | some t =>
    show (p.rename name).settle ((Lookahead.mk t p.scanner).run step s) =
      Prod.map id (rename name) (p.settle ((Lookahead.mk t p.scanner).run step s))
    generalize (Lookahead.mk t p.scanner).run step s = r
    rcases r with ⟨_ | _, l⟩ <;> rfl

theorem concludeUnit_rename {make make' : α → SourceUnit} (h : ∀ a, make' a = (make a).rename name)
    (reported : Nat) (r : Attempt α × Parser) :
    concludeUnit make' reported (Prod.map id (rename name) r) =
      Prod.map (SourceUnit.rename name) (rename name) (concludeUnit make reported r) := by
  rcases r with ⟨a | _ | _, q⟩
  · exact congrArg (·, q.rename name) (h a)
  · rfl
  · rfl

end

theorem definition_rename :
    (p.rename name).definition = Prod.map id (rename name) p.definition :=
  p.advance.attempt_rename name (DefinitionState.step p.table) (.signature .start)

theorem declaration_rename :
    (p.rename name).declaration = Prod.map id (rename name) p.declaration :=
  p.advance.attempt_rename name SignatureState.step .start

theorem expression_rename :
    (p.rename name).expression = Prod.map id (rename name) p.expression :=
  p.attempt_rename name (ExpressionState.step p.table (some 0)) .start

/-- A bare expression is wrapped under the other name, and nothing else changes. -/
theorem unit_rename (t : Token) :
    (p.rename name).unit t = Prod.map (SourceUnit.rename name) (rename name) (p.unit t) := by
  by_cases hd : t.lexeme = .define
  · rw [unit_define hd, unit_define hd, definition_rename]
    apply concludeUnit_rename
    exact fun _ => rfl
  · by_cases hx : t.lexeme = .external
    · rw [unit_external hx, unit_external hx, declaration_rename]
      apply concludeUnit_rename
      exact fun _ => rfl
    · rw [unit_expression hd hx, unit_expression hd hx, expression_rename]
      apply concludeUnit_rename
      exact fun _ => rfl

end Parser

namespace Session
variable (name : String)

def rename (s : Session) : Session := { s with parser := s.parser.rename name }

theorem dispatch_rename (s : Session) :
    (s.rename name).dispatch = Prod.map (Turn.rename name) (rename name) s.dispatch := by
  have hparser : (s.rename name).parser.prime = s.parser.prime.rename name :=
    s.parser.prime_rename name
  have hcurrent : (s.parser.prime.rename name).current = s.parser.prime.current := rfl
  simp only [dispatch, hparser, hcurrent]
  cases s.parser.prime.current with
  | none => rfl
  | some t =>
    by_cases he : t.isEnd = true
    · simp only [he, if_true]
      rfl
    · by_cases hs : t.lexeme = .char ';'
      · simp only [he, hs, if_true, Bool.false_eq_true, if_false]
        rfl
      · simp only [he, hs, if_false, Bool.false_eq_true, Parser.unit_rename]
        generalize s.parser.prime.unit t = r
        simp only [Prod.map, Turn.rename, rename, stageAfter, SourceUnit.rename_kind]

theorem turn_rename (s : Session) :
    (s.rename name).turn = Prod.map (Turn.rename name) (rename name) s.turn := by
  have hstage : (s.rename name).stage = s.stage := rfl
  have hfull : (s.rename name).parser.errors.isFull = s.parser.errors.isFull := rfl
  unfold turn
  rw [hstage, hfull]
  cases s.stage with
  | finished => rfl
  | running => exact s.dispatch_rename name
  | afterFailure =>
    cases s.parser.errors.isFull with
    | true => rfl
    | false => exact s.dispatch_rename name

theorem unitsOf_rename (s : Session) :
    unitsOf (s.rename name).beats = (unitsOf s.beats).map (SourceUnit.rename name) := by
  induction hn : s.parser.remaining using Nat.strongRecOn generalizing s with
  | ind n ih =>
    have hlt := s.turn_remaining_lt
    have hrename := s.turn_rename name
    generalize ht : s.turn = r at hlt hrename
    cases hc : continues r.1 with
    | true =>
      have hc' : continues (r.1.rename name) = true := by rw [continues_rename, hc]
      rw [unitsOf_of_turn hrename hc', unitsOf_of_turn ht hc, ih _ (hn ▸ hlt hc) r.2 rfl,
        Turn.rename_unit?, Option.toList_map, List.map_append]
    | false =>
      have hc' : continues (r.1.rename name) = false := by rw [continues_rename, hc]
      rw [unitsOf_of_last_turn hrename hc', unitsOf_of_last_turn ht hc]
      rfl

end Session

/-! ## The name of the source -/

def Location.rename (filename : String) (l : Location) : Location := { l with filename := filename }

def Lookahead.rename (filename : String) (l : Lookahead) : Lookahead :=
  ⟨l.token.relocate (Location.rename filename), { l.scanner with filename := filename }⟩

/-- Tokens are scanned alike under every name. -/
theorem simulation_rename (filename : String) :
    Simulation (Location.rename filename) id (fun l m => m = l.rename filename) SameCounts where
  token := by
    rintro l m rfl
    rfl
  advance := by
    rintro l m rfl
    rfl
  add := fun d d' h => h.add d d'
  full := SameCounts.isFull_eq

/-! ## Entries -/

section
variable (f : Location → Location)

namespace Node

mutual

/-- Entries do not tell the places of nodes. -/
theorem entry_relocate : ∀ {n : Node} {j : Json}, n.entry = .ok j → (n.relocate f).entry = .ok j
  | .number x _, j, h | .variable name _, j, h => h
  | .binary op lhs rhs _, j, h => by
    rw [entry] at h
    obtain ⟨l, hl, h⟩ := exists_of_bind_eq_ok h
    obtain ⟨r, hr, h⟩ := exists_of_bind_eq_ok h
    rw [relocate, entry, entry_relocate hl, entry_relocate hr]
    exact h
  | .call callee args _, j, h => by
    rw [entry] at h
    obtain ⟨js, hjs, h⟩ := exists_of_bind_eq_ok h
    rw [relocate, entry, entries_relocate hjs]
    exact h
  | .prototype _, j, h | .function _ _, j, h | .datum _, j, h => by
    simp [entry] at h

theorem entries_relocate : ∀ {ns : List Node} {js : List Json}, entries ns = .ok js →
    entries (relocateAll f ns) = .ok js
  | [], js, h => h
  | n :: ns, js, h => by
    rw [entries] at h
    obtain ⟨j, hj, h⟩ := exists_of_bind_eq_ok h
    obtain ⟨js', hjs, h⟩ := exists_of_bind_eq_ok h
    rw [relocateAll, entries, entry_relocate hj, entries_relocate hjs]
    exact h

end

end Node

namespace SourceUnit

theorem functionEntry_relocate {type : String} {name : CodeText} {d : Definition} {j : Json}
    (h : (functionEntry type name d).map some = .ok (some j)) :
    (functionEntry type name (d.relocate f)).map some = .ok (some j) := by
  cases hd : d.body.entry with
  | error e => simp [functionEntry, hd, bind, Except.bind, Except.map] at h
  | ok b =>
    rw [functionEntry, hd] at h
    rw [functionEntry, Definition.relocate, Node.entry_relocate f hd]
    exact h

variable {f} {n m : Naming}

/-- A unit that is moved has the same entry, if the names are such that its places look the same. -/
theorem entryUnder?_relocate (hwrapper : m.wrapper = n.wrapper)
    (hplace : ∀ l, m.place (f l) = n.place l) {u : SourceUnit} {j : Json}
    (h : u.entryUnder? n = .ok (some j)) : (u.relocate f).entryUnder? m = .ok (some j) := by
  cases u with
  | definition d => exact functionEntry_relocate f h
  | declaration p => exact h
  | expression d =>
    rw [relocate, entryUnder?, hwrapper]
    exact functionEntry_relocate f h
  | failure d =>
    rw [← h, relocate, entryUnder?, entryUnder?, Option.map_map]
    have hentry : diagnosticEntry m ∘ Diagnostic.relocate f = diagnosticEntry n := by
      funext d
      simp only [Function.comp_apply, diagnosticEntry, Diagnostic.relocate, Option.map_map,
        Function.comp_def, hplace]
      rfl
    rw [hentry]

theorem entryUnder?_rename (name : String) (u : SourceUnit) :
    (u.rename name).entryUnder? n =
      u.entryUnder? { n with wrapper := fun _ => n.wrapper name } := by
  cases u <;> rfl

end SourceUnit

variable {f} {n m : Naming}

theorem entriesUnder_relocate (hwrapper : m.wrapper = n.wrapper)
    (hplace : ∀ l, m.place (f l) = n.place l) {units : List SourceUnit}
    (h : ∀ u ∈ units, u.Shown) :
    entriesUnder m (units.map (SourceUnit.relocate f)) = entriesUnder n units := by
  have hmap : (units.map (SourceUnit.relocate f)).mapM (SourceUnit.entryUnder? m) =
      units.mapM (SourceUnit.entryUnder? n) := by
    induction units with
    | nil => rfl
    | cons u units ih =>
      obtain ⟨hu, hus⟩ := List.forall_mem_cons.mp h
      obtain ⟨j, hj⟩ := hu.entry n
      rw [List.map_cons, List.mapM_cons, List.mapM_cons, ih hus, hj,
        SourceUnit.entryUnder?_relocate hwrapper hplace hj]
  rw [entriesUnder, hmap]
  rfl

end

theorem entriesUnder_rename (n : Naming) (name : String) (units : List SourceUnit) :
    entriesUnder n (units.map (SourceUnit.rename name)) =
      entriesUnder { n with wrapper := fun _ => n.wrapper name } units := by
  have hentry : SourceUnit.entryUnder? n ∘ SourceUnit.rename name =
      SourceUnit.entryUnder? { n with wrapper := fun _ => n.wrapper name } :=
    funext (SourceUnit.entryUnder?_rename name)
  rw [entriesUnder, List.mapM_map]
  exact congrArg (fun g => units.mapM g >>= fun entries => pure (entries.filterMap id)) hentry

/-! ## Runs -/

namespace Options

/-- The report of a run with given names is that of the run without names into which the names are
put. -/
theorem coded_entries (o : Options) (source : List Char) (name : Option String) :
    (o.coded name).entries source = reportEntries (o.run source name).units := by
  let start (anonymous filename : String) : Session :=
    .ofParser (.ofScanner (.ofSource source filename) o.table anonymous o.limit)
  let wrapped : Naming := ⟨fun _ => o.anonymous, CodeText.ofString⟩
  have hblank : (o.coded name).units source = unitsOf (start "" "").beats := rfl
  have hunits : (o.run source name).units =
      (unitsOf (start "" (o.nameOf name)).beats).map (SourceUnit.rename o.anonymous) :=
    Session.unitsOf_rename o.anonymous (start "" (o.nameOf name))
  have hrelated : (start "" "").Related (fun l m => m = l.rename (o.nameOf name)) SameCounts
      (start "" (o.nameOf name)) := ⟨⟨rfl, rfl, rfl, rfl, rfl⟩, rfl, rfl⟩
  obtain ⟨hbeats, -⟩ := (simulation_rename (o.nameOf name)).beats hrelated
  have hshown : ∀ u ∈ unitsOf (start "" "").beats, u.Shown := (o.coded name).units_shown source
  have hshown' : ∀ u ∈ unitsOf (start "" (o.nameOf name)).beats, u.Shown :=
    (Options.live_session ⟨o.table, "", o.nameOf name, o.limit⟩ source none).units_shown
  calc (o.coded name).entries source
      = entriesUnder (o.coded name).naming (unitsOf (start "" "").beats) := rfl
    _ = entriesUnder wrapped
          ((unitsOf (start "" "").beats).map
            (SourceUnit.relocate (Location.rename (o.nameOf name)))) :=
        (entriesUnder_relocate (f := Location.rename (o.nameOf name)) (n := (o.coded name).naming)
          (m := wrapped) rfl (fun _ => rfl) hshown).symm
    _ = entriesUnder wrapped
          ((unitsOf (start "" (o.nameOf name)).beats).map (SourceUnit.relocate id)) := by
        rw [hbeats]
    _ = entriesUnder wrapped (unitsOf (start "" (o.nameOf name)).beats) :=
        entriesUnder_relocate (f := id) (n := wrapped) rfl (fun _ => rfl) hshown'
    _ = reportEntries (o.run source name).units := by
        rw [hunits]
        exact (entriesUnder_rename .plain o.anonymous _).symm

theorem coded_report (o : Options) (source : List Char) (name : Option String) (s : Json.Style) :
    (o.coded name).report source s = report s (o.run source name).units := by
  have hentries := o.coded_entries source name
  exact congrArg (fun r => r >>= fun entries => pure (Json.document s (.array entries))) hentries

theorem coded_unpaired (o : Options) (name : Option String) : (o.coded name).Unpaired :=
  ⟨CodeText.unpaired_iff.mpr (CodeText.joined_ofString o.anonymous),
    CodeText.unpaired_iff.mpr (CodeText.joined_ofString (o.nameOf name))⟩

/-- Both reports have the same text, so that they tell of the same contents. -/
theorem coded_contents (o : Options) (source : List Char) (name : Option String) :
    (o.coded name).contents source =
      (o.run source name).units.mapM (SourceUnit.contentUnder? .plain) := by
  have hplain : Naming.plain.joined = .plain := by
    simp only [Naming.joined, Naming.plain, CodeText.joined_ofString]
  obtain ⟨-, text, cs, -, htext, -, hcs, hback⟩ :=
    readReport_reportUnder (o.coded name).naming defaultStyle ((o.coded name).units_shown source)
  obtain ⟨-, text', cs', -, htext', -, hcs', hback'⟩ :=
    readReport_reportUnder .plain defaultStyle (o.live_session source name).units_shown
  have hcs : (o.coded name).joined.contents source = some cs := hcs
  have htexts : Except.ok text = Except.ok text' :=
    htext.symm.trans ((o.coded_report source name defaultStyle).trans htext')
  obtain rfl := Except.ok.inj htexts
  rw [(o.coded_unpaired name).joined_eq] at hcs
  rw [hplain] at hcs'
  exact hcs.trans ((hback.symm.trans hback').trans hcs'.symm)

end Options

end ExprFront
