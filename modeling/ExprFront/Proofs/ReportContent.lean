import ExprFront.Program.CodeOptions
import ExprFront.Proofs.JsonReading
import ExprFront.Proofs.Reports

/-!
# Reports read back

Every entry tells the content of its unit, and the text of a report reads back as its entries. So a
report determines the contents of the units, whatever the style, up to names that are the same as
16-bit units.
-/

namespace ExprFront
set_option autoImplicit false

theorem exists_of_bind_eq_ok {ε α β : Type} {x : Except ε α} {f : α → Except ε β} {b : β}
    (h : x >>= f = .ok b) : ∃ a, x = .ok a ∧ f a = .ok b := by
  cases x with
  | error e => exact absurd h (by simp [bind, Except.bind])
  | ok a => exact ⟨a, rfl, h⟩

/-! ## Names and signatures -/

namespace JsonTree

theorem name?_nameEntry (name : CodeText) : (nameEntry name).tree.name? = some name.joined := by
  simp [nameEntry, name?]

theorem mapM_name?_params (params : List String) :
    (Json.trees (params.map fun param : String => nameEntry param)).mapM name? =
      some (params.map CodeText.ofString) := by
  induction params with
  | nil => rfl
  | cons param params ih =>
    rw [List.map_cons, Json.trees, List.mapM_cons, name?_nameEntry, ih, CodeText.joined_ofString]
    rfl

theorem signature?_entry (name : CodeText) (params : List String) :
    (signatureEntry name params).tree.signature? =
      some (name.joined, params.map CodeText.ofString) := by
  simp [signatureEntry, signature?, name?_nameEntry, mapM_name?_params]

end JsonTree

theorem Naming.joined_place (n : Naming) (l : Location) :
    (n.place l).joined = n.joined.place l := by
  have hcolon : CodeText.ofString (":" ++ l.place) = .char ':' :: CodeText.ofString l.place :=
    CodeText.ofString_append _ _
  rw [place, place, hcolon, CodeText.joined_append_char, CodeText.joined_ofString]
  rfl

/-! ## Trees -/

namespace Node

mutual

/-- The entry of an expression tells its content. -/
theorem content?_of_entry : ∀ {n : Node} {j : Json}, n.entry = .ok j →
    ∃ c, n.content? = some c ∧ j.tree.content? = some c
  | .number x _, j, h => by
    obtain rfl := Except.ok.inj h
    refine ⟨.number x.text, rfl, ?_⟩
    simp [JsonTree.content?, x.fullText_jsonText]
  | .variable name _, j, h => by
    obtain rfl := Except.ok.inj h
    refine ⟨.variable name, rfl, ?_⟩
    simp [JsonTree.content?]
  | .binary op lhs rhs _, j, h => by
    rw [entry] at h
    obtain ⟨l, hl, h⟩ := exists_of_bind_eq_ok h
    obtain ⟨r, hr, h⟩ := exists_of_bind_eq_ok h
    obtain rfl := Except.ok.inj h
    obtain ⟨cl, hcl, htl⟩ := content?_of_entry hl
    obtain ⟨cr, hcr, htr⟩ := content?_of_entry hr
    refine ⟨.binary (op.map CodeText.ofString) cl cr, by rw [content?, hcl, hcr]; rfl, ?_⟩
    have hop : ((op.map fun o : String => Json.text o).getD .null).tree.textOrNull? =
        some (op.map CodeText.ofString) := by
      cases op with
      | none => rfl
      | some o => exact congrArg (fun t => some (some t)) (CodeText.joined_ofString o)
    simp [JsonTree.content?, hop, htl, htr]
  | .call callee args _, j, h => by
    rw [entry] at h
    obtain ⟨js, hjs, h⟩ := exists_of_bind_eq_ok h
    obtain rfl := Except.ok.inj h
    obtain ⟨cs, hcs, hts⟩ := contents?_of_entries hjs
    refine ⟨.call callee cs, by rw [content?, hcs]; rfl, ?_⟩
    simp [JsonTree.content?, hts]
  | .prototype _, j, h | .function _ _, j, h | .datum _, j, h => by
    simp [entry] at h

theorem contents?_of_entries : ∀ {ns : List Node} {js : List Json}, entries ns = .ok js →
    ∃ cs, contents? ns = some cs ∧ JsonTree.contents? (Json.trees js) = some cs
  | [], js, h => by
    obtain rfl := Except.ok.inj h
    exact ⟨[], rfl, rfl⟩
  | n :: ns, js, h => by
    rw [entries] at h
    obtain ⟨j, hj, h⟩ := exists_of_bind_eq_ok h
    obtain ⟨js, hjs, h⟩ := exists_of_bind_eq_ok h
    obtain rfl := Except.ok.inj h
    obtain ⟨c, hc, ht⟩ := content?_of_entry hj
    obtain ⟨cs, hcs, hts⟩ := contents?_of_entries hjs
    refine ⟨c :: cs, by rw [contents?, hc, hcs]; rfl, ?_⟩
    rw [Json.trees, JsonTree.contents?, ht, hts]
    rfl

end

end Node

/-! ## Units -/

namespace SourceUnit

theorem functionEntry_told {type : String} {name : CodeText} {f : Definition} {j : Json}
    (h : (functionEntry type name f).map some = .ok (some j)) :
    ∃ b c, f.body.content? = some c ∧ b.tree.content? = some c ∧
      j = .object [("type", .text type), ("prototype", signatureEntry name f.signature.params),
        ("body", b)] := by
  cases hf : functionEntry type name f with
  | error e => simp [hf, Except.map] at h
  | ok j' =>
    rw [hf] at h
    obtain rfl : j' = j := Option.some.inj (Except.ok.inj h)
    obtain ⟨b, hb, hj⟩ := exists_of_bind_eq_ok hf
    obtain ⟨c, hc, ht⟩ := Node.content?_of_entry hb
    exact ⟨b, c, hc, ht, (Except.ok.inj hj).symm⟩

/-- The entry of a unit tells its content, with the halves of pairs put together in its names. -/
theorem contentUnder?_of_entry {n : Naming} {u : SourceUnit} {j : Json}
    (h : u.entryUnder? n = .ok (some j)) :
    ∃ c, u.contentUnder? n.joined = some c ∧ j.tree.unitContent? = some c := by
  cases u with
  | definition f =>
    obtain ⟨b, c, hc, ht, rfl⟩ := functionEntry_told h
    refine ⟨.definition f.signature.name (f.signature.params.map CodeText.ofString) c,
      by rw [contentUnder?, hc]; rfl, ?_⟩
    simp [JsonTree.unitContent?, TokenKind.reportName, JsonTree.signature?_entry, ht]
  | declaration p =>
    obtain rfl := Option.some.inj (Except.ok.inj h)
    refine ⟨.declaration p.name (p.params.map CodeText.ofString), rfl, ?_⟩
    simp [Prototype.entry, JsonTree.unitContent?, TokenKind.reportName, JsonTree.signature?_entry]
  | expression f =>
    obtain ⟨b, c, hc, ht, rfl⟩ := functionEntry_told h
    refine ⟨.expression (n.joined.wrapper f.signature.name)
      (f.signature.params.map CodeText.ofString) c, by rw [contentUnder?, hc]; rfl, ?_⟩
    simp [JsonTree.unitContent?, JsonTree.signature?_entry, ht, Naming.joined]
  | failure d =>
    cases d with
    | none => exact absurd (Except.ok.inj h) (by simp)
    | some d =>
      obtain rfl := Option.some.inj (Except.ok.inj h)
      refine ⟨.failure d.message (d.location.map n.joined.place), rfl, ?_⟩
      have hplace : ((d.location.map fun l => Json.text (n.place l)).getD .null).tree.textOrNull? =
          some (d.location.map n.joined.place) := by
        cases d.location with
        | none => rfl
        | some l => exact congrArg (fun t => some (some t)) (n.joined_place l)
      simp [diagnosticEntry, JsonTree.unitContent?, JsonTree.text?, hplace]

end SourceUnit

/-- The entries tell the contents of the units. -/
theorem mapM_contentUnder?_of_entries {n : Naming} {units : List SourceUnit} {entries : List Json}
    (h : List.Forall₂ (fun u j => u.entryUnder? n = .ok (some j)) units entries) :
    ∃ cs, units.mapM (SourceUnit.contentUnder? n.joined) = some cs ∧
      (entries.map Json.tree).mapM JsonTree.unitContent? = some cs := by
  induction h with
  | nil => exact ⟨[], rfl, rfl⟩
  | @cons u j units entries hu hs ih =>
    obtain ⟨c, hc, ht⟩ := SourceUnit.contentUnder?_of_entry hu
    obtain ⟨cs, hcs, hts⟩ := ih
    refine ⟨c :: cs, ?_, ?_⟩
    · rw [List.mapM_cons, hc, hcs]
      rfl
    · rw [List.map_cons, List.mapM_cons, ht, hts]
      rfl

/-- The text of a report reads back as its entries, and these tell the contents of the units. -/
theorem readReport_reportUnder (n : Naming) (s : Json.Style) {units : List SourceUnit}
    (h : ∀ u ∈ units, u.Shown) :
    ∃ entries text cs, entriesUnder n units = .ok entries ∧ reportUnder n s units = .ok text ∧
      JsonTree.read text = some (.array (entries.map Json.tree)) ∧
      units.mapM (SourceUnit.contentUnder? n.joined) = some cs ∧ readReport text = some cs := by
  obtain ⟨entries, hentries, hall⟩ := entriesUnder_ok n h
  obtain ⟨cs, hcs, hts⟩ := mapM_contentUnder?_of_entries hall
  have hreport : reportUnder n s units = .ok (Json.document s (.array entries)) := by
    rw [reportUnder, hentries]
    rfl
  have hread : JsonTree.read (Json.document s (.array entries)) =
      some (.array (entries.map Json.tree)) := by
    rw [Json.read_document, Json.tree, Json.trees_eq_map]
  refine ⟨entries, _, cs, hentries, hreport, hread, hcs, ?_⟩
  rw [readReport, hread]
  exact hts

/-! ## Runs -/

namespace CodeOptions

theorem units_shown (o : CodeOptions) (source : List Char) : ∀ u ∈ o.units source, u.Shown :=
  (Options.live_session ⟨o.table, "", "", o.limit⟩ source none).units_shown

/-- Reports never fail, so that they can be compared by what they have in place of a text. -/
theorem report_eq_of_toOption {o o' : CodeOptions} {source source' : List Char} {s s' : Json.Style}
    (h : (o.report source s).toOption = (o'.report source' s').toOption) :
    o.report source s = o'.report source' s' := by
  obtain ⟨-, text, -, -, htext, -⟩ := readReport_reportUnder o.naming s (o.units_shown source)
  obtain ⟨-, text', -, -, htext', -⟩ := readReport_reportUnder o'.naming s' (o'.units_shown source')
  have htext : o.report source s = .ok text := htext
  have htext' : o'.report source' s' = .ok text' := htext'
  rw [htext, htext'] at h ⊢
  exact congrArg Except.ok (Option.some.inj h)

/-- The report of a run has a text, in every style and whatever its names are. It reads back as the
entries of the report, and these tell the contents of all units, with the halves of pairs put
together in both names. So two runs whose reports have the same text, whatever their sources,
options and styles, have units of the same contents, but for names that differ only in halves and
pairs. -/
theorem run_readReport (o : CodeOptions) (source : List Char) (s : Json.Style) :
    (∃ entries text cs, o.entries source = .ok entries ∧ o.report source s = .ok text ∧
      JsonTree.read text = some (.array (entries.map Json.tree)) ∧
      o.joined.contents source = some cs ∧ readReport text = some cs ∧
      (o.Unpaired → o.contents source = some cs)) ∧
    ∀ (o' : CodeOptions) (source' : List Char) (s' : Json.Style),
      o.report source s = o'.report source' s' →
        o.joined.contents source = o'.joined.contents source' ∧
        (o.Unpaired → o'.Unpaired → o.contents source = o'.contents source') := by
  obtain ⟨entries, text, cs, hentries, htext, hread, hcs, hback⟩ :=
    readReport_reportUnder o.naming s (o.units_shown source)
  have hcs : o.joined.contents source = some cs := hcs
  refine ⟨⟨entries, text, cs, hentries, htext, hread, hcs, hback, ?_⟩, ?_⟩
  · intro h
    rwa [h.joined_eq] at hcs
  · intro o' source' s' hsame
    obtain ⟨-, text', cs', -, htext', -, hcs', hback'⟩ :=
      readReport_reportUnder o'.naming s' (o'.units_shown source')
    have htexts : Except.ok text = Except.ok text' := htext.symm.trans (hsame.trans htext')
    obtain rfl := Except.ok.inj htexts
    have hcontents : o.joined.contents source = o'.joined.contents source' :=
      hcs.trans ((hback.symm.trans hback').trans hcs'.symm)
    refine ⟨hcontents, fun h h' => ?_⟩
    rwa [h.joined_eq, h'.joined_eq] at hcontents

/-- A lone half in either name, and sources with the same units in other places. -/
theorem run_readReport_halves :
    let o : CodeOptions := ⟨.default, [.low 0x200, .high 0x3D], [.high 0x3D, .char 'a'], none⟩
    (o.units "f(1.5)+x".toList).map SourceUnit.kind = [.expression] ∧ o.Unpaired ∧
      o.contents "f(1.5)+x".toList = o.contents "; f (1.50)  + x".toList := by
  intro o
  have hkinds : (o.units "f(1.5)+x".toList).map SourceUnit.kind = [.expression] := by decide +kernel
  have hunpaired : o.Unpaired :=
    ⟨CodeText.unpaired_iff.mpr (by decide), CodeText.unpaired_iff.mpr (by decide)⟩
  have htexts : (o.report "f(1.5)+x".toList .compact).toOption =
      (o.report "; f (1.50)  + x".toList .compact).toOption := by
    decide +kernel
  have hsame := report_eq_of_toOption htexts
  exact ⟨hkinds, hunpaired, ((run_readReport o "f(1.5)+x".toList .compact).2 o
    "; f (1.50)  + x".toList .compact hsame).2 hunpaired hunpaired⟩

/-- A name that consists of the two halves of a character and the name that is this character have
the same report. It reads back with the second one, so that the first one is lost. -/
theorem report_pair :
    let halves : CodeOptions := ⟨.default, [.high 0x3D, .low 0x200], "<stdin>", none⟩
    let whole : CodeOptions := ⟨.default, [.char (Char.ofNat 0x1F600)], "<stdin>", none⟩
    halves.report ['1'] defaultStyle = whole.report ['1'] defaultStyle ∧
      (∃ text, halves.report ['1'] defaultStyle = .ok text ∧
        readReport text = whole.contents ['1']) ∧
      (halves.contents ['1']).map (List.map UnitContent.name?) =
        some [some [.high 0x3D, .low 0x200]] ∧
      (whole.contents ['1']).map (List.map UnitContent.name?) =
        some [some [.char (Char.ofNat 0x1F600)]] ∧
      halves.contents ['1'] ≠ whole.contents ['1'] := by
  intro halves whole
  have htexts : (halves.report ['1'] defaultStyle).toOption =
      (whole.report ['1'] defaultStyle).toOption := by
    decide +kernel
  have hjoined : halves.joined = whole := rfl
  obtain ⟨-, text, cs, -, htext, -, hcs, hback⟩ :=
    readReport_reportUnder halves.naming defaultStyle (halves.units_shown ['1'])
  have hcs : halves.joined.contents ['1'] = some cs := hcs
  have hhalves : (halves.contents ['1']).map (List.map UnitContent.name?) =
      some [some [.high 0x3D, .low 0x200]] := by
    decide +kernel
  have hwhole : (whole.contents ['1']).map (List.map UnitContent.name?) =
      some [some [.char (Char.ofNat 0x1F600)]] := by
    decide +kernel
  refine ⟨report_eq_of_toOption htexts, ⟨text, htext, ?_⟩, hhalves, hwhole, ?_⟩
  · rw [hback, ← hcs, hjoined]
  · intro hsame
    rw [hsame, hwhole] at hhalves
    exact absurd hhalves (by decide)

end CodeOptions

end ExprFront
