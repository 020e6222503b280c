import ExprFront.Operator.Setting
import ExprFront.Operator.Spec
import ExprFront.Proofs.IntegerTexts

/-!
# What a specification is

A text is read as a specification exactly if its core, what white space around it leaves, is a
character, an equals sign and the text of an integer. Any other text is refused, with what is wrong
about it.
-/

namespace ExprFront
set_option autoImplicit false

/-! ## Cores -/

namespace Text

/-- The text is `core` with white space around it, and `core` has none at its ends. -/
structure IsCore (cs core : List Char) : Prop where
  around : ∃ lead trail, cs = lead ++ (core ++ trail) ∧ (∀ c ∈ lead, isSpace c = true) ∧
    ∀ c ∈ trail, isSpace c = true
  head : ∀ c, core.head? = some c → isSpace c = false
  last : ∀ c, core.getLast? = some c → isSpace c = false

theorem isCore_trim (cs : List Char) : IsCore cs (trim cs) := by
  let body := cs.dropWhile isSpace
  let trail := (body.reverse.takeWhile isSpace).reverse
  have hcs : cs = cs.takeWhile isSpace ++ body := List.takeWhile_append_dropWhile.symm
  have hbody : body = trim cs ++ trail := by
    rw [trim, stripBy, ← List.reverse_append, List.takeWhile_append_dropWhile, List.reverse_reverse]
  refine ⟨⟨cs.takeWhile isSpace, trail, by rw [← hbody, ← hcs], ?_, ?_⟩, ?_, ?_⟩
  · exact fun c hc => List.mem_takeWhile_imp hc
  · exact fun c hc => List.mem_takeWhile_imp (List.mem_reverse.mp hc)
  · intro c hc
    have hhead : body.head? = some c := by rw [hbody, List.head?_append, hc, Option.some_or]
    exact eq_false_of_head?_dropWhile hhead
  · intro c hc
    rw [trim, stripBy, List.getLast?_reverse] at hc
    exact eq_false_of_head?_dropWhile hc

theorem IsCore.trim_eq {cs core : List Char} (h : IsCore cs core) : trim cs = core := by
  obtain ⟨⟨lead, trail, rfl, hlead, htrail⟩, hhead, hlast⟩ := h
  cases core with
  | nil =>
    have hall : ∀ c ∈ lead ++ ([] ++ trail), isSpace c = true := by
      rw [List.nil_append, List.forall_mem_append]
      exact ⟨hlead, htrail⟩
    rw [trim, stripBy, List.dropWhile_eq_nil_iff.mpr hall]
    rfl
  | cons d ds =>
    have hfront : ∀ c, (d :: ds ++ trail).head? = some c → isSpace c = false := hhead
    have hback : ∀ c, (d :: ds).reverse.head? = some c → isSpace c = false := by
      intro c hc
      rw [List.head?_reverse] at hc
      exact hlast c hc
    have hreverse : ∀ c ∈ trail.reverse, isSpace c = true :=
      fun c hc => htrail c (List.mem_reverse.mp hc)
    rw [trim, stripBy, dropWhile_append_of_head hlead hfront, List.reverse_append,
      dropWhile_append_of_head hreverse hback, List.reverse_reverse]

theorem isCore_iff (cs core : List Char) : IsCore cs core ↔ trim cs = core :=
  ⟨IsCore.trim_eq, fun h => h ▸ isCore_trim cs⟩

end Text

/-! ## Cutting -/

theorem cutAtLast?_of_notMem {c : Char} {before after : List Char} (h : c ∉ after) :
    cutAtLast? c (before ++ c :: after) = some (before, after) := by
  have hall : ∀ d ∈ after.reverse, decide (d ≠ c) = true := by
    intro d hd
    exact decide_eq_true (ne_of_mem_of_not_mem (List.mem_reverse.mp hd) h)
  have hstop : ∀ d, (c :: before.reverse).head? = some d → decide (d ≠ c) = false := by
    rintro d ⟨⟩
    simp
  have hreverse : (before ++ c :: after).reverse = after.reverse ++ c :: before.reverse := by simp
  rw [cutAtLast?, hreverse, takeWhile_append_of_head hall hstop,
    dropWhile_append_of_head hall hstop]
  simp

theorem exists_of_cutAtLast? {c : Char} {cs before after : List Char}
    (h : cutAtLast? c cs = some (before, after)) : cs = before ++ c :: after ∧ c ∉ after := by
  have hsplit := List.takeWhile_append_dropWhile (p := fun d => decide (d ≠ c)) (l := cs.reverse)
  unfold cutAtLast? at h
  split at h
  · next d ds hdrop =>
    obtain ⟨rfl, rfl⟩ := Prod.mk.inj (Option.some.inj h)
    have hd : d = c := by
      have hstop := eq_false_of_head?_dropWhile (c := d) (by rw [hdrop]; rfl)
      simpa using hstop
    rw [hdrop, hd] at hsplit
    have hcs := congrArg List.reverse hsplit
    rw [List.reverse_append, List.reverse_cons, List.reverse_reverse, List.append_assoc] at hcs
    refine ⟨hcs.symm, fun hc => ?_⟩
    have hne := List.mem_takeWhile_imp (List.mem_reverse.mp hc)
    simp at hne
  · simp at h

/-- A text is cut at the last occurrence of a character. -/
theorem cutAtLast?_eq_some_iff (c : Char) (cs before after : List Char) :
    cutAtLast? c cs = some (before, after) ↔ cs = before ++ c :: after ∧ c ∉ after :=
  ⟨exists_of_cutAtLast?, fun ⟨hcs, hafter⟩ => hcs ▸ cutAtLast?_of_notMem hafter⟩

/-! ## Specifications -/

/-- The core of the text is a character and the text of a precedence, with the last equals sign
between them. -/
def HasParts (cs : List Char) (c : Char) (digits : List Char) : Prop :=
  Text.IsCore cs (c :: '=' :: digits) ∧ '=' ∉ digits

/-- The text gives an operator and its precedence. -/
def IsSpec (cs : List Char) (c : Char) (n : Int) : Prop :=
  ∃ digits, HasParts cs c digits ∧ Text.SpellsInteger digits n

/-- What is wrong with a text that is no specification. -/
inductive RefusedSpec (spec : String) : SpecFault → Prop
  | malformed (h : ∀ c digits, ¬ HasParts spec.toList c digits) : RefusedSpec spec (.malformed spec)
  | badPrecedence {c : Char} {digits : List Char} (h : HasParts spec.toList c digits)
      (hn : ∀ n, ¬ Text.SpellsInteger digits n) :
      RefusedSpec spec (.badPrecedence (String.ofList digits) spec)

theorem hasParts_iff (cs : List Char) (c : Char) (digits : List Char) :
    HasParts cs c digits ↔ cutAtLast? '=' (Text.trim cs) = some ([c], digits) := by
  rw [HasParts, Text.isCore_iff, cutAtLast?_eq_some_iff]
  rfl

theorem readSpec_of_integer {spec : String} {c : Char} {digits : List Char} {n : Int}
    (h : HasParts spec.toList c digits) (hn : Text.readInteger digits = .ok n) :
    readSpec spec = .ok (c, n) := by
  simp only [readSpec, (hasParts_iff _ c digits).mp h, hn]

theorem readSpec_of_no_integer {spec : String} {c : Char} {digits : List Char}
    {fault : Text.IntegerFault} (h : HasParts spec.toList c digits)
    (hn : Text.readInteger digits = .error fault) :
    readSpec spec = .error (.badPrecedence (String.ofList digits) spec) := by
  simp only [readSpec, (hasParts_iff _ c digits).mp h, hn]

theorem readSpec_of_no_parts {spec : String} (h : ∀ c digits, ¬ HasParts spec.toList c digits) :
    readSpec spec = .error (.malformed spec) := by
  unfold readSpec
  split
  · next c digits hcut => exact absurd ((hasParts_iff _ c digits).mpr hcut) (h c digits)
  · rfl

theorem IsSpec.isSpace_eq_false {cs : List Char} {c : Char} {n : Int} (h : IsSpec cs c n) :
    Text.isSpace c = false := by
  obtain ⟨digits, hparts, -⟩ := h
  exact hparts.1.head c rfl

theorem readSpec_of_isSpec {spec : String} {c : Char} {n : Int} (h : IsSpec spec.toList c n) :
    readSpec spec = .ok (c, n) := by
  obtain ⟨digits, hparts, hspells⟩ := h
  exact readSpec_of_integer hparts ((Text.readInteger_eq_ok_iff digits n).mpr hspells)

theorem readSpec_of_refusedSpec {spec : String} {fault : SpecFault} (h : RefusedSpec spec fault) :
    readSpec spec = .error fault := by
  cases h with
  | malformed h => exact readSpec_of_no_parts h
  | @badPrecedence c digits h hn =>
    cases hread : Text.readInteger digits with
    | ok n => exact absurd ((Text.readInteger_eq_ok_iff digits n).mp hread) (hn n)
    | error fault => exact readSpec_of_no_integer h hread

/-- A text is a specification, or there is something wrong with it. -/
theorem isSpec_or_refusedSpec (spec : String) :
    (∃ c n, IsSpec spec.toList c n) ∨ ∃ fault, RefusedSpec spec fault := by
  by_cases hparts : ∃ c digits, HasParts spec.toList c digits
  · obtain ⟨c, digits, h⟩ := hparts
    by_cases hn : ∃ n, Text.SpellsInteger digits n
    · obtain ⟨n, hn⟩ := hn
      exact .inl ⟨c, n, digits, h, hn⟩
    · exact .inr ⟨_, .badPrecedence h (not_exists.mp hn)⟩
  · exact .inr ⟨_, .malformed fun c digits h => hparts ⟨c, digits, h⟩⟩

theorem readSpec_eq_ok_iff (spec : String) (c : Char) (n : Int) :
    readSpec spec = .ok (c, n) ↔ IsSpec spec.toList c n := by
  refine ⟨fun h => ?_, readSpec_of_isSpec⟩
  obtain ⟨d, m, hspec⟩ | ⟨fault, hfault⟩ := isSpec_or_refusedSpec spec
  · have hread := readSpec_of_isSpec hspec
    rw [h] at hread
    obtain ⟨rfl, rfl⟩ := Prod.mk.inj (Except.ok.inj hread)
    exact hspec
  · rw [readSpec_of_refusedSpec hfault] at h
    simp at h

theorem readSpec_eq_error_iff (spec : String) (fault : SpecFault) :
    readSpec spec = .error fault ↔ RefusedSpec spec fault := by
  refine ⟨fun h => ?_, readSpec_of_refusedSpec⟩
  obtain ⟨c, n, hspec⟩ | ⟨fault', hfault⟩ := isSpec_or_refusedSpec spec
  · rw [readSpec_of_isSpec hspec] at h
    simp at h
  · have hread := readSpec_of_refusedSpec hfault
    rw [h] at hread
    obtain rfl := Except.error.inj hread
    exact hfault

/-- Reading a specification gives what the specification says, which is never a blank operator and
can be set in every table. Every other text is refused, for what is wrong with it. -/
theorem readSpec_exact (spec : String) :
    (∀ c n, readSpec spec = .ok (c, n) ↔ IsSpec spec.toList c n) ∧
      (∀ c n, IsSpec spec.toList c n → Text.isSpace c = false ∧ ∀ table : OperatorTable,
        table.install (String.singleton c) (.integer n) = .ok (table.insert c n)) ∧
      (∀ fault, readSpec spec = .error fault ↔ RefusedSpec spec fault) ∧
      ((∃ c n, IsSpec spec.toList c n) ∨ ∃ fault, readSpec spec = .error fault) := by
  refine ⟨readSpec_eq_ok_iff spec, fun c n h => ⟨h.isSpace_eq_false, fun table =>
    table.install_singleton c n⟩, readSpec_eq_error_iff spec, ?_⟩
  exact (isSpec_or_refusedSpec spec).imp id fun ⟨fault, h⟩ => ⟨fault, readSpec_of_refusedSpec h⟩

/-- The equals sign as an operator, with padding, a sign, an underscore and a digit of another script
in its precedence. -/
theorem readSpec_exact_equals :
    let spec := "\u2003==\u00a0-1_\u0663 "
    IsSpec spec.toList '=' (-13) ∧ Text.isSpace '=' = false ∧ ∀ table : OperatorTable,
      table.install (String.singleton '=') (.integer (-13)) = .ok (table.insert '=' (-13)) := by
  have hread : readSpec "\u2003==\u00a0-1_\u0663 " = .ok ('=', -13) := rfl
  have hspec := ((readSpec_exact _).1 '=' (-13)).mp hread
  exact ⟨hspec, (readSpec_exact _).2.1 '=' (-13) hspec⟩

end ExprFront
