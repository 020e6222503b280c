import ExprFront.Tree.OutlinePrinter

/-!
# What a printer writes

A visit appends the lines of a node to what is written and comes back to its level, unless the node
is refused. So a print gives the outline of its node, in whatever state the printer is.
-/

namespace ExprFront
set_option autoImplicit false

namespace OutlinePrinter

/-- From the state `p`, the lines have been written and the level is as before, or there has been
the refusal. -/
inductive Written (p : OutlinePrinter) :
    Except TreeFault (List OutlineLine) → EStateM.Result TreeFault OutlinePrinter Unit → Prop
  | ok (ls : List OutlineLine) :
    Written p (.ok ls) (.ok () ⟨p.output ++ ls.map OutlineLine.text, p.level⟩)
  | error (fault : TreeFault) (q : OutlinePrinter) : Written p (.error fault) (.error fault q)

/-- The visits write the lines of the level at which they begin. -/
def Writes (visits : Print Unit) (lines : Nat → Except TreeFault (List OutlineLine)) : Prop :=
  ∀ p : OutlinePrinter, Written p (lines p.level) (visits p)

namespace Writes
variable {visits next : Print Unit} {lines more : Nat → Except TreeFault (List OutlineLine)}

theorem emit (label : String) : Writes (emit label) fun level => .ok [⟨level, label⟩] :=
  fun _ => .ok _

theorem nothing : Writes (pure ()) fun _ => .ok [] := by
  intro p
  have h := Written.ok (p := p) []
  rw [List.map_nil, List.append_nil] at h
  exact h

theorem refused (fault : TreeFault) : Writes (throw fault) fun _ => .error fault :=
  fun p => .error fault p

theorem seq (h : Writes visits lines) (hn : Writes next more) :
    Writes (visits >>= fun _ => next) fun level => do
      let ls ← lines level
      let ms ← more level
      return ls ++ ms := by
  intro p
  have hp := h p
  show Written p (lines p.level >>= _) (EStateM.bind visits (fun _ => next) p)
  rw [EStateM.bind]
  generalize lines p.level = r, visits p = w at hp ⊢
  cases hp with
  | error fault q => exact .error fault q
  | ok ls =>
    have hq := hn ⟨p.output ++ ls.map OutlineLine.text, p.level⟩
    show Written p (more p.level >>= _) (next ⟨p.output ++ ls.map OutlineLine.text, p.level⟩)
    generalize next ⟨p.output ++ ls.map OutlineLine.text, p.level⟩ = w, more p.level = r at hq ⊢
    cases hq with
    | error fault q => exact .error fault q
    | ok ms =>
      have hls := Written.ok (p := p) (ls ++ ms)
      rw [List.map_append, ← List.append_assoc] at hls
      exact hls

theorem nested (h : Writes visits lines) : Writes (nested visits) fun level => lines (level + 1) := by
  intro p
  have hp := h ⟨p.output, p.level + 1⟩
  show Written p (lines (p.level + 1)) (EStateM.bind visits _ ⟨p.output, p.level + 1⟩)
  rw [EStateM.bind]
  generalize lines (p.level + 1) = r, visits ⟨p.output, p.level + 1⟩ = w at hp ⊢
  cases hp with
  | error fault q => exact .error fault q
  | ok ls => exact .ok ls

/-- A line and deeper ones below it. -/
theorem header (h : Writes visits lines) (label : String) :
    Writes (OutlinePrinter.emit label >>= fun _ => OutlinePrinter.nested visits) fun level => do
      let ls ← lines (level + 1)
      return ⟨level, label⟩ :: ls :=
  (Writes.emit label).seq h.nested

theorem congr (h : Writes visits lines) (he : ∀ level, lines level = more level) :
    Writes visits more :=
  (funext he : lines = more) ▸ h

end Writes

mutual

theorem writes_visit : (n : Node) → Writes (visit n) fun level => n.outlineAt level
  | .number _ _ | .variable _ _ | .prototype _ => .emit _
  | .binary _ lhs rhs _ =>
    (((writes_visit lhs).seq (writes_visit rhs)).header _).congr fun level => by
      simp only [Node.outlineAt, bind_assoc, pure_bind]
  | .call _ args _ => ((writes_visitAll args).header _).congr fun level => rfl
  | .function s body => by
    have hbody := (writes_visit body).header
    cases hs : s.signature with
    | error fault =>
      simp only [visit, Node.outlineAt, hs]
      exact .refused fault
    | ok p =>
      simp only [visit, Node.outlineAt, hs]
      exact hbody _
  | .datum _ => .refused _

theorem writes_visitAll :
    (ns : List Node) → Writes (visitAll ns) fun level => Node.outlineAllAt level ns
  | [] => .nothing
  | n :: ns => (writes_visit n).seq (writes_visitAll ns)

end

/-! ## Prints -/

variable (p : OutlinePrinter) {n : Node}

/-- What a print makes of a visit by a new printer. -/
theorem print_of_visit : p.print n =
    match visit n new with
    | .ok () q => (.ok (String.intercalate "\n" q.output), q)
    | .error fault q => (.error fault, q) := by
  have houtline : outline n p =
      EStateM.bind (visit n) (fun _ q => .ok (String.intercalate "\n" q.output) q) new := rfl
  simp only [print, houtline, EStateM.bind]
  cases visit n new <;> rfl

/-- A node that has an outline leaves its lines in the printer, which is back at the first level. -/
theorem print_cases (n : Node) :
    match n.outlineAt 0 with
    | .ok ls => p.print n = (.ok (String.intercalate "\n" (ls.map OutlineLine.text)),
        ⟨ls.map OutlineLine.text, 0⟩)
    | .error fault => (p.print n).1 = .error fault := by
  have hvisit : Written new (n.outlineAt 0) (visit n new) := writes_visit n new
  rw [print_of_visit]
  generalize n.outlineAt 0 = r, visit n new = w at hvisit ⊢
  cases hvisit with
  | ok | error => rfl

theorem print_of_outlineAt {ls : List OutlineLine} (h : n.outlineAt 0 = .ok ls) :
    p.print n = (.ok (String.intercalate "\n" (ls.map OutlineLine.text)),
      ⟨ls.map OutlineLine.text, 0⟩) := by
  have hprint := p.print_cases n
  rwa [h] at hprint

theorem print_of_refused {fault : TreeFault} (h : n.outlineAt 0 = .error fault) :
    (p.print n).1 = .error fault := by
  have hprint := p.print_cases n
  rwa [h] at hprint

/-- Nothing of what was printed before shows in a print. -/
theorem print_eq (n : Node) : (p.print n).1 = n.outline := by
  rw [Node.outline]
  cases h : n.outlineAt 0 with
  | error fault => exact p.print_of_refused h
  | ok ls =>
    rw [p.print_of_outlineAt h]
    rfl

end OutlinePrinter

end ExprFront
