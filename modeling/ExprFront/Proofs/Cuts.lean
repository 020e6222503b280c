import ExprFront.Proofs.Grammar

/-!
# Cuts of a program

A program is cut into separators and units, with nothing in between. There may be several cuts:
where a unit ends in a name and the next one starts with a group, both are also one unit, in
which the name is called. Nowhere else could a unit go on into the next one.
-/

namespace ExprFront
set_option autoImplicit false

namespace Grammar

/-! ## Programs -/

/-- The tokens of a separator or of a unit. -/
def Piece (table : OperatorTable) (anonymous : String) (g : List Token) : Prop :=
  (∃ t, g = [t] ∧ t.lexeme = .char ';') ∨ ∃ u, UnitOf table anonymous g u

/-- The tokens can be cut into pieces. -/
def Program (table : OperatorTable) (anonymous : String) (ts : List Token) : Prop :=
  ∃ cut : List (List Token), cut.flatten = ts ∧ ∀ g ∈ cut, Piece table anonymous g

/-! ## Joining a name and a group -/

def OpensGroup (ts : List Token) : Prop := ∃ o us, ts = o :: us ∧ o.lexeme = .char '('

theorem EndsInName.of_cons {t u : Token} {us : List Token} (h : EndsInName (t :: u :: us)) :
    EndsInName (u :: us) := (endsInName_append_cons [t] u us).mp h

theorem EndsInName.of_append {ts us : List Token} (h : EndsInName (ts ++ us)) (hus : us ≠ []) :
    EndsInName us := by
  obtain ⟨u, vs, rfl⟩ := List.exists_cons_of_ne_nil hus
  exact (endsInName_append_cons ts u vs).mp h

variable {table : OperatorTable}

theorem Operand.call_of_group {t : Token} {name : String} {ts : List Token} {e : Node}
    (ht : t.lexeme = .name name) (h : Operand table ts e) (hg : OpensGroup ts) :
    Operand table (t :: ts) (.call name [e] (some t.location)) := by
  obtain ⟨o, us, hts, ho⟩ := hg
  cases h with
  | number hn =>
    obtain ⟨rfl, -⟩ := List.cons.inj hts
    simp [hn] at ho
  | bareName hn =>
    obtain ⟨rfl, -⟩ := List.cons.inj hts
    simp [hn] at ho
  | emptyCall hn =>
    obtain ⟨rfl, -⟩ := List.cons.inj hts
    simp [hn] at ho
  | call hn =>
    obtain ⟨rfl, -⟩ := List.cons.inj hts
    simp [hn] at ho
  | group ho' hc hclose hn => exact .call ht ho' (.last hc hclose hn)

theorem Chain.call_of_group {t : Token} {name : String} {ts : List Token} {e : Node}
    {ks : List Link} (ht : t.lexeme = .name name) (h : Chain table ts e ks) (hg : OpensGroup ts) :
    Chain table (t :: ts) (.call name [e] (some t.location)) ks := by
  cases h with
  | single h => exact .single (h.call_of_group ht hg)
  | @cons ts us o c _ f ks h ho hp hs hr =>
    obtain ⟨u, vs, rfl, -⟩ := h.opens
    have hg : OpensGroup (u :: vs) := by
      obtain ⟨o', us', heq, ho'⟩ := hg
      obtain ⟨rfl, -⟩ := List.cons.inj heq
      exact ⟨u, vs, rfl, ho'⟩
    exact .cons (h.call_of_group ht hg) ho hp (fun hend => hs hend.of_cons) hr

theorem Chain.join {ts us : List Token} {e f : Node} {ks js : List Link} :
    Chain table ts e ks → EndsInName ts → Chain table us f js → OpensGroup us →
      ∃ e' ks', Chain table (ts ++ us) e' ks'
  | .single h, hend, hus, hg => by
    cases h with
    | number ht =>
      rw [endsInName_singleton, ht] at hend
      simp at hend
    -- The name is the last operand of all, and now calls the first operand of the other chain.
    | bareName ht => exact ⟨_, _, hus.call_of_group ht hg⟩
    | @emptyCall t o c _ _ _ hc => exact absurd hend (not_endsInName_concat hc [t, o])
    | call _ _ hargs =>
      obtain ⟨u, vs, rfl, -⟩ := hargs.opens
      exact absurd hend.of_cons.of_cons hargs.not_endsInName
    | @group o c ts _ _ _ _ hc => exact absurd hend (not_endsInName_concat hc (o :: ts))
  | @Chain.cons _ vs ws o c _ g ks h ho hp hs hr, hend, hus, hg => by
    have hlast : EndsInName ([o] ++ ws) := hend.of_append (List.cons_ne_nil o ws)
    obtain ⟨e', ks', hjoined⟩ := hr.join (hlast.of_append hr.ne_nil) hus hg
    rw [List.append_assoc, List.cons_append]
    exact ⟨_, _, .cons h ho hp hs hjoined⟩

theorem Expression.join {ts us : List Token} {e f : Node} (h : Expression table ts e)
    (hend : EndsInName ts) (hus : Expression table us f) (hg : OpensGroup us) :
    ∃ e', Expression table (ts ++ us) e' := by
  obtain ⟨_, _, h, -⟩ := h
  obtain ⟨_, _, hus, -⟩ := hus
  obtain ⟨e', ks', hjoined⟩ := h.join hend hus hg
  exact ⟨_, e', ks', hjoined, rfl⟩

theorem Signature.not_endsInName {ts : List Token} {p : Prototype} (h : Signature ts p) :
    ¬ EndsInName ts := by
  cases h with
  | @mk n o c ps _ _ _ _ _ hc => exact not_endsInName_concat hc (n :: o :: ps)

/-- A unit that ends in a name and a unit that starts with a group are also one unit. -/
theorem UnitOf.join {anonymous : String} {ts us : List Token} {u v : SourceUnit}
    (h : UnitOf table anonymous ts u) (hend : EndsInName ts) (hus : UnitOf table anonymous us v)
    (hg : OpensGroup us) : ∃ w, UnitOf table anonymous (ts ++ us) w := by
  obtain ⟨f, hus⟩ : ∃ f, Expression table us f := by
    obtain ⟨o, vs, rfl, ho⟩ := hg
    cases hus with
    | definition hd => simp [hd] at ho
    | declaration hx => simp [hx] at ho
    | expression he => exact ⟨_, he⟩
  cases h with
  | @definition d ss es p e hd hs he =>
    have hlast : EndsInName ((d :: ss) ++ es) := hend
    obtain ⟨e', hjoined⟩ := he.join (hlast.of_append he.ne_nil) hus hg
    rw [List.cons_append, List.append_assoc]
    exact ⟨_, .definition hd hs hjoined⟩
  | @declaration x ss p hx hs =>
    cases ss with
    | nil => cases hs
    | cons s ss => exact absurd hend.of_cons hs.not_endsInName
  | expression he =>
    obtain ⟨e', hjoined⟩ := he.join hend hus hg
    exact ⟨_, .expression hjoined⟩

end Grammar

end ExprFront
