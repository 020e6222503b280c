import ExprFront.Proofs.ExpressionReading

/-!
# The order in a table

Tables that have the same operators and order them alike, as far as given characters go. A table
keeps its order if its precedences are rescaled, or if an entry comes in that is not looked at.
-/

namespace ExprFront
set_option autoImplicit false

namespace OperatorTable

/-- Among the given characters the tables have the same operators, and order them alike. -/
structure SameOrder (T U : OperatorTable) (cs : List Char) : Prop where
  pos_iff : ∀ c ∈ cs, 0 < T.precedence c ↔ 0 < U.precedence c
  lt_iff : ∀ c ∈ cs, ∀ d ∈ cs, 0 < T.precedence c → 0 < T.precedence d →
    (T.precedence c < T.precedence d ↔ U.precedence c < U.precedence d)

theorem SameOrder.of_precedence_eq {T U : OperatorTable} {cs : List Char}
    (h : ∀ c ∈ cs, T.precedence c = U.precedence c) : T.SameOrder U cs where
  pos_iff := by
    intro c hc
    rw [h c hc]
  lt_iff := by
    intro c hc d hd _ _
    rw [h c hc, h d hd]

theorem precedence_congr {T U : OperatorTable} {c : Char} (h : T.find? c = U.find? c) :
    T.precedence c = U.precedence c := by
  simp only [precedence, h]

/-! ## Changes that keep the order -/

/-- A new entry changes nothing if its character does not occur, or is no operator before and
after. -/
theorem SameOrder.insert (T : OperatorTable) {cs : List Char} {c : Char} {n : Int}
    (h : c ∉ cs ∨ 128 ≤ c.toNat ∨ n ≤ 0 ∧ T.precedence c ≤ 0) : (T.insert c n).SameOrder T cs := by
  apply SameOrder.of_precedence_eq
  intro d hd
  by_cases hdc : d = c
  · subst hdc
    obtain hmem | hascii | ⟨hn, hpos⟩ := h
    · exact absurd hd hmem
    · simp only [precedence, if_pos hascii]
    · have hold : T.precedence d = notAnOperator :=
        (T.precedence_pos_or d).resolve_left (Int.not_lt.mpr hpos)
      have hn : ¬ 0 < n := Int.not_lt.mpr hn
      rw [hold, precedence, find?_insert]
      simp [hn]
  · exact precedence_congr (by rw [find?_insert, if_neg hdc])

/-- The table with all its precedences changed by a function. -/
def rescale (T : OperatorTable) (f : Int → Int) : OperatorTable :=
  ⟨T.entries.map fun e => (e.1, f e.2)⟩

theorem find?_rescale (T : OperatorTable) (f : Int → Int) (c : Char) :
    (T.rescale f).find? c = (T.find? c).map f := by
  simp only [find?, rescale]
  induction T.entries with
  | nil => rfl
  | cons e es ih =>
    obtain ⟨k, m⟩ := e
    simp only [List.map_cons, lookup_cons_ite, ih]
    split <;> rfl

theorem precedence_rescale {f : Int → Int} (hf : ∀ n, 0 < f n ↔ 0 < n) (T : OperatorTable)
    (c : Char) : (T.rescale f).precedence c =
      if 0 < T.precedence c then f (T.precedence c) else notAnOperator := by
  have hnone : ¬ 0 < notAnOperator := by decide
  rw [precedence, precedence, find?_rescale]
  by_cases hascii : 128 ≤ c.toNat
  · simp only [hascii, if_true, hnone, if_false]
  · cases T.find? c with
    | none => simp only [hascii, if_false, Option.map_none, hnone]
    | some n => by_cases hn : 0 < n <;> simp [hascii, hf, hn, hnone]

theorem SameOrder.rescale (T : OperatorTable) (cs : List Char) {f : Int → Int}
    (hf : ∀ n, 0 < f n ↔ 0 < n) (hmono : ∀ m n, 0 < m → m < n → f m < f n) :
    (T.rescale f).SameOrder T cs := by
  have hpos : ∀ c, 0 < (T.rescale f).precedence c ↔ 0 < T.precedence c := by
    intro c
    rw [precedence_rescale hf]
    split
    · next h => exact hf _
    · next h => exact ⟨fun h => absurd h (by decide), fun hc => absurd hc h⟩
  refine ⟨fun c _ => hpos c, ?_⟩
  intro c _ d _ hc hd
  have hc := (hpos c).mp hc
  have hd := (hpos d).mp hd
  rw [precedence_rescale hf, precedence_rescale hf, if_pos hc, if_pos hd]
  constructor
  · intro hlt
    obtain h | h | h := Int.lt_trichotomy (T.precedence c) (T.precedence d)
    · exact h
    · rw [h] at hlt
      omega
    · have := hmono _ _ hd h
      omega
  · exact hmono _ _ hc

end OperatorTable

end ExprFront
