import ExprFront.Text.Quoted

/-!
# Operator tables

A table gives precedences to characters. It keeps the order in which the characters were first
given one; a new precedence for a character keeps its place, and a character that was removed
comes in again at the end. Only ASCII characters with a positive precedence are operators.
-/

namespace ExprFront
set_option autoImplicit false

/-- Characters with their precedences, in order. -/
structure OperatorTable where
  entries : List (Char × Int)
  deriving DecidableEq

inductive OperatorFault
  | notOneCharacter (operator : String)
  | missing (operator : String)
  deriving DecidableEq

def OperatorFault.message : OperatorFault → String
  | .notOneCharacter operator => "operators are single characters, got " ++ Text.quote operator
  | .missing operator => Text.quote operator

def singleChar? (s : String) : Option Char :=
  match s.toList with
  | [c] => some c
  | _ => none

theorem singleChar?_eq_some_iff (s : String) (c : Char) :
    singleChar? s = some c ↔ s = String.singleton c := by
  rw [← String.toList_inj, String.toList_singleton, singleChar?]
  split
  · next d hd => rw [hd, Option.some.injEq, List.cons.injEq, and_iff_left rfl]
  · next hne =>
    simp only [reduceCtorEq, false_iff]
    exact hne c

namespace OperatorTable

def empty : OperatorTable := ⟨[]⟩

def default : OperatorTable :=
  ⟨[('<', 10), ('+', 20), ('-', 20), ('*', 40)]⟩

def insertEntry (c : Char) (n : Int) : List (Char × Int) → List (Char × Int)
  | [] => [(c, n)]
  | e :: es => if e.1 = c then (c, n) :: es else e :: insertEntry c n es

def insert (t : OperatorTable) (c : Char) (n : Int) : OperatorTable :=
  ⟨insertEntry c n t.entries⟩

def erase (t : OperatorTable) (c : Char) : OperatorTable :=
  ⟨t.entries.filter fun e => e.1 ≠ c⟩

def find? (t : OperatorTable) (c : Char) : Option Int :=
  t.entries.lookup c

def keys (t : OperatorTable) : List Char :=
  t.entries.map Prod.fst

def notAnOperator : Int := -1

/-- The precedence of `c` as an operator, or `notAnOperator`. -/
def precedence (t : OperatorTable) (c : Char) : Int :=
  if 128 ≤ c.toNat then notAnOperator
  else
    match t.find? c with
    | some n => if 0 < n then n else notAnOperator
    | none => notAnOperator

/-! ## Operators given as texts -/

def get (t : OperatorTable) (operator : String) : Except OperatorFault Int :=
  match singleChar? operator >>= t.find? with
  | some n => .ok n
  | none => .error (.missing operator)

def contains (t : OperatorTable) (operator : String) : Bool :=
  (singleChar? operator >>= t.find?).isSome

def remove (t : OperatorTable) (operator : String) : Except OperatorFault OperatorTable :=
  match singleChar? operator with
  | some c =>
    if (t.find? c).isSome then .ok (t.erase c) else .error (.missing operator)
  | none => .error (.missing operator)

/-- The precedence of an operator that may be missing; a text that is no single character has
none. -/
def precedenceOf (t : OperatorTable) (operator : Option String) : Int :=
  match operator.bind singleChar? with
  | some c => t.precedence c
  | none => notAnOperator

def entryText (e : Char × Int) : String :=
  Text.quote (String.singleton e.1) ++ ": " ++ e.2.repr

def text (t : OperatorTable) : String :=
  "BinopPrecedence(\x7b" ++ String.intercalate ", " (t.entries.map entryText) ++ "\x7d)"

/-! ## Entries -/

theorem lookup_cons_ite (c k : Char) (n : Int) (es : List (Char × Int)) :
    ((k, n) :: es).lookup c = if c = k then some n else es.lookup c := by
  rw [List.lookup_cons]
  by_cases h : c = k
  · simp [h]
  · have hne : (c == k) = false := beq_eq_false_iff_ne.mpr h
    simp [hne, h]

theorem find?_insert (T : OperatorTable) (c : Char) (n : Int) (d : Char) :
    (T.insert c n).find? d = if d = c then some n else T.find? d := by
  simp only [find?, insert]
  induction T.entries with
  | nil => exact lookup_cons_ite d c n []
  | cons e es ih =>
    obtain ⟨k, m⟩ := e
    by_cases hk : k = c
    · subst hk
      simp only [insertEntry, if_true, lookup_cons_ite]
      split <;> rfl
    · simp only [insertEntry, if_neg hk, lookup_cons_ite, ih]
      by_cases hd : d = k
      · simp only [hd, if_true, if_neg hk]
      · simp only [hd, if_false]

theorem find?_erase (T : OperatorTable) (c d : Char) :
    (T.erase c).find? d = if d = c then none else T.find? d := by
  simp only [find?, erase]
  induction T.entries with
  | nil => simp
  | cons e es ih =>
    obtain ⟨k, m⟩ := e
    by_cases hk : k = c
    · subst hk
      rw [List.filter_cons_of_neg (by simp), ih, lookup_cons_ite]
      split <;> rfl
    · rw [List.filter_cons_of_pos (by simpa using hk), lookup_cons_ite, lookup_cons_ite, ih]
      by_cases hd : d = k
      · simp only [hd, if_true, if_neg hk]
      · simp only [hd, if_false]

theorem mem_keys_iff (T : OperatorTable) (c : Char) : c ∈ T.keys ↔ ∃ n, T.find? c = some n := by
  simp only [find?, keys]
  induction T.entries with
  | nil => simp
  | cons e es ih =>
    obtain ⟨k, m⟩ := e
    rw [List.map_cons, List.mem_cons, ih, lookup_cons_ite]
    by_cases hc : c = k <;> simp [hc]

/-- A character keeps its place, and a new one comes in at the end. -/
theorem keys_insert (T : OperatorTable) (c : Char) (n : Int) :
    (T.insert c n).keys = if c ∈ T.keys then T.keys else T.keys ++ [c] := by
  obtain ⟨es⟩ := T
  show (insertEntry c n es).map Prod.fst =
    if c ∈ es.map Prod.fst then es.map Prod.fst else es.map Prod.fst ++ [c]
  induction es with
  | nil => rfl
  | cons e es ih =>
    obtain ⟨k, m⟩ := e
    by_cases hk : k = c
    · simp [insertEntry, hk]
    · rw [insertEntry, if_neg hk, List.map_cons, ih, List.map_cons]
      by_cases hc : c ∈ es.map Prod.fst
      · rw [if_pos hc, if_pos (List.mem_cons_of_mem _ hc)]
      · rw [if_neg hc, if_neg (List.not_mem_cons_of_ne_of_not_mem (Ne.symm hk) hc), List.cons_append]

theorem keys_erase (T : OperatorTable) (c : Char) :
    (T.erase c).keys = T.keys.filter fun d => d ≠ c := by
  simp only [keys, erase, List.filter_map]
  rfl

end OperatorTable

end ExprFront
