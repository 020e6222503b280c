/-!
# Texts of code points

A text that comes from outside is a list of code points. Most of them are characters, but the halves
of surrogate pairs are none, and a text may hold any number of them in any order. As 16-bit units a
high half and a low half behind it are the same as the one character that they stand for.
-/

namespace ExprFront
set_option autoImplicit false

inductive CodePoint
  | char (c : Char)
  /-- The code point U+D800 + `n`. -/
  | high (n : Fin 0x400)
  /-- The code point U+DC00 + `n`. -/
  | low (n : Fin 0x400)
  deriving DecidableEq

/-- The character that two halves stand for. -/
def CodePoint.pair (high low : Fin 0x400) : Char :=
  Char.ofNat (0x10000 + high * 0x400 + low)

theorem CodePoint.toNat_pair (high low : Fin 0x400) :
    (pair high low).toNat = 0x10000 + high * 0x400 + low := by
  have hvalid : (0x10000 + high.val * 0x400 + low.val).isValidChar := by
    have := high.isLt
    have := low.isLt
    exact .inr ⟨by omega, by omega⟩
  rw [pair, Char.ofNat, dif_pos hvalid]
  rfl

abbrev CodeText := List CodePoint

namespace CodeText

def ofString (s : String) : CodeText := s.toList.map .char

instance : Coe String CodeText := ⟨ofString⟩

/-- The characters of a text, without the halves. -/
def chars (t : CodeText) : List Char :=
  t.filterMap fun | .char c => some c | _ => none

/-- Every high half that stands directly before a low one is put together with it. -/
def joined : CodeText → CodeText
  | [] => []
  | .high h :: .low l :: rest => .char (CodePoint.pair h l) :: joined rest
  | p :: rest => p :: joined rest

/-- No high half stands directly before a low one. -/
def Unpaired (t : CodeText) : Prop :=
  ∀ before h l after, t ≠ before ++ .high h :: .low l :: after

@[simp] theorem ofString_inj {s t : String} : ofString s = ofString t ↔ s = t := by
  rw [← String.toList_inj]
  refine List.map_inj_right ?_
  rintro c d ⟨⟩
  rfl

theorem ofString_append (s t : String) : ofString (s ++ t) = ofString s ++ ofString t := by
  simp only [ofString, String.toList_append, List.map_append]

@[simp] theorem chars_ofString (s : String) : (ofString s).chars = s.toList := by
  rw [chars, ofString, List.filterMap_map]
  exact List.filterMap_some

/-! ## Joining -/

theorem joined_char_cons (c : Char) (t : CodeText) :
    joined (.char c :: t) = .char c :: joined t := by
  rw [joined]
  simp

theorem joined_append_char (t : CodeText) (c : Char) (u : CodeText) :
    joined (t ++ .char c :: u) = joined t ++ .char c :: joined u := by
  fun_induction joined t with
  | case1 => exact joined_char_cons c u
  | case2 h l rest ih =>
    show joined (.high h :: .low l :: (rest ++ .char c :: u)) = _
    rw [joined, ih]
    rfl
  | case3 p rest hp ih =>
    show joined (p :: (rest ++ .char c :: u)) = _
    rw [joined, ih]
    · rfl
    · intro h l after hph hrest
      cases rest with
      | nil => simp at hrest
      | cons q rest => exact hp h l rest hph (by rw [(List.cons.inj hrest).1])

@[simp] theorem joined_ofString (s : String) : (ofString s).joined = ofString s := by
  simp only [ofString]
  induction s.toList with
  | nil => rfl
  | cons c cs ih => rw [List.map_cons, joined_char_cons, ih]

/-- Joining leaves a text as it is exactly if there is nothing to join. -/
theorem unpaired_iff {t : CodeText} : t.Unpaired ↔ t.joined = t := by
  fun_induction joined t with
  | case1 => simp [Unpaired]
  | case2 h l rest ih =>
    refine ⟨fun hu => absurd rfl (hu [] h l rest), fun hj => ?_⟩
    cases (List.cons.inj hj).1
  | case3 p rest hp ih =>
    rw [List.cons.injEq, eq_self, true_and, ← ih]
    constructor
    · rintro hu before h l after rfl
      exact hu (p :: before) h l after rfl
    · rintro hu (_ | ⟨q, before⟩) h l after hsplit
      · obtain ⟨rfl, hrest⟩ := List.cons.inj hsplit
        exact hp h l after rfl hrest
      · exact hu before h l after (List.cons.inj hsplit).2

end CodeText

end ExprFront
