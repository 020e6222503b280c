import ExprFront.Location

/-!
# Reading with one character of lookahead

A reader has taken a source apart into what was read and what is pending; the first pending
character is the lookahead and has been read already. A fresh reader looks at a blank in
column 0 that is not part of the source, so that nothing of the source has been read yet. The
text of the current line is kept for diagnostics; it ends with the lookahead, and is empty as
soon as the lookahead is a line feed.
-/

namespace ExprFront
set_option autoImplicit false

structure Reader where
  /-- The characters from the lookahead on. -/
  pending : List Char
  /-- The position of the lookahead, or of the end. -/
  position : Position
  /-- The characters read on the current line, the last one first. -/
  lineReversed : List Char
  deriving DecidableEq

namespace Reader

def ofSource (source : List Char) : Reader :=
  ⟨' ' :: source, ⟨1, 0⟩, []⟩

/-- The text of the current line after the lookahead has become `c`. -/
def extendLine (line : List Char) (c : Char) : List Char :=
  if c = '\n' then [] else c :: line

/-- Reads one character: the lookahead is passed and the next character takes its place. -/
def advance (r : Reader) : Reader :=
  match r.pending with
  | [] => r
  | [c] => ⟨[], r.position.next c, r.lineReversed⟩
  | c :: d :: rest => ⟨d :: rest, r.position.next c, extendLine r.lineReversed d⟩

def skip : Nat → Reader → Reader
  | 0, r => r
  | n + 1, r => skip n r.advance

def lineText (r : Reader) : String :=
  String.ofList r.lineReversed.reverse

/-- The number of characters read from a source of the given length. -/
def charactersRead (length : Nat) (r : Reader) : Nat :=
  min length (length + 1 - r.pending.length)

theorem advance_pending (r : Reader) : r.advance.pending = r.pending.tail := by
  unfold advance
  split <;> simp_all

theorem skip_pending (n : Nat) (r : Reader) : (r.skip n).pending = r.pending.drop n := by
  induction n generalizing r with
  | zero => rfl
  | succ n ih => simp [skip, ih, advance_pending]

end Reader

end ExprFront
