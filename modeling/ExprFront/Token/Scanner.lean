import ExprFront.Decimal.Numeral
import ExprFront.Token.Basic
import ExprFront.Token.Reader

/-!
# Scanning tokens

A scanner passes the gap before the next lexeme, blanks and comments, and takes the longest
lexeme that starts there. It reads exactly one character beyond that lexeme. The end of the
input is a token too, which is found again and again. The last word and the last number stay
with the scanner.
-/

namespace ExprFront
set_option autoImplicit false

/-! ## Character classes -/

/-- The blanks between tokens: space, tab, line feed, carriage return, and the vertical tab and
form feed. -/
def isBlank (c : Char) : Bool :=
  c = ' ' || c = '\t' || c = '\n' || c = '\r' || c = '\x0b' || c = '\x0c'

def isLetter (c : Char) : Bool :=
  ('a' ≤ c && c ≤ 'z') || ('A' ≤ c && c ≤ 'Z')

def isWordChar (c : Char) : Bool :=
  isLetter c || Text.isAsciiDigit c

def isNumberChar (c : Char) : Bool :=
  Text.isAsciiDigit c || c = '.'

def endsComment (c : Char) : Bool :=
  c = '\n' || c = '\r'

/-! ## Gaps -/

/-- The length of the gap at the head of a text, inside a comment or outside. -/
def gapLength : Bool → List Char → Nat
  | _, [] => 0
  | true, c :: cs => gapLength (!endsComment c) cs + 1
  | false, c :: cs =>
    if isBlank c then gapLength false cs + 1
    else if c = '#' then gapLength true cs + 1
    else 0

/-- The lexeme at the head of a text that starts with no gap, and its length. -/
def lexemeAt : List Char → Lexeme × Nat
  | [] => (.endOfInput, 0)
  | c :: cs =>
    if isLetter c then
      let word := c :: cs.takeWhile isWordChar
      (.ofWord (String.ofList word), word.length)
    else if isNumberChar c then
      let digits := c :: cs.takeWhile isNumberChar
      (.number (Numeral.value digits), digits.length)
    else (.char c, 1)

/-! ## The scanner -/

/-- A reader with the name of its source and what the tokens so far have left behind. -/
structure Scanner where
  reader : Reader
  filename : String
  /-- The last name or keyword. -/
  word : String
  /-- The last number. -/
  number : Binary64
  /-- How many tokens were scanned. -/
  count : Nat
  deriving DecidableEq

namespace Scanner

def ofSource (source : List Char) (filename : String) : Scanner :=
  ⟨.ofSource source, filename, "", .zero, 0⟩

/-- The word left behind by a lexeme of the given text. -/
def wordAfter (s : Scanner) : Lexeme → String
  | .define => "def"
  | .external => "extern"
  | .name text => text
  | _ => s.word

def numberAfter (s : Scanner) : Lexeme → Binary64
  | .number value => value
  | _ => s.number

def next (s : Scanner) : Token × Scanner :=
  let start := s.reader.skip (gapLength false s.reader.pending)
  let (lexeme, length) := lexemeAt start.pending
  (⟨lexeme, start.position.within s.filename⟩,
    { s with
      reader := start.skip length
      word := s.wordAfter lexeme
      number := s.numberAfter lexeme
      count := s.count + 1 })

def line (s : Scanner) : Nat := s.reader.position.line

def remaining (s : Scanner) : Nat := s.reader.pending.length

/-- The next `n` tokens, each with the scanner just after it. -/
def listing : Nat → Scanner → List (Token × Scanner)
  | 0, _ => []
  | n + 1, s => s.next :: listing n s.next.2

end Scanner

/-! ## Progress -/

theorem lexemeAt_pos {cs : List Char} (h : cs ≠ []) : 0 < (lexemeAt cs).2 := by
  cases cs with
  | nil => exact absurd rfl h
  | cons c cs => simp only [lexemeAt]; split <;> (try split) <;> simp

theorem lexemeAt_eq_end_iff (cs : List Char) : (lexemeAt cs).1 = .endOfInput ↔ cs = [] := by
  cases cs with
  | nil => simp [lexemeAt]
  | cons c cs =>
    simp only [lexemeAt, reduceCtorEq, iff_false]
    split
    · simp only [Lexeme.ofWord, keywords, List.lookup_cons, List.lookup_nil]
      split <;> (try split) <;> simp
    · split <;> simp

namespace Scanner

theorem next_remaining_le (s : Scanner) : s.next.2.remaining ≤ s.remaining := by
  simp only [next, remaining, Reader.skip_pending, List.length_drop]
  omega

theorem next_remaining_lt (s : Scanner) (h : s.next.1.isEnd = false) :
    s.next.2.remaining < s.remaining := by
  have hne : (s.reader.skip (gapLength false s.reader.pending)).pending ≠ [] := by
    intro he
    simp [next, he, lexemeAt, Token.isEnd] at h
  have hpos := lexemeAt_pos hne
  have hlen := List.length_pos_iff.2 hne
  simp only [next, remaining, Reader.skip_pending, List.length_drop] at hlen hpos ⊢
  omega

/-- All tokens up to and including the end of the input, each with the scanner just after
it. -/
def tokens (s : Scanner) : List (Token × Scanner) :=
  if _h : s.next.1.isEnd then [s.next] else s.next :: tokens s.next.2
termination_by s.remaining
decreasing_by exact s.next_remaining_lt (by simpa using _h)

end Scanner

end ExprFront
