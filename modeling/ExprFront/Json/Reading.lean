import ExprFront.Json.Value
import ExprFront.Text.Digit

/-!
# Reading JSON texts

A JSON text is cut into tokens, which are then put together with a stack of the brackets that are
open. Numbers stay as they are written, and strings hold any code points: two units that are the
halves of one character are read as the character. Besides the words of JSON there are those for
infinity and for what is no number.
-/

namespace ExprFront
set_option autoImplicit false

inductive JsonToken
  | openArray
  | closeArray
  | openObject
  | closeObject
  | comma
  | colon
  | text (value : CodeText)
  /-- A number or a word. -/
  | literal (chars : List Char)
  deriving DecidableEq

/-- What a JSON text says. A number is given by its text. -/
inductive JsonTree
  | null
  | truth (value : Bool)
  | number (text : String)
  | text (value : CodeText)
  | array (items : List JsonTree)
  | object (members : List (CodeText × JsonTree))

namespace JsonTree

/-! ## Strings -/

def hexDigit? (c : Char) : Option Nat :=
  if Text.isAsciiDigit c then some (c.toNat - 48)
  else if 'a' ≤ c && c ≤ 'f' then some (c.toNat - 87)
  else if 'A' ≤ c && c ≤ 'F' then some (c.toNat - 55)
  else none

def hexValue? (cs : List Char) : Option Nat :=
  cs.foldlM (fun n c => (hexDigit? c).map (16 * n + ·)) 0

/-- A 16-bit unit that is written as an escape, and what follows it. -/
def readUnit? : List Char → Option (Nat × List Char)
  | '\x5c' :: 'u' :: a :: b :: c :: d :: rest => (hexValue? [a, b, c, d]).map (·, rest)
  | _ => none

def char? (n : Nat) : Option Char :=
  if n.isValidChar then some (Char.ofNat n) else none

/-- The characters that have a short escape. -/
def escapes : List (Char × Char) :=
  [('\x22', '\x22'), ('\x5c', '\x5c'), ('/', '/'), ('b', '\x08'), ('f', '\x0c'), ('n', '\n'),
    ('r', '\r'), ('t', '\t')]

/-- The code point of a 16-bit unit. -/
def unitPoint? (n : Nat) : Option CodePoint :=
  if h : 0xD800 ≤ n ∧ n < 0xDC00 then some (.high ⟨n - 0xD800, by omega⟩)
  else if h : 0xDC00 ≤ n ∧ n < 0xE000 then some (.low ⟨n - 0xDC00, by omega⟩)
  else (char? n).map .char

def readPoint? (cs : List Char) : Option (CodePoint × List Char) := do
  let (n, rest) ← readUnit? cs
  let p ← unitPoint? n
  return (p, rest)

/-- A code point that is written as one unit or as two. A high half without a low one behind it
stands for itself. -/
def readCode? (cs : List Char) : Option (CodePoint × List Char) := do
  let (p, rest) ← readPoint? cs
  match p, readPoint? rest with
  | .high h, some (.low l, rest') => return (.char (CodePoint.pair h l), rest')
  | _, _ => return (p, rest)

/-- The first code point of the rest of a string, and what follows it. -/
def readChar? : List Char → Option (CodePoint × List Char)
  | [] => none
  | [c] => if c = '\x5c' || c.toNat < 32 then none else some (.char c, [])
  | c :: e :: rest =>
    if c = '\x5c' then
      if e = 'u' then readCode? (c :: e :: rest)
      else (escapes.lookup e).map fun d => (.char d, rest)
    else if c.toNat < 32 then none
    else some (.char c, e :: rest)

theorem readUnit?_length_lt {cs rest : List Char} {n : Nat} (h : readUnit? cs = some (n, rest)) :
    rest.length < cs.length := by
  unfold readUnit? at h
  split at h
  · obtain ⟨m, -, hm⟩ := Option.map_eq_some_iff.mp h
    obtain rfl := congrArg Prod.snd hm
    simp only [List.length_cons]
    omega
  · simp at h

theorem readPoint?_length_lt {cs rest : List Char} {p : CodePoint}
    (h : readPoint? cs = some (p, rest)) : rest.length < cs.length := by
  simp only [readPoint?, Option.bind_eq_bind, Option.bind_eq_some_iff] at h
  obtain ⟨⟨n, r⟩, hn, q, -, hq⟩ := h
  obtain rfl : r = rest := congrArg Prod.snd (Option.some.inj hq)
  exact readUnit?_length_lt hn

theorem readCode?_length_lt {cs rest : List Char} {p : CodePoint}
    (h : readCode? cs = some (p, rest)) : rest.length < cs.length := by
  simp only [readCode?, Option.bind_eq_bind, Option.bind_eq_some_iff] at h
  obtain ⟨⟨q, r⟩, hq, h⟩ := h
  have hlt := readPoint?_length_lt hq
  dsimp only at h
  split at h
  · next n l r' hl =>
    obtain rfl : r' = rest := congrArg Prod.snd (Option.some.inj h)
    exact Nat.lt_trans (readPoint?_length_lt hl) hlt
  · obtain rfl : r = rest := congrArg Prod.snd (Option.some.inj h)
    exact hlt

theorem readChar?_length_lt {cs rest : List Char} {p : CodePoint}
    (h : readChar? cs = some (p, rest)) : rest.length < cs.length := by
  unfold readChar? at h
  split at h
  · simp at h
  · split at h
    · simp at h
    · obtain rfl : [] = rest := congrArg Prod.snd (Option.some.inj h)
      simp
  · split at h
    · split at h
      · exact readCode?_length_lt h
      · obtain ⟨d, -, hd⟩ := Option.map_eq_some_iff.mp h
        obtain rfl := congrArg Prod.snd hd
        simp only [List.length_cons]
        omega
    · split at h
      · simp at h
      · obtain rfl := congrArg Prod.snd (Option.some.inj h)
        simp

/-- The code points of a string up to its closing quote, and what follows that. -/
def readText (cs : List Char) : Option (CodeText × List Char) :=
  if cs.head? = some '\x22' then some ([], cs.tail)
  else
    match _h : readChar? cs with
    | some (p, rest) => (readText rest).map fun r => (p :: r.1, r.2)
    | none => none
termination_by cs.length
decreasing_by exact readChar?_length_lt _h

/-! ## Tokens -/

/-- The blanks of JSON. -/
def isSpace (c : Char) : Bool :=
  c = ' ' || c = '\t' || c = '\n' || c = '\r'

def isLiteralChar (c : Char) : Bool :=
  Text.isAsciiDigit c || ('a' ≤ c && c ≤ 'z') || ('A' ≤ c && c ≤ 'Z') || c = '-' || c = '+' || c = '.'

def marks : List (Char × JsonToken) :=
  [('[', .openArray), (']', .closeArray), ('\x7b', .openObject), ('\x7d', .closeObject),
    (',', .comma), (':', .colon)]

/-- The token that starts with a character, and what follows it. -/
def next? (c : Char) (rest : List Char) : Option (JsonToken × List Char) :=
  if c = '\x22' then (readText rest).map fun r => (.text r.1, r.2)
  else if isLiteralChar c then
    some (.literal (c :: rest.takeWhile isLiteralChar), rest.dropWhile isLiteralChar)
  else (marks.lookup c).map (·, rest)

theorem readText_length_lt {cs rest : List Char} {t : CodeText}
    (h : readText cs = some (t, rest)) : rest.length < cs.length := by
  fun_induction readText cs generalizing t rest with
  | case1 cs hq =>
    obtain rfl := congrArg Prod.snd (Option.some.inj h)
    cases cs with
    | nil => simp at hq
    | cons c cs => simp
  | case2 cs hq c r hc ih =>
    obtain ⟨⟨es, r'⟩, hes, hr⟩ := Option.map_eq_some_iff.mp h
    obtain rfl : r' = rest := congrArg Prod.snd hr
    exact Nat.lt_trans (ih hes) (readChar?_length_lt hc)
  | case3 => simp at h

theorem next?_length_le {c : Char} {rest rest' : List Char} {t : JsonToken}
    (h : next? c rest = some (t, rest')) : rest'.length ≤ rest.length := by
  unfold next? at h
  split at h
  · obtain ⟨⟨ds, r⟩, hr, h⟩ := Option.map_eq_some_iff.mp h
    obtain rfl : r = rest' := congrArg Prod.snd h
    exact Nat.le_of_lt (readText_length_lt hr)
  · split at h
    · obtain rfl := congrArg Prod.snd (Option.some.inj h)
      exact (List.dropWhile_sublist isLiteralChar).length_le
    · obtain ⟨t', -, h⟩ := Option.map_eq_some_iff.mp h
      obtain rfl := congrArg Prod.snd h
      exact Nat.le_refl _

def tokens : List Char → Option (List JsonToken)
  | [] => some []
  | c :: rest =>
    if isSpace c then tokens rest
    else
      match _h : next? c rest with
      | some (t, rest') => (tokens rest').map (t :: ·)
      | none => none
termination_by cs => cs.length
decreasing_by
  · simp
  · exact Nat.lt_succ_of_le (next?_length_le _h)

/-! ## Literals -/

def isDigits (cs : List Char) : Bool :=
  !cs.isEmpty && cs.all Text.isAsciiDigit

/-- An exponent, which may be missing. -/
def isExponent : List Char → Bool
  | [] => true
  | c :: cs =>
    (c = 'e' || c = 'E') &&
      match cs with
      | [] => false
      | s :: ds => if s = '-' || s = '+' then isDigits ds else isDigits (s :: ds)

/-- A fraction, which may be missing, and an exponent. -/
def isFraction : List Char → Bool
  | [] => true
  | c :: cs =>
    if c = '.' then
      isDigits (cs.takeWhile Text.isAsciiDigit) && isExponent (cs.dropWhile Text.isAsciiDigit)
    else isExponent (c :: cs)

/-- A number without a sign: no zero stands in front of other digits. -/
def isMagnitude (cs : List Char) : Bool :=
  let whole := cs.takeWhile Text.isAsciiDigit
  isDigits whole && (whole = ['0'] || whole.head? ≠ some '0') &&
    isFraction (cs.dropWhile Text.isAsciiDigit)

def isNumeral : List Char → Bool
  | [] => false
  | c :: cs => if c = '-' then isMagnitude cs else isMagnitude (c :: cs)

def words : List (String × JsonTree) :=
  [("null", .null), ("true", .truth true), ("false", .truth false), ("NaN", .number "NaN"),
    ("Infinity", .number "Infinity"), ("-Infinity", .number "-Infinity")]

def literal? (cs : List Char) : Option JsonTree :=
  if isNumeral cs then some (.number (String.ofList cs)) else words.lookup (String.ofList cs)

/-- The full text of the number with a text, which has other words for what is not finite. -/
def fullText (text : String) : String :=
  if text = "NaN" then "nan"
  else if text = "Infinity" then "inf"
  else if text = "-Infinity" then "-inf"
  else text

/-! ## Values -/

/-- A bracket that is open, with what it holds so far, the last one first. -/
inductive Frame
  | array (items : List JsonTree)
  /-- The value of the key is yet to come. -/
  | object (members : List (CodeText × JsonTree)) (key : CodeText)

inductive State
  /-- A value comes next; behind a new bracket that may also close. -/
  | value (frames : List Frame)
  /-- A key comes next; behind a new bracket that may also close. -/
  | key (members : List (CodeText × JsonTree)) (frames : List Frame)
  | colon (members : List (CodeText × JsonTree)) (key : CodeText) (frames : List Frame)
  | afterItem (items : List JsonTree) (frames : List Frame)
  | afterMember (members : List (CodeText × JsonTree)) (frames : List Frame)
  | finished (value : JsonTree)

/-- The state behind a value. -/
def complete (value : JsonTree) : List Frame → State
  | [] => .finished value
  | .array items :: frames => .afterItem (value :: items) frames
  | .object members key :: frames => .afterMember ((key, value) :: members) frames

def step : State → JsonToken → Option State
  | .value frames, .text t => some (complete (.text t) frames)
  | .value frames, .literal cs => (literal? cs).map fun v => complete v frames
  | .value frames, .openArray => some (.value (.array [] :: frames))
  | .value frames, .openObject => some (.key [] frames)
  | .value (.array [] :: frames), .closeArray => some (complete (.array []) frames)
  | .key members frames, .text t => some (.colon members t frames)
  | .key [] frames, .closeObject => some (complete (.object []) frames)
  | .colon members key frames, .colon => some (.value (.object members key :: frames))
  | .afterItem items frames, .comma => some (.value (.array items :: frames))
  | .afterItem items frames, .closeArray => some (complete (.array items.reverse) frames)
  | .afterMember members frames, .comma => some (.key members frames)
  | .afterMember members frames, .closeObject => some (complete (.object members.reverse) frames)
  | _, _ => none

def finished? : State → Option JsonTree
  | .finished v => some v
  | _ => none

/-- The value of a JSON text, if it is one. -/
def read (text : String) : Option JsonTree := do
  let ts ← tokens text.toList
  let state ← ts.foldlM step (.value [])
  finished? state

end JsonTree

namespace Json

mutual

/-- What the text of a value says. Halves of pairs have become characters in it. -/
@[simp] def tree : Json → JsonTree
  | .null => .null
  | .number x => .number x.jsonText
  | .text t => .text t.joined
  | .array items => .array (trees items)
  | .object members => .object (memberTrees members)

def trees : List Json → List JsonTree
  | [] => []
  | j :: js => tree j :: trees js

@[simp] def memberTrees : List (String × Json) → List (CodeText × JsonTree)
  | [] => []
  | m :: ms => memberTree m :: memberTrees ms

@[simp] def memberTree : String × Json → CodeText × JsonTree
  | (key, value) => (key, tree value)

end

theorem trees_eq_map (js : List Json) : trees js = js.map tree := by
  induction js with
  | nil => rfl
  | cons j js ih => rw [trees, ih, List.map_cons]

end Json

end ExprFront
