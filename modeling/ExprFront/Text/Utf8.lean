import ExprFront.Text.Hex

/-!
# Decoding UTF-8

Bytes are decoded one sequence at a time. A sequence is refused if its first byte starts none,
or at the first later byte that cannot continue it. A sequence that the input cuts short is no
fault of the bytes before it: it is noticed only when the end of the input is read.
-/

namespace ExprFront.Text.Utf8
set_option autoImplicit false

inductive Reason
  | startByte
  | continuation
  /-- The input ends within the sequence. -/
  | truncated
  /-- The input ends within a sequence that would stand for a surrogate. -/
  | truncatedSurrogate
  deriving DecidableEq

/-- Whether the sequence is noticed only when the end of the input is read. -/
def Reason.atEnd : Reason → Bool
  | .truncated | .truncatedSurrogate => true
  | .startByte | .continuation => false

/-- A refused sequence: its offset, its first byte and the number of bytes that are at fault. -/
structure Fault where
  offset : Nat
  first : Nat
  count : Nat
  reason : Reason
  deriving DecidableEq

/-- What a byte list begins with: a character and the number of its further bytes, or a faulty
sequence. -/
inductive Head
  | char (c : Char) (further : Nat)
  | bad (count : Nat) (reason : Reason)

/-- Reads continuation bytes within the given ranges after `count` bytes of a sequence. -/
def continued : List (Nat × Nat) → Nat → Nat → List Nat → Head
  | [], value, count, _ => .char (Char.ofNat value) (count - 1)
  | _ :: _, _, count, [] => .bad count .truncated
  | (low, high) :: ranges, value, count, b :: bs =>
    if low ≤ b && b ≤ high then continued ranges (64 * value + b % 64) (count + 1) bs
    else .bad count .continuation

/-- The sequence that starts with `0xED`: a second byte from `0xA0` on would make a surrogate. -/
def headOfED (bs : List Nat) : Head :=
  match bs with
  | [b] =>
    if 0xA0 ≤ b && b ≤ 0xBF then .bad 1 .truncatedSurrogate
    else continued [(0x80, 0x9F), (0x80, 0xBF)] 0xD 1 bs
  | _ => continued [(0x80, 0x9F), (0x80, 0xBF)] 0xD 1 bs

/-- The sequence that starts with the byte `b`. Overlong forms, surrogates and code points past
the last are excluded by the range of the second byte. -/
def head (b : Nat) (bs : List Nat) : Head :=
  let any := (0x80, 0xBF)
  if b < 0x80 then .char (Char.ofNat b) 0
  else if b < 0xC2 then .bad 1 .startByte
  else if b < 0xE0 then continued [any] (b % 32) 1 bs
  else if b = 0xE0 then continued [(0xA0, 0xBF), any] (b % 16) 1 bs
  else if b = 0xED then headOfED bs
  else if b < 0xF0 then continued [any, any] (b % 16) 1 bs
  else if b = 0xF0 then continued [(0x90, 0xBF), any, any] (b % 8) 1 bs
  else if b < 0xF4 then continued [any, any, any] (b % 8) 1 bs
  else if b = 0xF4 then continued [(0x80, 0x8F), any, any] (b % 8) 1 bs
  else .bad 1 .startByte

/-- Decodes from offset `offset` on after skipping `skip` bytes: the characters up to the first
fault, and that fault. -/
def decodeFrom : Nat → Nat → List Nat → List Char × Option Fault
  | _, _, [] => ([], none)
  | offset, skip + 1, _ :: bs => decodeFrom (offset + 1) skip bs
  | offset, 0, b :: bs =>
    match head b bs with
    | .bad count reason => ([], some ⟨offset, b, count, reason⟩)
    | .char c further =>
      let (cs, fault) := decodeFrom (offset + 1) further bs
      (c :: cs, fault)

def decode (bytes : List Nat) : List Char × Option Fault :=
  decodeFrom 0 0 bytes

def Reason.text : Reason → String
  | .startByte => "invalid start byte"
  | .continuation => "invalid continuation byte"
  | .truncated => "unexpected end of data"
  | .truncatedSurrogate => "invalid continuation byte"

/-- The offset that is reported: what the input cuts short is decoded apart from all before. -/
def Fault.reportedOffset (f : Fault) : Nat :=
  if f.reason.atEnd then 0 else f.offset

def Fault.message (f : Fault) : String :=
  let start := f.reportedOffset
  let place :=
    if f.count = 1 then
      "byte 0x" ++ String.ofList (hex 2 f.first) ++ " in position " ++ start.repr
    else "bytes in position " ++ start.repr ++ "-" ++ (start + f.count - 1).repr
  "'utf-8' codec can't decode " ++ place ++ ": " ++ f.reason.text

end ExprFront.Text.Utf8
