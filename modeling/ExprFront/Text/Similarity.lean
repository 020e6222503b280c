/-!
# Similar texts

The likeness of two texts is the share of their characters in common blocks: the longest block
that both have, the earliest one if there are several, and then the blocks to its left and to
its right. A misspelled word is compared with the words that would have been right.
-/

namespace ExprFront.Text
set_option autoImplicit false

def commonBeginning : List Char → List Char → Nat
  | a :: as, b :: bs => if a = b then commonBeginning as bs + 1 else 0
  | _, _ => 0

/-- A block that two texts have in common: its places in both, and its length. -/
structure CommonBlock where
  left : Nat
  right : Nat
  length : Nat

/-- The longest common block, the earliest in `as` and then in `bs`. -/
def longestBlock (as bs : List Char) : CommonBlock :=
  (List.range as.length).foldl (fun best i =>
    (List.range bs.length).foldl (fun best j =>
      let n := commonBeginning (as.drop i) (bs.drop j)
      if best.length < n then ⟨i, j, n⟩ else best) best) ⟨0, 0, 0⟩

/-- The number of characters in common blocks, looked for in at most `depth` nested parts. -/
def commonChars : Nat → List Char → List Char → Nat
  | 0, _, _ => 0
  | depth + 1, as, bs =>
    let block := longestBlock as bs
    if block.length = 0 then 0
    else
      commonChars depth (as.take block.left) (bs.take block.right) + block.length +
        commonChars depth (as.drop (block.left + block.length))
          (bs.drop (block.right + block.length))

/-- The likeness of `known` to `word`, as a quotient: twice the common characters of all. -/
def likeness (known word : String) : Nat × Nat :=
  let as := known.toList
  let bs := word.toList
  (2 * commonChars (as.length + 1) as bs, as.length + bs.length)

/-- Whether a known word is like enough to be suggested: a likeness of three fifths. -/
def isLike (known word : String) : Bool :=
  let (n, d) := likeness known word
  3 * d ≤ 5 * n

/-- Whether `a` is to be suggested before `b`: it is more like the word, or as like and later in
alphabetical order. -/
def suggestedBefore (word a b : String) : Bool :=
  let (m, c) := likeness a word
  let (n, d) := likeness b word
  n * c < m * d || (n * c == m * d && b < a)

/-- Up to three of the known words that are most like a word, in alphabetical order. -/
def suggestions (known : List String) (word : String) : List String :=
  let ranked := (known.filter fun k => isLike k word).mergeSort fun a b => !suggestedBefore word b a
  (ranked.take 3).mergeSort fun a b => !(b < a)

end ExprFront.Text
