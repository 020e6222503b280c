import ExprFront.Diagnostic.Basic

/-!
# Collecting diagnostics

A collector keeps diagnostics in the order of their arrival. With a limit other than zero it is
full as soon as it holds that many.
-/

namespace ExprFront
set_option autoImplicit false

structure Collector where
  diagnostics : List Diagnostic
  limit : Option Int
  deriving DecidableEq

namespace Collector

def ofLimit (limit : Option Int) : Collector := ⟨[], limit⟩

def add (c : Collector) (d : Diagnostic) : Collector :=
  { c with diagnostics := c.diagnostics ++ [d] }

def clear (c : Collector) : Collector :=
  { c with diagnostics := [] }

def count (c : Collector) : Nat := c.diagnostics.length

theorem count_add (c : Collector) (d : Diagnostic) : (c.add d).count = c.count + 1 := by
  simp [count, add]

theorem count_lt_add (c : Collector) (d : Diagnostic) : c.count < (c.add d).count := by
  simp [count, add]

/-- Whether the limit is reached; no limit and a limit of zero never are. -/
def isFull (c : Collector) : Bool :=
  match c.limit with
  | none => false
  | some n => n ≠ 0 && n ≤ c.count

def countText (n : Nat) : String :=
  n.repr ++ (if n = 1 then " error" else " errors")

/-- All texts, each followed by an empty line, and the count. -/
def report (c : Collector) : String :=
  String.intercalate "\n" (c.diagnostics.flatMap (fun d => [d.text, ""]) ++ [countText c.count])

/-- The summary to stop with, if there are diagnostics. -/
def summary? (c : Collector) : Option Diagnostic :=
  if c.diagnostics.isEmpty then none
  else some ⟨.general .aborted c.report none, none, none⟩

end Collector

end ExprFront
