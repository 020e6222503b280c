import ExprFront.Program.Content

/-!
# Runs with any names

Options whose names are any texts of code points. A run reads neither name, so that the run is made
without them, and the report puts them where they belong.
-/

namespace ExprFront
set_option autoImplicit false

structure CodeOptions where
  table : OperatorTable
  anonymous : CodeText
  /-- The name of the source. -/
  filename : CodeText
  limit : Option Int

/-- The options for a source of the given name. -/
def Options.coded (o : Options) (filename : Option String) : CodeOptions :=
  ⟨o.table, o.anonymous, o.nameOf filename, o.limit⟩

namespace CodeOptions

/-- The options with the halves of pairs put together in both names. -/
def joined (o : CodeOptions) : CodeOptions :=
  { o with anonymous := o.anonymous.joined, filename := o.filename.joined }

/-- In neither name a high half stands directly before a low one. -/
def Unpaired (o : CodeOptions) : Prop := o.anonymous.Unpaired ∧ o.filename.Unpaired

theorem Unpaired.joined_eq {o : CodeOptions} (h : o.Unpaired) : o.joined = o := by
  rw [joined, CodeText.unpaired_iff.mp h.1, CodeText.unpaired_iff.mp h.2]

def naming (o : CodeOptions) : Naming := .replaced o.anonymous o.filename

variable (o : CodeOptions) (source : List Char)

def units : List SourceUnit :=
  (Options.run ⟨o.table, "", "", o.limit⟩ source none).units

def entries : Except TreeFault (List Json) := entriesUnder o.naming (o.units source)

def report (s : Json.Style) : Except TreeFault String := reportUnder o.naming s (o.units source)

def contents : Option (List UnitContent) :=
  (o.units source).mapM (SourceUnit.contentUnder? o.naming)

end CodeOptions

end ExprFront
