import ExprFront.Command.Failure
import ExprFront.Operator.Spec
import ExprFront.Text.Similarity

/-!
# Command-line arguments

Options start with one hyphen and a letter, or with two and a word; letters may be joined. The
value of an option follows it, in the same argument or in the next one. A hyphen alone is an
operand, and after two hyphens everything is. The options that only tell about the command
work whatever the other values are.
-/

namespace ExprFront
set_option autoImplicit false

inductive Setting
  | output
  | json
  | operator
  | verbose
  | version
  | help
  deriving DecidableEq

structure OptionSpec where
  setting : Setting
  letter : Option Char
  word : String
  /-- The name of its value, if it takes one. -/
  value : Option String
  description : String
  deriving DecidableEq

namespace OptionSpec

def takesValue (o : OptionSpec) : Bool := o.value.isSome

def forms (o : OptionSpec) : String :=
  ((o.letter.map fun c => "-" ++ String.singleton c ++ ", ").getD "") ++ o.word ++
    ((o.value.map fun v => " " ++ v).getD "")

def verbose : OptionSpec :=
  ⟨.verbose, some 'v', "--verbose", none, "Verbose output (debug logging)"⟩

def version : OptionSpec :=
  ⟨.version, none, "--version", none, "Show the version and exit."⟩

def help : OptionSpec :=
  ⟨.help, none, "--help", none, "Show this message and exit."⟩

end OptionSpec

structure CommandSpec where
  program : String
  summary : String
  options : List OptionSpec
  deriving DecidableEq

namespace CommandSpec

def release : String := "1.0.0"

def usage (c : CommandSpec) : String :=
  "Usage: " ++ c.program ++ " [OPTIONS] [INPUT_FILE]"

def versionLine (c : CommandSpec) : String :=
  c.program ++ ", version " ++ release

/-- The lines of the listing of options, with the descriptions in one column. -/
def optionLines (c : CommandSpec) : List String :=
  let width := (c.options.map fun o => o.forms.length).foldl max 0
  c.options.map fun o =>
    "  " ++ o.forms ++ String.ofList (List.replicate (width + 2 - o.forms.length) ' ') ++
      o.description

def helpLines (c : CommandSpec) : List String :=
  [c.usage, "", "  " ++ c.summary, "", "Options:"] ++ c.optionLines

end CommandSpec

inductive UsageFault
  | noSuchOption (name : String) (suggestions : List String)
  | needsValue (name : String)
  | takesNoValue (name : String)
  | badOperator (fault : SpecFault)
  | badInput (path reason : String)
  | extraOperands (operands : List String)
  deriving DecidableEq

namespace UsageFault

/-- The words that a misspelled option may have been meant to be. -/
def suggestionText : List String → String
  | [] => ""
  | [word] => " Did you mean " ++ word ++ "?"
  | words => " (Possible options: " ++ String.intercalate ", " words ++ ")"

def message : UsageFault → String
  | .noSuchOption name suggestions => "No such option: " ++ name ++ suggestionText suggestions
  | .needsValue name => "Option " ++ Text.quote name ++ " requires an argument."
  | .takesNoValue name => "Option " ++ Text.quote name ++ " does not take a value."
  | .badOperator fault => "Invalid value for '-b' / '--binop': " ++ fault.message
  | .badInput path reason => "Invalid value for '[INPUT_FILE]': '" ++ path ++ "': " ++ reason
  | .extraOperands operands =>
    "Got unexpected extra argument" ++ (if operands.length = 1 then "" else "s") ++ " (" ++
      String.intercalate " " operands ++ ")"

def recallsUsage : UsageFault → Bool
  | .needsValue _ | .takesNoValue _ => false
  | _ => true

def report (f : UsageFault) (c : CommandSpec) : Transcript :=
  let reminder :=
    if f.recallsUsage then [c.usage, "Try '" ++ c.program ++ " --help' for help.", ""] else []
  ⟨.invalidArguments, (reminder ++ ["Error: " ++ f.message]).foldl Console.warn .empty⟩

end UsageFault

/-- Arguments taken apart: the options with their values in order, and the operands. -/
structure Arguments where
  settings : List (Setting × String)
  operands : List String
  deriving DecidableEq

namespace Arguments

/-- What an argument that may be an option comes to: options without values, and perhaps one
whose value is in the next argument. -/
structure Reading where
  settings : List (Setting × String)
  /-- The option that lacks its value, and how it was written. -/
  lacking : Option (Setting × String)

def readLetters (specs : List OptionSpec) : List Char → Except UsageFault Reading
  | [] => .ok ⟨[], none⟩
  | c :: cs =>
    let name := String.ofList ['-', c]
    match specs.find? fun s => s.letter = some c with
    | none => .error (.noSuchOption name [])
    | some spec =>
      if spec.takesValue then
        if cs.isEmpty then .ok ⟨[], some (spec.setting, name)⟩
        else .ok ⟨[(spec.setting, String.ofList cs)], none⟩
      else
        (readLetters specs cs).map fun r => { r with settings := (spec.setting, "") :: r.settings }

def cutAtEquals (cs : List Char) : List Char × Option (List Char) :=
  match cs.dropWhile (· ≠ '=') with
  | [] => (cs, none)
  | _ :: value => (cs.takeWhile (· ≠ '='), some value)

/-- Reads an argument that starts with a hyphen and is longer than it. -/
def readOption (specs : List OptionSpec) (argument : String) : Except UsageFault Reading :=
  let (word, value) := cutAtEquals argument.toList
  let name := String.ofList word
  match specs.find? fun s => s.word = name with
  | some spec =>
    match spec.takesValue, value with
    | true, some v => .ok ⟨[(spec.setting, String.ofList v)], none⟩
    | true, none => .ok ⟨[], some (spec.setting, name)⟩
    | false, some _ => .error (.takesNoValue name)
    | false, none => .ok ⟨[(spec.setting, "")], none⟩
  | none =>
    match argument.toList with
    | '-' :: '-' :: _ =>
      .error (.noSuchOption name (Text.suggestions (specs.map OptionSpec.word) name))
    | _ :: letters => readLetters specs letters
    | [] => .ok ⟨[], none⟩

def isOption (argument : String) : Bool :=
  match argument.toList with
  | '-' :: _ :: _ => true
  | _ => false

def read (specs : List OptionSpec) : List String → Except UsageFault Arguments
  | [] => .ok ⟨[], []⟩
  | argument :: rest =>
    if argument = "--" then .ok ⟨[], rest⟩
    else if isOption argument then
      match readOption specs argument with
      | .error fault => .error fault
      | .ok ⟨settings, none⟩ =>
        (read specs rest).map fun a => { a with settings := settings ++ a.settings }
      | .ok ⟨settings, some (setting, name)⟩ =>
        match rest with
        | [] => .error (.needsValue name)
        | value :: rest =>
          (read specs rest).map fun a =>
            { a with settings := settings ++ (setting, value) :: a.settings }
    else (read specs rest).map fun a => { a with operands := argument :: a.operands }

def values (a : Arguments) (s : Setting) : List String :=
  a.settings.filterMap fun (t, value) => if t = s then some value else none

def has (a : Arguments) (s : Setting) : Bool := !(a.values s).isEmpty

end Arguments

/-- Reads the arguments of a command and runs it. The first option that asks about the command
itself is answered instead. -/
def CommandSpec.run (c : CommandSpec) (arguments : List String)
    (body : Arguments → Except UsageFault Transcript) : Transcript :=
  match Arguments.read c.options arguments with
  | .error fault => fault.report c
  | .ok a =>
    match a.settings.find? fun e => e.1 = .version || e.1 = .help with
    | some (.version, _) => ⟨.success, Console.empty.say c.versionLine⟩
    | some _ => ⟨.success, c.helpLines.foldl Console.say .empty⟩
    | none =>
      match body a with
      | .ok transcript => transcript
      | .error fault => fault.report c

end ExprFront
