import ExprFront.Text.CodePoint
import ExprFront.Token.Scanner

/-!
# The kind of a written name

Reports give the kind of token that a name would be. Of a name that starts with a letter only
the letters and digits count, so that marks within a keyword do not hide it.
-/

namespace ExprFront
set_option autoImplicit false

/-- The kind of token that a text would be, if it starts like a word or a number. -/
def classify (text : String) : Option TokenKind :=
  match text.toList with
  | [] => none
  | c :: cs =>
    if isLetter c then
      some (Lexeme.ofWord (String.ofList ((c :: cs).filter isWordChar))).kind
    else if isNumberChar c then some .number
    else none

/-- The kind of a text of code points, of which a half is one more mark. -/
def classifyCode (text : CodeText) : Option TokenKind :=
  match text with
  | .char _ :: _ => classify (String.ofList text.chars)
  | _ => none

theorem classifyCode_ofString (text : String) : classifyCode text = classify text := by
  obtain ⟨cs, rfl⟩ : ∃ cs, String.ofList cs = text := ⟨_, String.ofList_toList⟩
  have hchars := CodeText.chars_ofString (String.ofList cs)
  rw [CodeText.ofString, String.toList_ofList] at *
  cases cs with
  | nil => rfl
  | cons c cs => exact congrArg (fun l => classify (String.ofList l)) hchars

def reportName : Option TokenKind → String
  | none => TokenKind.noReportName
  | some kind => kind.reportName

end ExprFront
