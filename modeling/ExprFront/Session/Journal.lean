import ExprFront.Session.Basic

/-!
# The journal of a session

A session writes down the words and numbers that it scans, every diagnostic, and what becomes
of each unit. The journal of a turn follows from the sessions before and after it, because
scanning the same text again gives the same tokens.
-/

namespace ExprFront
set_option autoImplicit false

inductive LogLevel
  | debug
  | info
  | warning
  deriving DecidableEq

def LogLevel.label : LogLevel → String
  | .debug => "DEBUG"
  | .info => "INFO"
  | .warning => "WARNING"

inductive LogSource
  | scanner
  | parser
  | session
  | program
  deriving DecidableEq

def LogSource.name : LogSource → String
  | .scanner => "kscope.frontend.lexer"
  | .parser => "kscope.frontend.parser"
  | .session => "kscope.frontend.driver"
  | .program => "kscope.frontend.frontend"

structure LogRecord where
  level : LogLevel
  source : LogSource
  message : String
  deriving DecidableEq

namespace LogRecord

def briefText (r : LogRecord) : String :=
  r.level.label ++ ": " ++ r.message

def fullText (r : LogRecord) : String :=
  r.level.label ++ ": " ++ r.source.name ++ ": " ++ r.message

end LogRecord

/-- The value of a lexeme that is written down when it is scanned. -/
def Lexeme.payloadText : Lexeme → Option String
  | .define => some (Text.quote "def")
  | .external => some (Text.quote "extern")
  | .name text => some (Text.quote text)
  | .number value => some value.text
  | _ => none

/-- The record of a scanned token; only words and numbers have one. -/
def Token.record? (t : Token) : Option LogRecord :=
  t.lexeme.payloadText.map fun payload =>
    ⟨.debug, .scanner, t.location.text ++ ": " ++ t.kind.label ++ " " ++ payload⟩

/-- What happens during a turn, in order. -/
inductive JournalEntry
  /-- A token was scanned, which left this scanner. -/
  | scanned (token : Token) (scanner : Scanner)
  | noted (record : LogRecord)

namespace JournalEntry

def record? : JournalEntry → Option LogRecord
  | .scanned t _ => t.record?
  | .noted r => some r

def readsEnd : JournalEntry → Bool
  | .scanned _ s => s.reader.pending.isEmpty
  | .noted _ => false

end JournalEntry

def Diagnostic.record (d : Diagnostic) : LogRecord :=
  ⟨.debug, .parser, "syntax error reported: " ++ d.message ++ " at " ++
    (d.location.map Location.text).getD "None"⟩

def UnitKind.word : UnitKind → String
  | .definition => "definition"
  | .declaration => "extern"
  | .expression => "expression"
  | .failure => "error"

namespace Session.Beat

def scanned (b : Beat) : List JournalEntry :=
  let first := b.before.parser.scanner
  (first.listing (b.after.parser.scanner.count - first.count)).map fun r => .scanned r.1 r.2

/-- The kind of unit that the turn was about to parse. -/
def attempted (b : Beat) : UnitKind :=
  match b.before.parser.prime.current with
  | some t => .ofLexeme t.lexeme
  | none => .failure

/-- The record of the token to which a failed unit has skipped. -/
def skipRecord (b : Beat) : LogRecord :=
  ⟨.debug, .session, b.attempted.word ++ " failed, skipped to " ++
    (b.after.parser.current.map Token.text).getD "None"⟩

/-- What happened during a turn. A diagnostic comes before the token that is skipped after
it. -/
def journal (b : Beat) : List JournalEntry :=
  match b.turn with
  | .idle => []
  | .aborted =>
    [.noted ⟨.info, .session, "stopping after " ++ b.before.parser.errors.count.repr ++ " errors"⟩]
  | .endOfInput | .separator => b.scanned
  | .unit (.failure d) =>
    b.scanned.dropLast ++ (d.toList.map fun d => .noted d.record) ++
      b.scanned.drop (b.scanned.length - 1) ++ [.noted b.skipRecord]
  | .unit u =>
    b.scanned ++ [.noted ⟨.debug, .session, "parsed " ++ u.kind.word ++ " unit"⟩]

end Session.Beat

end ExprFront
