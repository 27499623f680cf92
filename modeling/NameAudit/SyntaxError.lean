import NameAudit.Token

/-!
Errors in the form of a program: what went wrong, where, and which token stood there.
-/
namespace NameAudit

/-- What went wrong. -/
inductive SyntaxError.Cause where
  /-- Something described in words was needed. -/
  | expected (what : String)
  /-- A certain token was needed. -/
  | missing (kind : TokenKind)
  | unexpectedEnd
  | unexpectedCharacter
  /-- Something that has to be closed runs on to the end. -/
  | unterminated (what : String)
  | invalidTarget
  | invalidEscape
  | malformedNumber
  | newlineAfterThrow
  | newlineBeforeArrow
  /-- A `try` without `catch` and without `finally`. -/
  | bareTry
  deriving DecidableEq, Inhabited, Repr

/-- An error with its place and, if it was raised on a token, the kind of that token. -/
structure SyntaxError where
  cause : SyntaxError.Cause
  span : Span
  found : Option TokenKind := none
  deriving DecidableEq, Inhabited, Repr

namespace SyntaxError

def Cause.code : Cause → String
  | expected _ => "PS0001"
  | missing _ => "PS0002"
  | unexpectedEnd => "PS0003"
  | unexpectedCharacter => "PS0004"
  | unterminated _ => "PS0005"
  | invalidTarget => "PS0006"
  | invalidEscape => "PS0007"
  | malformedNumber => "PS0008"
  | newlineAfterThrow => "PS0009"
  | newlineBeforeArrow => "PS0010"
  | bareTry => "PS0011"

/-- What was wanted, and what was found instead of it. -/
def wanted (what : String) : Option TokenKind → String
  | some kind => "expected " ++ what ++ ", found " ++ kind.describe
  | none => "expected " ++ what

/-- The message of an error, without its place. -/
def message (e : SyntaxError) : String :=
  match e.cause with
  | .expected what => wanted what e.found
  | .missing kind => wanted kind.describe e.found
  | .unexpectedEnd => "unexpected end of input"
  | .unexpectedCharacter => "unexpected character"
  | .unterminated what => "unterminated " ++ what
  | .invalidTarget => "invalid assignment target"
  | .invalidEscape => "invalid escape sequence"
  | .malformedNumber => "malformed number literal"
  | .newlineAfterThrow => "line break is not allowed between `throw` and its value"
  | .newlineBeforeArrow => "line break is not allowed before `=>`"
  | .bareTry => "`try` needs a `catch` or `finally` block"

/-- The message followed by the place. -/
def text (e : SyntaxError) : String :=
  e.message ++ " at " ++ toString e.span.start ++ ".." ++ toString e.span.stop

/-- What to write at the place of the error, where it is known what was wanted there. -/
def Cause.note? : Cause → Option String
  | expected what => some ("expected " ++ what ++ " here")
  | missing kind => some ("expected " ++ kind.describe ++ " here")
  | _ => none

end SyntaxError
end NameAudit
