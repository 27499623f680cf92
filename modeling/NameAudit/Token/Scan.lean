import NameAudit.Token.Literal

/-!
The next token of a text.  A slash begins a regular expression where an operand is expected and is a
punctuator elsewhere; a closing brace continues a template only where a substitution ends.  The text
of a token is exactly the text passed.
-/
namespace NameAudit.Scan

/-- What the grammar expects next. -/
inductive Expecting where
  | operand
  | operator
  deriving DecidableEq, Inhabited, Repr

/-- The kind of a name: a reserved word only when it is written without escapes. -/
def wordKind (escaped : Bool) (text : List Char) : TokenKind :=
  match Keyword.ofText? (String.ofList text) with
  | some k => if escaped then .identifier else .word k
  | none => .identifier

/-- Passes an identifier or a reserved word. -/
def word (c : Cursor) : Except SyntaxError (TokenKind × Cursor) :=
  match name false c with
  | .error e => .error e
  | .ok (escaped, d) => .ok (wordKind escaped (c.upTo d.offset), d)

/-- Passes a private name from its `#`. -/
def privateName (c : Cursor) : Except SyntaxError (TokenKind × Cursor) :=
  let d := c.skip 1
  match d.rest with
  | ch :: _ =>
    if Text.isIdStart ch then
      match name false d with
      | .error e => .error e
      | .ok (_, e) => .ok (.privateName, e)
    else fail .unexpectedCharacter c.offset d.offset
  | [] => fail .unexpectedCharacter c.offset d.offset

/-- Whether a text begins with a decimal digit. -/
def startsWithDigit : List Char → Bool
  | c :: _ => c.isDigit
  | [] => false

/-- The punctuator at the start of a text: the longest one, except that `?.` before a digit is the
`?` of a conditional. -/
def punctuatorAt? (cs : List Char) : Option Punctuator :=
  match Punctuator.longest? cs with
  | some .questionDot => if startsWithDigit (cs.drop 2) then some .question else some .questionDot
  | other => other

/-- Passes a punctuator. -/
def punctuator (c : Cursor) : Except SyntaxError (TokenKind × Cursor) :=
  match punctuatorAt? c.rest with
  | some p => .ok (.punct p, c.skip p.text.length)
  | none => fail .unexpectedCharacter c.offset (c.skip 1).offset

/-- Passes one token, from its first character. -/
def lexeme (expecting : Expecting) (c : Cursor) : Except SyntaxError (TokenKind × Cursor) :=
  match c.rest with
  | [] => .ok (.eof, c)
  | ch :: cs =>
    if Text.isIdStart ch || ch == '\\' then word c
    else if ch == '#' then privateName c
    else if ch.isDigit then number c
    else if ch == '.' && startsWithDigit cs then number c
    else if ch == '\x22' || ch == '\x27' then string c
    else if ch == '\x60' then template .templateWhole .templateHead c
    else if ch == '/' && expecting == .operand then regex c
    else punctuator c

/-- The token between two positions. -/
def tokenAt (kind : TokenKind) (seen : Trivia) (start stop : Cursor) : Token where
  kind := kind
  span := stop.spanFrom start.offset
  text := String.ofList (start.upTo stop.offset)
  afterNewline := seen.newline
  doc := seen.docs.getLast?

/-- The next token and the position after it. -/
def token (expecting : Expecting) (c : Cursor) : Except SyntaxError (Token × Cursor) :=
  match trivia {} c with
  | .error e => .error e
  | .ok (seen, start) =>
    match lexeme expecting start with
    | .error e => .error e
    | .ok (kind, stop) => .ok (tokenAt kind seen start stop, stop)

/-- The token that continues a template after a substitution, from the brace that closes the
substitution. -/
def templateRest (c : Cursor) : Except SyntaxError (Token × Cursor) :=
  match c.rest with
  | '\x7d' :: _ =>
    match template .templateTail .templateMiddle c with
    | .error e => .error e
    | .ok (kind, stop) => .ok (tokenAt kind {} c stop, stop)
  | _ => fail (.missing (.punct .braceClose)) c.offset (c.skip 1).offset

/-- The tokens of a text read one after the other, up to the end or an error, and the offset at
which reading stopped. -/
structure Tokens where
  tokens : List Token
  error : Option SyntaxError
  stop : Nat
  deriving Inhabited, Repr

/-- Reads at most `n` tokens. -/
def tokensWithin (expecting : Expecting) : Nat → Cursor → Tokens
  | 0, c => ⟨[], none, c.offset⟩
  | n + 1, c =>
    match token expecting c with
    | .error e => ⟨[], some e, e.span.stop⟩
    | .ok (t, d) =>
      if t.kind = .eof then ⟨[t], none, d.offset⟩
      else
        let later := tokensWithin expecting n d
        { later with tokens := t :: later.tokens }

/-- Reads every token of a source text, always with the same expectation.  Each token but the last
takes a character, which bounds their number. -/
def tokens (expecting : Expecting) (source : List Char) : Tokens :=
  tokensWithin expecting (source.length + 1) (Cursor.ofSource source)

end NameAudit.Scan
