import NameAudit.Escape
import NameAudit.Text.Letters
import NameAudit.Token.Trivia

/-!
The extent of names, numbers, strings, regular expressions and templates.
-/
namespace NameAudit.Scan

/-- Passes the characters of a name from inside it.  The answer also tells whether the name holds an
escape. -/
def name (escaped : Bool) (c : Cursor) : Except SyntaxError (Bool × Cursor) :=
  let d := c.skipWhile Text.isIdContinue
  match _hd : d.rest with
  | '\\' :: 'u' :: cs =>
    match Escape.codePoint? cs with
    | some (_, n) => name true (d.skip (n + 2))
    | none => fail .invalidEscape d.offset (d.offset + 2)
  | '\\' :: other :: _ => fail .invalidEscape d.offset (d.offset + 1 + other.utf8Size)
  | ['\\'] => fail .invalidEscape d.offset (d.offset + 1)
  | _ => .ok (escaped, d)
termination_by c.rest.length
decreasing_by
  have h := Cursor.length_rest_skipWhile_le Text.isIdContinue c
  rw [Cursor.length_rest_skip]
  have : d.rest.length = cs.length + 2 := by simp [_hd]
  simp only [d] at this
  omega

/-- Digits of a radix, with letters of either case, and the separator `_`. -/
def isDigitOf (radix : Nat) (c : Char) : Bool :=
  c == '_' || match Escape.hexDigit? c with
    | some d => d < radix
    | none => false

/-- Passes a run of digits. -/
def digits (radix : Nat) (c : Cursor) : Cursor := c.skipWhile (isDigitOf radix)

/-- The radix that a number announces after its leading zero. -/
def radixOf? : List Char → Option Nat
  | '0' :: 'x' :: _ => some 16
  | '0' :: 'X' :: _ => some 16
  | '0' :: 'o' :: _ => some 8
  | '0' :: 'O' :: _ => some 8
  | '0' :: 'b' :: _ => some 2
  | '0' :: 'B' :: _ => some 2
  | _ => none

/-- Passes the sign of an exponent, where there is one. -/
def skipSign (c : Cursor) : Cursor :=
  match c.rest with
  | '+' :: _ => c.skip 1
  | '-' :: _ => c.skip 1
  | _ => c

/-- Passes the point and the digits of a fraction, where there is one. -/
def skipFraction (c : Cursor) : Cursor :=
  match c.rest with
  | '.' :: _ => digits 10 (c.skip 1)
  | _ => c

/-- Passes the letter of an exponent and its sign, where there is one. -/
def exponentStart? (c : Cursor) : Option Cursor :=
  match c.rest with
  | 'e' :: _ => some (skipSign (c.skip 1))
  | 'E' :: _ => some (skipSign (c.skip 1))
  | _ => none

/-- Passes the digits of a number with its fraction and exponent, or its radix and digits.  `none`
means that digits are missing, up to the given offset. -/
def numeral (c : Cursor) : Except Nat Cursor :=
  match radixOf? c.rest with
  | some radix =>
    let start := c.skip 2
    let stop := digits radix start
    if stop.offset = start.offset then .error stop.offset else .ok stop
  | none =>
    let mantissa := skipFraction (digits 10 c)
    match exponentStart? mantissa with
    | none => .ok mantissa
    | some start =>
      let stop := digits 10 start
      if stop.offset = start.offset then .error stop.offset else .ok stop

/-- Passes a number and the `n` of a big integer.  No character of a name may follow. -/
def number (c : Cursor) : Except SyntaxError (TokenKind × Cursor) :=
  match numeral c with
  | .error stop => fail .malformedNumber c.offset stop
  | .ok d =>
    let (kind, e) : TokenKind × Cursor :=
      match d.rest with
      | 'n' :: _ => (.bigInt, d.skip 1)
      | _ => (.number, d)
    match e.rest with
    | ch :: _ =>
      if Text.isIdContinue ch then fail .malformedNumber c.offset e.offset else .ok (kind, e)
    | [] => .ok (kind, e)

/-- The position after the quote that closes a string, or the offset at which the string is given
up: after a line feed, or at the end. -/
def closeString (quote : Char) (offset : Nat) : List Char → Except Nat Cursor
  | [] => .error offset
  | ['\\'] => .error (offset + 1)
  | '\\' :: '\r' :: '\n' :: cs => closeString quote (offset + 3) cs
  | '\\' :: e :: cs => closeString quote (offset + 1 + e.utf8Size) cs
  | c :: cs =>
    if c = quote then .ok ⟨offset + c.utf8Size, cs⟩
    else if c = '\n' then .error (offset + 1)
    else closeString quote (offset + c.utf8Size) cs

/-- Passes a string from its opening quote. -/
def string (c : Cursor) : Except SyntaxError (TokenKind × Cursor) :=
  match c.rest with
  | [] => fail (.unterminated "string literal") c.offset c.offset
  | quote :: cs =>
    match closeString quote (c.offset + quote.utf8Size) cs with
    | .ok d => .ok (.string, d)
    | .error stop => fail (.unterminated "string literal") c.offset stop

/-- The position after the slash that closes a regular expression, or the offset at which the
expression is given up: after a line terminator, or at the end.  In brackets a slash stands for
itself. -/
def closeRegex (inClass : Bool) (offset : Nat) : List Char → Except Nat Cursor
  | [] => .error offset
  | ['\\'] => .error (offset + 1)
  | '\\' :: e :: cs =>
    if Text.isLineTerminator e then .error (offset + 1 + e.utf8Size)
    else closeRegex inClass (offset + 1 + e.utf8Size) cs
  | c :: cs =>
    if c = '[' then closeRegex true (offset + 1) cs
    else if c = ']' then closeRegex false (offset + 1) cs
    else if c = '/' ∧ inClass = false then .ok ⟨offset + 1, cs⟩
    else if Text.isLineTerminator c then .error (offset + c.utf8Size)
    else closeRegex inClass (offset + c.utf8Size) cs

/-- Passes a regular expression from its opening slash, with its flags. -/
def regex (c : Cursor) : Except SyntaxError (TokenKind × Cursor) :=
  let d := c.skip 1
  match closeRegex false d.offset d.rest with
  | .ok e => .ok (.regex, e.skipWhile Text.isIdContinue)
  | .error stop => fail (.unterminated "regular expression") c.offset stop

/-- How a piece of a template ends. -/
inductive TemplateEnd where
  | closed
  | substitution
  deriving DecidableEq, Inhabited, Repr

/-- The end of a piece of a template and the position after it, or the offset of the end of the
text. -/
def closeTemplate (offset : Nat) : List Char → Except Nat (TemplateEnd × Cursor)
  | [] => .error offset
  | ['\\'] => .error (offset + 1)
  | '\\' :: e :: cs => closeTemplate (offset + 1 + e.utf8Size) cs
  | '$' :: '\x7b' :: cs => .ok (.substitution, ⟨offset + 2, cs⟩)
  | c :: cs =>
    if c = '\x60' then .ok (.closed, ⟨offset + 1, cs⟩)
    else closeTemplate (offset + c.utf8Size) cs

/-- Passes a piece of a template from the character that opens it. -/
def template (closed substitution : TokenKind) (c : Cursor) :
    Except SyntaxError (TokenKind × Cursor) :=
  let d := c.skip 1
  match closeTemplate d.offset d.rest with
  | .ok (.closed, e) => .ok (closed, e)
  | .ok (.substitution, e) => .ok (substitution, e)
  | .error stop => fail (.unterminated "template") c.offset stop

end NameAudit.Scan
