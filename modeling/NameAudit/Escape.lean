/-!
Escape sequences in identifiers and in string literals.  `codeUnit?` reads the number of a `\u`
escape, `identifier?` and `stringLiteral?` decode whole tokens; each answers `none` exactly on text
that holds a malformed escape.
-/
namespace NameAudit.Escape

/-- Stands for a surrogate that is not part of a pair. -/
def replacement : Char := '\ufffd'

/-- The character with this number, unless the number is a surrogate or too large. -/
def charOf? (n : Nat) : Option Char := if n.isValidChar then some (Char.ofNat n) else none

/-- The value of a digit in base 16, with letters of either case. -/
def hexDigit? (c : Char) : Option Nat :=
  if '0' ≤ c ∧ c ≤ '9' then some (c.toNat - 48)
  else if 'a' ≤ c ∧ c ≤ 'f' then some (c.toNat - 87)
  else if 'A' ≤ c ∧ c ≤ 'F' then some (c.toNat - 55)
  else none

/-- The number written by digits in base 16 after those already read. -/
def hexFrom (value : Nat) : List Char → Option Nat
  | [] => some value
  | c :: cs =>
    match hexDigit? c with
    | some d => hexFrom (16 * value + d) cs
    | none => none

/-- The number that a text writes in base 16; the text must hold at least one digit and nothing
else. -/
def hex? (cs : List Char) : Option Nat := if cs.isEmpty then none else hexFrom 0 cs

/-- The number that the first `n` characters write in base 16. -/
def hexRun? (n : Nat) (cs : List Char) : Option Nat :=
  if (cs.take n).length = n then hex? (cs.take n) else none

/-- Reads the number after `\u`, in braces or as four digits, with the count of characters read.
A surrogate is a number like any other. -/
def codeUnit? (cs : List Char) : Option (Nat × Nat) :=
  match cs with
  | '\x7b' :: inner =>
    let digits := inner.takeWhile (· != '\x7d')
    if digits.length < inner.length then
      match hex? digits with
      | some value => if value ≤ 0x10ffff then some (value, digits.length + 2) else none
      | none => none
    else none
  | _ => (hexRun? 4 cs).map fun value => (value, 4)

/-- Like `codeUnit?`, with a surrogate replaced. -/
def codePoint? (cs : List Char) : Option (Char × Nat) :=
  (codeUnit? cs).map fun (value, n) => ((charOf? value).getD replacement, n)

/-- The name that an identifier token stands for. -/
def identifier? : List Char → Option (List Char)
  | [] => some []
  | '\\' :: 'u' :: cs =>
    match codePoint? cs with
    | some (c, n) => (identifier? (cs.drop n)).map (c :: ·)
    | none => none
  | c :: cs => if c = '\\' then none else (identifier? cs).map (c :: ·)
termination_by cs => cs.length
decreasing_by all_goals simp only [List.length_cons, List.length_drop]; omega

/-- The first half of a surrogate pair. -/
def isHighSurrogate (n : Nat) : Bool := 0xd800 ≤ n && n < 0xdc00

/-- The second half of a surrogate pair. -/
def isLowSurrogate (n : Nat) : Bool := 0xdc00 ≤ n && n < 0xe000

def pairValue (high low : Nat) : Nat := 0x10000 + (high - 0xd800) * 0x400 + (low - 0xdc00)

/-- The second half of a surrogate pair, written as an escape of its own. -/
def lowHalf? : List Char → Option (Nat × Nat)
  | '\\' :: 'u' :: cs =>
    match codeUnit? cs with
    | some (low, n) => if isLowSurrogate low then some (low, n + 2) else none
    | none => none
  | _ => none

/-- Reads the character after `\u` in a string literal, where two escapes can write a surrogate
pair. -/
def stringCodePoint? (cs : List Char) : Option (Char × Nat) :=
  match codeUnit? cs with
  | none => none
  | some (value, n) =>
    match if isHighSurrogate value then lowHalf? (cs.drop n) else none with
    | some (low, m) => some ((charOf? (pairValue value low)).getD replacement, n + m)
    | none => some ((charOf? value).getD replacement, n)

def isOctal (c : Char) : Bool := '0' ≤ c && c ≤ '7'

/-- The digits of an octal escape after its first one: at most two, and at most one where two would
exceed a byte. -/
def octalTail (first : Char) (cs : List Char) : List Char :=
  (cs.take (if first ≤ '3' then 2 else 1)).takeWhile isOctal

def octalValue (digits : List Char) : Nat :=
  digits.foldl (fun value c => 8 * value + (c.toNat - 48)) 0

/-- What the escape of a character in a string literal denotes, given the text after it, with the
count of further characters that belong to it.  An escaped line break denotes nothing. -/
def stringEscape? (e : Char) (cs : List Char) : Option (Option Char × Nat) :=
  if e = 'n' then some (some '\n', 0)
  else if e = 'r' then some (some '\r', 0)
  else if e = 't' then some (some '\t', 0)
  else if e = 'b' then some (some '\x08', 0)
  else if e = 'f' then some (some '\x0c', 0)
  else if e = 'v' then some (some '\x0b', 0)
  else if e = '\n' ∨ e = '\u2028' ∨ e = '\u2029' then some (none, 0)
  else if e = '\r' then some (none, if cs.head? = some '\n' then 1 else 0)
  else if e = 'x' then (hexRun? 2 cs).map fun value => (some (Char.ofNat value), 2)
  else if e = 'u' then (stringCodePoint? cs).map fun (c, n) => (some c, n)
  else if isOctal e then
    let digits := octalTail e cs
    some (some (Char.ofNat (octalValue (e :: digits))), digits.length)
  else some (some e, 0)

/-- Decodes the text between the quotes of a string literal. -/
def stringBody? : List Char → Option (List Char)
  | [] => some []
  | '\\' :: e :: cs =>
    match stringEscape? e cs with
    | some (c, n) => (stringBody? (cs.drop n)).map (c.toList ++ ·)
    | none => none
  | c :: cs => if c = '\\' then none else (stringBody? cs).map (c :: ·)
termination_by cs => cs.length
decreasing_by all_goals simp only [List.length_cons, List.length_drop]; omega

/-- The value of a string literal with its quotes, which take one byte each. -/
def stringLiteral? : List Char → Option (List Char)
  | [] => none
  | first :: rest =>
    match rest.getLast? with
    | none => none
    | some last =>
      if first.utf8Size = 1 ∧ last.utf8Size = 1 then stringBody? rest.dropLast else none

end NameAudit.Escape
