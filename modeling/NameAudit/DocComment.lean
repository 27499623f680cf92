import NameAudit.Span
import NameAudit.Text.Blank

/-!
Documentation comments, their tags, and the warnings that they suppress.
-/
namespace NameAudit

/-- A comment that opens with two stars, with its delimiters. -/
structure DocComment where
  span : Span
  text : String
  deriving DecidableEq, Inhabited, Repr

namespace DocComment

/-- A tag `@name value`; the value runs to the next tag, without the blanks and stars around it. -/
structure Tag where
  name : String
  value : String
  deriving DecidableEq, Inhabited, Repr

/-- The text after the opening delimiter, where there is one. -/
def dropOpening : List Char → List Char
  | '/' :: '*' :: '*' :: cs => cs
  | cs => cs

/-- The text before the closing delimiter, where there is one. -/
def dropClosing (cs : List Char) : List Char :=
  match cs.reverse with
  | '/' :: '*' :: inner => inner.reverse
  | _ => cs

/-- The text between the delimiters. -/
def body (d : DocComment) : List Char := dropClosing (dropOpening d.text.toList)

/-- Splits a text at each `@` that begins a word, that is, at the start or after a blank or a star.
The answer is the text before the first of them and the texts that follow each. -/
def splitTags (wordStart : Bool) : List Char → List Char × List (List Char)
  | [] => ([], [])
  | c :: cs =>
    let (before, tags) := splitTags (Text.isBlank c || c == '*') cs
    if c == '@' && wordStart then ([], before :: tags) else (c :: before, tags)

def isTagChar (c : Char) : Bool := c.isAlphanum || c == '_'

/-- Reads a tag from the text after its `@`. -/
def Tag.ofText (cs : List Char) : Tag where
  name := String.ofList (cs.takeWhile isTagChar)
  value := String.ofList <|
    Text.dropEndWhile Text.isBlank <| Text.dropEndWhile (· == '*') <|
      Text.trim (cs.dropWhile isTagChar)

/-- The tags in the order in which they are written. -/
def tags (d : DocComment) : List Tag := (splitTags true d.body).2.map Tag.ofText

def hasTag (d : DocComment) (name : String) : Bool := d.tags.any (·.name == name)

/-- A comment with a `fileoverview` tag describes its whole file. -/
def isFileOverview (d : DocComment) : Bool := d.hasTag "fileoverview"

/-- Whether the comment marks a constructor or an interface. -/
def declaresType (d : DocComment) : Bool := d.hasTag "constructor" || d.hasTag "interface"

/-- The text between the first opening brace and the first closing brace after it. -/
def braced? (cs : List Char) : Option (List Char) :=
  match cs.dropWhile (· != '\x7b') with
  | [] => none
  | _ :: inner =>
    if inner.contains '\x7d' then some (inner.takeWhile (· != '\x7d')) else none

/-- Cuts a text at each character that satisfies a test. -/
def cutAt (p : Char → Bool) : List Char → List (List Char)
  | [] => [[]]
  | c :: cs =>
    match cutAt p cs with
    | [] => [[c]]
    | first :: others => if p c then [] :: first :: others else (c :: first) :: others

/-- The groups in a list separated by commas or bars. -/
def groups (cs : List Char) : List String :=
  ((cutAt (fun c => c == ',' || c == '|') cs).map Text.trim).filterMap fun g =>
    if g.isEmpty then none else some (String.ofList g)

/-- The warning groups that the `suppress` tags name in braces. -/
def suppressions (d : DocComment) : List String :=
  (d.tags.filter (·.name == "suppress")).flatMap fun t =>
    match braced? t.value.toList with
    | some inner => groups inner
    | none => []

def suppresses (d : DocComment) (group : String) : Bool := d.suppressions.contains group

end DocComment
end NameAudit
