import NameAudit.SyntaxError

/-!
Diagnostics as plain data: a severity, a stable code, a message, the place it is about, and further
labels and notes.  How they are shown is up to the reader.
-/
namespace NameAudit

/-- The number of a file in the order in which files were added. -/
structure FileId where
  index : Nat
  deriving DecidableEq, Inhabited, Repr

/-- The largest offset that a place can hold. -/
def Span.offsetLimit : Nat := 4294967295

/-- The span with offsets beyond the limit moved down to it. -/
def Span.clamped (s : Span) : Span := ⟨min s.start offsetLimit, min s.stop offsetLimit⟩

/-- A span of a file. -/
structure Place where
  file : FileId
  span : Span
  deriving DecidableEq, Inhabited, Repr

/-- How grave a diagnostic is. -/
inductive Severity where
  | error
  | warning
  deriving DecidableEq, Inhabited, Repr

def Severity.text : Severity → String
  | error => "error"
  | warning => "warning"

/-- Whether a label marks what the diagnostic is about, or something related to it. -/
inductive LabelStyle where
  | primary
  | secondary
  deriving DecidableEq, Inhabited, Repr

/-- A remark on a place. -/
structure Label where
  style : LabelStyle
  place : Place
  message : String
  deriving DecidableEq, Inhabited, Repr

/-- A problem to report. -/
structure Diagnostic where
  severity : Severity
  code : String
  message : String
  place : Place
  labels : List Label := []
  notes : List String := []
  deriving DecidableEq, Inhabited, Repr

namespace Diagnostic

def withLabel (d : Diagnostic) (style : LabelStyle) (place : Place) (message : String) :
    Diagnostic :=
  { d with labels := d.labels ++ [⟨style, place, message⟩] }

def withNote (d : Diagnostic) (note : String) : Diagnostic := { d with notes := d.notes ++ [note] }

/-- One line: severity, code and message. -/
def text (d : Diagnostic) : String := d.severity.text ++ "[" ++ d.code ++ "]: " ++ d.message

/-- A syntax error of a file, with a label that says what was wanted at its place. -/
def ofSyntaxError (file : FileId) (e : SyntaxError) : Diagnostic :=
  let place : Place := ⟨file, e.span.clamped⟩
  let d : Diagnostic := ⟨.error, e.cause.code, e.message, place, [], []⟩
  match e.cause.note? with
  | some note => d.withLabel .primary place note
  | none => d

end Diagnostic

/-- The names and texts of the files of a program. -/
structure FileTable where
  files : Array (String × String) := #[]
  deriving Inhabited, Repr

namespace FileTable

def size (t : FileTable) : Nat := t.files.size

def isEmpty (t : FileTable) : Bool := t.files.isEmpty

def nextId (t : FileTable) : FileId := ⟨t.size⟩

/-- Adds a file, which gets the number `nextId`. -/
def add (t : FileTable) (name text : String) : FileTable := ⟨t.files.push (name, text)⟩

def name? (t : FileTable) (file : FileId) : Option String := (t.files[file.index]?).map (·.1)

def text? (t : FileTable) (file : FileId) : Option String := (t.files[file.index]?).map (·.2)

end FileTable
end NameAudit
