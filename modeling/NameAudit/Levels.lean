import NameAudit.Diagnostic

/-!
The kinds of problem that the audit reports, and how gravely each is taken.
-/
namespace NameAudit

/-- How gravely a kind of problem is taken; `off` keeps it from being reported. -/
inductive Level where
  | off
  | warning
  | error
  deriving DecidableEq, Inhabited, Repr

def Level.severity? : Level → Option Severity
  | off => none
  | warning => some .warning
  | error => some .error

inductive ProblemKind where
  /-- A property that is never defined. -/
  | undefinedName
  /-- A property used before its owner is declared. -/
  | definedLate
  /-- A use of a name that is set only in chunks on which the using chunk does not depend. -/
  | strictDependency
  deriving DecidableEq, Inhabited, Repr

namespace ProblemKind

/-- Every kind, in the order in which the problems of one reference are listed. -/
def all : List ProblemKind := [.undefinedName, .definedLate, .strictDependency]

def code : ProblemKind → String
  | undefinedName => "GN0001"
  | definedLate => "GN0002"
  | strictDependency => "GN0003"

/-- The name of the warning in option files. -/
def warningName : ProblemKind → String
  | undefinedName => "UNDEFINED_NAME_WARNING"
  | definedLate => "NAME_DEFINED_LATE_WARNING"
  | strictDependency => "STRICT_MODULE_DEP_QNAME"

/-- Position of a kind in `all`. -/
def rank : ProblemKind → Nat
  | undefinedName => 0
  | definedLate => 1
  | strictDependency => 2

end ProblemKind

/-- A level for each kind of problem; the check of chunk dependencies has to be asked for. -/
structure Levels where
  undefinedName : Level := .warning
  definedLate : Level := .warning
  strictDependency : Level := .off
  deriving DecidableEq, Inhabited, Repr

namespace Levels

def level (l : Levels) : ProblemKind → Level
  | .undefinedName => l.undefinedName
  | .definedLate => l.definedLate
  | .strictDependency => l.strictDependency

def withLevel (l : Levels) (kind : ProblemKind) (level : Level) : Levels :=
  match kind with
  | .undefinedName => { l with undefinedName := level }
  | .definedLate => { l with definedLate := level }
  | .strictDependency => { l with strictDependency := level }

/-- Every kind at the same level. -/
def uniform (level : Level) : Levels := ⟨level, level, level⟩

/-- Whether problems of a kind are reported. -/
def isEnabled (l : Levels) (kind : ProblemKind) : Bool := l.level kind != .off

end Levels
end NameAudit
