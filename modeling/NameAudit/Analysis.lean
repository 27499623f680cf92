import NameAudit.Check
import NameAudit.Namespace.Build

/-!
The audit of a program, and its problems as diagnostics.
-/
namespace NameAudit

/-- A program with its namespace, the levels of its problems, and the problems. -/
structure Analysis where
  program : Program
  space : Namespace
  levels : Levels
  findings : List Finding

namespace Analysis

def run (program : Program) (levels : Levels) : Analysis :=
  let space := Namespace.ofProgram program
  ⟨program, space, levels, space.findings program.graph⟩

def chunkName (graph : ChunkGraph) (c : ChunkId) : String := (graph.name? c).getD c.text

/-- A text between backticks. -/
def quoted (text : String) : String := "`" ++ text ++ "`"

/-- The diagnostic about an undefined name; when a longer name is referenced, a label says so. -/
def undefinedDiagnostic (base : Diagnostic) (name referenced : String) : Diagnostic :=
  let d := { base with message := "name " ++ quoted name ++ " is never defined" }
  if referenced = name then d
  else d.withLabel .primary base.place ("while referencing " ++ quoted referenced)

/-- The diagnostic about a late definition, with a label at the declaration. -/
def lateDiagnostic (base : Diagnostic) (name owner : String) (declaration : Place) : Diagnostic :=
  { base with
    message := "name " ++ quoted name ++ " is referenced before " ++ quoted owner ++ " is declared"
    : Diagnostic }.withLabel .secondary declaration (quoted owner ++ " is declared here")

/-- The diagnostic about a use across chunks, with notes on the chunks. -/
def strictDiagnostic (base : Diagnostic) (graph : ChunkGraph) (name : String) (slot : Slot)
    (definer : ChunkId) (isSibling : Bool) : Diagnostic :=
  let d := { base with message := "module dependency violation for name " ++ quoted name }
  match slot with
  | .externs => d
  | .chunk user =>
    let definer := quoted (chunkName graph definer)
    let user := quoted (chunkName graph user)
    let d := d.withNote <|
      quoted name ++ " is defined in chunk " ++ definer ++ ", which chunk " ++ user ++
        " does not depend on"
    if isSibling then d.withNote ("chunks " ++ definer ++ " and " ++ user ++ " are siblings")
    else d

def diagnostic (a : Analysis) (f : Finding) (severity : Severity) : Diagnostic :=
  let r := a.space.ref f.reference
  let base : Diagnostic := ⟨severity, f.problem.kind.code, "", r.position.place, [], []⟩
  match f.problem with
  | .undefined => undefinedDiagnostic base f.name (a.space.name r.name).fullName
  | .definedLate owner declaration =>
    lateDiagnostic base f.name (a.space.name owner).fullName
      (a.space.ref declaration).position.place
  | .strictDependency definer isSibling =>
    strictDiagnostic base a.program.graph f.name r.position.slot definer isSibling

/-- The diagnostics of the kinds that are not off, in the order of evaluation. -/
def diagnostics (a : Analysis) : List Diagnostic :=
  a.findings.filterMap fun f =>
    (a.levels.level f.problem.kind).severity?.map (a.diagnostic f)

end Analysis
end NameAudit
