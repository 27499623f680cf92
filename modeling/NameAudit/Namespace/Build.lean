import NameAudit.Namespace.Walk
import NameAudit.Program

/-!
The namespace of a program.  The environment comes first, then the chunks in loading order, and the
files of each in the order in which they were added.
-/
namespace NameAudit

namespace Record

def file (slot : Slot) (source : SourceFile) : Record Unit := do
  modify fun r => { r with slot := slot, file := source.id }
  underDoc source.script.doc (afterFunctions source.script.body (Stmt.walkAll source.script.body))

def files (slot : Slot) : List SourceFile → Record Unit
  | [] => pure ()
  | source :: sources => do
    file slot source
    files slot sources

def chunks (p : Program) : List ChunkId → Record Unit
  | [] => pure ()
  | c :: cs => do
    files (.chunk c) (p.sources c)
    chunks p cs

def program (p : Program) : Record Unit := do
  files .externs p.externs
  chunks p p.graph.order

end Record

def Namespace.ofProgram (p : Program) : Namespace := ((Record.program p).run {}).2.space

end NameAudit
