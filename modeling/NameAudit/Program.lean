import NameAudit.ChunkGraph
import NameAudit.Diagnostic
import NameAudit.Parser.Statement

/-!
A program: a chunk graph, the files that describe the environment, and the files of each chunk, all
of them parsed.
-/
namespace NameAudit

structure SourceFile where
  id : FileId
  script : Script

/-- The files of a program by the part that they belong to, in the order in which they were
added. -/
structure Program where
  graph : ChunkGraph
  files : FileTable := {}
  externs : List SourceFile := []
  /-- The files of each chunk. -/
  chunks : Array (List SourceFile)

/-- Why a file was not added. -/
inductive AddError where
  | unknownChunk (c : ChunkId)
  | malformed (file : String) (d : Diagnostic)
  /-- The parser gave up before the end of the file. -/
  | exhausted (file : String)
  deriving DecidableEq, Inhabited, Repr

def AddError.message : AddError → String
  | unknownChunk c => "chunk " ++ c.text ++ " is not part of the chunk graph"
  | malformed file d => "failed to parse `" ++ file ++ "`: " ++ d.text
  | exhausted file => "failed to parse `" ++ file ++ "`"

namespace Program

/-- A program without files. -/
def ofGraph (graph : ChunkGraph) : Program where
  graph := graph
  chunks := Array.replicate graph.size []

/-- The files of a chunk; a foreign number has none. -/
def sources (p : Program) (c : ChunkId) : List SourceFile := (p.chunks[c.index]?).getD []

/-- Parses a file, which gets a number also if it is malformed, so that its error has a place. -/
def load (p : Program) (name text : String) : Program × Except AddError SourceFile :=
  let id := p.files.nextId
  let p := { p with files := p.files.add name text }
  match parse text with
  | .ok script => (p, .ok ⟨id, script⟩)
  | .error (.malformed e) => (p, .error (.malformed name (Diagnostic.ofSyntaxError id e)))
  | .error .exhausted => (p, .error (.exhausted name))

/-- Adds a file that describes the environment. -/
def addExterns (p : Program) (name text : String) : Program × Except AddError FileId :=
  match p.load name text with
  | (p, .ok source) => ({ p with externs := p.externs ++ [source] }, .ok source.id)
  | (p, .error e) => (p, .error e)

/-- Adds a file to a chunk. -/
def addSource (p : Program) (c : ChunkId) (name text : String) :
    Program × Except AddError FileId :=
  match p.graph.name? c with
  | none => (p, .error (.unknownChunk c))
  | some _ =>
    match p.load name text with
    | (p, .ok source) =>
      ({ p with chunks := p.chunks.modify c.index (· ++ [source]) }, .ok source.id)
    | (p, .error e) => (p, .error e)

end Program
end NameAudit
