/-!
Chunks of a program and the dependencies between them.  Chunks are loaded in an order in which each
follows the chunks that it depends on; a graph exists only when there is such an order.
-/
namespace NameAudit

/-- The number of a chunk in the order in which chunks were declared. -/
structure ChunkId where
  index : Nat
  deriving DecidableEq, Inhabited, Repr

/-- How messages name a chunk that has no name. -/
def ChunkId.text (c : ChunkId) : String := "#" ++ toString c.index

/-- A chunk as declared: its name and the names of the chunks that it depends on. -/
structure ChunkDeclaration where
  name : String
  dependencies : List String
  deriving DecidableEq, Inhabited, Repr

/-- Why chunks have no loading order. -/
inductive ChunkGraphError where
  | noChunks
  | duplicate (name : String)
  | unknownDependency (chunk dependency : String)
  /-- The chunks that could not be ordered. -/
  | cycle (names : List String)
  deriving DecidableEq, Inhabited, Repr

namespace ChunkGraphError

/-- A name between backticks. -/
def quoted (name : String) : String := "`" ++ name ++ "`"

def message : ChunkGraphError → String
  | noChunks => "chunk graph has no chunks"
  | duplicate name => "chunk " ++ quoted name ++ " is declared more than once"
  | unknownDependency chunk dependency =>
    "chunk " ++ quoted chunk ++ " depends on unknown chunk " ++ quoted dependency
  | cycle names =>
    "chunk dependencies form a cycle through " ++ String.intercalate ", " (names.map quoted)

end ChunkGraphError

/-- A chunk with the chunks that it depends on directly, each listed once. -/
structure Chunk where
  name : String
  dependencies : List ChunkId
  deriving DecidableEq, Inhabited, Repr

/-- Chunks with a loading order and, for each chunk, all that it depends on, itself included. -/
structure ChunkGraph where
  chunks : Array Chunk
  order : List ChunkId
  reach : Array (List ChunkId)
  deriving Inhabited, Repr

namespace ChunkGraph

def size (g : ChunkGraph) : Nat := g.chunks.size

def isEmpty (g : ChunkGraph) : Bool := g.chunks.isEmpty

def byName? (g : ChunkGraph) (name : String) : Option ChunkId :=
  (g.chunks.findIdx? (·.name == name)).map ChunkId.mk

def name? (g : ChunkGraph) (c : ChunkId) : Option String := (g.chunks[c.index]?).map (·.name)

/-- What a chunk depends on directly. -/
def dependencies? (g : ChunkGraph) (c : ChunkId) : Option (List ChunkId) :=
  (g.chunks[c.index]?).map (·.dependencies)

/-- The position of a chunk in the loading order. -/
def rank? (g : ChunkGraph) (c : ChunkId) : Option Nat := g.order.idxOf? c

/-- What a chunk depends on directly or not, itself included; nothing for a foreign number. -/
def reachOf (g : ChunkGraph) (c : ChunkId) : List ChunkId := (g.reach[c.index]?).getD []

/-- Whether `a` is `b` or depends on it, directly or not. -/
def dependsOn (g : ChunkGraph) (a b : ChunkId) : Bool := (g.reachOf a).contains b

/-- The chunks that both depend on, in loading order. -/
def commonAncestors (g : ChunkGraph) (a b : ChunkId) : List ChunkId :=
  g.order.filter fun c => g.dependsOn a c && g.dependsOn b c

/-- Whether neither depends on the other, but both on a third. -/
def isSibling (g : ChunkGraph) (a b : ChunkId) : Bool :=
  !g.dependsOn a b && !g.dependsOn b a && !(g.commonAncestors a b).isEmpty

/-- The first name that equals an earlier one. -/
def firstDuplicate? (seen : List String) : List String → Option String
  | [] => none
  | name :: names => if seen.contains name then some name else firstDuplicate? (name :: seen) names

/-- The chunks with these names, each listed where it comes first, or the first name without a
chunk. -/
def resolve (names : List String) : List String → Except String (List ChunkId)
  | [] => .ok []
  | d :: ds =>
    match names.idxOf? d with
    | none => .error d
    | some i =>
      match resolve names ds with
      | .error missing => .error missing
      | .ok later => .ok (⟨i⟩ :: later.filter (· != ⟨i⟩))

/-- The chunks of some declarations, among the names of all. -/
def resolveAll (names : List String) :
    List ChunkDeclaration → Except ChunkGraphError (List Chunk)
  | [] => .ok []
  | d :: ds =>
    match resolve names d.dependencies with
    | .error missing => .error (.unknownDependency d.name missing)
    | .ok dependencies =>
      match resolveAll names ds with
      | .error e => .error e
      | .ok later => .ok (⟨d.name, dependencies⟩ :: later)

def ids (chunks : List Chunk) : List ChunkId := (List.range chunks.length).map ChunkId.mk

/-- What a chunk depends on directly; nothing for a foreign number. -/
def dependenciesOf (chunks : List Chunk) (c : ChunkId) : List ChunkId :=
  ((chunks[c.index]?).map (·.dependencies)).getD []

/-- The chunks that depend on a chunk directly, each as often as it says so. -/
def dependents (chunks : List Chunk) (c : ChunkId) : List ChunkId :=
  (ids chunks).flatMap fun d => ((dependenciesOf chunks d).filter (· == c)).map fun _ => d

/-- Chunks while they are loaded: the loaded ones in order, and for each chunk the number of its
dependencies that are still missing. -/
structure Loading where
  loaded : List ChunkId
  missing : List Nat
  deriving DecidableEq, Inhabited, Repr

namespace Loading

/-- Nothing is loaded yet. -/
def start (chunks : List Chunk) : Loading := ⟨[], chunks.map (·.dependencies.length)⟩

/-- The number of dependencies of a chunk that are still missing. -/
def missingOf (s : Loading) (c : ChunkId) : Nat := (s.missing[c.index]?).getD 0

/-- The first chunk that is not loaded and misses nothing. -/
def next? (chunks : List Chunk) (s : Loading) : Option ChunkId :=
  (ids chunks).find? fun c => !s.loaded.contains c && s.missingOf c == 0

/-- Loads a chunk, which the chunks that depend on it miss no longer. -/
def load (chunks : List Chunk) (s : Loading) (c : ChunkId) : Loading where
  loaded := s.loaded ++ [c]
  missing := (dependents chunks c).foldl (fun missing d => missing.modify d.index (· - 1)) s.missing

/-- The names of the chunks that are not loaded. -/
def stuck (chunks : List Chunk) (s : Loading) : List String :=
  (ids chunks).filterMap fun c =>
    if s.loaded.contains c then none else (chunks[c.index]?).map (·.name)

end Loading

/-- Loads `n` more chunks, always the first that misses nothing.  When there is none, the answer is
the names of the chunks that are not loaded. -/
def schedule (chunks : List Chunk) : Nat → Loading → Except (List String) (List ChunkId)
  | 0, s => .ok s.loaded
  | n + 1, s =>
    match s.next? chunks with
    | some c => schedule chunks n (s.load chunks c)
    | none => .error (s.stuck chunks)

/-- Adds to a table what one chunk depends on, given that its dependencies are in the table. -/
def addReach (chunks : List Chunk) (table : Array (List ChunkId)) (c : ChunkId) :
    Array (List ChunkId) :=
  match chunks[c.index]? with
  | none => table
  | some chunk =>
    table.setIfInBounds c.index <|
      (c :: chunk.dependencies.flatMap fun d => (table[d.index]?).getD []).eraseDups

/-- What each chunk depends on, found along a loading order. -/
def reachTable (chunks : List Chunk) (order : List ChunkId) : Array (List ChunkId) :=
  order.foldl (addReach chunks) (Array.replicate chunks.length [])

/-- The graph of some declarations, which may name chunks declared later.  A repeated name is
reported before an unknown one, and that before a cycle. -/
def build (declarations : List ChunkDeclaration) : Except ChunkGraphError ChunkGraph :=
  if declarations.isEmpty then .error .noChunks
  else
    let names := declarations.map (·.name)
    match firstDuplicate? [] names with
    | some name => .error (.duplicate name)
    | none =>
      match resolveAll names declarations with
      | .error e => .error e
      | .ok chunks =>
        match schedule chunks chunks.length (Loading.start chunks) with
        | .error stuck => .error (.cycle stuck)
        | .ok order => .ok ⟨chunks.toArray, order, reachTable chunks order⟩

/-- Chunks of which each depends on the one before it. -/
def chain (names : List String) : Except ChunkGraphError ChunkGraph :=
  build (List.zipWith (fun name earlier => ⟨name, earlier⟩) names
    ([] :: names.map fun name => [name]))

/-- A root, and leaves that depend on the root only. -/
def star (root : String) (leaves : List String) : Except ChunkGraphError ChunkGraph :=
  build (⟨root, []⟩ :: leaves.map fun leaf => ⟨leaf, [root]⟩)

end ChunkGraph
end NameAudit
