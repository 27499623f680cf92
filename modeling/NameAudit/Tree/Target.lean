import NameAudit.Tree
import NameAudit.SyntaxError

/-!
Expressions read again as what they turn out to be: the target of an assignment, a pattern, or a
parameter of an arrow function.  Only what follows an expression tells which of these it is.
-/
namespace NameAudit

/-- The expression at a span cannot be assigned to. -/
def invalidTarget {α : Type} (span : Span) : Except SyntaxError α :=
  .error ⟨.invalidTarget, span, none⟩

/-- The key, target and default of a property that names a variable. -/
def PatternProperty.ofShorthand (span : Span) (name : String) (nameSpan : Span) : PatternProperty :=
  .mk span (.direct name) (.ident nameSpan name) none

mutual

/-- Reads an expression as a pattern.  A pattern that binds names has no members in it, except
inside a part that was read as a destructuring before. -/
def Expr.toPattern (binding : Bool) : Expr → Except SyntaxError Pattern
  | .ident span name => .ok (.ident span name)
  | .destructuring d => .ok (.destructuring d)
  | .array span elements => do
    let (items, rest) ← Element.toPatterns binding elements
    .ok (.destructuring (.array span items rest))
  | .object span members => do
    let (properties, rest) ← Member.toPatterns binding members
    .ok (.destructuring (.object span properties rest))
  | .member span isOptional owner name =>
    if binding then invalidTarget span else .ok (.target (.member span isOptional owner name))
  | .index span isOptional owner key =>
    if binding then invalidTarget span else .ok (.target (.index span isOptional owner key))
  | e => invalidTarget e.span

/-- Reads the elements of an array as those of a pattern.  Only the last can be spread. -/
def Element.toPatterns (binding : Bool) :
    List Element → Except SyntaxError (List PatternElement × Option Pattern)
  | [] => .ok ([], none)
  | .hole :: es => do
    let (items, rest) ← Element.toPatterns binding es
    .ok (.hole :: items, rest)
  | .item (.assign _ .plain target value) :: es => do
    let p ← target.toPattern binding
    let (items, rest) ← Element.toPatterns binding es
    .ok (.item p (some value) :: items, rest)
  | .item e :: es => do
    let p ← e.toPattern binding
    let (items, rest) ← Element.toPatterns binding es
    .ok (.item p none :: items, rest)
  | [.spread e] => do
    let p ← e.toPattern binding
    .ok ([], some p)
  | .spread e :: _ :: _ => invalidTarget e.span

/-- Reads the members of an object as the properties of a pattern.  Only the last can be spread, and
none can be a method or an accessor. -/
def Member.toPatterns (binding : Bool) :
    List Member → Except SyntaxError (List PatternProperty × Option Pattern)
  | [] => .ok ([], none)
  | .property span key (.value (some (.assign _ .plain target value))) :: ms => do
    let p ← target.toPattern binding
    let (properties, rest) ← Member.toPatterns binding ms
    .ok (.mk span key p (some value) :: properties, rest)
  | .property span key (.value (some e)) :: ms => do
    let p ← e.toPattern binding
    let (properties, rest) ← Member.toPatterns binding ms
    .ok (.mk span key p none :: properties, rest)
  | .property span _ _ :: _ => invalidTarget span
  | .shorthand span name nameSpan :: ms => do
    let (properties, rest) ← Member.toPatterns binding ms
    .ok (.ofShorthand span name nameSpan :: properties, rest)
  | [.spread _ e] => do
    let p ← e.toPattern binding
    .ok ([], some p)
  | .spread span _ :: _ :: _ => invalidTarget span

end

/-- Reads an array or an object as a destructuring. -/
def Expr.toDestructuring (e : Expr) : Except SyntaxError Expr := do
  match ← e.toPattern false with
  | .destructuring d => .ok (.destructuring d)
  | p => invalidTarget p.span

/-- Reads the left side of an assignment.  Arrays and objects are targets only where the assignment
may take its value apart, and members only when they are not optional. -/
def Expr.toTarget (takesApart : Bool) : Expr → Except SyntaxError Expr
  | .array span elements =>
    if takesApart then (Expr.array span elements).toDestructuring else invalidTarget span
  | .object span members =>
    if takesApart then (Expr.object span members).toDestructuring else invalidTarget span
  | .ident span name => .ok (.ident span name)
  | .member span false owner name => .ok (.member span false owner name)
  | .index span false owner key => .ok (.index span false owner key)
  | e => invalidTarget e.span

/-- A parameter covers its pattern and its default. -/
def Param.ofParts (pattern : Pattern) (isRest : Bool) (default : Option Expr) : Param :=
  match default with
  | some e => .mk (pattern.span.join e.span) isRest pattern default
  | none => .mk pattern.span isRest pattern none

/-- Reads an expression as a parameter. -/
def Expr.toParam (isRest : Bool) (e : Expr) : Except SyntaxError Param :=
  match isRest, e with
  | false, .assign _ .plain target value => do
    .ok (Param.ofParts (← target.toPattern true) false (some value))
  | _, e => do
    .ok (Param.ofParts (← e.toPattern true) isRest none)

end NameAudit
