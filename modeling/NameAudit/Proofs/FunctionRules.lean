import NameAudit.Proofs.SharedRules

/-!
How the rules for patterns, parameters, functions, objects and classes run.
-/
namespace NameAudit

open Scan (token)

section
variable {P : Node → Prop}

/-- A declared pattern is whole when its parts are. -/
theorem Law.pattern (law : Law P) {p : Pattern} (declares : p.Declares)
    (parts : ∀ a, AllParts (Node.Whole P) (p.parts a)) : (Node.pattern p).Whole P :=
  ⟨.intro (law.declared p declares) fun a => Node.allParts_of_whole (parts a), rfl⟩

/-- A function is whole when its parameters and its body are. -/
theorem Law.function (law : Law P) {params : List Param} {body : List Stmt} (listed : Listed params)
    (whole : ∀ a, AllParts (Node.Whole P) (params.flatMap (·.parts a)))
    (statements : (Node.stmts body).Whole P) (name : Option String) (span : Span)
    (isAsync isGenerator : Bool) :
    (Node.func name (.mk span false isAsync isGenerator params (.block body))).Whole P :=
  ⟨.intro (law.listed _ _ _ _ _ _ listed) fun a =>
    (Node.allParts_of_whole (whole a)).append (.single statements.1), rfl⟩

/-- An arrow function is whole when its parameters and its body are. -/
theorem Law.arrowFunction (law : Law P) {isAsync : Bool} {params : List Param} {body : Body}
    (again : ReadAgain P isAsync params) (all : ∀ a, AllParts (Node.All P) (params.flatMap (·.parts a)))
    (whole : ∀ a, AllParts (Node.Whole P) (body.parts a)) (span : Span) :
    (Node.expr (.func span none (.mk span true isAsync false params body))).Whole P :=
  law.whole rfl rfl fun _ => .single ⟨.intro (law.arrow _ _ _ _ again) fun a =>
    (all a).append (Node.allParts_of_whole (whole a)), rfl⟩

/-- The default of a property is kept as an assignment to its name. -/
theorem Law.defaultedValue (law : Law P) {value : Expr} (whole : (Node.expr value).Whole P)
    (t : Token) (name : String) : (Node.expr (Parser.defaultedValue t name value)).Whole P := by
  refine ⟨.intro (law.assign _ .plain (.ident t.span name) _ _ rfl) fun a => ?_, rfl⟩
  exact .cons (law.whole rfl rfl fun _ => .nil).1 (.single whole.1)

/-- The value of a member of the instances of a class has the same nodes. -/
theorem PropertyValue.instanceParts_whole {value : PropertyValue}
    (whole : ∀ a, AllParts (Node.Whole P) (value.parts a)) (a : Surroundings) :
    AllParts (Node.Whole P) (value.instanceParts a) := by
  cases value with
  | value e => exact whole _
  | getter f => exact whole a
  | setter f => exact whole a
  | method f => exact whole a

/-! ### Written patterns -/

theorem shrinks_whole : (PatternInside.whole P).Shrinks := ⟨fun made => made.1, fun holds => holds.1⟩

/-- A piece of a pattern has names for targets and no members, and what is inside of it is whole. -/
def PatternPiece.Fine (P : Node → Prop) : PatternPiece → Prop
  | .whole p => (Node.pattern p).Whole P ∧ p.Declares
  | .elements es => PatternElement.targetsOf true es = [] ∧
    ∀ a, AllParts (Node.Whole P) (es.flatMap (·.parts a))
  | .items es rest => (PatternElement.targetsOf true es = [] ∧ Pattern.targetsOfRest true rest = []) ∧
    ∀ a, AllParts (Node.Whole P) (es.flatMap (·.parts a) ++ Pattern.optionalParts a rest)
  | .property p => PatternProperty.targetsOf true [p] = [] ∧ ∀ a, AllParts (Node.Whole P) (p.parts a)
  | .properties ps => PatternProperty.targetsOf true ps = [] ∧
    ∀ a, AllParts (Node.Whole P) (ps.flatMap (·.parts a))
  | .entries ps rest => (PatternProperty.targetsOf true ps = [] ∧ Pattern.targetsOfRest true rest = []) ∧
    ∀ a, AllParts (Node.Whole P) (ps.flatMap (·.parts a) ++ Pattern.optionalParts a rest)

theorem DefaultWritten.whole {c d : Cursor} {default : Option Expr}
    (written : DefaultWritten (.whole P) c default d) (a : Surroundings) :
    AllParts (Node.Whole P) (Expr.optionalParts a default) := by
  cases written with
  | none => exact .nil
  | some _ _ made => exact .single made.2

/-- What is written as a pattern obeys every law. -/
theorem Law.fine (law : Law P) {c d : Cursor} {piece : PatternPiece}
    (written : Written (.whole P) c piece d) : piece.Fine P := by
  induction written with
  | ident => exact ⟨law.pattern rfl fun _ => .nil, rfl⟩
  | array _ _ _ _ _ ih =>
    have declares := List.append_eq_nil_iff.mpr ih.1
    exact ⟨law.pattern declares ih.2, declares⟩
  | object _ _ _ _ _ ih =>
    have declares := List.append_eq_nil_iff.mpr ih.1
    exact ⟨law.pattern declares ih.2, declares⟩
  | noElements => exact ⟨rfl, fun _ => .nil⟩
  | hole _ _ _ ih =>
    refine ⟨?_, fun a => (ih.2 a).concat .nil⟩
    rw [PatternElement.targetsOf_append, ih.1]
    rfl
  | @element _ _ _ _ _ _ _ p default _ _ value _ _ ih target =>
    refine ⟨(PatternElement.targetsOf_concat target.2 _ default).trans ih.1, fun a => ?_⟩
    have parts : AllParts (Node.Whole P) ((PatternElement.item p default).parts a) :=
      .cons target.1 (value.whole a)
    exact (ih.2 a).concat parts
  | items _ ih => exact ⟨⟨ih.1, rfl⟩, fun a => (ih.2 a).append .nil⟩
  | @lastItem _ _ _ _ _ p default _ _ value ih target =>
    refine ⟨⟨(PatternElement.targetsOf_concat target.2 _ default).trans ih.1, rfl⟩, fun a => ?_⟩
    have parts : AllParts (Node.Whole P) ((PatternElement.item p default).parts a) :=
      .cons target.1 (value.whole a)
    exact ((ih.2 a).concat parts).append .nil
  | restItem _ _ _ _ ih target =>
    exact ⟨⟨ih.1, target.2⟩, fun a => (ih.2 a).append (.single target.1)⟩
  | shorthand _ _ value =>
    refine ⟨PatternProperty.targetsOf_concat (p := .ident _ _) rfl [] _ _ _, fun a => ?_⟩
    exact .cons (law.pattern rfl fun _ => .nil) (value.whole a)
  | named _ _ _ _ _ value target =>
    exact ⟨PatternProperty.targetsOf_concat target.2 [] _ _ _, fun a => .cons target.1 (value.whole a)⟩
  | keyed _ _ key _ _ _ value target =>
    exact ⟨PatternProperty.targetsOf_concat target.2 [] _ _ _,
      fun a => (key.2 a).append (.cons target.1 (value.whole a))⟩
  | noProperties => exact ⟨rfl, fun _ => .nil⟩
  | separated _ _ _ _ ih property =>
    refine ⟨?_, fun a => (ih.2 a).concat (property.2 a)⟩
    rw [PatternProperty.targetsOf_append, ih.1, property.1]
    rfl
  | entries _ ih => exact ⟨⟨ih.1, rfl⟩, fun a => (ih.2 a).append .nil⟩
  | lastEntry _ _ ih property =>
    refine ⟨⟨?_, rfl⟩, fun a => ((ih.2 a).concat (property.2 a)).append .nil⟩
    rw [PatternProperty.targetsOf_append, ih.1, property.1]
    rfl
  | restEntry _ _ _ _ ih target =>
    exact ⟨⟨ih.1, target.2⟩, fun a => (ih.2 a).append (.single target.1)⟩

/-! ### Listed parameters -/

/-- A parameter in a list of a function, which others can follow or not. -/
structure Listed.Item (P : Node → Prop) (p : Param) (isLast : Bool) : Prop where
  declares : p.targets true = []
  last : isLast = false → p.isRest = false
  plain : p.isRest = true → p.default = none
  whole : ∀ a, AllParts (Node.Whole P) (p.parts a)

theorem Listed.Item.of_written (law : Law P) {c d : Cursor} {param : Param} {isLast : Bool}
    (written : ParamWritten (.whole P) c param isLast d) : Listed.Item P param isLast := by
  cases written with
  | listed target value =>
    obtain ⟨whole, declares⟩ := law.fine target
    have parts := value.whole
    cases value with
    | none =>
      exact ⟨Param.targets_ofParts declares false none, fun _ => rfl, fun _ => rfl,
        fun _ => .single whole⟩
    | some =>
      exact ⟨Param.targets_ofParts declares false (some _), fun _ => rfl, by rintro ⟨⟩,
        fun a => .cons whole (parts a)⟩
  | rest dots spreads target =>
    obtain ⟨whole, declares⟩ := law.fine target
    exact ⟨Param.targets_ofParts declares true none, by rintro ⟨⟩, fun _ => rfl, fun a => .single whole⟩

theorem Listed.of_items {init last : List Param} (before : ∀ p ∈ init, Listed.Item P p false)
    (final : last = [] ∨ ∃ p isLast, last = [p] ∧ Listed.Item P p isLast) :
    Listed (init ++ last) ∧ ∀ a, AllParts (Node.Whole P) ((init ++ last).flatMap (·.parts a)) := by
  have each : ∀ p ∈ init ++ last, ∃ isLast, Listed.Item P p isLast := by
    intro p member
    rcases List.mem_append.mp member with here | here
    · exact ⟨false, before p here⟩
    · rcases final with rfl | ⟨q, isLast, rfl, item⟩
      · cases here
      · obtain rfl := List.mem_singleton.mp here
        exact ⟨isLast, item⟩
  refine ⟨⟨fun p member => ?_, fun p member => ?_, fun p member => ?_⟩, fun a => .flatMap fun p member => ?_⟩
  · obtain ⟨_, item⟩ := each p member
    exact item.declares
  · rcases final with rfl | ⟨q, _, rfl, -⟩
    · rw [List.append_nil] at member
      exact (before p (List.dropLast_subset _ member)).last rfl
    · rw [List.dropLast_concat] at member
      exact (before p member).last rfl
  · obtain ⟨_, item⟩ := each p member
    exact item.plain
  · obtain ⟨_, item⟩ := each p member
    exact item.whole a

end

namespace Parser

section
variable {w : Continued} {P : Node → Prop} {g g' : Grammar} {n : Nat} {c : Cursor}

/-! ### Patterns -/

/-- Values, keys and patterns inside of a pattern are read in a context as they are written. -/
structure Inside (w : Continued) (V : PatternInside) (g g' : Grammar) (ctx : Context) (n : Nat) :
    Prop where
  value : ∀ {c : Cursor}, 8 * c.rest.length + 5 ≤ n →
    Runs w c (g.assignment ctx.allowIn) (g'.assignment ctx.allowIn) (V.value c)
  key : ∀ {c : Cursor}, 8 * c.rest.length ≤ n →
    Runs w c (Parser.key g ctx false) (Parser.key g' ctx false) (V.key c)
  pattern : ∀ {c : Cursor}, 8 * c.rest.length + 1 ≤ n →
    Runs w c (g.pattern ctx) (g'.pattern ctx) fun p d => Written V c (.whole p) d ∧ V.pattern c p d

theorem inside_of_serves (serves : g.Serves w P g' n) (ctx : Context) :
    Inside w (.whole P) g g' ctx n :=
  ⟨fun fits => serves.assignment _ fits, fun fits => runs_key serves ctx false fits,
    fun fits => (serves.pattern ctx fits).mono fun _ _ _ written => ⟨written, trivial⟩⟩

section
variable {V : PatternInside} {ctx : Context}

theorem runs_default (values : ∀ {c : Cursor}, 8 * c.rest.length + 5 ≤ n →
      Runs w c (g.assignment ctx) (g'.assignment ctx) (V.value c)) (fits : 8 * c.rest.length ≤ n) :
    Runs w c (initializer g ctx) (initializer g' ctx) (DefaultWritten V c) := by
  refine Runs.eat (by rintro ⟨⟩) (fun _ d lt read kind => ?_) (fun _ d read other => ?_)
  · exact (values (by omega)).bind fun e f _ value => runs_pure (.some read kind value)
  · exact runs_pure (.none read other)

/-- A turn of an array pattern that began at a position. -/
theorem runs_arrayPatternTurn (start : Cursor) (inside : Inside w V g g' ctx n)
    (es : List PatternElement) (fits : 8 * c.rest.length + 1 ≤ n) :
    Runs w c (arrayPatternTurn g ctx es) (arrayPatternTurn g' ctx es)
      (Keeps (fun es => Written V start (.elements es)) (fun read => Written V start (.items read.1 read.2))
        es c) := by
  refine Runs.look fun t e ahead => ?_
  split
  · exact runs_pure fun before => .items before
  next kind =>
    refine Runs.takeAhead ahead (by rw [kind]; rintro ⟨⟩) fun lt => ?_
    exact runs_pure ⟨fun before => .hole before ahead kind, lt⟩
  next kind =>
    refine Runs.takeAhead ahead (by rw [kind]; rintro ⟨⟩) fun lt => ?_
    exact (inside.pattern (by omega)).bind fun p h _ target =>
      runs_pure fun before => .restItem before ahead kind target.1
  · refine (inside.pattern (by omega)).bind fun p f _ target => ?_
    refine (runs_default inside.value (by omega)).bind fun default h _ value => ?_
    refine Runs.eat (by rintro ⟨⟩) (fun _ j lt comma separates => ?_) (fun _ _ _ _ => ?_)
    · exact runs_pure ⟨fun before => .element before target.1 value comma separates, by omega⟩
    · exact runs_pure fun before => .lastItem before target.1 value

theorem runs_arrayPatternItems (inside : Inside w V g g' ctx n) (fits : 8 * c.rest.length + 1 ≤ n) :
    Runs w c (arrayPatternItems g ctx) (arrayPatternItems g' ctx) fun read =>
      Written V c (.items read.1 read.2) :=
  runs_loop_keeps (fun es => Written V c (.elements es)) .noElements fun es d le =>
    runs_arrayPatternTurn c inside es (by omega)

theorem runs_arrayPattern (inside : Inside w V g g' ctx n) (fits : 8 * c.rest.length ≤ n) :
    Runs w c (arrayPattern g ctx) (arrayPattern g' ctx) fun p => Written V c (.whole p) := by
  refine Runs.require (by rintro ⟨⟩) fun _ d lt opening opens => ?_
  refine (runs_arrayPatternItems inside (by omega)).bind fun read e le items => ?_
  refine Runs.require (by rintro ⟨⟩) fun _ f lt' closing closes => Runs.since ?_
  exact runs_pure (.array opening opens items closing closes)

/-- A property of an object pattern before its default. -/
theorem runs_patternEntry (inside : Inside w V g g' ctx n) {t : Token} {d : Cursor}
    (ahead : token .operator c = .ok (t, d)) (fits : 8 * c.rest.length ≤ n) :
    Runs w c (patternEntry g ctx t) (patternEntry g' ctx t) fun entry e =>
      ∀ default f, DefaultWritten V e default f →
        Written V c (.property (.mk ⟨t.span.start, max f.offset t.span.start⟩ entry.1 entry.2 default)) f := by
  unfold patternEntry
  split
  · refine runs_identifier.bind ?_
    rintro ⟨name, span⟩ e - ⟨lt, u, read, names, rfl⟩
    obtain ⟨rfl, rfl⟩ : t = u ∧ d = e := by simpa using ahead.symm.trans read
    refine Runs.eat (by rintro ⟨⟩) (fun _ f lt' colon splits => ?_) (fun _ _ _ _ => ?_)
    · refine (inside.pattern (by omega)).bind fun p h _ target => runs_pure fun default j value => ?_
      exact .named read names colon splits target.1 value
    · exact runs_pure fun default j value => .shorthand read names value
  next unnamed =>
    refine (inside.key fits).bind fun k e le key => ?_
    refine Runs.require (by rintro ⟨⟩) fun _ f lt colon splits => ?_
    refine (inside.pattern (by omega)).bind fun p h _ target => runs_pure fun default j value => ?_
    exact .keyed ahead (by simpa using unnamed) key colon splits target.1 value

/-- A turn of an object pattern that began at a position. -/
theorem runs_objectPatternTurn (start : Cursor) (inside : Inside w V g g' ctx n)
    (ps : List PatternProperty) (fits : 8 * c.rest.length + 1 ≤ n) :
    Runs w c (objectPatternTurn g ctx ps) (objectPatternTurn g' ctx ps)
      (Keeps (fun ps => Written V start (.properties ps))
        (fun read => Written V start (.entries read.1 read.2)) ps c) := by
  refine Runs.look fun _ _ _ => ?_
  split
  · exact runs_pure fun before => .entries before
  refine Runs.eat (by rintro ⟨⟩) (fun _ e lt dots spreads => ?_) (fun _ _ _ _ => ?_)
  · exact (inside.pattern (by omega)).bind fun p f _ target =>
      runs_pure fun before => .restEntry before dots spreads target.1
  · refine Runs.look fun t e ahead => ?_
    refine (runs_patternEntry inside ahead (by omega)).bind fun entry f _ property => ?_
    refine (runs_default inside.value (by omega)).bind fun default h _ value => Runs.since ?_
    have written := property default h value
    refine Runs.eat (by rintro ⟨⟩) (fun _ j lt comma separates => ?_) (fun _ _ _ _ => ?_)
    · exact runs_pure ⟨fun before => .separated before written comma separates, by omega⟩
    · exact runs_pure fun before => .lastEntry before written

theorem runs_objectPatternItems (inside : Inside w V g g' ctx n) (fits : 8 * c.rest.length + 1 ≤ n) :
    Runs w c (objectPatternItems g ctx) (objectPatternItems g' ctx) fun read =>
      Written V c (.entries read.1 read.2) :=
  runs_loop_keeps (fun ps => Written V c (.properties ps)) .noProperties fun ps d le =>
    runs_objectPatternTurn c inside ps (by omega)

theorem runs_objectPattern (inside : Inside w V g g' ctx n) (fits : 8 * c.rest.length ≤ n) :
    Runs w c (objectPattern g ctx) (objectPattern g' ctx) fun p => Written V c (.whole p) := by
  refine Runs.require (by rintro ⟨⟩) fun _ d lt opening opens => ?_
  refine (runs_objectPatternItems inside (by omega)).bind fun read e le entries => ?_
  refine Runs.require (by rintro ⟨⟩) fun _ f lt' closing closes => Runs.since ?_
  exact runs_pure (.object opening opens entries closing closes)

/-- A pattern that declares names. -/
theorem runs_patternRule (inside : Inside w V g g' ctx n) (fits : 8 * c.rest.length ≤ n) :
    Runs w c (patternRule g ctx) (patternRule g' ctx) fun p => Written V c (.whole p) := by
  refine Runs.look fun t _ _ => ?_
  split
  · refine runs_identifier.bind ?_
    rintro ⟨name, span⟩ d - ⟨lt, u, read, names, rfl⟩
    exact runs_pure (.ident read names)
  · exact runs_arrayPattern inside fits
  · exact runs_objectPattern inside fits
  · exact runs_unexpected

/-- A parameter, whose default is read in the context around it. -/
theorem runs_parameter (inside : Inside w V g g' ctx n) (shrinks : V.Shrinks)
    (values : ∀ {c : Cursor}, 8 * c.rest.length + 5 ≤ n →
      Runs w c (g.assignment ctx) (g'.assignment ctx) (V.value c)) (fits : 8 * c.rest.length + 1 ≤ n) :
    Runs w c (parameter g ctx) (parameter g' ctx) fun read d =>
      d.rest.length < c.rest.length ∧ ParamWritten V c read.1 read.2 d := by
  refine Runs.eat (by rintro ⟨⟩) (fun _ d lt dots spreads => ?_) (fun _ _ _ _ => ?_)
  · refine (inside.pattern (by omega)).bind fun p e le target => runs_pure ?_
    exact ⟨by omega, .rest dots spreads target.1 target.2⟩
  · refine (inside.pattern (by omega)).bind fun p d _ target => ?_
    have lt := (target.1.length shrinks).2 trivial
    exact (runs_default values (by omega)).bind fun default e le value => runs_pure ⟨by omega, .listed target.1 value⟩

/-- Parameters in parentheses, each of which is read in the same way. -/
theorem runs_parametersOf {I : Cursor → Param → Bool → Cursor → Prop}
    (each : ∀ d : Cursor, d.rest.length < c.rest.length →
      Runs w d (parameter g ctx) (parameter g' ctx) fun x e =>
        e.rest.length < d.rest.length ∧ I d x.1 x.2 e) :
    Runs w c (parameters g ctx) (parameters g' ctx) fun params d =>
      ∃ t e trailing, token .operator c = .ok (t, e) ∧ t.kind = .punct .parenOpen ∧
        ItemsWritten .parenClose I e ⟨params, trailing⟩ d := by
  refine Runs.require (by rintro ⟨⟩) fun t d lt opening opens => ?_
  refine Runs.bind (runs_items_written fun e le => each e (by omega)) ?_
  rintro ⟨params, trailing⟩ e - written
  exact runs_pure ⟨t, d, trailing, opening, opens, written⟩

end

/-! ### Functions -/

/-- A pattern that declares names obeys every law. -/
theorem runs_pattern (law : Law P) (serves : g.Serves w P g' n) (ctx : Context)
    (fits : 8 * c.rest.length + 1 ≤ n) :
    Runs w c (g.pattern ctx) (g'.pattern ctx) fun p d => Node.Made P c (.pattern p) d ∧ p.Declares :=
  (serves.pattern ctx fits).mono fun _ _ _ written =>
    ⟨⟨(written.length shrinks_whole).2 trivial, (law.fine written).1⟩, (law.fine written).2⟩

theorem runs_parameters (law : Law P) (serves : g.Serves w P g' n) (ctx : Context)
    (fits : 8 * c.rest.length ≤ n) :
    Runs w c (parameters g ctx) (parameters g' ctx) fun params d => d.rest.length < c.rest.length ∧
      Listed params ∧ ∀ a, AllParts (Node.Whole P) (params.flatMap (·.parts a)) := by
  refine (runs_parametersOf fun d lt =>
    runs_parameter (inside_of_serves serves ctx) shrinks_whole (serves.assignment ctx) (by omega)).mono ?_
  rintro params d - ⟨t, e, trailing, opening, opens, written⟩
  have lt := Scan.punct_length_lt opening opens
  have := written.length_lt fun _ _ _ _ => ParamWritten.length_lt shrinks_whole
  obtain ⟨init, last, same, before, final⟩ := written.split
  refine ⟨by omega, ?_⟩
  dsimp only at same
  rw [same]
  refine Listed.of_items (fun p member => ?_) ?_
  · obtain ⟨_, _, item⟩ := before p member
    exact .of_written law item
  · rcases final with none | ⟨p, _, _, isLast, one, item⟩
    · exact .inl none
    · exact .inr ⟨p, isLast, one, .of_written law item⟩

theorem runs_functionRest (law : Law P) (serves : g.Serves w P g' n) (start : Nat)
    (isAsync isGenerator : Bool) (fits : 8 * c.rest.length ≤ n) :
    Runs w c (functionRest g start isAsync isGenerator) (functionRest g' start isAsync isGenerator)
      fun f d => d.rest.length < c.rest.length ∧ ∀ name, (Node.func name f).Whole P := by
  refine (runs_parameters law serves _ fits).bind ?_
  rintro params d - ⟨lt, listed, whole⟩
  refine (runs_braced law serves _ (by omega)).bind fun body e _ made => Runs.since ?_
  have shorter := made.1
  exact runs_pure ⟨by omega, fun name => law.function listed whole made.2 name _ isAsync isGenerator⟩

theorem runs_arrowRest (law : Law P) (serves : g.Serves w P g' n) (start : Nat) {params : List Param}
    {isAsync : Bool} (again : ReadAgain P isAsync params)
    (all : ∀ a, AllParts (Node.All P) (params.flatMap (·.parts a))) (fits : 8 * c.rest.length ≤ n) :
    Runs w c (arrowRest g start params isAsync) (arrowRest g' start params isAsync)
      fun e => Node.Made P c (.expr e) := by
  refine Runs.require (by rintro ⟨⟩) fun arrow d lt _ _ => ?_
  split
  · exact runs_failAt
  have finish (body : Body) (e : Cursor) (lt' : e.rest.length < d.rest.length)
      (whole : ∀ a, AllParts (Node.Whole P) (body.parts a)) :
      Runs w e (since start >>= fun s => pure (.func s none (.mk s true isAsync false params body)))
        (since start >>= fun s => pure (.func s none (.mk s true isAsync false params body)))
        fun e => Node.Made P c (.expr e) :=
    Runs.since (runs_pure ⟨by omega, law.arrowFunction again all whole _⟩)
  refine Runs.look fun _ _ _ => ?_
  split
  · refine (runs_braced law serves _ (by omega)).bind fun body e _ made => ?_
    exact finish (.block body) e made.1 fun _ => .single made.2
  · refine (serves.assignment _ (by omega)).bind fun body e _ made => ?_
    exact finish (.expr body) e made.1 fun _ => .single made.2

theorem runs_functionExpression (law : Law P) (serves : g.Serves w P g' n) (start : Nat) (isAsync : Bool)
    (fits : 8 * c.rest.length ≤ n) :
    Runs w c (functionExpression g start isAsync) (functionExpression g' start isAsync)
      fun e => Node.Made P c (.expr e) := by
  refine runs_eat.bind fun isGenerator d le _ => ?_
  refine runs_optionalIdentifier.bind fun name e le' _ => ?_
  refine (runs_functionRest law serves start isAsync isGenerator (by omega)).bind ?_
  rintro f h - ⟨lt, whole⟩
  exact runs_pure ⟨by omega, law.whole rfl rfl fun _ => .single (whole name)⟩

/-! ### Members of objects and classes -/

theorem isIdentifier_of_isWord {t : Token} {word : String} (same : t.isWord word = true) :
    t.kind = .identifier :=
  beq_iff_eq.mp (Bool.and_eq_true_iff.mp same).1

theorem runs_modifier (word : String) (inClass star : Bool) :
    Runs w c (modifier word inClass star) (modifier word inClass star) fun _ _ => True := by
  refine Runs.look fun t e read => ?_
  split
  next same =>
    refine Runs.peekSecond read (isIdentifier_of_isWord same) fun next => ?_
    split
    · exact Runs.take fun _ _ _ _ => runs_pure trivial
    · exact runs_pure trivial
  · exact runs_pure trivial

theorem runs_asyncModifier (inClass : Bool) :
    Runs w c (asyncModifier inClass) (asyncModifier inClass) fun _ _ => True := by
  refine Runs.look fun t e read => ?_
  split
  next same =>
    refine Runs.peekSecond read (isIdentifier_of_isWord same) fun next => ?_
    split
    · exact runs_pure trivial
    · exact runs_modifier _ _ _
  · exact runs_pure trivial

theorem runs_accessModifier (inClass : Bool) :
    Runs w c (accessModifier inClass) (accessModifier inClass) fun _ _ => True := by
  refine (runs_modifier _ _ _).bind fun isGetter d _ _ => ?_
  split
  · exact runs_pure trivial
  · refine (runs_modifier _ _ _).bind fun isSetter e _ _ => ?_
    split
    · exact runs_pure trivial
    · exact runs_pure trivial

theorem runs_modifiers (inClass : Bool) :
    Runs w c (modifiers inClass) (modifiers inClass) fun _ _ => True := by
  refine Runs.join (Q := fun _ _ => True) (fun _ => runs_modifier _ _ _) (fun _ => runs_pure trivial)
    fun isStatic d _ _ => ?_
  refine (runs_asyncModifier inClass).bind fun isAsync e _ _ => ?_
  refine Runs.join (Q := fun _ _ => True) (fun _ => runs_pure trivial) (fun _ => runs_accessModifier _)
    fun access f _ _ => ?_
  exact Runs.join (Q := fun _ _ => True) (fun _ => runs_eat.mono fun _ _ _ _ => trivial)
    (fun _ => runs_pure trivial) fun isGenerator h _ _ => runs_pure trivial

theorem runs_method (law : Law P) (serves : g.Serves w P g' n) (m : Modifiers)
    (fits : 8 * c.rest.length ≤ n) :
    Runs w c (method g m) (method g' m) fun value d => d.rest.length < c.rest.length ∧
      ∀ a, AllParts (Node.Whole P) (value.parts a) := by
  refine Runs.look fun _ _ _ => ?_
  refine (runs_functionRest law serves _ _ _ fits).bind ?_
  rintro f d - ⟨lt, whole⟩
  split
  · exact runs_pure ⟨lt, fun _ => .single (whole none)⟩
  · exact runs_pure ⟨lt, fun _ => .single (whole none)⟩
  · exact runs_pure ⟨lt, fun _ => .single (whole none)⟩

theorem runs_memberRest (law : Law P) (serves : g.Serves w P g' n) (ctx : Context) (start : Nat)
    (m : Modifiers) (keyToken : Token) {k : Key} (key : ∀ a, AllParts (Node.Whole P) (k.parts a))
    (fits : 8 * c.rest.length ≤ n) :
    Runs w c (memberRest g ctx start m keyToken k) (memberRest g' ctx start m keyToken k)
      fun x _ => ∀ a, AllParts (Node.Whole P) (x.parts a) := by
  have shorthand (name : String) : Runs w c
      (since start >>= fun s => pure (Member.shorthand s name keyToken.span))
      (since start >>= fun s => pure (Member.shorthand s name keyToken.span))
      fun x _ => ∀ a, AllParts (Node.Whole P) (x.parts a) :=
    Runs.since (runs_pure fun _ => .single (law.whole rfl rfl fun _ => .nil))
  refine Runs.look fun next _ ahead => ?_
  split
  · refine (runs_method law serves m fits).bind fun value d _ holds => Runs.since ?_
    exact runs_pure fun a => (key a).append (holds.2 a)
  next kind =>
    split
    · exact runs_unexpected
    · refine Runs.takeAhead ahead (by rw [kind]; rintro ⟨⟩) fun lt => ?_
      refine (serves.assignment ctx (by omega)).bind fun value e _ made => Runs.since ?_
      exact runs_pure fun a => (key a).append (.single made.2)
  next kind =>
    split
    · refine Runs.takeAhead ahead (by rw [kind]; rintro ⟨⟩) fun lt => ?_
      refine (serves.assignment ctx (by omega)).bind fun value e _ made => Runs.since ?_
      exact runs_pure fun a => (key a).append (.single (law.defaultedValue made.2 keyToken _))
    · exact runs_unexpected
  iterate 2
    split
    · exact shorthand _
    · exact runs_unexpected
  · exact runs_unexpected

theorem runs_member (law : Law P) (serves : g.Serves w P g' n) (ctx : Context)
    (fits : 8 * c.rest.length + 5 ≤ n) :
    Runs w c (member g ctx) (member g' ctx) fun x d => d.rest.length < c.rest.length ∧
      ∀ a, AllParts (Node.Whole P) (x.parts a) := by
  refine Runs.look fun _ _ _ => ?_
  refine Runs.eat (by rintro ⟨⟩) (fun _ d lt _ _ => ?_) (fun _ _ _ _ => ?_)
  · refine (serves.assignment ctx (by omega)).bind fun e f _ made => Runs.since ?_
    have shorter := made.1
    exact runs_pure ⟨by omega, fun _ => .single made.2⟩
  · refine (runs_modifiers false).bind fun m d le _ => ?_
    refine Runs.look fun keyToken _ _ => ?_
    refine (runs_key serves ctx false (by omega)).bind ?_
    rintro k e - ⟨lt, key⟩
    refine (runs_memberRest law serves ctx _ m keyToken key (by omega)).mono fun x f le' whole => ?_
    exact ⟨by omega, whole⟩

theorem runs_objectLiteral (law : Law P) (serves : g.Serves w P g' n) (ctx : Context) (start : Nat)
    (fits : 8 * c.rest.length + 5 ≤ n) :
    Runs w c (objectLiteral g ctx start) (objectLiteral g' ctx start) fun e => Node.Made P c (.expr e) := by
  refine (runs_itemsOf fun d le => runs_member law serves _ (by omega)).bind ?_
  rintro members d - ⟨lt, whole⟩
  refine Runs.since (runs_pure ⟨lt, law.whole rfl rfl fun a => ?_⟩)
  exact .flatMap fun m here => whole m here a

theorem runs_field (serves : g.Serves w P g' n) (fits : 8 * c.rest.length ≤ n) :
    Runs w c (field g) (field g') fun value _ => ∀ a, AllParts (Node.Whole P) (value.parts a) := by
  refine (runs_initializer serves _ fits).bind fun value d _ whole => ?_
  exact runs_semicolon.bind fun _ _ _ _ => runs_pure whole

theorem runs_classMember (law : Law P) (serves : g.Serves w P g' n)
    (fits : 8 * c.rest.length ≤ n) :
    Runs w c (classMember g) (classMember g') fun x d => d.rest.length < c.rest.length ∧
      ∀ a, AllParts (Node.Whole P) (x.parts a) := by
  refine Runs.look fun _ _ _ => ?_
  refine (runs_modifiers true).bind fun m d le _ => ?_
  refine (runs_key serves {} true (by omega)).bind ?_
  rintro k e - ⟨lt, key⟩
  refine Runs.look fun next _ _ => ?_
  have finish (value : PropertyValue) (f : Cursor) (le' : f.rest.length ≤ e.rest.length)
      (whole : ∀ a, AllParts (Node.Whole P) (value.parts a)) (start : Nat) :
      Runs w f (since start >>= fun s => pure (ClassMember.property s m.isStatic k value))
        (since start >>= fun s => pure (ClassMember.property s m.isStatic k value))
        fun x d => d.rest.length < c.rest.length ∧ ∀ a, AllParts (Node.Whole P) (x.parts a) := by
    refine Runs.since (runs_pure ⟨by omega, fun a => ?_⟩)
    cases m.isStatic with
    | true => exact (key a).append (whole a)
    | false => exact (key a).append (PropertyValue.instanceParts_whole whole a)
  split
  · refine (runs_method law serves m (by omega)).bind fun value f le' holds => ?_
    exact finish value f le' holds.2 _
  · split
    · exact (runs_unexpected (Q := fun _ _ => False)).bind fun _ _ _ holds => holds.elim
    · refine (runs_field serves (by omega)).bind fun value f le' holds => ?_
      exact finish value f le' holds _

theorem runs_staticBlock (law : Law P) (serves : g.Serves w P g' n)
    (fits : 8 * c.rest.length ≤ n) :
    Runs w c (staticBlock g) (staticBlock g') fun x d => d.rest.length < c.rest.length ∧
      ∀ a, AllParts (Node.Whole P) (x.parts a) := by
  refine Runs.take fun _ d le _ => ?_
  refine (runs_braced law serves _ (by omega)).bind fun body e _ made => Runs.since ?_
  have shorter := made.1
  exact runs_pure ⟨by omega, fun _ => .single (law.whole rfl rfl fun _ => .single made.2)⟩

theorem runs_startsStaticBlock {t : Token} {d : Cursor} (read : token .operator c = .ok (t, d)) :
    Runs w c (startsStaticBlock t) (startsStaticBlock t) fun _ e => e = c := by
  unfold startsStaticBlock
  split
  next same =>
    exact Runs.peekSecond read (isIdentifier_of_isWord same) fun _ => runs_pure rfl
  · exact runs_pure rfl

/-- The members of a class are whole. -/
def ClassMember.AllWhole (P : Node → Prop) (members : List ClassMember) : Prop :=
  ∀ x ∈ members, ∀ a, AllParts (Node.Whole P) (x.parts a)

theorem runs_classMembersTurn (law : Law P) (serves : g.Serves w P g' n) (read : List ClassMember)
    (fits : 8 * c.rest.length ≤ n) :
    Runs w c (classMembersTurn g read) (classMembersTurn g' read)
      (Keeps (fun read _ => ClassMember.AllWhole P read) (fun read _ => ClassMember.AllWhole P read)
        read c) := by
  refine Runs.look fun t e ahead => ?_
  split
  · exact runs_pure fun whole => whole
  split
  next semicolon =>
    have kind := beq_iff_eq.mp semicolon
    exact Runs.takeAhead ahead (by rw [kind]; rintro ⟨⟩) fun lt => runs_pure ⟨fun whole => whole, lt⟩
  · refine (runs_startsStaticBlock ahead).bind ?_
    rintro isBlock f - rfl
    split
    · exact (runs_staticBlock law serves fits).bind fun x h _ made =>
        runs_pure ⟨fun whole => forall_mem_concat whole made.2, made.1⟩
    · exact (runs_classMember law serves fits).bind fun x h _ made =>
        runs_pure ⟨fun whole => forall_mem_concat whole made.2, made.1⟩

theorem runs_classMembers (law : Law P) (serves : g.Serves w P g' n)
    (fits : 8 * c.rest.length ≤ n) :
    Runs w c (classMembers g) (classMembers g') fun members _ => ClassMember.AllWhole P members :=
  runs_loop_keeps (fun read _ => ClassMember.AllWhole P read) (List.forall_mem_nil _) fun read d le =>
    runs_classMembersTurn law serves read (by omega)

theorem runs_classRest (law : Law P) (serves : g.Serves w P g' n) (ctx : Context)
    (fits : 8 * c.rest.length ≤ n) :
    Runs w c (classRest g ctx) (classRest g' ctx) fun read d => d.rest.length < c.rest.length ∧
      (∀ a, AllParts (Node.Whole P) (Expr.optionalParts a read.1)) ∧
      ∀ x ∈ read.2, ∀ a, AllParts (Node.Whole P) (x.parts a) := by
  have finish (base : Option Expr) (d : Cursor) (le : d.rest.length ≤ c.rest.length)
      (whole : ∀ a, AllParts (Node.Whole P) (Expr.optionalParts a base)) :
      Runs w d
        (do
          let _ ← require (.punct .braceOpen)
          let members ← classMembers g
          let _ ← require (.punct .braceClose)
          return (base, members))
        (do
          let _ ← require (.punct .braceOpen)
          let members ← classMembers g'
          let _ ← require (.punct .braceClose)
          return (base, members))
        fun read d => d.rest.length < c.rest.length ∧
          (∀ a, AllParts (Node.Whole P) (Expr.optionalParts a read.1)) ∧
          ∀ x ∈ read.2, ∀ a, AllParts (Node.Whole P) (x.parts a) := by
    refine Runs.require (by rintro ⟨⟩) fun _ e lt _ _ => ?_
    refine (runs_classMembers law serves (by omega)).bind fun members f le' all => ?_
    refine Runs.require (by rintro ⟨⟩) fun _ h lt' _ _ => ?_
    exact runs_pure ⟨by omega, whole, all⟩
  refine Runs.eat (by rintro ⟨⟩) (fun _ d lt _ _ => ?_) (fun _ _ _ _ => ?_)
  · refine (serves.leftHand ctx (by omega)).bind fun base e le made => ?_
    exact finish (some base) e (by omega) fun _ => .single made.2
  · exact finish none c (Nat.le_refl _) fun _ => .nil

theorem runs_classExpression (law : Law P) (serves : g.Serves w P g' n) (ctx : Context) (start : Nat)
    (fits : 8 * c.rest.length ≤ n) :
    Runs w c (classExpression g ctx start) (classExpression g' ctx start)
      fun e => Node.Made P c (.expr e) := by
  refine runs_optionalIdentifier.bind fun name d le _ => ?_
  refine (runs_classRest law serves ctx (by omega)).bind ?_
  rintro ⟨base, members⟩ e - ⟨lt, whole, all⟩
  refine Runs.since (runs_pure ⟨by omega, law.whole rfl rfl fun a => (whole a).append ?_⟩)
  exact .flatMap fun x here => all x here _

end
end Parser
end NameAudit
