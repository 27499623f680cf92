import NameAudit.Proofs.FunctionRules
import NameAudit.Proofs.SharedRegions

/-!
Where the rules for patterns, parameters, functions, objects and classes read their regions.
-/
namespace NameAudit

open Cursor (Boundary ofSource)
open Scan (front token)
open Region (Lies AllLie InOrder)

namespace Parser

section
variable {source : List Char} {g : Grammar} {c : Cursor}

/-! ### Patterns -/

theorem ends_arrayPatternItems (places : g.Places source) (ctx : Context) :
    Ends source c (arrayPatternItems g ctx) fun read =>
      Region.AllRead source c (read.1.flatMap (·.regions) ++ Pattern.optionalRegions read.2) := by
  refine ends_loop (Filled source PatternElement.regions (front c)) .nil fun read d _ le' filled => ?_
  refine Ends.look fun t e ahead _ => ?_
  split
  · exact ends_pure ((AllLie.flatMap filled).append .nil)
  next kind =>
    refine Ends.takeAhead ahead (by rw [kind]; rintro ⟨⟩) fun further _ _ _ => ends_pure ?_
    exact filled.concat further .nil le'
  next kind =>
    refine Ends.takeAhead ahead (by rw [kind]; rintro ⟨⟩) fun further _ _ _ => ?_
    refine (places.pattern ctx).bind fun p f later _ lies => ends_pure ?_
    refine (AllLie.flatMap (filled.mono (Nat.le_refl _) (by omega))).append (.single ?_)
    exact lies.mono (by omega) (Nat.le_refl _)
  · refine (places.pattern ctx).bind fun p f further _ lies => ?_
    refine (ends_initializer places _).bind fun default h later _ value => ?_
    have item : AllLie source (front d) h.offset (PatternElement.item p default).regions :=
      .cons (lies.mono (Nat.le_refl _) later) (value.mono (by omega) (Nat.le_refl _))
    have more := filled.concat (by omega) item le'
    refine Ends.eat (by rintro ⟨⟩) (fun i last _ _ => ?_) ?_
    · exact ends_pure (more.mono (Nat.le_refl _) last)
    · exact ends_pure ((AllLie.flatMap more).append .nil)

theorem ends_arrayPattern (places : g.Places source) (ctx : Context) :
    Ends source c (arrayPattern g ctx) fun p => Region.Read source c (.pattern p) := by
  refine Ends.require (by rintro ⟨⟩) fun t d _ le' _ stands => ?_
  have start := stands.start
  refine (ends_arrayPatternItems places ctx).bind fun read e _ _ all => ?_
  refine Ends.require (by rintro ⟨⟩) fun _ f later _ _ _ => ?_
  refine Ends.since (by omega) fun stops => ends_pure ?_
  exact .spanning rfl stands.starts stops (by omega) (by omega) (all.mono (by omega) later) .nil

/-- The key and the target of a property lie where they are read. -/
theorem ends_patternEntry (places : g.Places source) (ctx : Context) (t : Token) :
    Ends source c (patternEntry g ctx t) fun entry d => Region.AllRead source c entry.1.regions d ∧
      Region.Read source c (.pattern entry.2) d := by
  unfold patternEntry
  split
  · refine Ends.identifier fun name u d le le' _ _ here => ?_
    refine Ends.eat (by rintro ⟨⟩) (fun e further _ _ => ?_) ?_
    · exact (places.pattern ctx).bind fun p f _ _ lies =>
        ends_pure ⟨.nil, lies.mono (by omega) (Nat.le_refl _)⟩
    · exact ends_pure ⟨.nil, here.again rfl .nil rfl⟩
  · refine (ends_key places ctx false).bind ?_
    rintro k d le le' ⟨-, -, key⟩
    refine Ends.require (by rintro ⟨⟩) fun _ e further _ _ _ => ?_
    exact (places.pattern ctx).bind fun p f later _ lies =>
      ends_pure ⟨key.mono (Nat.le_refl _) (by omega), lies.mono (by omega) (Nat.le_refl _)⟩

theorem ends_objectPatternItems (places : g.Places source) (ctx : Context) :
    Ends source c (objectPatternItems g ctx) fun read =>
      Region.AllRead source c (read.1.map .property ++ Pattern.optionalRegions read.2) := by
  let each (p : PatternProperty) : List Region := [.property p]
  have all {read : List PatternProperty} {d : Cursor} (filled : Filled source each (front c) read d) :
      AllLie source (front c) d.offset (read.map .property) :=
    .map fun p member => (filled p member).head
  refine ends_loop (Filled source each (front c)) .nil fun read d _ le' filled => ?_
  refine Ends.look fun _ _ _ _ => ?_
  split
  · exact ends_pure ((all filled).append .nil)
  refine Ends.eat (by rintro ⟨⟩) (fun e further _ _ => ?_) ?_
  · refine (places.pattern ctx).bind fun p f later _ lies => ends_pure ?_
    refine (all (filled.mono (Nat.le_refl _) (by omega))).append (.single ?_)
    exact lies.mono (by omega) (Nat.le_refl _)
  refine Ends.look fun t e _ stands => ?_
  have start := stands.start
  refine (ends_patternEntry places ctx t).bind ?_
  rintro ⟨k, target⟩ f further _ ⟨key, lies⟩
  have after := lies.after
  have some := lies.some
  have before := lies.before
  refine (ends_initializer places _).bind fun default h later _ value => ?_
  refine Ends.since (by omega) fun stops => ?_
  have property : AllLie source (front d) h.offset [.property (.mk ⟨t.span.start, h.offset⟩ k target default)] := by
    refine .single (.spanning rfl stands.starts stops (by omega) (by omega) ?_ .nil)
    refine (key.mono (by omega) later).append (.cons (lies.mono (by omega) later) ?_)
    exact value.mono (by omega) (Nat.le_refl _)
  have more := filled.concat (f := each) (by omega) property le'
  refine Ends.eat (by rintro ⟨⟩) (fun i last _ _ => ?_) ?_
  · exact ends_pure (more.mono (Nat.le_refl _) last)
  · exact ends_pure ((all more).append .nil)

theorem ends_objectPattern (places : g.Places source) (ctx : Context) :
    Ends source c (objectPattern g ctx) fun p => Region.Read source c (.pattern p) := by
  refine Ends.require (by rintro ⟨⟩) fun t d _ le' _ stands => ?_
  have start := stands.start
  refine (ends_objectPatternItems places ctx).bind fun read e _ _ all => ?_
  refine Ends.require (by rintro ⟨⟩) fun _ f later _ _ _ => ?_
  refine Ends.since (by omega) fun stops => ends_pure ?_
  exact .spanning rfl stands.starts stops (by omega) (by omega) (all.mono (by omega) later) .nil

/-- A pattern that declares names. -/
theorem ends_patternRule (places : g.Places source) (ctx : Context) :
    Ends source c (patternRule g ctx) fun p => Region.Read source c (.pattern p) := by
  refine Ends.look fun t _ _ _ => ?_
  split
  · exact Ends.identifier fun name t d _ _ _ _ here => ends_pure (here.again rfl .nil rfl)
  · exact ends_arrayPattern places ctx
  · exact ends_objectPattern places ctx
  · exact ends_unexpected

theorem ends_parameter (places : g.Places source) (ctx : Context) :
    Ends source c (parameter g ctx) fun read => Region.Read source c (.param read.1) := by
  refine Ends.eat (by rintro ⟨⟩) (fun d _ le' _ => ?_) ?_
  · exact (places.pattern ctx).bind fun p e _ _ lies =>
      ends_pure (Param.rest_lies (lies.mono le' (Nat.le_refl _)))
  · refine (places.pattern ctx).bind fun p d _ le' lies => ?_
    refine (ends_initializer places ctx).bind fun default e further _ value => ends_pure ?_
    exact Param.ofParts_lies false (lies.mono (Nat.le_refl _) further) (value.mono le' (Nat.le_refl _))

theorem ends_parameters (places : g.Places source) (ctx : Context) :
    Ends source c (parameters g ctx) fun params d => ∀ p ∈ params, Region.Read source c (.param p) d := by
  refine Ends.require (by rintro ⟨⟩) fun _ d _ le' _ _ => ?_
  refine (ends_items (f := fun p => [.param p]) fun e =>
    (ends_parameter places ctx).mono fun read _ _ _ lies => .single lies).bind fun read e _ _ filled => ?_
  exact ends_pure fun p member => (filled p member).head.mono le' (Nat.le_refl _)

/-! ### Functions -/

section
variable {start : Nat}

/-- A function that begins at an offset. -/
theorem ends_functionRest (places : g.Places source) (starts : (ofSource source).Boundary start)
    (begins : start ≤ front c) (isAsync isGenerator : Bool) :
    Ends source c (functionRest g start isAsync isGenerator) fun f d =>
      (Region.func f).Lies source start d.offset := by
  refine (ends_parameters places _).bind fun params d _ le' all => ?_
  refine (ends_braced places _).bind ?_
  rintro body e further _ ⟨some, order⟩
  refine Ends.since (by omega) fun stops => ends_pure ?_
  have order : InOrder source start e.offset body := order.mono (by omega) (Nat.le_refl _)
  refine .spanning rfl starts stops (Nat.le_refl _) (by omega) (.append (.map ?_) order.all) order
  exact fun p member => (all p member).mono begins further

/-- An arrow function that begins at an offset, with its parameters before the arrow. -/
theorem ends_arrowRest (places : g.Places source) (starts : (ofSource source).Boundary start)
    (begins : start ≤ front c) {params : List Param}
    (all : ∀ p ∈ params, (Region.param p).Lies source start c.offset) (isAsync : Bool) :
    Ends source c (arrowRest g start params isAsync) fun e d =>
      (Region.expr e).Lies source start d.offset := by
  refine Ends.require (by rintro ⟨⟩) fun arrow d le le' lt _ => ?_
  split
  · exact ends_failAt
  have finish (body : Body) (e : Cursor) (further : d.offset ≤ e.offset)
      (inside : AllLie source start e.offset body.regions)
      (order : InOrder source start e.offset
        (Region.func (.mk ⟨start, e.offset⟩ true isAsync false params body)).statements) :
      Ends source e (since start >>= fun s => pure (.func s none (.mk s true isAsync false params body)))
        fun e d => (Region.expr e).Lies source start d.offset := by
    refine Ends.since (by omega) fun stops => ends_pure ?_
    have func : (Region.func (.mk ⟨start, e.offset⟩ true isAsync false params body)).Lies source start
        e.offset :=
      .spanning rfl starts stops (Nat.le_refl _) (by omega)
        (.append (.map fun p member => (all p member).mono (Nat.le_refl _) (by omega)) inside) order
    exact func.wrap rfl rfl rfl
  refine Ends.look fun _ _ _ _ => ?_
  split
  · refine (ends_braced places _).bind ?_
    rintro body e further - ⟨-, order⟩
    have order : InOrder source start e.offset body := order.mono (by omega) (Nat.le_refl _)
    exact finish (.block body) e further order.all order
  · refine (places.assignment _).bind fun body e further _ lies => ?_
    exact finish (.expr body) e further (.single (lies.mono (by omega) (Nat.le_refl _))) .nil

theorem ends_functionExpression (places : g.Places source) (starts : (ofSource source).Boundary start)
    (begins : start ≤ front c) (isAsync : Bool) :
    Ends source c (functionExpression g start isAsync) fun e d =>
      (Region.expr e).Lies source start d.offset := by
  refine (runs_eat (w := .alone source)).ends.bind fun isGenerator d _ le' _ => ?_
  refine (runs_optionalIdentifier (w := .alone source)).ends.bind fun name e _ le'' _ => ?_
  refine (ends_functionRest places starts (by omega) isAsync isGenerator).bind fun f h _ _ lies => ?_
  exact ends_pure (lies.wrap rfl rfl rfl)

/-! ### Members of objects and classes -/

theorem ends_method (places : g.Places source) (m : Modifiers) :
    Ends source c (method g m) fun value => Region.AllRead source c value.regions := by
  refine Ends.look fun t _ _ stands => ?_
  have start := stands.start
  refine (ends_functionRest places stands.starts (by omega) _ _).bind fun f d _ _ lies => ?_
  have lies : Region.Read source c (.func f) d := lies.mono (by omega) (Nat.le_refl _)
  split
  · exact ends_pure (.single lies)
  · exact ends_pure (.single lies)
  · exact ends_pure (.single lies)

/-- The default of a property lies where its name and its value do. -/
theorem defaultedValue_lies {lo hi : Nat} {t : Token} {value : Expr}
    (here : (Region.name t.span).Lies source lo hi) (lies : (Region.expr value).Lies source lo hi)
    (name : String) : (Region.expr (defaultedValue t name value)).Lies source lo hi := by
  have target : (Region.expr (.ident t.span name)).Lies source lo hi := here.again rfl .nil rfl
  exact target.join lies rfl (.cons (target.left _) (.single (lies.right _))) rfl

/-- A member of an object literal that begins at an offset, with its key before the position. -/
theorem ends_memberRest (places : g.Places source) (ctx : Context)
    (starts : (ofSource source).Boundary start) (begins : start < c.offset) (m : Modifiers)
    {keyToken : Token} {k : Key} (key : AllLie source start c.offset k.regions)
    (here : keyToken.kind = .identifier → (Region.name keyToken.span).Lies source start c.offset) :
    Ends source c (memberRest g ctx start m keyToken k) fun x d =>
      (Region.member x).Lies source start d.offset := by
  have ahead := Scan.offset_le_front c
  have valued (value : PropertyValue) (d : Cursor) (further : c.offset ≤ d.offset)
      (inside : AllLie source start d.offset value.regions) :
      Ends source d (since start >>= fun s => pure (Member.property s k value)) fun x d =>
        (Region.member x).Lies source start d.offset := by
    refine Ends.since (by omega) fun stops => ends_pure ?_
    exact .spanning rfl starts stops (Nat.le_refl _) (by omega)
      ((key.mono (Nat.le_refl _) further).append inside) .nil
  have shorthand (name : String) (named : keyToken.kind = .identifier) :
      Ends source c (since start >>= fun s => pure (Member.shorthand s name keyToken.span)) fun x d =>
        (Region.member x).Lies source start d.offset := by
    refine Ends.since (by omega) fun stops => ends_pure ?_
    exact .spanning rfl starts stops (Nat.le_refl _) begins (.single (here named)) .nil
  have named {b : Bool} (plain : (b || keyToken.kind != .identifier) = false) :
      keyToken.kind = .identifier := by
    simpa using (Bool.or_eq_false_iff.mp plain).2
  refine Ends.look fun next _ ahead _ => ?_
  split
  · refine (ends_method places m).bind fun value d further _ all => ?_
    exact valued value d further (all.mono (by omega) (Nat.le_refl _))
  next kind =>
    split
    · exact ends_unexpected
    · refine Ends.takeAhead ahead (by rw [kind]; rintro ⟨⟩) fun _ _ _ _ => ?_
      refine (places.assignment ctx).bind fun value e _ _ lies => ?_
      exact valued _ e (by omega) (.single (lies.mono (by omega) (Nat.le_refl _)))
  next kind =>
    split
    next plain _ =>
      refine Ends.takeAhead ahead (by rw [kind]; rintro ⟨⟩) fun _ _ _ _ => ?_
      refine (places.assignment ctx).bind fun value e _ _ lies => ?_
      have here := (here (named plain)).mono (Nat.le_refl _) (show c.offset ≤ e.offset by omega)
      exact valued _ e (by omega)
        (.single (defaultedValue_lies here (lies.mono (by omega) (Nat.le_refl _)) _))
    · exact ends_unexpected
  iterate 2
    split
    next plain _ => exact shorthand _ (named plain)
    · exact ends_unexpected
  · exact ends_unexpected

theorem ends_member (places : g.Places source) (ctx : Context) :
    Ends source c (member g ctx) fun x => Region.Read source c (.member x) := by
  refine Ends.look fun t _ _ stands => ?_
  have start := stands.start
  refine Ends.eat (by rintro ⟨⟩) (fun d le le' lt => ?_) ?_
  · refine (places.assignment ctx).bind fun e f further _ lies => ?_
    refine Ends.since (by omega) fun stops => ends_pure ?_
    exact .spanning rfl stands.starts stops (by omega) (by omega)
      (.single (lies.mono (by omega) (Nat.le_refl _))) .nil
  · refine (runs_modifiers (w := .alone source) false).ends.bind fun m d le le' _ => ?_
    refine Ends.look fun keyToken e read key => ?_
    refine (ends_key places ctx false).bind ?_
    rintro k f further _ ⟨lt, passes, all⟩
    have passed := passes keyToken e read
    refine (ends_memberRest places ctx stands.starts (by omega) m (all.mono (by omega) (Nat.le_refl _))
      fun kind => ?_).mono fun x h _ _ lies => lies.mono (by omega) (Nat.le_refl _)
    exact (key.lies (by rw [kind]; rintro ⟨⟩)).mono (by omega) passed

theorem ends_objectLiteral (places : g.Places source) (ctx : Context)
    (starts : (ofSource source).Boundary start) (begins : start < c.offset) :
    Ends source c (objectLiteral g ctx start) fun e d => (Region.expr e).Lies source start d.offset := by
  have ahead := Scan.offset_le_front c
  refine (ends_itemsOf (f := fun x => [.member x]) fun e =>
    (ends_member places _).mono fun x _ _ _ lies => .single lies).bind fun members d _ _ filled => ?_
  refine Ends.since (by omega) fun stops => ends_pure ?_
  refine .spanning rfl starts stops (Nat.le_refl _) (by omega) (.map fun x member => ?_) .nil
  exact (filled x member).head.mono (by omega) (Nat.le_refl _)

theorem ends_field (places : g.Places source) :
    Ends source c (field g) fun value => Region.AllRead source c value.regions := by
  refine (ends_initializer places _).bind fun value d _ _ all => ?_
  exact (runs_semicolon (w := .alone source)).ends.bind fun _ e further _ _ =>
    ends_pure (all.mono (Nat.le_refl _) further)

theorem ends_classMember (places : g.Places source) :
    Ends source c (classMember g) fun x => Region.Read source c (.classMember x) := by
  refine Ends.look fun t _ _ stands => ?_
  have start := stands.start
  refine (runs_modifiers (w := .alone source) true).ends.bind fun m d _ le' _ => ?_
  refine (ends_key places {} true).bind ?_
  rintro k e further further' ⟨lt, -, key⟩
  have finish (value : PropertyValue) (f : Cursor) (later : e.offset ≤ f.offset)
      (inside : AllLie source (front e) f.offset value.regions) :
      Ends source f (since t.span.start >>= fun s => pure (ClassMember.property s m.isStatic k value))
        fun x => Region.Read source c (.classMember x) := by
    refine Ends.since (by omega) fun stops => ends_pure ?_
    refine .spanning rfl stands.starts stops (by omega) (by omega) ?_ .nil
    exact (key.mono (by omega) later).append (inside.mono (by omega) (Nat.le_refl _))
  refine Ends.look fun next _ _ _ => ?_
  split
  · exact (ends_method places m).bind fun value f later _ all => finish value f later all
  · split
    · exact (ends_unexpected (Q := fun _ _ => False)).bind fun _ _ _ _ holds => holds.elim
    · exact (ends_field places).bind fun value f later _ all => finish value f later all

theorem ends_staticBlock (places : g.Places source) :
    Ends source c (staticBlock g) fun x => Region.Read source c (.classMember x) := by
  refine Ends.take fun t d _ le' _ stands => ?_
  have start := stands.start
  refine (ends_braced places _).bind ?_
  rintro body e _ - ⟨lt, order⟩
  refine Ends.since (by omega) fun stops => ends_pure ?_
  have order : InOrder source t.span.start e.offset body := order.mono (by omega) (Nat.le_refl _)
  exact .spanning rfl stands.starts stops (by omega) (by omega) order.all order

theorem ends_classMembers (places : g.Places source) :
    Ends source c (classMembers g) fun members => Region.AllRead source c (members.map .classMember) := by
  let each (x : ClassMember) : List Region := [.classMember x]
  refine (ends_loop (Filled source each (front c)) .nil fun read d _ le' filled => ?_).mono
    (Q := Filled source each (front c)) fun members d _ _ filled =>
      .map fun x member => (filled x member).head
  refine Ends.look fun t e ahead _ => ?_
  split
  · exact ends_pure filled
  split
  · exact Ends.take fun _ f further _ _ _ => ends_pure (filled.mono (Nat.le_refl _) further)
  refine (runs_startsStaticBlock (w := .alone source) ahead).ends.bind ?_
  rintro isBlock f - - rfl
  split
  · exact (ends_staticBlock places).bind fun x h further _ lies =>
      ends_pure (filled.concat (f := each) further (.single lies) le')
  · exact (ends_classMember places).bind fun x h further _ lies =>
      ends_pure (filled.concat (f := each) further (.single lies) le')

theorem ends_classRest (places : g.Places source) (ctx : Context) :
    Ends source c (classRest g ctx) fun read d => front c < d.offset ∧
      Region.AllRead source c (Expr.optionalRegions read.1 ++ read.2.map .classMember) d := by
  have finish (base : Option Expr) (d : Cursor) (le' : front c ≤ front d)
      (all : AllLie source (front c) d.offset (Expr.optionalRegions base)) :
      Ends source d
        (do
          let _ ← require (.punct .braceOpen)
          let members ← classMembers g
          let _ ← require (.punct .braceClose)
          return (base, members))
        fun read d => front c < d.offset ∧
          Region.AllRead source c (Expr.optionalRegions read.1 ++ read.2.map .classMember) d := by
    refine Ends.require (by rintro ⟨⟩) fun _ e further _ lt _ => ?_
    refine (ends_classMembers places).bind fun members f later _ inside => ?_
    refine Ends.require (by rintro ⟨⟩) fun _ h last _ _ _ => ends_pure ⟨by omega, ?_⟩
    exact (all.mono (Nat.le_refl _) (by omega)).append (inside.mono (by omega) last)
  refine Ends.eat (by rintro ⟨⟩) (fun d le le' lt => ?_) ?_
  · refine (places.leftHand ctx).bind fun base e _ _ lies => ?_
    exact finish (some base) e (by omega) (.single (lies.mono (by omega) (Nat.le_refl _)))
  · exact finish none c (Nat.le_refl _) .nil

theorem ends_classExpression (places : g.Places source) (ctx : Context)
    (starts : (ofSource source).Boundary start) (begins : start ≤ front c) :
    Ends source c (classExpression g ctx start) fun e d =>
      (Region.expr e).Lies source start d.offset := by
  refine (runs_optionalIdentifier (w := .alone source)).ends.bind fun name d _ le' _ => ?_
  refine (ends_classRest places ctx).bind ?_
  rintro ⟨base, members⟩ e _ - ⟨lt, all⟩
  refine Ends.since (by omega) fun stops => ends_pure ?_
  exact .spanning rfl starts stops (Nat.le_refl _) (by omega) (all.mono (by omega) (Nat.le_refl _)) .nil

end
end
end Parser
end NameAudit
