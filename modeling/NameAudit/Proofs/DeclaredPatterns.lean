import Mathlib
import NameAudit.Proofs.StatementRules

/-!
The patterns that declare names. Every pattern of a declaration, a handler or the head of a loop binds
names only, and so does every parameter that a function lists (`parse_declares_names`). The parameters of
an arrow function are read as expressions first: a member is refused as a part of them as well, but an
array or an object that has a default was read as the target of an assignment before, and the members that
this one admits are kept (`arrow_binds_member`).
-/
namespace NameAudit

open Relation (ReflTransGen)

/-! ### Members in what is read again as a pattern -/

mutual

/-- A pattern without members has none outside of what has a default. -/
theorem Pattern.targets_of_declares : ∀ {p : Pattern}, p.targets true = [] → p.targets false = []
  | .ident _ _, _ => rfl
  | .destructuring d, free => @Destructuring.targets_of_free d free
  | .target _, free => nomatch free

theorem Destructuring.targets_of_free :
    ∀ {d : Destructuring}, d.targets true = [] → d.targets false = []
  | .array _ elements rest, free => by
    obtain ⟨items, last⟩ := List.append_eq_nil_iff.mp free
    rw [Destructuring.targets, PatternElement.targetsOf_of_free items,
      Pattern.targetsOfRest_of_free last, List.append_nil]
  | .object _ properties rest, free => by
    obtain ⟨items, last⟩ := List.append_eq_nil_iff.mp free
    rw [Destructuring.targets, PatternProperty.targetsOf_of_free items,
      Pattern.targetsOfRest_of_free last, List.append_nil]

theorem PatternElement.targetsOf_of_free : ∀ {es : List PatternElement},
    PatternElement.targetsOf true es = [] → PatternElement.targetsOf false es = []
  | [], _ => rfl
  | .hole :: es, free => @PatternElement.targetsOf_of_free es free
  | .item target _ :: es, free => by
    obtain ⟨first, others⟩ := List.append_eq_nil_iff.mp free
    rw [PatternElement.targetsOf, PatternElement.targetsOf_of_free others,
      Pattern.targets_of_declares first, ite_self, List.append_nil]

theorem PatternProperty.targetsOf_of_free : ∀ {ps : List PatternProperty},
    PatternProperty.targetsOf true ps = [] → PatternProperty.targetsOf false ps = []
  | [], _ => rfl
  | .mk _ _ target _ :: ps, free => by
    obtain ⟨first, others⟩ := List.append_eq_nil_iff.mp free
    rw [PatternProperty.targetsOf, PatternProperty.targetsOf_of_free others,
      Pattern.targets_of_declares first, ite_self, List.append_nil]

theorem Pattern.targetsOfRest_of_free : ∀ {rest : Option Pattern},
    Pattern.targetsOfRest true rest = [] → Pattern.targetsOfRest false rest = []
  | none, _ => rfl
  | some p, free => @Pattern.targets_of_declares p free

end

/-- A bare pattern with a default hides its members. -/
theorem Pattern.targets_defaulted {p : Pattern} {default : Option Expr}
    (none : p.isDefaultedDestructuring default = false → p.targets false = []) :
    (if false || !p.isDefaultedDestructuring default then p.targets false else []) = [] := by
  cases hides : p.isDefaultedDestructuring default with
  | true => rfl
  | false => exact none hides

/-- What an assignment takes apart keeps its members, but it has a default. -/
theorem Expr.toPattern_defaulted {e : Expr} {p : Pattern} (value : Expr) (read : e.toPattern true = .ok p)
    (none : (Node.expr e).isBare = false → p.targets false = []) :
    (if false || !p.isDefaultedDestructuring (some value) then p.targets false else []) = [] := by
  refine Pattern.targets_defaulted fun shows => none ?_
  cases e with
  | destructuring d =>
    cases read
    cases shows
  | _ => rfl

/-- What is read again as a pattern of names has no members outside of what has a default. -/
def Rereading.HidesTargets : Rereading → Prop
  | .whole e p => (Node.expr e).Whole Node.Formed → p.targets false = []
  | .elements es items rest => (∀ a, AllParts (Node.Whole Node.Formed) (es.flatMap (·.parts a))) →
    PatternElement.targetsOf false items = [] ∧ Pattern.targetsOfRest false rest = []
  | .members ms properties rest => (∀ a, AllParts (Node.Whole Node.Formed) (ms.flatMap (·.parts a))) →
    PatternProperty.targetsOf false properties = [] ∧ Pattern.targetsOfRest false rest = []

theorem ReadsAs.hidesTargets {r : Rereading} (reads : ReadsAs true r) : r.HidesTargets := by
  induction reads with
  | ident => exact fun _ => rfl
  | destructuring => exact fun whole => nomatch whole.2
  | array _ parts =>
    intro whole
    obtain ⟨free, free'⟩ := parts fun a x member => ⟨whole.1.part (a := a) member, whole.1.here a x member⟩
    exact List.append_eq_nil_iff.mpr ⟨free, free'⟩
  | object _ parts =>
    intro whole
    obtain ⟨free, free'⟩ := parts fun a x member => ⟨whole.1.part (a := a) member, whole.1.here a x member⟩
    exact List.append_eq_nil_iff.mpr ⟨free, free'⟩
  | member unbound => cases unbound
  | index unbound => cases unbound
  | noElement => exact fun _ => ⟨rfl, rfl⟩
  | hole _ others => exact fun whole => others fun a => (whole a).tail
  | @defaultedItem _ _ value _ _ _ _ target _ first others =>
    intro whole
    obtain ⟨free, free'⟩ := others fun a => (whole a).tail
    have hidden := Expr.toPattern_defaulted value (Expr.toPattern_eq_ok_iff.mpr target) fun bare =>
      first ⟨((whole default).head.first.1.sides default).1, bare⟩
    exact ⟨List.append_eq_nil_iff.mpr ⟨hidden, free⟩, free'⟩
  | item _ _ _ first others =>
    intro whole
    obtain ⟨free, free'⟩ := others fun a => (whole a).tail
    have first := first (whole default).head.first
    exact ⟨List.append_eq_nil_iff.mpr ⟨Pattern.targets_defaulted fun _ => first, free⟩, free'⟩
  | spread _ last => exact fun whole => ⟨rfl, last (whole default).head.first⟩
  | noMember => exact fun _ => ⟨rfl, rfl⟩
  | @defaultedProperty _ _ _ _ value _ _ _ _ target _ first others =>
    intro whole
    obtain ⟨free, free'⟩ := others fun a => (whole a).tail
    have hidden := Expr.toPattern_defaulted value (Expr.toPattern_eq_ok_iff.mpr target) fun bare =>
      first ⟨((whole default).head.right.first.1.sides default).1, bare⟩
    exact ⟨List.append_eq_nil_iff.mpr ⟨hidden, free⟩, free'⟩
  | property _ _ _ first others =>
    intro whole
    obtain ⟨free, free'⟩ := others fun a => (whole a).tail
    have first := first (whole default).head.right.first
    exact ⟨List.append_eq_nil_iff.mpr ⟨Pattern.targets_defaulted fun _ => first, free⟩, free'⟩
  | shorthand _ others => exact fun whole => others fun a => (whole a).tail
  | restMember _ last => exact fun whole => ⟨rfl, last (whole default).head.first⟩

theorem Expr.toPattern_targets (e : Expr) :
    ∀ p, e.toPattern true = .ok p → (Node.expr e).Whole Node.Formed → p.targets false = [] :=
  fun _ read => (Expr.toPattern_eq_ok_iff.mp read).hidesTargets

/-! ### What declares names -/

/-- What the patterns of a node that declares names may hold: names only, except that an arrow function
may have members in parameters, inside of an array or an object with a default. -/
def Node.DeclaresNames : Node → Prop
  | .func _ (.mk _ isArrow _ _ params _) => ∀ p ∈ params, p.targets (!isArrow) = []
  | .stmt (.mk _ _ (.vars _ ds)) => ∀ d ∈ ds, d.Declares
  | .stmt (.mk _ _ (.forLoop init _ _ _)) => init.Declares
  | .stmt (.mk _ _ (.forEach _ _ (.declares _ p) _ _)) => p.Declares
  | .handler (.mk _ param _) => ∀ p, param = some p → p.Declares
  | _ => True

/-- A parameter that is read again has no members outside of what has a default. -/
theorem Expr.toParam_targets {e : Expr} {isRest : Bool} {param : Param}
    (read : e.toParam isRest = .ok param) (whole : (Node.expr e).Whole Node.Formed) :
    param.targets false = [] := by
  unfold Expr.toParam at read
  split at read
  next span target value =>
    obtain ⟨p, pattern, same⟩ := bind_eq_ok_iff.mp read
    cases same
    exact Expr.toPattern_defaulted value pattern fun bare =>
      Expr.toPattern_targets target p pattern ⟨(whole.1.sides default).1, bare⟩
  · obtain ⟨p, pattern, same⟩ := bind_eq_ok_iff.mp read
    cases same
    exact Pattern.targets_defaulted fun _ => Expr.toPattern_targets e p pattern whole

theorem Parser.exprsToParams_targets {exprs : List Expr} {params : List Param}
    (read : exprsToParams exprs = .ok params) (whole : ∀ e ∈ exprs, (Node.expr e).Whole Node.Formed) :
    ∀ p ∈ params, p.targets false = [] := by
  induction exprs generalizing params with
  | nil =>
    cases read
    exact fun _ member => nomatch member
  | cons e es ih =>
    obtain ⟨p, first, read⟩ := bind_eq_ok_iff.mp read
    obtain ⟨ps, rest, same⟩ := bind_eq_ok_iff.mp read
    cases same
    exact List.forall_mem_cons.mpr ⟨Expr.toParam_targets first (whole e List.mem_cons_self),
      ih rest fun e later => whole e (List.mem_cons_of_mem _ later)⟩

theorem Parser.argsToParams_targets {args : List Arg} {params : List Param}
    (read : argsToParams args = .ok params)
    (whole : ∀ a, AllParts (Node.Whole Node.Formed) (args.flatMap (·.parts a))) :
    ∀ p ∈ params, p.targets false = [] := by
  induction args generalizing params with
  | nil =>
    cases read
    exact fun _ member => nomatch member
  | cons arg args ih =>
    obtain ⟨span, isSpread, value⟩ := arg
    obtain ⟨p, first, read⟩ := bind_eq_ok_iff.mp read
    obtain ⟨ps, rest, same⟩ := bind_eq_ok_iff.mp read
    cases same
    exact List.forall_mem_cons.mpr ⟨Expr.toParam_targets first (whole default).head.first,
      ih rest fun a => (whole a).tail⟩

theorem Node.Whole.mono {P Q : Node → Prop} {n : Node} (imp : ∀ n, P n → Q n) (whole : n.Whole P) :
    n.Whole Q :=
  ⟨fun m deep => imp m (whole.1 m deep), whole.2⟩

/-- However the parameters of an arrow function were read again, members stand inside of what has a
default only. -/
theorem ReadAgain.targets {P : Node → Prop} {isAsync : Bool} {params : List Param}
    (formed : ∀ n, P n → n.Formed) (again : ReadAgain P isAsync params) : ∀ p ∈ params, p.targets false = [] := by
  cases again with
  | named isAsync name span =>
    intro p member
    obtain rfl := List.mem_singleton.mp member
    rfl
  | parenthesised exprs params rest whole read declares =>
    intro p member
    rcases List.mem_append.mp member with listed | last
    · exact Parser.exprsToParams_targets read (fun e here => (whole e here).mono formed) p listed
    · obtain ⟨q, here, rfl⟩ := List.mem_map.mp last
      have free := Pattern.targets_of_declares (declares q (Option.mem_toList.mp here))
      exact Pattern.targets_defaulted fun _ => free
  | called args params whole read =>
    exact Parser.argsToParams_targets read fun a x member => (whole a x member).mono formed

/-- That patterns declare names is a law of the trees that the parser builds. -/
theorem law_declaresNames : Law fun n => n.Formed ∧ n.DeclaresNames where
  plain n plain formed := by
    refine ⟨formed, ?_⟩
    unfold Node.DeclaresNames
    split <;> trivial
  assign _ _ _ _ _ _ := ⟨trivial, trivial⟩
  step _ _ _ _ _ := ⟨trivial, trivial⟩
  converted _ _ _ _ := ⟨trivial, trivial⟩
  declared _ _ := ⟨trivial, trivial⟩
  listed _ _ _ _ _ _ listed := ⟨trivial, listed.declares⟩
  arrow _ _ _ _ again := ⟨trivial, again.targets fun _ holds => holds.1⟩
  vars _ _ _ _ declares := ⟨trivial, declares⟩
  forLoop _ _ _ _ _ _ declares := ⟨trivial, declares⟩
  forEach _ _ _ _ head _ _ assigns := by
    refine ⟨trivial, ?_⟩
    cases head with
    | target e => trivial
    | declares mode p => exact assigns
  handler _ _ _ declares := ⟨trivial, declares⟩

/-- In every accepted program, what declares names has patterns that bind names only, at any depth; an
arrow function may have members in its parameters, inside of an array or an object with a default. -/
theorem parse_declares_names {source : String} {script : Script} {s : Stmt} {n : Node}
    (read : parse source = .ok script) (here : s ∈ script.body)
    (within : ReflTransGen Node.Has (.stmt s) n) : n.DeclaresNames :=
  ((parse_whole law_declaresNames read s here).1 n within).2

theorem parse_declares_names_function :
    ∃ (script : Script) (s : Stmt) (f : Func), parse "function f([a]) {}" = .ok script ∧
      s ∈ script.body ∧ ReflTransGen Node.Has (.stmt s) (.func none f) ∧
      (Node.func none f).DeclaresNames := by
  let p : Param := .mk ⟨11, 14⟩ false
    (.destructuring (.array ⟨11, 14⟩ [.item (.ident ⟨12, 13⟩ "a") none] none)) none
  let f : Func := .mk ⟨0, 18⟩ false false false [p] (.block [])
  let s : Stmt := .mk ⟨0, 18⟩ none (.funcDecl "f" ⟨9, 10⟩ f)
  have read : parse "function f([a]) {}" = .ok ⟨⟨0, 18⟩, none, [s]⟩ := by
    cbv
  have within : ReflTransGen Node.Has (.stmt s) (.func none f) :=
    .single ⟨default, default, List.mem_cons_self⟩
  exact ⟨_, s, f, read, List.mem_cons_self, within,
    parse_declares_names read List.mem_cons_self within⟩

/-- The member in the array is kept as it is: `([a.b]) => 0` is refused. -/
theorem arrow_binds_member :
    ∃ (script : Script) (s : Stmt) (span : Span) (p : Param) (body : Body),
      parse "([a.b] = []) => 0" = .ok script ∧ s ∈ script.body ∧
      ReflTransGen Node.Has (.stmt s) (.func none (.mk span true false false [p] body)) ∧
      (p.targets true).map Expr.span = [⟨2, 5⟩] := by
  let target : Expr := .member ⟨2, 5⟩ false (.ident ⟨2, 3⟩ "a") "b"
  let p : Param := .mk ⟨1, 11⟩ false
    (.destructuring (.array ⟨1, 6⟩ [.item (.target target) none] none)) (some (.array ⟨9, 11⟩ []))
  let body : Body := .expr (.literal ⟨16, 17⟩ (.number "0"))
  let arrow : Expr := .func ⟨0, 17⟩ none (.mk ⟨0, 17⟩ true false false [p] body)
  let s : Stmt := .mk ⟨0, 17⟩ none (.expr arrow)
  have read : parse "([a.b] = []) => 0" = .ok ⟨⟨0, 17⟩, none, [s]⟩ := by
    cbv
  have first : Node.Has (.stmt s) (.expr arrow) := ⟨default, default, List.mem_cons_self⟩
  have second : Node.Has (.expr arrow) (.func none (.mk ⟨0, 17⟩ true false false [p] body)) :=
    ⟨default, default, List.mem_cons_self⟩
  exact ⟨_, s, ⟨0, 17⟩, p, body, read, List.mem_cons_self, .tail (.single first) second, rfl⟩

end NameAudit
