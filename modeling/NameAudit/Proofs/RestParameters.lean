import Mathlib
import NameAudit.Proofs.StatementRules

/-!
The parameters that take the remaining arguments. None has a default value, and only the last parameter of a
function takes the remaining arguments, unless the function is an asynchronous arrow function
(`parse_rests_last`). The parameters of such a function are read as the arguments of a call first, where
every argument can be spread, and a spread argument is read again as a parameter wherever it stands
(`async_arrow_rest_first`).
-/
namespace NameAudit

open Relation (ReflTransGen)

/-- No parameter that takes the remaining arguments has a default value, and only the last parameter of a
function takes them, but for asynchronous arrow functions. -/
def Node.RestsLast : Node → Prop
  | .func _ (.mk _ isArrow isAsync _ params _) =>
    ((isArrow && isAsync) = false → ∀ p ∈ params.dropLast, p.isRest = false) ∧
      ∀ p ∈ params, p.isRest = true → p.default = none
  | _ => True

/-! ### Parameters that were read again -/

/-- An expression is read again as a parameter that takes the remaining arguments when it was spread, and
then it has no default value. -/
theorem Expr.toParam_isRest {e : Expr} {isRest : Bool} {param : Param}
    (read : e.toParam isRest = .ok param) :
    param.isRest = isRest ∧ (isRest = true → param.default = none) := by
  unfold Expr.toParam at read
  split at read
  · obtain ⟨p, -, same⟩ := bind_eq_ok_iff.mp read
    cases same
    exact ⟨rfl, by rintro ⟨⟩⟩
  · obtain ⟨p, -, same⟩ := bind_eq_ok_iff.mp read
    cases same
    exact ⟨rfl, fun _ => rfl⟩

theorem Parser.exprsToParams_isRest {exprs : List Expr} {params : List Param}
    (read : exprsToParams exprs = .ok params) : ∀ p ∈ params, p.isRest = false := by
  induction exprs generalizing params with
  | nil =>
    cases read
    exact fun _ member => nomatch member
  | cons e es ih =>
    obtain ⟨p, first, read⟩ := bind_eq_ok_iff.mp read
    obtain ⟨ps, rest, same⟩ := bind_eq_ok_iff.mp read
    cases same
    exact List.forall_mem_cons.mpr ⟨(Expr.toParam_isRest first).1, ih rest⟩

theorem Parser.argsToParams_default {args : List Arg} {params : List Param}
    (read : argsToParams args = .ok params) : ∀ p ∈ params, p.isRest = true → p.default = none := by
  induction args generalizing params with
  | nil =>
    cases read
    exact fun _ member => nomatch member
  | cons arg args ih =>
    obtain ⟨span, isSpread, value⟩ := arg
    obtain ⟨p, first, read⟩ := bind_eq_ok_iff.mp read
    obtain ⟨ps, rest, same⟩ := bind_eq_ok_iff.mp read
    cases same
    obtain ⟨spread, plain⟩ := Expr.toParam_isRest first
    exact List.forall_mem_cons.mpr ⟨fun takes => plain (spread ▸ takes), ih rest⟩

/-- However the parameters of an arrow function were read again, one that takes the remaining arguments has
no default value, and it comes last where no call was read. -/
theorem ReadAgain.rests {P : Node → Prop} {isAsync : Bool} {params : List Param}
    (again : ReadAgain P isAsync params) :
    (isAsync = false → ∀ p ∈ params.dropLast, p.isRest = false) ∧
      ∀ p ∈ params, p.isRest = true → p.default = none := by
  cases again with
  | named isAsync name span =>
    refine ⟨fun _ => List.forall_mem_nil _, fun p member _ => ?_⟩
    obtain rfl := List.mem_singleton.mp member
    rfl
  | parenthesised exprs params rest whole read declares =>
    have plain := Parser.exprsToParams_isRest read
    cases rest with
    | none =>
      simp only [Option.toList_none, List.map_nil, List.append_nil]
      refine ⟨fun _ p member => plain p (List.dropLast_subset _ member), fun p member takes => ?_⟩
      exact absurd (plain p member) (by rw [takes]; rintro ⟨⟩)
    | some last =>
      simp only [Option.toList_some, List.map_singleton, List.dropLast_concat]
      refine ⟨fun _ => plain, fun p member takes => ?_⟩
      rcases List.mem_append.mp member with early | final
      · exact absurd (plain p early) (by rw [takes]; rintro ⟨⟩)
      · obtain rfl := List.mem_singleton.mp final
        rfl
  | called args params whole read =>
    exact ⟨by rintro ⟨⟩, Parser.argsToParams_default read⟩

/-! ### All functions of a program -/

/-- Where the remaining arguments are taken is a law of the trees that the parser builds. -/
theorem law_restsLast : Law Node.RestsLast where
  plain n plain _ := by
    unfold Node.RestsLast
    split
    · cases plain
    · trivial
  assign _ _ _ _ _ _ := trivial
  step _ _ _ _ _ := trivial
  converted _ _ _ _ := trivial
  declared _ _ := trivial
  listed _ _ _ _ _ _ listed := ⟨fun _ => listed.last, listed.plain⟩
  arrow _ _ _ _ again := again.rests
  vars _ _ _ _ _ := trivial
  forLoop _ _ _ _ _ _ _ := trivial
  forEach _ _ _ _ _ _ _ _ := trivial
  handler _ _ _ _ := trivial

/-- In every accepted program, a parameter that takes the remaining arguments has no default value, and it
is the last parameter of its function, unless this is an asynchronous arrow function. -/
theorem parse_rests_last {source : String} {script : Script} {s : Stmt} {n : Node}
    (read : parse source = .ok script) (here : s ∈ script.body)
    (within : ReflTransGen Node.Has (.stmt s) n) : n.RestsLast :=
  (parse_whole law_restsLast read s here).1 n within

theorem parse_rests_last_arrow :
    ∃ (script : Script) (s : Stmt) (f : Func), parse "(a,...b)=>0" = .ok script ∧
      s ∈ script.body ∧ ReflTransGen Node.Has (.stmt s) (.func none f) ∧
      (Node.func none f).RestsLast := by
  let a : Param := .mk ⟨1, 2⟩ false (.ident ⟨1, 2⟩ "a") none
  let b : Param := .mk ⟨6, 7⟩ true (.ident ⟨6, 7⟩ "b") none
  let f : Func := .mk ⟨0, 11⟩ true false false [a, b] (.expr (.literal ⟨10, 11⟩ (.number "0")))
  let s : Stmt := .mk ⟨0, 11⟩ none (.expr (.func ⟨0, 11⟩ none f))
  have read : parse "(a,...b)=>0" = .ok ⟨⟨0, 11⟩, none, [s]⟩ := by
    cbv
  have first : Node.Has (.stmt s) (.expr (.func ⟨0, 11⟩ none f)) :=
    ⟨default, default, List.mem_cons_self⟩
  have second : Node.Has (.expr (.func ⟨0, 11⟩ none f)) (.func none f) :=
    ⟨default, default, List.mem_cons_self⟩
  have within : ReflTransGen Node.Has (.stmt s) (.func none f) := .tail (.single first) second
  exact ⟨_, s, f, read, List.mem_cons_self, within,
    parse_rests_last read List.mem_cons_self within⟩

/-- The first of two parameters takes the remaining arguments: without `async`, a parenthesis has to
follow it. -/
theorem async_arrow_rest_first :
    ∃ (script : Script) (s : Stmt) (span : Span) (a b : Param) (body : Body),
      parse "async(...a,b)=>0" = .ok script ∧ s ∈ script.body ∧
      ReflTransGen Node.Has (.stmt s) (.func none (.mk span true true false [a, b] body)) ∧
      a.isRest = true := by
  let a : Param := .mk ⟨9, 10⟩ true (.ident ⟨9, 10⟩ "a") none
  let b : Param := .mk ⟨11, 12⟩ false (.ident ⟨11, 12⟩ "b") none
  let body : Body := .expr (.literal ⟨15, 16⟩ (.number "0"))
  let arrow : Expr := .func ⟨0, 16⟩ none (.mk ⟨0, 16⟩ true true false [a, b] body)
  let s : Stmt := .mk ⟨0, 16⟩ none (.expr arrow)
  have read : parse "async(...a,b)=>0" = .ok ⟨⟨0, 16⟩, none, [s]⟩ := by
    cbv
  have first : Node.Has (.stmt s) (.expr arrow) := ⟨default, default, List.mem_cons_self⟩
  have second : Node.Has (.expr arrow) (.func none (.mk ⟨0, 16⟩ true true false [a, b] body)) :=
    ⟨default, default, List.mem_cons_self⟩
  exact ⟨_, s, ⟨0, 16⟩, a, b, body, read, List.mem_cons_self, .tail (.single first) second, rfl⟩

end NameAudit
