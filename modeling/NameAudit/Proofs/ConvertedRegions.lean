import NameAudit.Parser.Expression
import NameAudit.Proofs.Regions
import NameAudit.Proofs.TreeLaws

/-!
Expressions that are read again keep their place: as a pattern an expression covers the same span, and what
lies inside of it stays there; the targets and the parameters made of it lie where it did.
-/
namespace NameAudit

open Region (AllLie)

section
variable {source : List Char} {lo hi : Nat}

theorem Region.AllLie.head {x : Region} {xs : List Region} (all : AllLie source lo hi (x :: xs)) :
    x.Lies source lo hi :=
  all x List.mem_cons_self

theorem Region.AllLie.tail {x : Region} {xs : List Region} (all : AllLie source lo hi (x :: xs)) :
    AllLie source lo hi xs :=
  fun y member => all y (List.mem_cons_of_mem _ member)

theorem Region.AllLie.left {xs ys : List Region} (all : AllLie source lo hi (xs ++ ys)) :
    AllLie source lo hi xs :=
  fun y member => all y (List.mem_append_left _ member)

theorem Region.AllLie.right {xs ys : List Region} (all : AllLie source lo hi (xs ++ ys)) :
    AllLie source lo hi ys :=
  fun y member => all y (List.mem_append_right _ member)

/-- Everything directly inside of a region lies where the region does. -/
theorem Region.Lies.inside {x : Region} (lies : x.Lies source lo hi) : AllLie source lo hi x.children :=
  fun _ child => (lies.sound.lies child).mono lies.after lies.before

/-- A region with the span of another one and what lies in this span lies where the other one does. -/
theorem Region.Lies.again {x y : Region} (lies : x.Lies source lo hi) (span : y.span = x.span)
    (all : AllLie source x.span.start x.span.stop y.children) (plain : y.statements = []) :
    y.Lies source lo hi := by
  refine .of ?_ ?_ ?_ ?_ ?_ ?_ plain <;> rw [span]
  · exact lies.starts
  · exact lies.stops
  · exact lies.after
  · exact lies.some
  · exact lies.before
  · exact all

/-- A region with only another one in it, which covers the same span. -/
theorem Region.Lies.wrap {x y : Region} (lies : x.Lies source lo hi) (span : y.span = x.span)
    (only : y.children = [x]) (plain : y.statements = []) : y.Lies source lo hi := by
  refine lies.again span ?_ plain
  rw [only]
  exact .single ⟨Nat.le_refl _, lies.some, Nat.le_refl _, lies.sound⟩

/-! ### Patterns -/

/-- An element that is read again with a default. -/
theorem PatternElement.lie_defaulted {p : Pattern} {span : Span} {target value : Expr}
    (lies : (Region.expr (.assign span .plain target value)).Lies source lo hi)
    (pattern : (Region.expr target).Lies source lo hi → (Region.pattern p).Lies source lo hi) :
    AllLie source lo hi (PatternElement.item p (some value)).regions :=
  .cons (pattern lies.inside.head) (.single lies.inside.tail.head)

/-- What is read again stays where it was. -/
def Rereading.Stays (source : List Char) : Rereading → Prop
  | .whole e p => p.span = e.span ∧
    ∀ lo hi, (Region.expr e).Lies source lo hi → (Region.pattern p).Lies source lo hi
  | .elements es items rest => ∀ lo hi, AllLie source lo hi (es.flatMap (·.regions)) →
    AllLie source lo hi (items.flatMap (·.regions) ++ Pattern.optionalRegions rest)
  | .members ms properties rest => ∀ lo hi, AllLie source lo hi (ms.map .member) →
    AllLie source lo hi (properties.map .property ++ Pattern.optionalRegions rest)

theorem ReadsAs.stays {binding : Bool} {r : Rereading} (reads : ReadsAs binding r) : r.Stays source := by
  induction reads with
  | ident => exact ⟨rfl, fun lo hi lies => lies.again rfl .nil rfl⟩
  | destructuring => exact ⟨rfl, fun lo hi lies => lies.again rfl (fun y child => lies.sound.lies child) rfl⟩
  | array _ parts =>
    exact ⟨rfl, fun lo hi lies => lies.again rfl (parts _ _ fun y child => lies.sound.lies child) rfl⟩
  | object _ parts =>
    exact ⟨rfl, fun lo hi lies => lies.again rfl (parts _ _ fun y child => lies.sound.lies child) rfl⟩
  | member => exact ⟨rfl, fun lo hi lies => lies.wrap rfl rfl rfl⟩
  | index => exact ⟨rfl, fun lo hi lies => lies.wrap rfl rfl rfl⟩
  | noElement => exact fun lo hi all => .nil
  | hole _ others => exact others
  | defaultedItem _ _ first others =>
    intro lo hi all
    exact (PatternElement.lie_defaulted all.head (first.2 lo hi)).append (others lo hi all.tail)
  | item _ _ _ first others =>
    exact fun lo hi all => .cons (first.2 lo hi all.head) (others lo hi all.tail)
  | spread _ last => exact fun lo hi all => .single (last.2 lo hi all.head)
  | noMember => exact fun lo hi all => .nil
  | defaultedProperty _ _ first others =>
    intro lo hi all
    have inside := fun y child => all.head.sound.lies (y := y) child
    have parts := PatternElement.lie_defaulted (AllLie.right inside).head (first.2 _ _)
    exact .cons (all.head.again rfl ((AllLie.left inside).append parts) rfl) (others lo hi all.tail)
  | property _ _ _ first others =>
    intro lo hi all
    have inside := fun y child => all.head.sound.lies (y := y) child
    have target := first.2 _ _ (AllLie.right inside).head
    exact .cons (all.head.again rfl ((AllLie.left inside).append (.single target)) rfl) (others lo hi all.tail)
  | @shorthand span nameSpan name _ _ _ _ others =>
    intro lo hi all
    have inside := fun y child => all.head.sound.lies (y := y) child
    have bound : (Region.pattern (.ident nameSpan name)).Lies source span.start span.stop :=
      (AllLie.head inside).again rfl .nil rfl
    exact .cons (all.head.again rfl (.single bound) rfl) (others lo hi all.tail)
  | restMember _ last => exact fun lo hi all => .single (last.2 lo hi all.head.inside.head)

/-- What an expression is read again as has its span and lies where it did. -/
theorem Expr.toPattern_lies {binding : Bool} (e : Expr) :
    ∀ p, e.toPattern binding = .ok p → p.span = e.span ∧
      ∀ lo hi, (Region.expr e).Lies source lo hi → (Region.pattern p).Lies source lo hi :=
  fun _ read => (Expr.toPattern_eq_ok_iff.mp read).stays

/-! ### Targets -/

theorem Expr.toDestructuring_lies {e target : Expr} (read : e.toDestructuring = .ok target)
    (lies : (Region.expr e).Lies source lo hi) : (Region.expr target).Lies source lo hi := by
  obtain ⟨p, pattern, same⟩ := bind_eq_ok_iff.mp read
  have covers := (Expr.toPattern_lies e p pattern).2 lo hi lies
  split at same
  · cases same
    exact covers.again rfl (fun y child => covers.sound.lies child) rfl
  · cases same

/-- What is read again as a target lies where it did. -/
theorem Expr.toTarget_lies {takesApart : Bool} {e target : Expr} (read : e.toTarget takesApart = .ok target)
    (lies : (Region.expr e).Lies source lo hi) : (Region.expr target).Lies source lo hi := by
  unfold Expr.toTarget at read
  split at read
  · split at read
    · exact Expr.toDestructuring_lies read lies
    · cases read
  · split at read
    · exact Expr.toDestructuring_lies read lies
    · cases read
  · cases read
    exact lies
  · cases read
    exact lies
  · cases read
    exact lies
  · cases read

/-! ### Parameters -/

/-- A parameter covers its pattern and its default. -/
theorem Param.ofParts_lies {p : Pattern} {default : Option Expr} (isRest : Bool)
    (pattern : (Region.pattern p).Lies source lo hi)
    (value : AllLie source lo hi (Expr.optionalRegions default)) :
    (Region.param (Param.ofParts p isRest default)).Lies source lo hi := by
  cases default with
  | none => exact pattern.wrap rfl rfl rfl
  | some e =>
    have after := value.head
    exact pattern.join after rfl (.cons (pattern.left _) (.single (after.right _))) rfl

/-- A parameter that takes the remaining arguments covers its pattern. -/
theorem Param.rest_lies {p : Pattern} (pattern : (Region.pattern p).Lies source lo hi) :
    (Region.param (Param.ofParts p true none)).Lies source lo hi :=
  Param.ofParts_lies true pattern .nil

/-- What is read again as a parameter lies where it did. -/
theorem Expr.toParam_lies {isRest : Bool} {e : Expr} {param : Param} (read : e.toParam isRest = .ok param)
    (lies : (Region.expr e).Lies source lo hi) : (Region.param param).Lies source lo hi := by
  unfold Expr.toParam at read
  split at read
  · obtain ⟨p, pattern, same⟩ := bind_eq_ok_iff.mp read
    cases same
    exact Param.ofParts_lies false ((Expr.toPattern_lies _ p pattern).2 lo hi lies.inside.head)
      (.single lies.inside.tail.head)
  · obtain ⟨p, pattern, same⟩ := bind_eq_ok_iff.mp read
    cases same
    exact Param.ofParts_lies _ ((Expr.toPattern_lies _ p pattern).2 lo hi lies) .nil

theorem Parser.exprsToParams_lie {exprs : List Expr} {params : List Param}
    (read : exprsToParams exprs = .ok params) (all : ∀ e ∈ exprs, (Region.expr e).Lies source lo hi) :
    ∀ p ∈ params, (Region.param p).Lies source lo hi := by
  induction exprs generalizing params with
  | nil =>
    cases read
    exact List.forall_mem_nil _
  | cons e es ih =>
    obtain ⟨p, first, read⟩ := bind_eq_ok_iff.mp read
    obtain ⟨ps, rest, same⟩ := bind_eq_ok_iff.mp read
    cases same
    exact List.forall_mem_cons.mpr ⟨Expr.toParam_lies first (all e List.mem_cons_self),
      ih rest fun e later => all e (List.mem_cons_of_mem _ later)⟩

theorem Parser.argsToParams_lie {args : List Arg} {params : List Param}
    (read : argsToParams args = .ok params) (all : ∀ arg ∈ args, (Region.arg arg).Lies source lo hi) :
    ∀ p ∈ params, (Region.param p).Lies source lo hi := by
  induction args generalizing params with
  | nil =>
    cases read
    exact List.forall_mem_nil _
  | cons arg args ih =>
    obtain ⟨span, isSpread, value⟩ := arg
    obtain ⟨p, first, read⟩ := bind_eq_ok_iff.mp read
    obtain ⟨ps, rest, same⟩ := bind_eq_ok_iff.mp read
    cases same
    have lies := (all _ List.mem_cons_self).inside.head
    exact List.forall_mem_cons.mpr ⟨Expr.toParam_lies first lies,
      ih rest fun arg later => all arg (List.mem_cons_of_mem _ later)⟩

/-- Expressions joined by commas lie where they did. -/
theorem Parser.joinByComma_lies {first : Expr} {rest : List Expr}
    (lies : (Region.expr first).Lies source lo hi) (all : ∀ e ∈ rest, (Region.expr e).Lies source lo hi) :
    (Region.expr (joinByComma first rest)).Lies source lo hi := by
  induction rest generalizing first with
  | nil => exact lies
  | cons e es ih =>
    have later := all e List.mem_cons_self
    refine ih (lies.join later rfl (.cons (lies.left _) (.single (later.right _))) rfl) ?_
    exact fun x member => all x (List.mem_cons_of_mem _ member)

end
end NameAudit
