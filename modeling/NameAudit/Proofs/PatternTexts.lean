import NameAudit.Proofs.Runs
import NameAudit.Proofs.TreeLaws

/-!
The text of a pattern that declares names, token by token (`Written`): names, what stands in brackets and
braces, and the defaults and keys inside, about which nothing is said but where they stand. What holds of
the pattern follows from its text, however it is read.
-/
namespace NameAudit

open Scan (token)

/-- What is said of the expressions, the keys and the patterns inside of a pattern, beside where they
stand. -/
structure PatternInside where
  value : Cursor → Expr → Cursor → Prop
  key : Cursor → Key → Cursor → Prop
  pattern : Cursor → Pattern → Cursor → Prop

/-- The name that a token stands for. -/
def Token.Names (t : Token) (name : String) : Prop :=
  t.kind = .identifier ∧ (Escape.identifier? t.text.toList).map String.ofList = some name

/-- A default after an equals sign, or a token that is no equals sign. -/
inductive DefaultWritten (V : PatternInside) (c : Cursor) : Option Expr → Cursor → Prop
  | none {d : Cursor} {t : Token} (read : token .operator c = .ok (t, d))
    (other : t.kind ≠ .punct .assign) : DefaultWritten V c none c
  | some {d e : Cursor} {t : Token} {value : Expr} (read : token .operator c = .ok (t, d))
    (kind : t.kind = .punct .assign) (inside : V.value d value e) : DefaultWritten V c (some value) e

/-- A piece of a pattern. -/
inductive PatternPiece where
  | whole (p : Pattern)
  /-- Elements with a comma after each. -/
  | elements (es : List PatternElement)
  /-- What stands between brackets. -/
  | items (es : List PatternElement) (rest : Option Pattern)
  | property (p : PatternProperty)
  /-- Properties with a comma after each. -/
  | properties (ps : List PatternProperty)
  /-- What stands between braces. -/
  | entries (ps : List PatternProperty) (rest : Option Pattern)

/-- A piece of a pattern is written between two positions. -/
inductive Written (V : PatternInside) : Cursor → PatternPiece → Cursor → Prop
  | ident {c d : Cursor} {t : Token} {name : String} (read : token .operator c = .ok (t, d))
    (names : t.Names name) : Written V c (.whole (.ident t.span name)) d
  | array {c d e f : Cursor} {t u : Token} {es : List PatternElement} {rest : Option Pattern}
    (opening : token .operator c = .ok (t, d)) (opens : t.kind = .punct .bracketOpen)
    (items : Written V d (.items es rest) e)
    (closing : token .operator e = .ok (u, f)) (closes : u.kind = .punct .bracketClose) :
    Written V c (.whole (.destructuring (.array ⟨t.span.start, max f.offset t.span.start⟩ es rest))) f
  | object {c d e f : Cursor} {t u : Token} {ps : List PatternProperty} {rest : Option Pattern}
    (opening : token .operator c = .ok (t, d)) (opens : t.kind = .punct .braceOpen)
    (entries : Written V d (.entries ps rest) e)
    (closing : token .operator e = .ok (u, f)) (closes : u.kind = .punct .braceClose) :
    Written V c (.whole (.destructuring (.object ⟨t.span.start, max f.offset t.span.start⟩ ps rest))) f
  | noElements {c : Cursor} : Written V c (.elements []) c
  | hole {c d e : Cursor} {t : Token} {es : List PatternElement} (before : Written V c (.elements es) d)
    (comma : token .operator d = .ok (t, e)) (separates : t.kind = .punct .comma) :
    Written V c (.elements (es ++ [.hole])) e
  | element {c d e f h : Cursor} {t : Token} {es : List PatternElement} {p : Pattern}
    {default : Option Expr} (before : Written V c (.elements es) d) (target : Written V d (.whole p) e)
    (value : DefaultWritten V e default f)
    (comma : token .operator f = .ok (t, h)) (separates : t.kind = .punct .comma) :
    Written V c (.elements (es ++ [.item p default])) h
  | items {c d : Cursor} {es : List PatternElement} (before : Written V c (.elements es) d) :
    Written V c (.items es none) d
  | lastItem {c d e f : Cursor} {es : List PatternElement} {p : Pattern} {default : Option Expr}
    (before : Written V c (.elements es) d) (target : Written V d (.whole p) e)
    (value : DefaultWritten V e default f) : Written V c (.items (es ++ [.item p default]) none) f
  | restItem {c d e f : Cursor} {t : Token} {es : List PatternElement} {p : Pattern}
    (before : Written V c (.elements es) d) (dots : token .operator d = .ok (t, e))
    (spreads : t.kind = .punct .ellipsis) (target : Written V e (.whole p) f) :
    Written V c (.items es (some p)) f
  | shorthand {c d e : Cursor} {t : Token} {name : String} {default : Option Expr}
    (read : token .operator c = .ok (t, d)) (names : t.Names name)
    (value : DefaultWritten V d default e) :
    Written V c (.property (.mk ⟨t.span.start, max e.offset t.span.start⟩ (.direct name)
      (.ident t.span name) default)) e
  | named {c d e f h : Cursor} {t u : Token} {name : String} {p : Pattern} {default : Option Expr}
    (read : token .operator c = .ok (t, d)) (names : t.Names name)
    (colon : token .operator d = .ok (u, e)) (splits : u.kind = .punct .colon)
    (target : Written V e (.whole p) f) (value : DefaultWritten V f default h) :
    Written V c (.property (.mk ⟨t.span.start, max h.offset t.span.start⟩ (.direct name) p default)) h
  | keyed {c c' d e f h : Cursor} {t u : Token} {k : Key} {p : Pattern} {default : Option Expr}
    (read : token .operator c = .ok (t, c')) (unnamed : t.kind ≠ .identifier) (key : V.key c k d)
    (colon : token .operator d = .ok (u, e)) (splits : u.kind = .punct .colon)
    (target : Written V e (.whole p) f) (value : DefaultWritten V f default h) :
    Written V c (.property (.mk ⟨t.span.start, max h.offset t.span.start⟩ k p default)) h
  | noProperties {c : Cursor} : Written V c (.properties []) c
  | separated {c d e f : Cursor} {t : Token} {ps : List PatternProperty} {p : PatternProperty}
    (before : Written V c (.properties ps) d) (property : Written V d (.property p) e)
    (comma : token .operator e = .ok (t, f)) (separates : t.kind = .punct .comma) :
    Written V c (.properties (ps ++ [p])) f
  | entries {c d : Cursor} {ps : List PatternProperty} (before : Written V c (.properties ps) d) :
    Written V c (.entries ps none) d
  | lastEntry {c d e : Cursor} {ps : List PatternProperty} {p : PatternProperty}
    (before : Written V c (.properties ps) d) (property : Written V d (.property p) e) :
    Written V c (.entries (ps ++ [p]) none) e
  | restEntry {c d e f : Cursor} {t : Token} {ps : List PatternProperty} {p : Pattern}
    (before : Written V c (.properties ps) d) (dots : token .operator d = .ok (t, e))
    (spreads : t.kind = .punct .ellipsis) (target : Written V e (.whole p) f) :
    Written V c (.entries ps (some p)) f

section
variable {V : PatternInside} {c d : Cursor} {p : Pattern} {default : Option Expr}

/-- The expressions and the keys inside of patterns take characters. -/
structure PatternInside.Shrinks (V : PatternInside) : Prop where
  value : ∀ {c e d}, V.value c e d → d.rest.length < c.rest.length
  key : ∀ {c k d}, V.key c k d → d.rest.length < c.rest.length

theorem DefaultWritten.length_le (shrinks : V.Shrinks) (written : DefaultWritten V c default d) :
    d.rest.length ≤ c.rest.length := by
  cases written with
  | none => exact Nat.le_refl _
  | some read kind inside =>
    have := Scan.token_length_lt read (by rw [kind]; rintro ⟨⟩)
    have := shrinks.value inside
    omega

/-- Whether a piece of a pattern takes a character at least. -/
def PatternPiece.IsSome : PatternPiece → Prop
  | .whole _ | .property _ => True
  | _ => False

/-- A piece of a pattern is written before what follows it. -/
theorem Written.length {piece : PatternPiece} (shrinks : V.Shrinks) (written : Written V c piece d) :
    d.rest.length ≤ c.rest.length ∧ (piece.IsSome → d.rest.length < c.rest.length) := by
  induction written with
  | ident read names =>
    have := Scan.identifier_length_lt read names.1
    exact ⟨by omega, fun _ => this⟩
  | array opening opens _ closing closes ih =>
    have := Scan.punct_length_lt opening opens
    have := Scan.punct_length_lt closing closes
    exact ⟨by omega, fun _ => by omega⟩
  | object opening opens _ closing closes ih =>
    have := Scan.punct_length_lt opening opens
    have := Scan.punct_length_lt closing closes
    exact ⟨by omega, fun _ => by omega⟩
  | noElements => exact ⟨Nat.le_refl _, False.elim⟩
  | hole _ comma separates ih =>
    have := Scan.punct_length_lt comma separates
    exact ⟨by omega, False.elim⟩
  | element _ _ value comma separates ih ihTarget =>
    have := value.length_le shrinks
    have := Scan.punct_length_lt comma separates
    exact ⟨by omega, False.elim⟩
  | items _ ih => exact ⟨ih.1, False.elim⟩
  | lastItem _ _ value ih ihTarget =>
    have := value.length_le shrinks
    exact ⟨by omega, False.elim⟩
  | restItem _ dots spreads _ ih ihTarget =>
    have := Scan.punct_length_lt dots spreads
    exact ⟨by omega, False.elim⟩
  | shorthand read names value =>
    have := Scan.identifier_length_lt read names.1
    have := value.length_le shrinks
    exact ⟨by omega, fun _ => by omega⟩
  | named read names colon splits _ value ih =>
    have := Scan.identifier_length_lt read names.1
    have := Scan.punct_length_lt colon splits
    have := value.length_le shrinks
    exact ⟨by omega, fun _ => by omega⟩
  | keyed _ _ key colon splits _ value ih =>
    have := shrinks.key key
    have := Scan.punct_length_lt colon splits
    have := value.length_le shrinks
    exact ⟨by omega, fun _ => by omega⟩
  | noProperties => exact ⟨Nat.le_refl _, False.elim⟩
  | separated _ _ comma separates ih ihProperty =>
    have := Scan.punct_length_lt comma separates
    exact ⟨by omega, False.elim⟩
  | entries _ ih => exact ⟨ih.1, False.elim⟩
  | lastEntry _ _ ih ihProperty => exact ⟨by omega, False.elim⟩
  | restEntry _ dots spreads _ ih ihTarget =>
    have := Scan.punct_length_lt dots spreads
    exact ⟨by omega, False.elim⟩

/-! ### Lists -/

/-- A parameter between two positions, and whether it takes the remaining arguments. -/
inductive ParamWritten (V : PatternInside) : Cursor → Param → Bool → Cursor → Prop
  | listed {c d e : Cursor} {p : Pattern} {default : Option Expr} (target : Written V c (.whole p) d)
    (value : DefaultWritten V d default e) :
    ParamWritten V c (Param.ofParts p false default) false e
  | rest {c d e : Cursor} {t : Token} {p : Pattern} (dots : token .operator c = .ok (t, d))
    (spreads : t.kind = .punct .ellipsis) (target : Written V d (.whole p) e) (inside : V.pattern d p e) :
    ParamWritten V c (Param.ofParts p true none) true e

theorem ParamWritten.length_lt {param : Param} {isLast : Bool} (shrinks : V.Shrinks)
    (written : ParamWritten V c param isLast d) : d.rest.length < c.rest.length := by
  cases written with
  | listed target value =>
    have := (target.length shrinks).2 trivial
    have := value.length_le shrinks
    omega
  | rest dots spreads target =>
    have := Scan.punct_length_lt dots spreads
    have := (target.length shrinks).1
    omega

/-- A parameter that others can follow does not take the remaining arguments. -/
theorem ParamWritten.isRest_eq {param : Param} {isLast : Bool} (written : ParamWritten V c param isLast d) :
    param.isRest = isLast := by
  cases written with
  | listed => exact Param.isRest_ofParts _ _ _
  | rest => exact Param.isRest_ofParts _ _ _

end

section
variable {α : Type} {close : Punctuator} {I : Cursor → α → Bool → Cursor → Prop} {c d : Cursor}

/-- Items before a closing token, with a comma after each. -/
inductive ItemsBefore (close : Punctuator) (I : Cursor → α → Bool → Cursor → Prop) (c : Cursor) :
    List α → Cursor → Prop
  | none : ItemsBefore close I c [] c
  | next {d e e' f : Cursor} {t u : Token} {xs : List α} {x : α} (before : ItemsBefore close I c xs d)
    (ahead : token .operator d = .ok (t, e')) (more : t.kind ≠ .punct close) (item : I d x false e)
    (comma : token .operator e = .ok (u, f)) (separates : u.kind = .punct .comma) :
    ItemsBefore close I c (xs ++ [x]) f

/-- Items up to a closing token. -/
inductive ItemsWritten (close : Punctuator) (I : Cursor → α → Bool → Cursor → Prop) (c : Cursor) :
    Parser.Items α → Cursor → Prop
  | closed {d e : Cursor} {t : Token} {xs : List α} (before : ItemsBefore close I c xs d)
    (closing : token .operator d = .ok (t, e)) (closes : t.kind = .punct close) :
    ItemsWritten close I c ⟨xs, !xs.isEmpty⟩ e
  | last {d e e' f : Cursor} {t u : Token} {xs : List α} {x : α} {isLast : Bool}
    (before : ItemsBefore close I c xs d) (ahead : token .operator d = .ok (t, e'))
    (more : t.kind ≠ .punct close) (item : I d x isLast e) (closing : token .operator e = .ok (u, f))
    (closes : u.kind = .punct close) : ItemsWritten close I c ⟨xs ++ [x], false⟩ f

theorem ItemsBefore.length_le {xs : List α}
    (shrinks : ∀ c x isLast d, I c x isLast d → d.rest.length < c.rest.length)
    (before : ItemsBefore close I c xs d) : d.rest.length ≤ c.rest.length := by
  induction before with
  | none => exact Nat.le_refl _
  | next _ _ _ item comma separates ih =>
    have := shrinks _ _ _ _ item
    have := Scan.punct_length_lt comma separates
    omega

theorem ItemsWritten.length_lt {read : Parser.Items α}
    (shrinks : ∀ c x isLast d, I c x isLast d → d.rest.length < c.rest.length)
    (written : ItemsWritten close I c read d) : d.rest.length < c.rest.length := by
  cases written with
  | closed before closing closes =>
    have := before.length_le shrinks
    have := Scan.punct_length_lt closing closes
    omega
  | last before _ _ item closing closes =>
    have := before.length_le shrinks
    have := shrinks _ _ _ _ item
    have := Scan.punct_length_lt closing closes
    omega

theorem ItemsBefore.each {xs : List α} (before : ItemsBefore close I c xs d) :
    ∀ x ∈ xs, ∃ d e, I d x false e := by
  induction before with
  | none => exact fun _ member => nomatch member
  | next _ _ _ item _ _ ih =>
    intro y member
    rcases List.mem_append.mp member with earlier | here
    · exact ih y earlier
    · obtain rfl := List.mem_singleton.mp here
      exact ⟨_, _, item⟩

/-- Each item but the last one is one that others can follow. -/
theorem ItemsWritten.split {read : Parser.Items α} (written : ItemsWritten close I c read d) :
    ∃ init last, read.items = init ++ last ∧ (∀ x ∈ init, ∃ d e, I d x false e) ∧
      (last = [] ∨ ∃ x d e isLast, last = [x] ∧ I d x isLast e) := by
  cases written with
  | closed before => exact ⟨_, [], (List.append_nil _).symm, before.each, .inl rfl⟩
  | last before _ _ item =>
    exact ⟨_, [_], rfl, before.each, .inr ⟨_, _, _, _, rfl, item⟩⟩

end
end NameAudit
