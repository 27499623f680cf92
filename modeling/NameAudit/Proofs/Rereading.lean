import NameAudit.Tree.Target

/-!
What an expression is read again as. The reader of patterns goes through the elements of an array and the members of
an object one after the other; each way that it succeeds is a constructor of a relation (`ReadsAs`). It makes a
pattern of an expression exactly when the two are related (`Expr.toPattern_eq_ok_iff`), so that what holds of every
pattern that is read again is proved by induction on the relation.
-/
namespace NameAudit

/-- An expression beside the pattern that is made of it, or parts of both. -/
inductive Rereading where
  | whole (e : Expr) (p : Pattern)
  | elements (es : List Element) (items : List PatternElement) (rest : Option Pattern)
  | members (ms : List Member) (properties : List PatternProperty) (rest : Option Pattern)

/-- An assignment in an array or an object gives a default. -/
def Expr.GivesDefault (e : Expr) : Prop := ∃ span target value, e = .assign span .plain target value

/-- What is read again, and as what. -/
inductive ReadsAs (binding : Bool) : Rereading → Prop
  | ident {span : Span} {name : String} : ReadsAs binding (.whole (.ident span name) (.ident span name))
  | destructuring {d : Destructuring} : ReadsAs binding (.whole (.destructuring d) (.destructuring d))
  | array {span : Span} {es : List Element} {items : List PatternElement} {rest : Option Pattern}
    (parts : ReadsAs binding (.elements es items rest)) :
    ReadsAs binding (.whole (.array span es) (.destructuring (.array span items rest)))
  | object {span : Span} {ms : List Member} {properties : List PatternProperty} {rest : Option Pattern}
    (parts : ReadsAs binding (.members ms properties rest)) :
    ReadsAs binding (.whole (.object span ms) (.destructuring (.object span properties rest)))
  | member {span : Span} {isOptional : Bool} {owner : Expr} {name : String} (free : binding = false) :
    ReadsAs binding (.whole (.member span isOptional owner name) (.target (.member span isOptional owner name)))
  | index {span : Span} {isOptional : Bool} {owner key : Expr} (free : binding = false) :
    ReadsAs binding (.whole (.index span isOptional owner key) (.target (.index span isOptional owner key)))
  | noElement : ReadsAs binding (.elements [] [] none)
  | hole {es : List Element} {items : List PatternElement} {rest : Option Pattern}
    (others : ReadsAs binding (.elements es items rest)) :
    ReadsAs binding (.elements (.hole :: es) (.hole :: items) rest)
  | defaultedItem {span : Span} {target value : Expr} {p : Pattern} {es : List Element}
    {items : List PatternElement} {rest : Option Pattern} (first : ReadsAs binding (.whole target p))
    (others : ReadsAs binding (.elements es items rest)) :
    ReadsAs binding (.elements (.item (.assign span .plain target value) :: es) (.item p (some value) :: items) rest)
  | item {e : Expr} {p : Pattern} {es : List Element} {items : List PatternElement} {rest : Option Pattern}
    (plain : ¬ e.GivesDefault) (first : ReadsAs binding (.whole e p))
    (others : ReadsAs binding (.elements es items rest)) :
    ReadsAs binding (.elements (.item e :: es) (.item p none :: items) rest)
  | spread {e : Expr} {p : Pattern} (last : ReadsAs binding (.whole e p)) :
    ReadsAs binding (.elements [.spread e] [] (some p))
  | noMember : ReadsAs binding (.members [] [] none)
  | defaultedProperty {span inSpan : Span} {key : Key} {target value : Expr} {p : Pattern} {ms : List Member}
    {properties : List PatternProperty} {rest : Option Pattern} (first : ReadsAs binding (.whole target p))
    (others : ReadsAs binding (.members ms properties rest)) :
    ReadsAs binding (.members (.property span key (.value (some (.assign inSpan .plain target value))) :: ms)
      (.mk span key p (some value) :: properties) rest)
  | property {span : Span} {key : Key} {e : Expr} {p : Pattern} {ms : List Member}
    {properties : List PatternProperty} {rest : Option Pattern} (plain : ¬ e.GivesDefault)
    (first : ReadsAs binding (.whole e p)) (others : ReadsAs binding (.members ms properties rest)) :
    ReadsAs binding (.members (.property span key (.value (some e)) :: ms) (.mk span key p none :: properties) rest)
  | shorthand {span nameSpan : Span} {name : String} {ms : List Member} {properties : List PatternProperty}
    {rest : Option Pattern} (others : ReadsAs binding (.members ms properties rest)) :
    ReadsAs binding (.members (.shorthand span name nameSpan :: ms) (.ofShorthand span name nameSpan :: properties) rest)
  | restMember {span : Span} {e : Expr} {p : Pattern} (last : ReadsAs binding (.whole e p)) :
    ReadsAs binding (.members [.spread span e] [] (some p))

theorem bind_eq_ok_iff {ε α β : Type} {x : Except ε α} {f : α → Except ε β} {b : β} :
    x >>= f = .ok b ↔ ∃ a, x = .ok a ∧ f a = .ok b := by
  cases x with
  | error e => simp [bind, Except.bind]
  | ok a => simp [bind, Except.bind]

section
variable {ε α β γ : Type} {x : Except ε α} {y : Except ε (List β × γ)} {bs : List β} {c : γ}

/-- A list that is made of a first element and of what is read after it. -/
theorem bind_cons_eq_ok_iff {b : β} : (y >>= fun r => .ok (b :: r.1, r.2)) = .ok (bs, c) ↔
    ∃ others, y = .ok (others, c) ∧ bs = b :: others := by
  rw [bind_eq_ok_iff]
  constructor
  · rintro ⟨⟨others, d⟩, rest, same⟩
    cases same
    exact ⟨others, rest, rfl⟩
  · rintro ⟨others, rest, rfl⟩
    exact ⟨(others, c), rest, rfl⟩

theorem bind_bind_cons_eq_ok_iff {f : α → β} :
    (x >>= fun a => y >>= fun r => .ok (f a :: r.1, r.2)) = .ok (bs, c) ↔
      ∃ a others, x = .ok a ∧ y = .ok (others, c) ∧ bs = f a :: others := by
  simp only [bind_eq_ok_iff (x := x), bind_cons_eq_ok_iff, exists_and_left]

end

section
variable {binding : Bool} {e : Expr}

/-! ### What succeeds -/

theorem Element.toPatterns_item_iff (plain : ¬ e.GivesDefault) {es : List Element} {items : List PatternElement}
    {rest : Option Pattern} : Element.toPatterns binding (.item e :: es) = .ok (items, rest) ↔
      ∃ p others, e.toPattern binding = .ok p ∧ Element.toPatterns binding es = .ok (others, rest) ∧
        items = .item p none :: others := by
  rw [Element.toPatterns]
  · exact bind_bind_cons_eq_ok_iff
  · exact fun span target value same => plain ⟨span, target, value, same⟩

theorem Member.toPatterns_property_iff (plain : ¬ e.GivesDefault) {span : Span} {key : Key} {ms : List Member}
    {properties : List PatternProperty} {rest : Option Pattern} :
    Member.toPatterns binding (.property span key (.value (some e)) :: ms) = .ok (properties, rest) ↔
      ∃ p others, e.toPattern binding = .ok p ∧ Member.toPatterns binding ms = .ok (others, rest) ∧
        properties = .mk span key p none :: others := by
  rw [Member.toPatterns]
  · exact bind_bind_cons_eq_ok_iff
  · exact fun inSpan target value same => plain ⟨inSpan, target, value, same⟩

mutual

theorem Expr.readsAs_of_toPattern {e : Expr} {p : Pattern} (read : e.toPattern binding = .ok p) :
    ReadsAs binding (.whole e p) := by
  cases e with
  | ident span name =>
    cases read
    exact .ident
  | destructuring d =>
    cases read
    exact .destructuring
  | array span es =>
    obtain ⟨⟨items, rest⟩, inner, same⟩ := bind_eq_ok_iff.mp read
    cases same
    exact .array (Element.readsAs_of_toPatterns inner)
  | object span ms =>
    obtain ⟨⟨properties, rest⟩, inner, same⟩ := bind_eq_ok_iff.mp read
    cases same
    exact .object (Member.readsAs_of_toPatterns inner)
  | member span isOptional owner name =>
    cases binding with
    | true => cases read
    | false =>
      cases read
      exact .member rfl
  | index span isOptional owner key =>
    cases binding with
    | true => cases read
    | false =>
      cases read
      exact .index rfl
  | _ => cases read
termination_by sizeOf e

theorem Element.readsAs_of_toPatterns {es : List Element} {items : List PatternElement} {rest : Option Pattern}
    (read : Element.toPatterns binding es = .ok (items, rest)) : ReadsAs binding (.elements es items rest) := by
  cases es with
  | nil =>
    cases read
    exact .noElement
  | cons first es =>
    cases first with
    | hole =>
      obtain ⟨items, inner, rfl⟩ := bind_cons_eq_ok_iff.mp read
      exact .hole (Element.readsAs_of_toPatterns inner)
    | item e =>
      by_cases default : e.GivesDefault
      · obtain ⟨span, target, value, rfl⟩ := default
        obtain ⟨p, items, first, inner, rfl⟩ := bind_bind_cons_eq_ok_iff.mp read
        exact .defaultedItem (Expr.readsAs_of_toPattern first) (Element.readsAs_of_toPatterns inner)
      · obtain ⟨p, items, first, inner, rfl⟩ := (Element.toPatterns_item_iff default).mp read
        exact .item default (Expr.readsAs_of_toPattern first) (Element.readsAs_of_toPatterns inner)
    | spread e =>
      cases es with
      | nil =>
        obtain ⟨p, last, same⟩ := bind_eq_ok_iff.mp read
        cases same
        exact .spread (Expr.readsAs_of_toPattern last)
      | cons => cases read
termination_by sizeOf es

theorem Member.readsAs_of_toPatterns {ms : List Member} {properties : List PatternProperty} {rest : Option Pattern}
    (read : Member.toPatterns binding ms = .ok (properties, rest)) :
    ReadsAs binding (.members ms properties rest) := by
  cases ms with
  | nil =>
    cases read
    exact .noMember
  | cons first ms =>
    cases first with
    | property span key value =>
      cases value with
      | value e =>
        cases e with
        | none => cases read
        | some e =>
          by_cases default : e.GivesDefault
          · obtain ⟨inSpan, target, value, rfl⟩ := default
            obtain ⟨p, properties, first, inner, rfl⟩ := bind_bind_cons_eq_ok_iff.mp read
            exact .defaultedProperty (Expr.readsAs_of_toPattern first) (Member.readsAs_of_toPatterns inner)
          · obtain ⟨p, properties, first, inner, rfl⟩ := (Member.toPatterns_property_iff default).mp read
            exact .property default (Expr.readsAs_of_toPattern first) (Member.readsAs_of_toPatterns inner)
      | _ => cases read
    | shorthand span name nameSpan =>
      obtain ⟨properties, inner, rfl⟩ := bind_cons_eq_ok_iff.mp read
      exact .shorthand (Member.readsAs_of_toPatterns inner)
    | spread span e =>
      cases ms with
      | nil =>
        obtain ⟨p, last, same⟩ := bind_eq_ok_iff.mp read
        cases same
        exact .restMember (Expr.readsAs_of_toPattern last)
      | cons => cases read
termination_by sizeOf ms

end

/-- The reader computes what the relation says. -/
def Rereading.IsRead (binding : Bool) : Rereading → Prop
  | .whole e p => e.toPattern binding = .ok p
  | .elements es items rest => Element.toPatterns binding es = .ok (items, rest)
  | .members ms properties rest => Member.toPatterns binding ms = .ok (properties, rest)

theorem ReadsAs.isRead {r : Rereading} (reads : ReadsAs binding r) : r.IsRead binding := by
  induction reads with
  | ident => rfl
  | destructuring => rfl
  | array _ parts => exact bind_eq_ok_iff.mpr ⟨_, parts, rfl⟩
  | object _ parts => exact bind_eq_ok_iff.mpr ⟨_, parts, rfl⟩
  | member free => rw [free]; rfl
  | index free => rw [free]; rfl
  | noElement => rfl
  | hole _ others => exact bind_cons_eq_ok_iff.mpr ⟨_, others, rfl⟩
  | defaultedItem _ _ first others => exact bind_bind_cons_eq_ok_iff.mpr ⟨_, _, first, others, rfl⟩
  | item plain _ _ first others => exact (Element.toPatterns_item_iff plain).mpr ⟨_, _, first, others, rfl⟩
  | spread _ last => exact bind_eq_ok_iff.mpr ⟨_, last, rfl⟩
  | noMember => rfl
  | defaultedProperty _ _ first others => exact bind_bind_cons_eq_ok_iff.mpr ⟨_, _, first, others, rfl⟩
  | property plain _ _ first others =>
    exact (Member.toPatterns_property_iff plain).mpr ⟨_, _, first, others, rfl⟩
  | shorthand _ others => exact bind_cons_eq_ok_iff.mpr ⟨_, others, rfl⟩
  | restMember _ last => exact bind_eq_ok_iff.mpr ⟨_, last, rfl⟩

theorem Expr.toPattern_eq_ok_iff {p : Pattern} : e.toPattern binding = .ok p ↔ ReadsAs binding (.whole e p) :=
  ⟨Expr.readsAs_of_toPattern, ReadsAs.isRead⟩

end
end NameAudit
