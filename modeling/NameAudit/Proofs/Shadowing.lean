import NameAudit.Proofs.Bindings
import NameAudit.Proofs.Visits

/-!
Names that are bound by a scope are never taken for global ones inside it. What is added while the
node that opens the scope is walked has a root that is global there (`Walked.rooted`), and a name that
the node binds is not.
-/
namespace NameAudit

/-- A reference is added while a node of a program is walked. -/
def Program.AddsInside (p : Program) (x : Located) (i : RefId) : Prop :=
  ∃ before after, p.Visits x before after ∧ ¬ before.space.HasRef i ∧ after.space.HasRef i

/-- No reference that is added while a node is walked is to a root or to a name below it. -/
def Program.Avoids (p : Program) (x : Located) (root : String) : Prop :=
  let ns := Namespace.ofProgram p
  ∀ i, p.AddsInside x i → ns.HasRef i ∧ (ns.name (ns.rootOf (ns.ref i).name)).baseName ≠ root

section
variable {name : String}

/-- A node that binds names is no expression, so it has no use. -/
theorem Node.Binds.walk_eq {n : Node} (binds : n.Binds name) (use other : Use) :
    n.walk use = n.walk other := by
  cases n with
  | expr => exact binds.elim
  | _ => rfl

/-- Inside a node, a name that the node binds is not admitted. -/
theorem Node.Binds.admits {n : Node} (binds : n.Binds name) (a : Surroundings) :
    (n.inside a).Admits (· ≠ name) := by
  rintro root isGlobal rfl
  cases (binds.isLocal a).symm.trans isGlobal

theorem Node.Binds.walked {x : Located} (binds : x.2.Binds name) {before after : Recording}
    (walked : Walked anyRoot x before after) : Walked (· ≠ name) x before after := by
  obtain ⟨use, _, here, rfl⟩ := walked
  refine ⟨.read .get, before.space.knowsIn_none, here, ?_⟩
  rw [binds.walk_eq use (.read .get)]

end

/-- A node of a program that opens a scope is walked, and what is added meanwhile avoids all names that
    the scope binds. -/
theorem Namespace.ofProgram_shadows (p : Program) {x : Located} (contained : p.Contains x)
    {name : String} (binds : x.2.Binds name) :
    (∃ before after, p.Visits x before after) ∧ p.Avoids x name := by
  refine ⟨contained.visits binds.isName, ?_⟩
  rintro i ⟨before, after, visits, new, added⟩
  -- Any root was admitted where the node is visited; read again, the walk admits all but this one.
  have walked := binds.walked visits.walked
  have admits := binds.admits x.1
  obtain ⟨there, _, refs, more, _⟩ := walked.passes admits
  have member : after.space.ref i ∈ refs := by
    have found := getElem?_refs added
    rw [more, List.getElem?_append_right (Nat.le_of_not_lt new)] at found
    exact List.mem_of_getElem? found
  obtain ⟨has, same⟩ := visits.leaves.ref added
  obtain ⟨root, members, spelled, other⟩ := walked.rooted admits more _ member
  refine ⟨has, ?_⟩
  rw [same, (spelled.extends there.forest visits.leaves.extends).baseName_rootOf]
  exact other

/-- In `function f({ k: [ns] }) { ns.a = other; }`, what the pattern of the parameter binds is no global name. -/
theorem ofProgram_shadows_parameter :
    ∃ (p : Program) (x : Located), p.Contains x ∧ x.2.Binds "ns" ∧
      ((∃ before after, p.Visits x before after) ∧ p.Avoids x "ns") ∧
      (Namespace.ofProgram p).refs.toList.map (fun r => ((Namespace.ofProgram p).name r.name).fullName) =
        ["f", "other"] := by
  let inner : Pattern := .destructuring (.array ⟨16, 20⟩ [.item (.ident ⟨17, 19⟩ "ns") none] none)
  let pattern : Pattern := .destructuring (.object ⟨11, 22⟩ [.mk ⟨13, 20⟩ (.direct "k") inner none] none)
  let assignment : Expr :=
    .assign ⟨26, 38⟩ .plain (.member ⟨26, 30⟩ false (.ident ⟨26, 28⟩ "ns") "a")
      (.ident ⟨33, 38⟩ "other")
  let f : Func :=
    .mk ⟨0, 41⟩ false false false [.mk ⟨11, 22⟩ false pattern none]
      (.block [.mk ⟨26, 39⟩ none (.expr assignment)])
  let declaration : Stmt := .mk ⟨0, 41⟩ none (.funcDecl "f" ⟨9, 10⟩ f)
  have contained := (Program.contains_ofStatements [declaration]).part List.mem_cons_self
    |>.part List.mem_cons_self
  have bound : pattern.Binds "ns" := .property List.mem_cons_self (.element List.mem_cons_self .ident)
  have binds : (Node.func none f).Binds "ns" := .inl ⟨_, List.mem_cons_self, bound⟩
  exact ⟨_, _, contained, binds, Namespace.ofProgram_shadows _ contained binds, by decide +kernel⟩

end NameAudit
