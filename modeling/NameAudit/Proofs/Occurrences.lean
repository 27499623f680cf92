import NameAudit.Proofs.Sites
import Mathlib.Data.List.TakeWhile

/-!
Occurrences as the walk sees them. A chain is the path of an occurrence with the part before its first
`?.`, an expression is a chain just when it is an occurrence, and a path through a prototype is cut
there.
-/
namespace NameAudit

namespace Occurrence

/-- The chain of an occurrence. -/
def chain (o : Occurrence) : Chain :=
  ⟨o.path, if o.isConditional then some o.certainPath else none⟩

/-- What comes after a `?.` is not certain. -/
theorem takeWhile_append_of_conditional (links more : List Link)
    (conditional : links.any (·.isOptional) = true) :
    (links ++ more).takeWhile (fun l => !l.isOptional) =
      links.takeWhile fun l => !l.isOptional := by
  induction links with
  | nil => cases conditional
  | cons l links ih =>
    cases optional : l.isOptional with
    | true => simp [optional]
    | false =>
      have later : links.any (·.isOptional) = true := by simpa [optional] using conditional
      simp [optional, ih later]

theorem chain_push (o : Occurrence) (isOptional : Bool) (member : String) :
    chain { o with links := o.links ++ [⟨isOptional, member⟩] } =
      o.chain.push isOptional member := by
  by_cases conditional : o.links.any (·.isOptional) = true
  · simp [chain, path, isConditional, certainPath, Chain.push, Path.push, conditional,
      takeWhile_append_of_conditional]
  · have certain : ∀ l ∈ o.links, l.isOptional = false := by simpa using conditional
    have whole : o.links.takeWhile (fun l => !l.isOptional) = o.links :=
      List.takeWhile_eq_self_iff.mpr fun l member => by rw [certain l member]; rfl
    have never : o.links.any (·.isOptional) = false := by simpa using conditional
    cases isOptional <;>
      simp [chain, path, isConditional, certainPath, Chain.push, Path.push, List.takeWhile_append,
        whole, never]

theorem chain_certain_eq_none {o : Occurrence} (plain : o.isConditional = false) :
    o.chain.certain = none := by
  rw [chain, plain]
  rfl

end Occurrence

theorem Expr.chain?_eq (e : Expr) : e.chain? = e.occurrence?.map Occurrence.chain := by
  cases e with
  | ident span name => rfl
  | member span isOptional owner name =>
    have before := Expr.chain?_eq owner
    rw [Expr.chain?, Expr.occurrence?]
    split
    · rfl
    · rw [before, Option.map_map, Option.map_map]
      congr 1
      funext o
      exact (o.chain_push isOptional name).symm
  | _ => rfl

/-- An expression without `?.` that is a path is an occurrence of that path. -/
theorem Expr.path?_eq_some {e : Expr} {path : Path} (found : e.path? = some path) :
    ∃ o, e.occurrence? = some o ∧ o.isConditional = false ∧ o.path = path := by
  rw [Expr.path?, Expr.chain?_eq] at found
  cases occurrence : e.occurrence? with
  | none => simp [occurrence] at found
  | some o =>
    refine ⟨o, rfl, ?_⟩
    cases conditional : o.isConditional with
    | true => simp [occurrence, Occurrence.chain, conditional] at found
    | false => exact ⟨rfl, by simpa [occurrence, Occurrence.chain, conditional] using found⟩

/-- An expression that is an occurrence has that one site. -/
theorem Expr.sites_of_occurrence (a : Surroundings) {e : Expr} {o : Occurrence}
    (found : e.occurrence? = some o) : e.sites a = [.occurrence a e.span o] := by
  cases e with
  | ident span name =>
    cases found
    rfl
  | member span isOptional owner name =>
    simp only [Expr.sites, found]
    rfl
  | _ => cases found

/-- The callee of `a.b?.c()` is one occurrence. -/
example (a : Surroundings) (s : Span) :
    (Expr.call s false (.member s true (.member s false (.ident s "a") "b") "c") []).sites a =
      [.occurrence a s ⟨"a", [⟨false, "b"⟩, ⟨true, "c"⟩]⟩] := rfl

namespace Path

theorem beforePrototype?_eq_none {p : Path} (none : p.beforePrototype? = none) :
    "prototype" ∉ p.members := by
  intro member
  have found : p.members.dropWhile (· != "prototype") ≠ [] := by
    rw [Ne, List.dropWhile_eq_nil_iff]
    intro all
    simpa using all _ member
  unfold beforePrototype? at none
  split at none
  next empty => exact found empty
  next => cases none

theorem beforePrototype?_eq_some {p owner : Path} {member : Option String}
    (found : p.beforePrototype? = some (owner, member)) :
    "prototype" ∈ p.members ∧ owner = ⟨p.root, p.members.takeWhile (· != "prototype")⟩ := by
  unfold beforePrototype? at found
  split at found
  next => cases found
  next first after rest =>
    refine ⟨?_, ?_⟩
    · have stops : ¬ (first != "prototype") = true := by
        have := List.head?_dropWhile_not (· != "prototype") p.members
        simpa [rest] using this
      have same : first = "prototype" := by simpa using stops
      have member : first ∈ p.members.dropWhile (· != "prototype") := by
        rw [rest]
        exact List.mem_cons_self
      exact same ▸ (List.dropWhile_sublist _).subset member
    · cases found
      rfl

end Path

end NameAudit
