import NameAudit.Proofs.Sites
import Mathlib.Data.List.Forall2

/-!
What one step of the walk does. `Logs` says that a step, run at some surroundings, lets the namespace
grow, returns to the surroundings, and adds references that answer a description. `Walks` describes
the references by the sites that they stand for. Both compose along `>>=`, so each lemma about a
larger step is assembled from those about its parts.
-/
namespace NameAudit

open Namespace (Grows Extends Spelled Notes)

/-- The surroundings of the point that a recording has reached. -/
def Recording.around (r : Recording) : Surroundings := ⟨r.slot, r.file, r.scopes⟩

/-- A recording has reached some surroundings, and can go on from there. -/
structure Recording.StandsIn (r : Recording) (a : Surroundings) : Prop where
  around : r.around = a
  forest : r.space.Forest
  order_eq : r.order = r.space.refs.size

/-- References are those of some sites, each site having its own, one site after the other. -/
def Accounts (ns : Namespace) (sites : List Site) (refs : List Ref) : Prop :=
  ∃ parts, List.Forall₂ (Site.Records ns) sites parts ∧ refs = parts.flatten

section
variable {old new : Namespace}

theorem refersTo_extends (forest : old.Forest) (further : Extends old new) {r : Ref} {p : Path}
    (refers : old.RefersTo r p) : new.RefersTo r p := by
  unfold Namespace.RefersTo at *
  split at refers
  next through =>
    rw [if_pos through]
    exact ⟨refers.1, refers.2.extends forest further⟩
  next direct =>
    rw [if_neg direct]
    exact refers.extends forest further

/-- What a site has recorded stays recorded while names are added. -/
theorem Site.Records.extends (forest : old.Forest) (further : Extends old new) {site : Site}
    {refs : List Ref} (records : site.Records old refs) : site.Records new refs := by
  have refers : ∀ {r p}, old.RefersTo r p → new.RefersTo r p := refersTo_extends forest further
  cases site with
  | occurrence a span o =>
    simp only [Site.Records] at *
    split at records
    next isGlobal =>
      rw [if_pos isGlobal]
      split at records
      next conditional =>
        obtain ⟨first, second, both, at₁, at₂, certain, whole, exempt⟩ := records
        rw [if_pos conditional]
        exact ⟨first, second, both, at₁, at₂, refers certain, refers whole, exempt⟩
      next plain =>
        obtain ⟨r, one, stands, whole⟩ := records
        rw [if_neg plain]
        exact ⟨r, one, stands, refers whole⟩
    next isLocal =>
      rw [if_neg isLocal]
      exact records
  | definition a span base =>
    rcases records with none | ⟨r, one, stands, isSet, has, same⟩
    · exact .inl none
    · exact .inr ⟨r, one, stands, isSet, further.has _ has, (further.baseName _ has).trans same⟩

theorem Accounts.nil (ns : Namespace) : Accounts ns [] [] := ⟨[], .nil, rfl⟩

theorem Accounts.eq_nil {ns : Namespace} {refs : List Ref} (accounts : Accounts ns [] refs) :
    refs = [] := by
  obtain ⟨parts, none, rfl⟩ := accounts
  cases none
  rfl

theorem Accounts.single {ns : Namespace} {site : Site} {refs : List Ref}
    (records : site.Records ns refs) : Accounts ns [site] refs :=
  ⟨[refs], .cons records .nil, (List.append_nil refs).symm⟩

theorem Accounts.append {ns : Namespace} {sites others : List Site} {refs more : List Ref}
    (first : Accounts ns sites refs) (second : Accounts ns others more) :
    Accounts ns (sites ++ others) (refs ++ more) := by
  obtain ⟨parts, recorded, rfl⟩ := first
  obtain ⟨later, after, rfl⟩ := second
  exact ⟨parts ++ later, List.rel_append recorded after, List.flatten_append.symm⟩

theorem Accounts.extends (forest : old.Forest) (further : Extends old new) {sites : List Site}
    {refs : List Ref} (accounts : Accounts old sites refs) : Accounts new sites refs := by
  obtain ⟨parts, recorded, rfl⟩ := accounts
  exact ⟨parts, recorded.imp fun _ _ records => records.extends forest further, rfl⟩

end

namespace Record

/-- The answer of a step and the recording behind it. -/
def out {α : Type} (m : Record α) (r : Recording) : α × Recording := m.run r

variable {α β : Type}

theorem out_bind (m : Record α) (f : α → Record β) (r : Recording) :
    out (m >>= f) r = out (f (out m r).1) (out m r).2 := rfl

/-- From each recording at the surroundings whose namespace has grown out of `ns`, the step returns
    to the surroundings, and `Q` holds of its answer, the namespace behind it and the references
    that it added. -/
def Logs (a : Surroundings) (ns : Namespace) (m : Record α)
    (Q : α → Namespace → List Ref → Prop) : Prop :=
  ∀ r : Recording, r.StandsIn a → Grows ns r.space →
    (out m r).2.StandsIn a ∧ Grows r.space (out m r).2.space ∧
      ∃ refs, (out m r).2.space.refs.toList = r.space.refs.toList ++ refs ∧
        Q (out m r).1 (out m r).2.space refs

variable {a : Surroundings} {ns : Namespace} {m : Record α} {f : α → Record β}
variable {Q : α → Namespace → List Ref → Prop} {R : β → Namespace → List Ref → Prop}

theorem Logs.mono (logs : Logs a ns m Q) {later : Namespace} (grows : Grows ns later) :
    Logs a later m Q :=
  fun r here before => logs r here (grows.trans before)

theorem Logs.imp {R : α → Namespace → List Ref → Prop} (logs : Logs a ns m Q)
    (weaker : ∀ x later refs, Grows ns later → later.Forest → Q x later refs → R x later refs) :
    Logs a ns m R := by
  intro r here before
  obtain ⟨there, grows, refs, added, holds⟩ := logs r here before
  exact ⟨there, grows, refs, added, weaker _ _ _ (before.trans grows) there.forest holds⟩

theorem Logs.bind (first : Logs a ns m Q)
    (next : ∀ x later refs, Grows ns later → later.Forest → Q x later refs →
      Logs a later (f x) fun y last more => R y last (refs ++ more)) :
    Logs a ns (m >>= f) R := by
  intro r here before
  obtain ⟨there, grows, refs, added, holds⟩ := first r here before
  obtain ⟨last, further, more, addedMore, holdsMore⟩ :=
    next _ _ refs (before.trans grows) there.forest holds _ there (Grows.refl _)
  rw [out_bind]
  refine ⟨last, grows.trans further, refs ++ more, ?_, holdsMore⟩
  rw [addedMore, added, List.append_assoc]

/-! ### Steps by their sites -/

/-- The step adds the references of some sites, and `P` holds of its answer. -/
abbrev Yields (a : Surroundings) (ns : Namespace) (m : Record α) (sites : List Site)
    (P : α → Namespace → Prop) : Prop :=
  Logs a ns m fun x later refs => Accounts later sites refs ∧ P x later

/-- The step adds the references of some sites. -/
abbrev Walks (a : Surroundings) (ns : Namespace) (m : Record α) (sites : List Site) : Prop :=
  Yields a ns m sites fun _ _ => True

variable {P : α → Namespace → Prop} {sites others : List Site}

theorem Yields.walks (yields : Yields a ns m sites P) : Walks a ns m sites :=
  yields.imp fun _ _ _ _ _ holds => ⟨holds.1, trivial⟩

theorem Walks.mono (walks : Walks a ns m sites) {later : Namespace} (grows : Grows ns later) :
    Walks a later m sites :=
  Logs.mono walks grows

theorem Yields.bind {P' : β → Namespace → Prop} (first : Yields a ns m sites P)
    (next : ∀ x later, Grows ns later → P x later → Yields a later (f x) others P') :
    Yields a ns (m >>= f) (sites ++ others) P' := by
  refine Logs.bind first fun x later refs grows forest ⟨accounts, holds⟩ => ?_
  refine Logs.imp (next x later grows holds) fun y last more further _ ⟨accountsMore, holdsMore⟩ => ?_
  exact ⟨(accounts.extends forest further.extends).append accountsMore, holdsMore⟩

theorem Walks.seq {n : Record β} (first : Walks a ns m sites) (second : Walks a ns n others) :
    Walks a ns (m >>= fun _ => n) (sites ++ others) :=
  Yields.bind first fun _ _ grows _ => second.mono grows

/-- A step with an answer, followed by one without references. -/
theorem Yields.bind_silent (first : Yields a ns m sites P)
    (next : ∀ x later, Grows ns later → P x later → Walks a later (f x) []) :
    Walks a ns (m >>= f) sites :=
  List.append_nil sites ▸ Yields.bind first next

/-- A step without references, followed by any other. -/
theorem Yields.skip (first : Yields a ns m [] P)
    (next : ∀ x later, Grows ns later → later.Forest → P x later → Logs a later (f x) R) :
    Logs a ns (m >>= f) R := by
  refine Logs.bind first fun x later refs grows forest ⟨accounts, holds⟩ => ?_
  rw [accounts.eq_nil]
  exact next x later grows forest holds

/-- A step whose references do not depend on the namespace, followed by one that adds none. -/
theorem Logs.silently {S : List Ref → Prop} (first : Logs a ns m fun _ _ => S)
    (next : ∀ x later, Grows ns later → Walks a later (f x) []) :
    Logs a ns (m >>= f) fun _ _ => S := by
  refine first.bind fun x later refs grows _ holds => ?_
  refine Logs.imp (next x later grows) fun _ _ more _ _ ⟨accounts, _⟩ => ?_
  rw [accounts.eq_nil, List.append_nil]
  exact holds

/-- A step with another answer. -/
theorem Logs.returns {g : α → β} (first : Logs a ns m Q)
    (holds : ∀ x later refs, Grows ns later → later.Forest → Q x later refs → R (g x) later refs) :
    Logs a ns (m >>= fun x => pure (g x)) R :=
  first.imp fun x later refs grows forest known => holds x later refs grows forest known

theorem Walks.discard (walks : Walks a ns m sites) : Walks a ns (m >>= fun _ => pure ()) sites :=
  Logs.returns walks fun _ _ _ _ _ holds => holds

/-- A step that only answers adds nothing. -/
theorem pure_logs {x : α} (holds : ∀ later, Grows ns later → later.Forest → Q x later []) :
    Logs a ns (pure x) Q := by
  intro r here before
  exact ⟨here, Grows.refl _, [], (List.append_nil _).symm, holds _ before here.forest⟩

theorem pure_walks (x : α) : Walks a ns (pure x) [] :=
  pure_logs fun later _ _ => ⟨Accounts.nil later, trivial⟩

/-- A step that changes nothing. -/
def Keeps (m : Record α) : Prop := ∀ r, (out m r).2 = r

theorem Keeps.bind (first : Keeps m) (next : ∀ x, Keeps (f x)) : Keeps (m >>= f) := by
  intro r
  rw [out_bind, next, first]

/-- A step that changes nothing, and answers what the surroundings say. -/
theorem Logs.keep (keeps : Keeps m)
    (next : ∀ r : Recording, r.StandsIn a → Logs a ns (f (out m r).1) R) :
    Logs a ns (m >>= f) R := by
  intro r here before
  rw [out_bind, keeps]
  exact next r here r here before

/-- A step changes nothing of a recording but how warnings are suppressed and types marked. -/
structure Unmoved (m : Record α) : Prop where
  space : ∀ r, (out m r).2.space = r.space
  around : ∀ r, (out m r).2.around = r.around
  order : ∀ r, (out m r).2.order = r.order

theorem Unmoved.standsIn (unmoved : Unmoved m) {r : Recording} (here : r.StandsIn a) :
    (out m r).2.StandsIn a := by
  refine ⟨(unmoved.around r).trans here.around, ?_, ?_⟩
  · rw [unmoved.space]
    exact here.forest
  · rw [unmoved.space, unmoved.order]
    exact here.order_eq

theorem Unmoved.walks (unmoved : Unmoved m) : Walks a ns m [] := by
  intro r here before
  refine ⟨unmoved.standsIn here, ?_, [], ?_, Accounts.nil _, trivial⟩
  · rw [unmoved.space]
    exact Grows.refl _
  · rw [unmoved.space, List.append_nil]

/-- A step that opens something before another and one that closes it again can be left out. -/
theorem Logs.between {opens step closes : Record Unit} {Q : Unit → Namespace → List Ref → Prop}
    (first : Unmoved opens) (last : Unmoved closes) (logs : Logs a ns step Q) :
    Logs a ns (opens >>= fun _ => step >>= fun _ => closes) Q := by
  intro r here before
  have start : Grows ns (out opens r).2.space := (first.space r).symm ▸ before
  obtain ⟨there, grows, refs, added, holds⟩ := logs _ (first.standsIn here) start
  rw [first.space] at grows added
  rw [out_bind, out_bind]
  refine ⟨last.standsIn there, ?_, refs, ?_, ?_⟩ <;> rw [last.space]
  · exact grows
  · exact added
  · exact holds

/-- A step that only lets the namespace grow, without a reference. -/
theorem yields_of_grows (m : Record α) (change : Namespace → α × Namespace)
    (changes : ∀ r, out m r = ((change r.space).1, { r with space := (change r.space).2 }))
    (refs : ∀ space, (change space).2.refs = space.refs)
    (grows : ∀ space, Grows ns space → space.Forest →
      Grows space (change space).2 ∧ P (change space).1 (change space).2) :
    Yields a ns m [] P := by
  intro r here before
  obtain ⟨further, holds⟩ := grows r.space before here.forest
  rw [changes]
  refine ⟨⟨here.around, further.forest here.forest, ?_⟩, further, [], ?_, Accounts.nil _, holds⟩
  · show r.order = (change r.space).2.refs.size
    rw [refs]
    exact here.order_eq
  · show (change r.space).2.refs.toList = _
    rw [refs, List.append_nil]

end Record
end NameAudit
