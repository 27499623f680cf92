import Mathlib.Data.List.Nodup
import Mathlib.Data.List.Perm.Subperm
import Mathlib.Data.Nat.Find
import NameAudit.Namespace.Alias
import NameAudit.Proofs.Arena

/-!
The chain of links that starts at a name: each name of it is linked to the one whose value it got. As long as it
meets no name twice, the chain has no more links than there are names (`le_size_of_distinct`). So the search that
follows as many links as there are names comes to the end of a chain that has one, and to the last name of a chain
that leads back to its start (`resolveAlias_follows_chain`). Any other chain runs into a circle that its start is not
on, and there the search stops wherever it has got to (`aliasAfter_of_not_settles`).
-/
namespace NameAudit.Namespace

/-- The name that is reached by a number of links, if the chain is as long as that. -/
def aliasAfter (ns : Namespace) (id : NameId) : Nat → Option NameId
  | 0 => some id
  | n + 1 => (ns.aliasAfter id n).bind fun a => (ns.name a).aliasOf

/-- The chain meets no name twice. -/
def NeverReturns (ns : Namespace) (id : NameId) : Prop :=
  ∀ i j a, ns.aliasAfter id i = some a → ns.aliasAfter id j = some a → i = j

/-- The chain has so many links, and a last name. -/
structure EndsAfter (ns : Namespace) (id : NameId) (n : Nat) (last : NameId) : Prop where
  reached : ns.aliasAfter id n = some last
  unlinked : (ns.name last).aliasOf = none

/-- The first name that the chain meets again is its start, by the link after so many. -/
structure ReturnsAfter (ns : Namespace) (id : NameId) (n : Nat) : Prop where
  returns : ns.aliasAfter id (n + 1) = some id
  distinct : ∀ i j a, i ≤ n → j ≤ n → ns.aliasAfter id i = some a → ns.aliasAfter id j = some a → i = j

/-- The chain comes to an end, or back to its start. -/
def Settles (ns : Namespace) (id : NameId) : Prop := ns.NeverReturns id ∨ ∃ n, ns.ReturnsAfter id n

section
variable {ns : Namespace} {id a b start next last : NameId} {i j m n : Nat}

/-! ### Chains -/

theorem aliasAfter_add (id : NameId) (m n : Nat) :
    ns.aliasAfter id (m + n) = (ns.aliasAfter id m).bind fun a => ns.aliasAfter a n := by
  induction n with
  | zero => simp [aliasAfter]
  | succ n ih => rw [← Nat.add_assoc, aliasAfter, ih, Option.bind_assoc]; rfl

/-- From a name on the chain, the chain goes on as it does from the start. -/
theorem aliasAfter_of_reached (reached : ns.aliasAfter id m = some a) (n : Nat) :
    ns.aliasAfter id (m + n) = ns.aliasAfter a n := by
  rw [aliasAfter_add, reached, Option.bind_some]

theorem exists_aliasAfter_of_le (reached : ns.aliasAfter id n = some b) (le : m ≤ n) :
    ∃ a, ns.aliasAfter id m = some a := by
  obtain ⟨k, rfl⟩ := Nat.exists_eq_add_of_le le
  rw [aliasAfter_add] at reached
  obtain ⟨a, first, -⟩ := Option.bind_eq_some_iff.mp reached
  exact ⟨a, first⟩

/-- Of distinct names that are all linked, there are no more than names. -/
theorem le_size_of_distinct (reached : ns.aliasAfter id n = some b)
    (distinct : ∀ i j a, i < n → j < n → ns.aliasAfter id i = some a → ns.aliasAfter id j = some a → i = j) :
    n ≤ ns.names.size := by
  have linked : ∀ i < n, ∃ a, ns.aliasAfter id i = some a ∧ ns.Has a := by
    intro i before
    obtain ⟨c, later⟩ := exists_aliasAfter_of_le reached before
    obtain ⟨a, here, link⟩ := Option.bind_eq_some_iff.mp later
    exact ⟨a, here, ns.has_of_noted Name.aliasOf rfl link⟩
  let visited := (List.range n).map (ns.aliasAfter id)
  have nodup : visited.Nodup := by
    refine List.nodup_range.map_on fun i first j second same => ?_
    rw [List.mem_range] at first second
    obtain ⟨a, here, -⟩ := linked i first
    exact distinct i j a first second here (same ▸ here)
  have there : visited ⊆ ns.nameIds.map some := by
    intro visit member
    obtain ⟨i, before, rfl⟩ := List.mem_map.mp member
    obtain ⟨a, here, has⟩ := linked i (List.mem_range.mp before)
    rw [here]
    exact List.mem_map_of_mem ((ns.mem_nameIds a).mpr has)
  simpa [visited, nameIds] using (nodup.subperm there).length_le

/-- A chain that stops before so many links has a last name. -/
theorem exists_endsAfter_of_none (none : ns.aliasAfter id n = none) :
    ∃ k < n, ∃ last, ns.EndsAfter id k last := by
  induction n with
  | zero => cases none
  | succ n ih =>
    cases here : ns.aliasAfter id n with
    | none =>
      obtain ⟨k, before, ends⟩ := ih here
      exact ⟨k, Nat.lt_succ_of_lt before, ends⟩
    | some last =>
      rw [aliasAfter, here, Option.bind_some] at none
      exact ⟨n, Nat.lt_succ_self n, last, here, none⟩

theorem EndsAfter.le (ends : ns.EndsAfter id n last) (reached : ns.aliasAfter id m = some a) : m ≤ n := by
  by_contra beyond
  obtain ⟨c, further⟩ := exists_aliasAfter_of_le reached (Nat.lt_of_not_le beyond)
  rw [aliasAfter, ends.reached, Option.bind_some, ends.unlinked] at further
  cases further

/-- From two meetings of one name the chain goes on alike, so a chain with an end has none. -/
theorem EndsAfter.neverReturns (ends : ns.EndsAfter id n last) : ns.NeverReturns id := by
  suffices ∀ i j a, ns.aliasAfter id i = some a → ns.aliasAfter id j = some a → j ≤ i from
    fun i j a first second => Nat.le_antisymm (this j i a second first) (this i j a first second)
  intro i j a first second
  have before := ends.le first
  obtain ⟨k, rfl⟩ := Nat.exists_eq_add_of_le before
  -- The end is as far from the later meeting as from the earlier one.
  have further : ns.aliasAfter id (j + k) = some last := by
    rw [aliasAfter_of_reached second, ← aliasAfter_of_reached first, ends.reached]
  have bound := ends.le further
  omega

/-- A chain that meets no name twice has an end, since there are not names enough to go on. -/
theorem NeverReturns.exists_endsAfter (never : ns.NeverReturns id) : ∃ n last, ns.EndsAfter id n last := by
  cases beyond : ns.aliasAfter id (ns.names.size + 1) with
  | none =>
    obtain ⟨n, -, last, ends⟩ := exists_endsAfter_of_none beyond
    exact ⟨n, last, ends⟩
  | some b =>
    have bound := le_size_of_distinct beyond fun i j a _ _ first second => never i j a first second
    omega

/-- A chain that comes back to its start does so for a first time, and has met no name twice until then. -/
theorem exists_returnsAfter (returns : ns.aliasAfter id (m + 1) = some id) : ∃ n, ns.ReturnsAfter id n := by
  classical
  let found : ∃ n, ns.aliasAfter id (n + 1) = some id := ⟨m, returns⟩
  have first := Nat.find_spec found
  have least : ∀ k, ns.aliasAfter id (k + 1) = some id → Nat.find found ≤ k := fun k => Nat.find_min' found
  generalize Nat.find found = n at first least
  suffices ∀ i j a, j ≤ n → ns.aliasAfter id i = some a → ns.aliasAfter id j = some a → j ≤ i from
    ⟨n, first, fun i j a early late one two =>
      Nat.le_antisymm (this j i a early two one) (this i j a late one two)⟩
  intro i j a late one two
  obtain ⟨k, rfl⟩ := Nat.exists_eq_add_of_le late
  -- The start is as far from the earlier meeting as from the later one.
  have again : ns.aliasAfter id (i + k + 1) = some id := by
    rw [Nat.add_assoc, aliasAfter_of_reached one, ← aliasAfter_of_reached two, ← Nat.add_assoc, first]
  have bound := least _ again
  omega

/-! ### The search -/

/-- The search stands still where no link leads on. -/
theorem followAliases_stays (stays : ∀ next, (ns.name a).aliasOf = some next → next = start) (n : Nat) :
    ns.followAliases start n a = a := by
  cases n with
  | zero => rfl
  | succ n =>
    cases link : (ns.name a).aliasOf with
    | none => simp only [followAliases, link]
    | some next => simp only [followAliases, link, stays next link, if_true]

theorem followAliases_step (link : (ns.name a).aliasOf = some next) (away : next ≠ start) (n : Nat) :
    ns.followAliases start (n + 1) a = ns.followAliases start n next := by
  simp only [followAliases, link, away, if_false]

/-- The search follows the chain as long as the chain does not come back to the start of the search. -/
theorem followAliases_of_reached (reached : ns.aliasAfter a n = some b)
    (away : ∀ i < n, ns.aliasAfter a (i + 1) ≠ some start) (m : Nat) :
    ns.followAliases start (n + m) a = ns.followAliases start m b := by
  induction n generalizing a with
  | zero =>
    obtain rfl := Option.some.inj reached
    rw [Nat.zero_add]
  | succ n ih =>
    obtain ⟨next, link⟩ := exists_aliasAfter_of_le reached (Nat.succ_le_succ (Nat.zero_le n))
    have further : ∀ i, ns.aliasAfter a (i + 1) = ns.aliasAfter next i := fun i => by
      rw [Nat.add_comm, aliasAfter_of_reached link]
    have other : next ≠ start := by
      rintro rfl
      exact away 0 (Nat.succ_pos n) link
    rw [Nat.add_right_comm, followAliases_step link other]
    refine ih ((further n).symm.trans reached) fun i before => ?_
    rw [← further (i + 1)]
    exact away (i + 1) (Nat.succ_lt_succ before)

/-- With links enough, the search comes to the end of a chain that has one. -/
theorem EndsAfter.followAliases (ends : ns.EndsAfter id n last) (enough : n ≤ m) :
    ns.followAliases id m id = last := by
  obtain ⟨k, rfl⟩ := Nat.exists_eq_add_of_le enough
  have away : ∀ i < n, ns.aliasAfter id (i + 1) ≠ some id := fun i _ returns => by
    have same := ends.neverReturns (i + 1) 0 id returns rfl
    omega
  rw [followAliases_of_reached ends.reached away, followAliases_stays]
  intro next link
  rw [ends.unlinked] at link
  cases link

theorem EndsAfter.le_size (ends : ns.EndsAfter id n last) : n ≤ ns.names.size :=
  le_size_of_distinct ends.reached fun i j a _ _ first second => ends.neverReturns i j a first second

/-- The last name before the chain is back at its start, and the links up to it. -/
theorem ReturnsAfter.exists_last (returns : ns.ReturnsAfter id n) :
    n ≤ ns.names.size ∧ ∃ last, ns.aliasAfter id n = some last ∧ (ns.name last).aliasOf = some id ∧
      ∀ m, n ≤ m → ns.followAliases id m id = last := by
  obtain ⟨last, reached, link⟩ := Option.bind_eq_some_iff.mp returns.returns
  refine ⟨le_size_of_distinct reached fun i j a early late =>
      returns.distinct i j a (Nat.le_of_lt early) (Nat.le_of_lt late),
    last, reached, link, fun m enough => ?_⟩
  obtain ⟨k, rfl⟩ := Nat.exists_eq_add_of_le enough
  have away : ∀ i < n, ns.aliasAfter id (i + 1) ≠ some id := fun i before back => by
    have same := returns.distinct (i + 1) 0 id before (Nat.zero_le n) back rfl
    omega
  rw [followAliases_of_reached reached away, followAliases_stays]
  intro next onward
  exact Option.some.inj (onward.symm.trans link)

/-- Where a chain settles, it does not matter how many links may be followed, if they are as many as names. -/
theorem Settles.followAliases (settles : ns.Settles id) (enough : ns.names.size ≤ m) :
    ns.followAliases id m id = ns.resolveAlias id := by
  rcases settles with never | ⟨n, returns⟩
  · obtain ⟨n, last, ends⟩ := never.exists_endsAfter
    rw [resolveAlias, ends.followAliases (Nat.le_trans ends.le_size enough),
      ends.followAliases ends.le_size]
  · obtain ⟨bound, last, -, -, found⟩ := returns.exists_last
    rw [resolveAlias, found m (Nat.le_trans bound enough), found _ bound]

/-- Where a chain does not settle, each further link that may be followed leads further. -/
theorem aliasAfter_of_not_settles (restless : ¬ ns.Settles id) (n : Nat) :
    ns.aliasAfter id n = some (ns.followAliases id n id) := by
  have away : ∀ i < n, ns.aliasAfter id (i + 1) ≠ some id := fun i _ back =>
    restless (.inr (exists_returnsAfter back))
  cases reached : ns.aliasAfter id n with
  | none =>
    obtain ⟨k, -, last, ends⟩ := exists_endsAfter_of_none reached
    exact absurd (.inl ends.neverReturns) restless
  | some b =>
    have found : ns.followAliases id (n + 0) id = b := followAliases_of_reached reached away 0
    exact congrArg some found.symm

/-- The alias target of a name is the end of its chain, which is unique, if the chain meets no name twice, however
many links it has. If the first name that is met again is the name itself, the target is the last one before it. -/
theorem resolveAlias_follows_chain (ns : Namespace) (id : NameId) :
    (ns.NeverReturns id → ∃ n last, ns.EndsAfter id n last ∧
      (∀ m other, ns.EndsAfter id m other → m = n ∧ other = last) ∧ ns.resolveAlias id = last ∧
      n ≤ ns.names.size ∧ ∀ bound, ns.names.size ≤ bound → ns.followAliases id bound id = last) ∧
    ∀ n, ns.ReturnsAfter id n →
      ns.aliasAfter id n = some (ns.resolveAlias id) ∧ (ns.name (ns.resolveAlias id)).aliasOf = some id := by
  constructor
  · intro never
    obtain ⟨n, last, ends⟩ := never.exists_endsAfter
    refine ⟨n, last, ends, fun m other alsoEnds => ?_, ends.followAliases ends.le_size, ends.le_size,
      fun bound enough => ends.followAliases (Nat.le_trans ends.le_size enough)⟩
    obtain rfl := Nat.le_antisymm (ends.le alsoEnds.reached) (alsoEnds.le ends.reached)
    exact ⟨rfl, Option.some.inj (alsoEnds.reached.symm.trans ends.reached)⟩
  · intro n returns
    obtain ⟨bound, last, reached, link, found⟩ := returns.exists_last
    rw [resolveAlias, found _ bound]
    exact ⟨reached, link⟩

/-- A chain of two links and a last name, and the same with a third link back to the start. -/
theorem resolveAlias_follows_chain_of_three :
    let link (ns : Namespace) (a b : Nat) : Namespace :=
      ns.modifyName ⟨a⟩ fun n => { n with aliasOf := some ⟨b⟩ }
    let names : Namespace := ((({} : Namespace).rootOrNew "x").2.rootOrNew "a").2.rootOrNew "b" |>.2
    let chain := link (link names 0 1) 1 2
    let circle := link chain 2 0
    chain.NeverReturns ⟨0⟩ ∧ (∃ n last, chain.EndsAfter ⟨0⟩ n last ∧
      (∀ m other, chain.EndsAfter ⟨0⟩ m other → m = n ∧ other = last) ∧ chain.resolveAlias ⟨0⟩ = last ∧
      n ≤ chain.names.size ∧ ∀ bound, chain.names.size ≤ bound → chain.followAliases ⟨0⟩ bound ⟨0⟩ = last) ∧
    circle.ReturnsAfter ⟨0⟩ 2 ∧ circle.aliasAfter ⟨0⟩ 2 = some (circle.resolveAlias ⟨0⟩) ∧
      (circle.name (circle.resolveAlias ⟨0⟩)).aliasOf = some ⟨0⟩ := by
  intro link names chain circle
  have ends : chain.EndsAfter ⟨0⟩ 2 ⟨2⟩ := ⟨by decide +kernel, by decide +kernel⟩
  have distinct : ∀ i < 3, ∀ j < 3, circle.aliasAfter ⟨0⟩ i = circle.aliasAfter ⟨0⟩ j → i = j := by decide +kernel
  have returns : circle.ReturnsAfter ⟨0⟩ 2 := by
    refine ⟨by decide +kernel, fun i j a early late first second => ?_⟩
    exact distinct i (Nat.lt_succ_of_le early) j (Nat.lt_succ_of_le late) (first.trans second.symm)
  exact ⟨ends.neverReturns, (resolveAlias_follows_chain chain ⟨0⟩).1 ends.neverReturns, returns,
    (resolveAlias_follows_chain circle ⟨0⟩).2 2 returns⟩

end
end NameAudit.Namespace
