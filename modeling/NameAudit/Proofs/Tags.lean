import NameAudit.Namespace.Record

/-!
The tags of comments. A comment suppresses the warning about undefined names when one of its tags does
(`suppresses_iff`). In a comment without some of its tags, the others are found again (`tags_keepTags`):
the texts of the tags are separate, as no tag begins inside of one and after each but the last a word may
begin, and any selection of separate texts is separate.
-/
namespace NameAudit.DocComment

/-! ### Suppressions -/

/-- The warning groups that a tag names in braces. -/
def Tag.groups (t : Tag) : List String :=
  match braced? t.value.toList with
  | some inner => DocComment.groups inner
  | none => []

/-- A tag suppresses the warning about undefined names. -/
def Tag.isSuppression (t : Tag) : Bool :=
  t.name == "suppress" && t.groups.any fun g => g == "undefinedNames" || g == "undefinedVars"

/-- A comment with a tag that suppresses the warning about undefined names. -/
def HasSuppression (doc : Option DocComment) : Prop :=
  ∃ d t, doc = some d ∧ t ∈ d.tags ∧ t.isSuppression = true

theorem Tag.isSuppression_iff (t : Tag) : t.isSuppression = true ↔
    t.name = "suppress" ∧ ("undefinedNames" ∈ t.groups ∨ "undefinedVars" ∈ t.groups) := by
  simp [isSuppression, and_or_left, exists_or]

theorem suppresses_iff {doc : Option DocComment} : Record.suppresses doc = true ↔ HasSuppression doc := by
  cases doc with
  | none => simp [Record.suppresses, HasSuppression]
  | some d =>
    have listed : ∀ group, d.suppresses group = true ↔
        ∃ t ∈ d.tags, t.name = "suppress" ∧ group ∈ t.groups := by
      intro group
      rw [suppresses, List.contains_iff_mem]
      show group ∈ (d.tags.filter (·.name == "suppress")).flatMap Tag.groups ↔ _
      simp only [List.mem_flatMap, List.mem_filter, beq_iff_eq, and_assoc]
    have tagged : HasSuppression (some d) ↔ ∃ t ∈ d.tags, t.isSuppression = true := by
      simp [HasSuppression]
    rw [tagged]
    show (d.suppresses "undefinedNames" || d.suppresses "undefinedVars") = true ↔ _
    rw [Bool.or_eq_true, listed, listed, ← exists_or]
    refine exists_congr fun t => ?_
    rw [← and_or_left, ← and_or_left, Tag.isSuppression_iff]

/-! ### Without some tags -/

/-- Whether a word can begin after a text, if it can before it or not. -/
def wordStartAfter (wordStart : Bool) : List Char → Bool
  | [] => wordStart
  | c :: cs => wordStartAfter (Text.isBlank c || c == '*') cs

/-- No tag begins in a text. -/
def Tagless (wordStart : Bool) (cs : List Char) : Prop := splitTags wordStart cs = (cs, [])

/-- Texts of tags that can stand one after the other. -/
structure Separate (tags : List (List Char)) : Prop where
  tagless : ∀ t ∈ tags, Tagless false t
  wordStart : tags.Pairwise fun t _ => wordStartAfter false t = true

/-- Tags as they are written. -/
def written (tags : List (List Char)) : List Char := tags.flatMap fun t => '@' :: t

/-- A comment with some of its tags. -/
def keepTags (keep : Tag → Bool) (d : DocComment) : DocComment :=
  let (before, tags) := splitTags true d.body
  let kept := tags.filter fun t => keep (Tag.ofText t)
  { d with text := String.ofList ('/' :: '*' :: '*' :: before ++ written kept ++ ['*', '/']) }

section
variable {w : Bool} {c : Char} {cs t : List Char} {tags : List (List Char)}

theorem splitTags_cons : splitTags w (c :: cs) =
    if c == '@' && w then
      ([], (splitTags (Text.isBlank c || c == '*') cs).1 ::
        (splitTags (Text.isBlank c || c == '*') cs).2)
    else
      (c :: (splitTags (Text.isBlank c || c == '*') cs).1,
        (splitTags (Text.isBlank c || c == '*') cs).2) := rfl

theorem tagless_cons : Tagless w (c :: cs) ↔
    (c == '@' && w) = false ∧ Tagless (Text.isBlank c || c == '*') cs := by
  rw [Tagless, Tagless, splitTags_cons]
  cases c == '@' && w <;> simp [Prod.ext_iff]

theorem Tagless.append (tagless : Tagless w t) (cs : List Char) : splitTags w (t ++ cs) =
    (t ++ (splitTags (wordStartAfter w t) cs).1, (splitTags (wordStartAfter w t) cs).2) := by
  induction t generalizing w with
  | nil => rfl
  | cons c t ih =>
    obtain ⟨other, rest⟩ := tagless_cons.mp tagless
    rw [List.cons_append, splitTags_cons, other, ih rest]
    rfl

/-- What a text is split into. -/
theorem splitTags_separate (w : Bool) (cs : List Char) :
    Tagless w (splitTags w cs).1 ∧ Separate (splitTags w cs).2 ∧
      ((splitTags w cs).2 ≠ [] → wordStartAfter w (splitTags w cs).1 = true) := by
  induction cs generalizing w with
  | nil => exact ⟨rfl, ⟨nofun, .nil⟩, fun some => absurd rfl some⟩
  | cons c cs ih =>
    obtain ⟨tagless, separate, after⟩ := ih (Text.isBlank c || c == '*')
    rw [splitTags_cons]
    cases isTag : c == '@' && w with
    | false => exact ⟨tagless_cons.mpr ⟨isTag, tagless⟩, separate, after⟩
    | true =>
      obtain ⟨sign, start⟩ := (Bool.and_eq_true _ _).mp isTag
      obtain rfl : c = '@' := eq_of_beq sign
      refine ⟨rfl, ⟨?_, ?_⟩, fun _ => start⟩
      · exact List.forall_mem_cons.mpr ⟨tagless, separate.tagless⟩
      · refine List.pairwise_cons.mpr ⟨fun next member => ?_, separate.wordStart⟩
        exact after (List.ne_nil_of_mem member)

theorem Separate.splitTags_written (separate : Separate tags) (start : tags ≠ [] → w = true) :
    splitTags w (written tags) = ([], tags) := by
  induction tags generalizing w with
  | nil => rfl
  | cons t tags ih =>
    obtain ⟨tagless, others⟩ := List.forall_mem_cons.mp separate.tagless
    obtain ⟨last, between⟩ := List.pairwise_cons.mp separate.wordStart
    have next : tags ≠ [] → wordStartAfter false t = true := fun some => by
      obtain ⟨u, member⟩ := List.exists_mem_of_ne_nil tags some
      exact last u member
    have split : splitTags false (t ++ written tags) = (t, tags) := by
      rw [tagless.append, ih ⟨others, between⟩ next, List.append_nil]
    rw [start (List.cons_ne_nil t tags)]
    show ([], (splitTags false (t ++ written tags)).1 :: (splitTags false (t ++ written tags)).2) = _
    rw [split]

theorem Separate.filter (separate : Separate tags) (keep : List Char → Bool) :
    Separate (tags.filter keep) :=
  ⟨fun t member => separate.tagless t (List.mem_filter.mp member).1, separate.wordStart.filter keep⟩

end

theorem body_delimited (span : Span) (cs : List Char) :
    body ⟨span, String.ofList ('/' :: '*' :: '*' :: cs ++ ['*', '/'])⟩ = cs := by
  rw [body, String.toList_ofList]
  show dropClosing (cs ++ ['*', '/']) = cs
  rw [dropClosing, List.reverse_append]
  exact List.reverse_reverse cs

/-- The tags that are kept are those that a reader finds. -/
theorem tags_keepTags (keep : Tag → Bool) (d : DocComment) :
    (d.keepTags keep).tags = d.tags.filter keep := by
  obtain ⟨tagless, separate, after⟩ := splitTags_separate true d.body
  let kept := (splitTags true d.body).2.filter fun t => keep (Tag.ofText t)
  have start : kept ≠ [] → wordStartAfter true (splitTags true d.body).1 = true := by
    intro some
    obtain ⟨t, member⟩ := List.exists_mem_of_ne_nil kept some
    exact after (List.ne_nil_of_mem (List.mem_filter.mp member).1)
  have body : (d.keepTags keep).body = (splitTags true d.body).1 ++ written kept :=
    body_delimited d.span _
  rw [tags, body, tagless.append, (separate.filter _).splitTags_written start, tags, List.filter_map]
  rfl

example : tags (keepTags (·.name != "suppress") ⟨⟨0, 0⟩, "/** @const @suppress \x7bx\x7d\n * @type a@b */"⟩) =
    [⟨"const", ""⟩, ⟨"type", "a@b"⟩] := by
  decide

end NameAudit.DocComment
