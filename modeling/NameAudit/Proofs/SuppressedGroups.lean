import NameAudit.Proofs.Suppressions

/-!
The warning groups that a comment names between braces. The list may be laid out over several lines and stand anywhere
among prose and other tags: whatever surrounds it names no group, and of a list each piece between two separators is one
group. The blanks of a layout are trimmed, but the star at the beginning of a line is not, and becomes a part of the name
of the group that follows it (`suppressions_of_list`).
-/
namespace NameAudit.DocComment

/-- The name of a warning group. -/
structure GroupName where
  text : List Char
  nonempty : text ≠ []
  tagChars : ∀ c ∈ text, isTagChar c = true

/-- How a list is laid out after a separator. -/
inductive Layout where
  | blanks (cs : List Char) (blank : ∀ c ∈ cs, Text.isBlank c = true)
  /-- The list goes on in the next line, after the star that begins it. -/
  | gutter (indent : Nat)

/-- A group after another one, with the comma or the bar between them and the layout after it. -/
structure NextGroup where
  isBar : Bool
  layout : Layout
  name : GroupName

/-- A list of groups as it is written between braces. -/
inductive GroupList where
  | empty
  | groups (first : GroupName) (others : List NextGroup)

def Layout.text : Layout → List Char
  | blanks cs _ => cs
  | gutter indent => '\n' :: List.replicate indent ' ' ++ ['*', ' ']

/-- What is left of a layout without the blanks before it. -/
def Layout.trimmed : Layout → List Char
  | blanks _ _ => []
  | gutter _ => ['*', ' ']

namespace NextGroup

def separator (n : NextGroup) : Char := if n.isBar then '|' else ','

/-- The text between two separators. -/
def piece (n : NextGroup) : List Char := n.layout.text ++ n.name.text

def text (n : NextGroup) : List Char := n.separator :: n.piece

/-- The name that is read. -/
def read (n : NextGroup) : List Char := n.layout.trimmed ++ n.name.text

end NextGroup

namespace GroupList

def text : GroupList → List Char
  | empty => []
  | groups first others => first.text ++ others.flatMap NextGroup.text

/-- The groups that are written. -/
def names : GroupList → List String
  | empty => []
  | groups first others => String.ofList first.text :: others.map fun n => String.ofList n.name.text

/-- The groups that are read. -/
def read : GroupList → List String
  | empty => []
  | groups first others => String.ofList first.text :: others.map fun n => String.ofList n.read

/-- Some group begins a line, after its star. -/
def HasGutter : GroupList → Prop
  | empty => False
  | groups _ others => ∃ n ∈ others, ∃ indent, n.layout = .gutter indent

def tagName : List Char := "suppress".toList

/-- The tag with a list, after its `@`. -/
def tag (l : GroupList) : List Char := tagName ++ ' ' :: '\x7b' :: (l.text ++ ['\x7d'])

end GroupList

/-- A comment with one list of groups to suppress, among prose and other tags. -/
structure Suppressing where
  span : Span
  before : List Char
  list : GroupList
  after : List Char
  unbraced : ∀ c ∈ before ++ after, c ≠ '\x7b' ∧ c ≠ '\x7d'
  /-- The tag begins a word. -/
  wordStart : wordStartAfter true before = true

def Suppressing.comment (s : Suppressing) : DocComment :=
  ⟨s.span, String.ofList ('/' :: '*' :: '*' :: (s.before ++ '@' :: (s.list.tag ++ s.after)) ++ ['*', '/'])⟩

/-! ### Characters -/

theorem not_isBlank_of_isTagChar {c : Char} (tagChar : isTagChar c = true) : Text.isBlank c = false := by
  have range : 48 ≤ c.toNat ∧ c.toNat ≤ 122 := by
    change (decide (65 ≤ c.val ∧ c.val ≤ 90) || (97 ≤ c.val && c.val ≤ 122) || (48 ≤ c.val && c.val ≤ 57) ||
      c == '_') = true at tagChar
    simp only [Bool.or_eq_true, Bool.and_eq_true, decide_eq_true_eq, beq_iff_eq, UInt32.le_iff_toNat_le] at tagChar
    rcases tagChar with ((upper | lower) | digit) | rfl
    · exact ⟨Nat.le_trans (by decide) upper.1, Nat.le_trans upper.2 (by decide)⟩
    · exact ⟨Nat.le_trans (by decide) lower.1, Nat.le_trans lower.2 (by decide)⟩
    · exact ⟨Nat.le_trans (by decide) digit.1, Nat.le_trans digit.2 (by decide)⟩
    · decide
  simp [Text.isBlank]
  omega

/-- Commas and bars. -/
def isSeparator (c : Char) : Bool := c == ',' || c == '|'

/-- Characters of what stands between two separators. -/
def isPieceChar (c : Char) : Bool := isTagChar c || Text.isBlank c || c == '*'

theorem NextGroup.isSeparator_separator (n : NextGroup) : isSeparator n.separator = true := by
  rw [separator]
  cases n.isBar <;> rfl

theorem Layout.isPieceChar_of_mem {l : Layout} {c : Char} (member : c ∈ l.text) : isPieceChar c = true := by
  cases l with
  | blanks cs blank => simp [isPieceChar, blank c member]
  | gutter indent =>
    have cases : c = '\n' ∨ c = ' ' ∨ c = '*' := by
      simp only [text, List.mem_append, List.mem_cons, List.mem_replicate, List.not_mem_nil] at member
      tauto
    rcases cases with rfl | rfl | rfl <;> decide

theorem isSeparator_of_isPieceChar {c : Char} (pieceChar : isPieceChar c = true) : isSeparator c = false := by
  rw [isSeparator, Bool.or_eq_false_iff, beq_eq_false_iff_ne, beq_eq_false_iff_ne]
  constructor
  · rintro rfl
    cases pieceChar
  · rintro rfl
    cases pieceChar

theorem GroupName.isPieceChar_of_mem {g : GroupName} {c : Char} (member : c ∈ g.text) : isPieceChar c = true := by
  simp [isPieceChar, g.tagChars c member]

theorem NextGroup.isPieceChar_of_mem {n : NextGroup} {c : Char} (member : c ∈ n.piece) : isPieceChar c = true := by
  rcases List.mem_append.mp member with layout | name
  · exact n.layout.isPieceChar_of_mem layout
  · exact n.name.isPieceChar_of_mem name

theorem GroupList.isPieceChar_or_isSeparator {l : GroupList} {c : Char} (member : c ∈ l.text) :
    isPieceChar c = true ∨ isSeparator c = true := by
  cases l with
  | empty => cases member
  | groups first others =>
    rcases List.mem_append.mp member with name | other
    · exact .inl (first.isPieceChar_of_mem name)
    · obtain ⟨n, -, here⟩ := List.mem_flatMap.mp other
      rcases List.mem_cons.mp here with rfl | piece
      · exact .inr n.isSeparator_separator
      · exact .inl (n.isPieceChar_of_mem piece)

theorem GroupList.not_mem_text (l : GroupList) {c : Char} (foreign : (isPieceChar c || isSeparator c) = false) :
    c ∉ l.text := by
  intro member
  have listed := l.isPieceChar_or_isSeparator member
  rw [← Bool.or_eq_true, foreign] at listed
  cases listed

/-! ### Pieces -/

theorem cutAt_eq_splitOnP (p : Char → Bool) (cs : List Char) : cutAt p cs = cs.splitOnP p := by
  induction cs with
  | nil => rfl
  | cons c cs ih =>
    have some := List.splitOnP_ne_nil p cs
    rw [cutAt, ih, List.splitOnP_cons_eq_if_modifyHead]
    cases pieces : cs.splitOnP p with
    | nil => exact absurd pieces some
    | cons first others => rfl

theorem cutAt_text {piece : List Char} (whole : ∀ c ∈ piece, isPieceChar c = true) (others : List NextGroup) :
    cutAt isSeparator (piece ++ others.flatMap NextGroup.text) = piece :: others.map NextGroup.piece := by
  rw [cutAt_eq_splitOnP]
  induction others generalizing piece with
  | nil =>
    rw [List.flatMap_nil, List.append_nil]
    exact List.splitOnP_eq_singleton fun c member => isSeparator_of_isPieceChar (whole c member)
  | cons n others ih =>
    have first := List.splitOnP_eq_singleton fun c member => isSeparator_of_isPieceChar (whole c member)
    rw [List.flatMap_cons, NextGroup.text, List.cons_append, List.splitOnP_append_cons _ _ n.isSeparator_separator,
      first, ih fun c member => n.isPieceChar_of_mem member]
    rfl

/-- Blanks are trimmed up to a text that begins and ends otherwise. -/
theorem trim_append {blanks cs : List Char} (blank : ∀ c ∈ blanks, Text.isBlank c = true)
    (first : ∀ c ∈ cs.head?, Text.isBlank c = false) (last : ∀ c ∈ cs.getLast?, Text.isBlank c = false) :
    Text.trim (blanks ++ cs) = cs := by
  have front : cs.dropWhile Text.isBlank = cs := by
    cases cs with
    | nil => rfl
    | cons c cs => exact List.dropWhile_cons_of_neg (by simp [first c rfl])
  have back : cs.reverse.dropWhile Text.isBlank = cs.reverse := by
    rw [← List.head?_reverse] at last
    cases reversed : cs.reverse with
    | nil => rfl
    | cons c before => exact List.dropWhile_cons_of_neg (by simp [last c (by rw [reversed]; rfl)])
  rw [Text.trim, List.dropWhile_append_of_pos blank, front, Text.dropEndWhile, back, List.reverse_reverse]

theorem GroupName.trim_append (g : GroupName) (blanks : List Char) (blank : ∀ c ∈ blanks, Text.isBlank c = true) :
    Text.trim (blanks ++ g.text) = g.text :=
  DocComment.trim_append blank
    (fun _ first => not_isBlank_of_isTagChar (g.tagChars _ (List.mem_of_mem_head? first)))
    (fun _ last => not_isBlank_of_isTagChar (g.tagChars _ (List.mem_of_mem_getLast? last)))

/-- Of a piece, the star of a gutter is kept. -/
theorem NextGroup.trim_piece (n : NextGroup) : Text.trim n.piece = n.read := by
  rw [piece, read]
  cases n.layout with
  | blanks cs blank => exact n.name.trim_append cs blank
  | gutter indent =>
    -- The line break and the indent are blanks; the star is none, so that trimming stops there.
    have blank : ∀ c ∈ '\n' :: List.replicate indent ' ', Text.isBlank c = true := by
      simp [List.mem_replicate, Text.isBlank]
    have first : ∀ c ∈ (['*', ' '] ++ n.name.text).head?, Text.isBlank c = false := by
      intro c first
      obtain rfl : '*' = c := Option.some.inj first
      rfl
    have last : ∀ c ∈ (['*', ' '] ++ n.name.text).getLast?, Text.isBlank c = false := by
      intro c last
      rw [List.getLast?_append_of_ne_nil _ n.name.nonempty] at last
      exact not_isBlank_of_isTagChar (n.name.tagChars c (List.mem_of_mem_getLast? last))
    rw [Layout.text, Layout.trimmed, List.append_assoc]
    exact DocComment.trim_append blank first last

theorem groups_text (l : GroupList) : groups l.text = l.read := by
  cases l with
  | empty => rfl
  | groups first others =>
    have pieces := cutAt_text (fun c => first.isPieceChar_of_mem) others
    have nonempty : ∀ n : NextGroup, n.read ≠ [] := fun n => by simp [NextGroup.read, n.name.nonempty]
    have name : Text.trim first.text = first.text := first.trim_append [] nofun
    show ((cutAt isSeparator _).map Text.trim).filterMap _ = _
    rw [GroupList.text, pieces, List.map_cons, name, List.map_map]
    simp [GroupList.read, first.nonempty, NextGroup.trim_piece, nonempty]

/-! ### Tags -/

section
variable {w : Bool} {t cs : List Char}

theorem tagless_of_not_mem (none : '@' ∉ cs) : Tagless w cs := by
  induction cs generalizing w with
  | nil => rfl
  | cons c cs ih =>
    obtain ⟨other, others⟩ := not_or.mp (mt List.mem_cons.mpr none)
    rw [tagless_cons]
    exact ⟨by simp [Ne.symm other], ih others⟩

/-- Before and after an `@` that begins a word, a text is split on its own. -/
theorem splitTags_append_tag (start : wordStartAfter w t = true) : splitTags w (t ++ '@' :: cs) =
    ((splitTags w t).1, (splitTags w t).2 ++ (splitTags false cs).1 :: (splitTags false cs).2) := by
  induction t generalizing w with
  | nil =>
    obtain rfl : w = true := start
    rfl
  | cons c t ih =>
    rw [List.cons_append, splitTags_cons, ih start, splitTags_cons]
    cases c == '@' && w <;> rfl

/-- What a text is split into is taken from it. -/
theorem splitTags_subset (w : Bool) (cs : List Char) : (splitTags w cs).1 ⊆ cs ∧ ∀ t ∈ (splitTags w cs).2, t ⊆ cs := by
  induction cs generalizing w with
  | nil => exact ⟨List.Subset.refl _, nofun⟩
  | cons c cs ih =>
    obtain ⟨before, tags⟩ := ih (Text.isBlank c || c == '*')
    have later : ∀ t ∈ (splitTags (Text.isBlank c || c == '*') cs).2, t ⊆ c :: cs := fun t member =>
      List.subset_cons_of_subset c (tags t member)
    rw [splitTags_cons]
    cases c == '@' && w with
    | false => exact ⟨List.cons_subset_cons c before, later⟩
    | true =>
      refine ⟨List.nil_subset _, List.forall_mem_cons.mpr ⟨?_, later⟩⟩
      exact List.subset_cons_of_subset c before

end

theorem dropEndWhile_sublist (p : Char → Bool) (cs : List Char) : (Text.dropEndWhile p cs).Sublist cs := by
  have reversed : (cs.reverse.dropWhile p).reverse.Sublist cs.reverse.reverse := (List.dropWhile_sublist p).reverse
  rwa [List.reverse_reverse] at reversed

theorem Tag.toList_value_subset (cs : List Char) : (Tag.ofText cs).value.toList ⊆ cs := by
  rw [Tag.ofText, String.toList_ofList]
  exact ((dropEndWhile_sublist _ _).trans <| (dropEndWhile_sublist _ _).trans <| (dropEndWhile_sublist _ _).trans <|
    (List.dropWhile_sublist _).trans (List.dropWhile_sublist _)).subset

/-- Without braces, a tag names no group. -/
theorem Tag.groups_of_not_mem {cs : List Char} (none : '\x7b' ∉ cs) : (Tag.ofText cs).groups = [] := by
  have dropped : (Tag.ofText cs).value.toList.dropWhile (· != '\x7b') = [] := by
    rw [List.dropWhile_eq_nil_iff]
    intro c member
    rw [bne_iff_ne]
    rintro rfl
    exact none (Tag.toList_value_subset cs member)
  rw [Tag.groups, braced?, dropped]

theorem dropEndWhile_append {p : Char → Bool} {c : Char} (kept : p c = false) (before after : List Char) :
    Text.dropEndWhile p (before ++ c :: after) = before ++ c :: Text.dropEndWhile p after := by
  simp [Text.dropEndWhile, List.dropWhile_append, kept]

/-- Nothing of a list is trimmed, as it stands between its braces. -/
theorem GroupList.ofText_tag (l : GroupList) (after : List Char) : ∃ rest,
    Tag.ofText (l.tag ++ after) = ⟨"suppress", String.ofList ('\x7b' :: l.text ++ '\x7d' :: rest)⟩ := by
  let braced (rest : List Char) := '\x7b' :: l.text ++ '\x7d' :: rest
  have written : l.tag ++ after = tagName ++ ' ' :: braced after := by simp [tag, braced]
  have tagChars : ∀ c ∈ tagName, isTagChar c = true := List.all_eq_true.mp (by decide)
  have name : (l.tag ++ after).takeWhile isTagChar = tagName := by
    rw [written, List.takeWhile_append_of_pos tagChars, List.takeWhile_cons_of_neg (by decide), List.append_nil]
  have value : (l.tag ++ after).dropWhile isTagChar = ' ' :: braced after := by
    rw [written, List.dropWhile_append_of_pos tagChars, List.dropWhile_cons_of_neg (by decide)]
  have front : (' ' :: braced after).dropWhile Text.isBlank = braced after := rfl
  have suppress : String.ofList tagName = "suppress" := String.ofList_toList
  rw [Tag.ofText, name, value, Text.trim, front, dropEndWhile_append (by decide), dropEndWhile_append (by decide),
    dropEndWhile_append (by decide), suppress]
  exact ⟨_, rfl⟩

theorem GroupList.braced_text (l : GroupList) (rest : List Char) :
    braced? ('\x7b' :: l.text ++ '\x7d' :: rest) = some l.text := by
  have inside : ∀ c ∈ l.text, (c != '\x7d') = true := by
    intro c member
    rw [bne_iff_ne]
    rintro rfl
    exact l.not_mem_text (by decide) member
  have closed : (l.text ++ '\x7d' :: rest).contains '\x7d' = true := by simp
  have opened : ('\x7b' :: l.text ++ '\x7d' :: rest).dropWhile (· != '\x7b') =
      '\x7b' :: (l.text ++ '\x7d' :: rest) := rfl
  rw [braced?, opened]
  show (if _ then _ else _) = _
  rw [if_pos closed, List.takeWhile_append_of_pos inside, List.takeWhile_cons_of_neg (by decide), List.append_nil]

theorem GroupList.tagless_tag (l : GroupList) : Tagless false l.tag := by
  refine tagless_of_not_mem fun member => ?_
  rw [tag, List.mem_append, List.mem_cons, List.mem_cons, List.mem_append] at member
  rcases member with name | blank | opening | list | closing
  · exact absurd name (by decide)
  · exact absurd blank (by decide)
  · exact absurd opening (by decide)
  · exact l.not_mem_text (by decide) list
  · exact absurd closing (by decide)

theorem wordStartAfter_concat (w : Bool) (cs : List Char) (c : Char) :
    wordStartAfter w (cs ++ [c]) = (Text.isBlank c || c == '*') := by
  induction cs generalizing w with
  | nil => rfl
  | cons d cs ih => exact ih (Text.isBlank d || d == '*')

/-- The tags before a list, the tag of the list, and the tags after it. -/
theorem Suppressing.tags_comment (s : Suppressing) : s.comment.tags =
    (splitTags true s.before).2.map Tag.ofText ++
      Tag.ofText (s.list.tag ++ (splitTags false s.after).1) :: (splitTags false s.after).2.map Tag.ofText := by
  have written : s.list.tag = (GroupList.tagName ++ ' ' :: '\x7b' :: s.list.text) ++ ['\x7d'] := by
    simp [GroupList.tag]
  have closing : wordStartAfter false s.list.tag = false := by
    rw [written, wordStartAfter_concat]
    rfl
  rw [tags, comment, body_delimited, splitTags_append_tag s.wordStart, s.list.tagless_tag.append, closing]
  simp

/-- Neither the prose nor the other tags name a group. -/
theorem suppressions_of_not_mem {w : Bool} {cs : List Char} (none : '\x7b' ∉ cs) :
    (((splitTags w cs).2.map Tag.ofText).filter (·.name == "suppress")).flatMap Tag.groups = [] := by
  rw [List.flatMap_eq_nil_iff]
  intro tag member
  obtain ⟨t, piece, rfl⟩ := List.mem_map.mp (List.mem_filter.mp member).1
  exact Tag.groups_of_not_mem fun brace => none ((splitTags_subset w cs).2 t piece brace)

theorem Suppressing.suppressions_comment (s : Suppressing) : s.comment.suppressions = s.list.read := by
  have before : '\x7b' ∉ s.before := fun member => (s.unbraced _ (List.mem_append_left _ member)).1 rfl
  have after : '\x7b' ∉ s.after := fun member => (s.unbraced _ (List.mem_append_right _ member)).1 rfl
  obtain ⟨rest, tag⟩ := s.list.ofText_tag (splitTags false s.after).1
  have named : Tag.groups ⟨"suppress", String.ofList ('\x7b' :: s.list.text ++ '\x7d' :: rest)⟩ = s.list.read := by
    rw [Tag.groups, String.toList_ofList, s.list.braced_text, ← groups_text]
  show (s.comment.tags.filter (·.name == "suppress")).flatMap Tag.groups = _
  rw [s.tags_comment, tag, List.filter_append, List.flatMap_append, suppressions_of_not_mem before,
    List.filter_cons_of_pos (by rfl), List.flatMap_cons, named, suppressions_of_not_mem after, List.append_nil,
    List.nil_append]

/-- What is read is what is written, as long as no group begins a line after a star. -/
theorem GroupList.read_eq_names_iff (l : GroupList) : l.read = l.names ↔ ¬ l.HasGutter := by
  cases l with
  | empty => simp [read, names, HasGutter]
  | groups first others =>
    rw [read, names, List.cons_inj_right, List.map_inj_left, HasGutter]
    simp only [not_exists, not_and]
    refine forall_congr' fun n => forall_congr' fun _ => ?_
    rw [String.ofList_inj, NextGroup.read, List.append_left_eq_self]
    cases n.layout <;> simp [Layout.trimmed]

/-- Of a list in a comment, each group is suppressed under the name that is left without the blanks of its layout.
    These are the names that are written exactly if no group begins a line after a star. -/
theorem suppressions_of_list (s : Suppressing) : s.comment.suppressions = s.list.read ∧
    (∀ group, s.comment.suppresses group = true ↔ group ∈ s.list.read) ∧
    (s.comment.suppressions = s.list.names ↔ ¬ s.list.HasGutter) := by
  refine ⟨s.suppressions_comment, fun group => ?_, ?_⟩
  · rw [suppresses, s.suppressions_comment, List.contains_iff_mem]
  · rw [s.suppressions_comment]
    exact s.list.read_eq_names_iff

/-- A list over two lines, each after a star, as comments are usually laid out. -/
theorem gutter_kept_in_group : ∃ s : Suppressing,
    s.comment.text = "/** @suppress \x7bvisibility,\n * undefinedNames\x7d */" ∧
      s.list.names = ["visibility", "undefinedNames"] ∧ s.comment.suppressions = ["visibility", "* undefinedNames"] ∧
      s.comment.suppresses "undefinedNames" = false := by
  let visibility : GroupName := ⟨"visibility".toList, by decide, List.all_eq_true.mp (by decide)⟩
  let undefinedNames : GroupName := ⟨"undefinedNames".toList, by decide, List.all_eq_true.mp (by decide)⟩
  exact ⟨⟨⟨0, 0⟩, [' '], .groups visibility [⟨false, .gutter 1, undefinedNames⟩], [' '], by simp, rfl⟩, by decide⟩

/-- With blanks only, every group of a list counts. -/
example : suppressions ⟨⟨0, 0⟩, "/** Text. @suppress \x7bvisibility |\n undefinedNames\x7d @const */"⟩ =
    ["visibility", "undefinedNames"] := by
  decide

end NameAudit.DocComment
