import NameAudit.Proofs.Regions
import NameAudit.Proofs.SharedRules

/-!
Where a parser ends, and where what it reads stands. A parser that succeeds from a position ends at a later
one with an answer of a certain kind (`Parser.Ends`). What it reads from a position lies between the next
token (`Scan.front`) and the end: the next token never comes before the position, and never goes back.
-/
namespace NameAudit

open Cursor (Boundary ofSource)
open Relation (ReflTransGen)
open Region (Lies AllLie)

namespace Scan

/-- The offset at which the next token begins, or the position itself if the comments before it do not
end. -/
def front (c : Cursor) : Nat :=
  match trivia {} c with
  | .ok (_, start) => start.offset
  | .error _ => c.offset

section
variable {source : List Char} {expecting : Expecting} {c d : Cursor} {t : Token}

theorem front_of_trivia {seen : Trivia} (passed : trivia {} c = .ok (seen, d)) : front c = d.offset := by
  rw [front, passed]

theorem offset_le_front (c : Cursor) : c.offset ≤ front c := by
  unfold front
  have lands := trivia_lands {} c
  split
  next read =>
    rw [read] at lands
    exact lands.offset_le
  · exact Nat.le_refl _

/-- Where a token stands that is read from a position of a text. -/
structure Stands (source : List Char) (c : Cursor) (t : Token) (d : Cursor) : Prop where
  start : t.span.start = front c
  stop : t.span.stop = d.offset
  starts : (ofSource source).Boundary t.span.start
  stops : (ofSource source).Boundary t.span.stop
  le : t.span.start ≤ t.span.stop
  some : t.kind ≠ .eof → t.span.start < t.span.stop

theorem stands_of_token (reached : (ofSource source).Reaches c) (read : token expecting c = .ok (t, d)) :
    Stands source c t d := by
  obtain ⟨ps, start, text, follows⟩ := token_follows read
  have begins : t.span.start = start.offset := by rw [follows.span]
  have stop := token_stop read
  refine ⟨?_, stop, ?_, ?_, ?_, follows.offset_lt⟩
  · obtain ⟨seen, start, kind, passed, found, rfl⟩ := token_eq_ok_iff.mp read
    exact (front_of_trivia passed).symm
  · rw [begins]
    exact .of_reaches (reached.trans ⟨_, follows.gap⟩)
  · rw [stop]
    exact .of_reaches (reached.trans (token_reaches read))
  · rw [begins, stop]
    exact follows.passes.offset_le

/-- The next token begins before the end of whatever a parser takes. -/
theorem Takes.front_le (takes : Takes c d) : front c ≤ d.offset := by
  cases takes with
  | token expecting t read =>
    obtain ⟨seen, start, kind, passed, found, rfl⟩ := token_eq_ok_iff.mp read
    obtain ⟨ps, start', text, follows⟩ := token_follows read
    have same : start.offset = start'.offset := congrArg Span.start follows.span
    rw [front_of_trivia passed, same]
    exact follows.passes.offset_le
  | piece close after brace t read kind reaches opens rest =>
    obtain ⟨seen, start, kind', passed, found, rfl⟩ := token_eq_ok_iff.mp read
    have same : brace.offset = start.offset := opens
    rw [front_of_trivia passed, ← same]
    exact (templateRest_ok rest).1.offset_le

/-- On the way through a text, the next token never goes back. -/
theorem front_le_front (way : ReflTransGen Takes c d) : front c ≤ front d := by
  induction way with
  | refl => exact Nat.le_refl _
  | tail _ takes ih => exact ih.trans (takes.front_le.trans (offset_le_front _))

/-- A token with characters, as a region. -/
theorem Stands.lies (stands : Stands source c t d) (more : t.kind ≠ .eof) :
    (Region.name t.span).Lies source (front c) d.offset :=
  .ofStatements stands.starts stands.stops (Nat.le_of_eq stands.start.symm) (stands.some more)
    (Nat.le_of_eq stands.stop) .nil .nil

end
end Scan

/-- A region that a parser reads between two positions. -/
abbrev Region.Read (source : List Char) (c : Cursor) (x : Region) (d : Cursor) : Prop :=
  x.Lies source (Scan.front c) d.offset

/-- Regions that a parser reads between two positions. -/
abbrev Region.AllRead (source : List Char) (c : Cursor) (xs : List Region) (d : Cursor) : Prop :=
  AllLie source (Scan.front c) d.offset xs

namespace Parser

open Scan (front Stands token)

/-- Where a parser succeeds from a position, it ends at a later one with an answer of a certain kind. -/
def Ends {α : Type} (source : List Char) (c : Cursor) (p : Parser α) (Q : α → Cursor → Prop) : Prop :=
  ∀ s a t, s.At source c → p s = .ok (a, t) →
    ∃ d, t.At source d ∧ c.offset ≤ d.offset ∧ front c ≤ front d ∧ Q a d

section
variable {α β σ : Type} {source : List Char} {c d : Cursor} {p p' : Parser α} {Q : α → Cursor → Prop}
  {R : β → Cursor → Prop}

/-- What is known of the way a parser runs. -/
theorem Runs.ends (runs : Runs (.alone source) c p p' Q) : Ends source c p Q := by
  intro s a t stands call
  have outcome := runs.outcome stands
  rw [call] at outcome
  obtain ⟨d, there, way, holds⟩ := outcome
  exact ⟨d, there, (Scan.reaches_of_takes way).offset_le, Scan.front_le_front way, holds⟩

theorem ends_pure {a : α} (holds : Q a c) : Ends source c (pure a) Q :=
  (runs_pure (w := .alone source) holds).ends

theorem Ends.bind {k : α → Parser β} (first : Ends source c p Q)
    (next : ∀ a d, c.offset ≤ d.offset → front c ≤ front d → Q a d → Ends source d (k a) R) :
    Ends source c (p >>= k) R := by
  intro s b u stands call
  obtain ⟨⟨a, t⟩, before, after⟩ := bind_eq_ok_iff.mp call
  obtain ⟨d, there, le, le', holds⟩ := first s a t stands before
  obtain ⟨e, there', further, further', holds'⟩ := next a d le le' holds t b u there after
  exact ⟨e, there', le.trans further, le'.trans further', holds'⟩

theorem Ends.mono {Q' : α → Cursor → Prop} (ends : Ends source c p Q)
    (weaker : ∀ a d, c.offset ≤ d.offset → front c ≤ front d → Q a d → Q' a d) :
    Ends source c p Q' := by
  intro s a t stands call
  obtain ⟨d, there, le, le', holds⟩ := ends s a t stands call
  exact ⟨d, there, le, le', weaker a d le le' holds⟩

/-- A choice whose branches go on alike. -/
theorem Ends.join {b : Prop} [Decidable b] {q : Parser α} {k : α → Parser β}
    (yes : b → Ends source c p Q) (no : ¬b → Ends source c q Q)
    (next : ∀ a d, c.offset ≤ d.offset → front c ≤ front d → Q a d → Ends source d (k a) R) :
    Ends source c (if b then p >>= k else q >>= k) R := by
  split
  next holds => exact (yes holds).bind next
  next fails => exact (no fails).bind next

/-- The position is one of the text. -/
theorem Ends.of_reached (ends : (ofSource source).Reaches c → Ends source c p Q) : Ends source c p Q :=
  fun s a t stands => ends stands.reached s a t stands

theorem ends_failAt {cause : SyntaxError.Cause} {span : Span} {found : Option TokenKind} :
    Ends source c (failAt cause span found) Q := by
  rintro s a t - ⟨⟩

theorem ends_unexpected {t : Token} {what : String} : Ends source c (unexpected t what) Q := by
  unfold unexpected
  split
  · exact ends_failAt
  · exact ends_failAt

theorem Ends.ofExcept {x : Except SyntaxError α} {k : α → Parser β}
    (next : ∀ a, x = .ok a → Ends source c (k a) R) : Ends source c (ofExcept x >>= k) R := by
  cases x with
  | error e => rintro s b t - ⟨⟩
  | ok a => exact next a rfl

theorem ends_nameOf (t : Token) : Ends source c (nameOf t) fun _ d => d = c := by
  unfold nameOf
  split
  · exact ends_pure rfl
  · exact ends_failAt

theorem ends_stringOf (t : Token) : Ends source c (stringOf t) fun _ d => d = c := by
  unfold stringOf
  split
  · exact ends_pure rfl
  · exact ends_failAt

/-! ### Tokens -/

section
variable {k : Token → Parser β} {expecting : Scan.Expecting}

theorem Ends.look (next : ∀ t d, token expecting c = .ok (t, d) → Stands source c t d →
    Ends source c (k t) R) : Ends source c (look expecting >>= k) R := by
  refine .of_reached fun reached => (runs_look (w := .alone source) expecting).ends.bind ?_
  rintro t d - - ⟨rfl, e, read⟩
  exact next t e read (Scan.stands_of_token reached read)

theorem Ends.take (next : ∀ t d, c.offset ≤ d.offset → front c ≤ front d →
      token expecting c = .ok (t, d) → Stands source c t d → Ends source d (k t) R) :
    Ends source c (take expecting >>= k) R :=
  .of_reached fun reached => (runs_take (w := .alone source) expecting).ends.bind fun t d le le' read =>
    next t d le le' read (Scan.stands_of_token reached read)

/-- Takes a token that was looked at. -/
theorem Ends.takeAhead {t : Token} (ahead : token expecting c = .ok (t, d)) (more : t.kind ≠ .eof)
    (next : c.offset ≤ d.offset → front c ≤ front d → front c < d.offset → Stands source c t d →
      Ends source d (k t) R) : Ends source c (Parser.take expecting >>= k) R := by
  refine Ends.take fun u e le le' read stands => ?_
  obtain ⟨rfl, rfl⟩ : t = u ∧ d = e := by simpa using ahead.symm.trans read
  have some := stands.some more
  rw [stands.start, stands.stop] at some
  exact next le le' some stands

theorem Ends.require {kind : TokenKind} (more : kind ≠ .eof)
    (next : ∀ t d, c.offset ≤ d.offset → front c ≤ front d → front c < d.offset → Stands source c t d →
      Ends source d (k t) R) : Ends source c (require kind >>= k) R := by
  refine .of_reached fun reached => (runs_require (w := .alone source) more).ends.bind ?_
  rintro t d le le' ⟨read, same, -⟩
  have stands := Scan.stands_of_token reached read
  have some := stands.some (same ▸ more)
  rw [stands.start, stands.stop] at some
  exact next t d le le' some stands

theorem Ends.eat {kind : TokenKind} {k : Bool → Parser β} (more : kind ≠ .eof)
    (yes : ∀ d, c.offset ≤ d.offset → front c ≤ front d → front c < d.offset → Ends source d (k true) R)
    (no : Ends source c (k false) R) : Ends source c (eat kind >>= k) R := by
  refine .of_reached fun reached => (runs_eat (w := .alone source)).ends.bind ?_
  rintro b d le le' ⟨t, e, read, same, rfl⟩
  cases b with
  | true =>
    have stands := Scan.stands_of_token reached read
    have some := stands.some ((beq_iff_eq.mp same) ▸ more)
    rw [stands.start, stands.stop] at some
    exact yes e le le' some
  | false => exact no

/-- The span from an earlier offset. -/
theorem Ends.since {start : Nat} {k : Span → Parser β} (le : start ≤ c.offset)
    (next : (ofSource source).Boundary c.offset → Ends source c (k ⟨start, c.offset⟩) R) :
    Ends source c (since start >>= k) R := by
  refine .of_reached fun reached => (runs_since (w := .alone source) start).ends.bind ?_
  rintro span d - - ⟨rfl, rfl⟩
  rw [Nat.max_eq_left le]
  exact next (.of_reaches reached)

theorem Ends.identifier {k : String × Span → Parser β}
    (next : ∀ name t d, c.offset ≤ d.offset → front c ≤ front d → front c < d.offset →
      Stands source c t d → (Region.name t.span).Read source c d → Ends source d (k (name, t.span)) R) :
    Ends source c (identifier >>= k) R := by
  refine .of_reached fun reached => (runs_identifier (w := .alone source)).ends.bind ?_
  rintro ⟨name, span⟩ d le le' ⟨-, t, read, names, rfl⟩
  have stands := Scan.stands_of_token reached read
  have more : t.kind ≠ .eof := by
    rw [names.1]
    rintro ⟨⟩
  have some := stands.some more
  rw [stands.start, stands.stop] at some
  exact next name t d le le' some stands (stands.lies more)

end

/-! ### Loops -/

/-- What a turn of a loop leads to. -/
def Going (I : σ → Cursor → Prop) (R : β → Cursor → Prop) : Turn σ β → Cursor → Prop
  | .again x, d => I x d
  | .done b, d => R b d

/-- A loop keeps what each of its turns keeps. -/
theorem ends_loop {turn : σ → Parser (Turn σ β)} {x : σ} (I : σ → Cursor → Prop) (holds : I x c)
    (step : ∀ x d, c.offset ≤ d.offset → front c ≤ front d → I x d →
      Ends source d (turn x) (Going I R)) : Ends source c (loop turn x) R := by
  have all (n : Nat) : ∀ x d, c.offset ≤ d.offset → front c ≤ front d → I x d →
      Ends source d (turns turn n x) R := by
    induction n with
    | zero =>
      rintro x d - - - s b t - ⟨⟩
    | succ n ih =>
      intro x d le le' holds
      refine (step x d le le' holds).bind fun r e further further' after => ?_
      cases r with
      | again y => exact ih y e (le.trans further) (le'.trans further') after
      | done b => exact ends_pure after
  intro s b t stands call
  exact all _ x c (Nat.le_refl _) (Nat.le_refl _) holds s b t stands call

/-! ### Lists -/

/-- The items of a list, each with its regions between an offset and a position. -/
def Filled (source : List Char) (f : α → List Region) (lo : Nat) (read : List α) (d : Cursor) : Prop :=
  ∀ x ∈ read, AllLie source lo d.offset (f x)

section
variable {f : α → List Region} {lo lo' : Nat} {read : List α}

theorem Filled.nil : Filled source f lo [] d := List.forall_mem_nil _

theorem Filled.mono (filled : Filled source f lo read c) (le : lo' ≤ lo) (le' : c.offset ≤ d.offset) :
    Filled source f lo' read d :=
  fun x member => (filled x member).mono le le'

theorem Filled.concat {x : α} (filled : Filled source f lo read c) (later : c.offset ≤ d.offset)
    (last : AllLie source lo' d.offset (f x)) (le : lo ≤ lo') : Filled source f lo (read ++ [x]) d :=
  forall_mem_concat (filled.mono (Nat.le_refl _) later) (last.mono le (Nat.le_refl _))

theorem ends_afterItem {close : Punctuator} {more ended : β}
    (goes : ∀ d, c.offset ≤ d.offset → R more d) (stops : ∀ d, c.offset ≤ d.offset → R ended d) :
    Ends source c (afterItem close more ended) R := by
  refine Ends.eat (by rintro ⟨⟩) (fun d le _ _ => ends_pure (goes d le)) ?_
  exact Ends.require (by rintro ⟨⟩) fun _ d le _ _ _ => ends_pure (stops d le)

/-- Items up to a closing token, each of which is read where it stands. -/
theorem ends_items {close : Punctuator} {item : Parser (α × Bool)}
    (each : ∀ d, Ends source d item fun x => Region.AllRead source d (f x.1)) :
    Ends source c (items close item) fun read => Filled source f (front c) read.items := by
  refine ends_loop (Filled source f (front c)) .nil fun read d le le' filled => ?_
  refine Ends.eat (by rintro ⟨⟩) (fun e further _ _ => ?_) ?_
  · exact ends_pure (filled.mono (Nat.le_refl _) further)
  refine (each d).bind fun x e further _ lies => ?_
  have more := filled.concat further lies le'
  dsimp only
  split
  · exact Ends.require (by rintro ⟨⟩) fun _ h later _ _ _ =>
      ends_pure (more.mono (Nat.le_refl _) later)
  · exact ends_afterItem (fun h later => more.mono (Nat.le_refl _) later) fun h later =>
      more.mono (Nat.le_refl _) later

theorem ends_itemsOf {close : Punctuator} {item : Parser α}
    (each : ∀ d, Ends source d item fun x => Region.AllRead source d (f x)) :
    Ends source c (itemsOf close item) fun read => Filled source f (front c) read :=
  (ends_items fun d => (each d).bind fun _ _ _ _ lies => ends_pure lies).bind
    fun _ _ _ _ filled => ends_pure filled

end
end
end Parser
end NameAudit
