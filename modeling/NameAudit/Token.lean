import NameAudit.DocComment

/-!
Tokens of a program.  Punctuators and reserved words have a fixed text; every other kind of token
is a class of texts.  Words that are reserved only in some places, such as `async`, `let` or
`yield`, are identifiers.
-/
namespace NameAudit

inductive Punctuator where
  | amp | ampAmp | ampAmpAssign | ampAssign | arrow | assign | braceClose | braceOpen
  | bracketClose | bracketOpen | caret | caretAssign | colon | comma | dec | dot | ellipsis | eq
  | gt | gtEq | inc | lt | ltEq | minus | minusAssign | bang | bangEq | nullish | nullishAssign
  | parenClose | parenOpen | percent | percentAssign | pipe | pipeAssign | pipePipe
  | pipePipeAssign | plus | plusAssign | question | questionDot | semicolon | shl | shlAssign
  | shr | shrAssign | slash | slashAssign | star | starAssign | starStar | starStarAssign
  | strictEq | strictNotEq | tilde | uShr | uShrAssign
  deriving DecidableEq, Inhabited, Repr

namespace Punctuator

def text : Punctuator → String
  | .amp => "&"
  | .ampAmp => "&&"
  | .ampAmpAssign => "&&="
  | .ampAssign => "&="
  | .arrow => "=>"
  | .assign => "="
  | .braceClose => "\x7d"
  | .braceOpen => "\x7b"
  | .bracketClose => "]"
  | .bracketOpen => "["
  | .caret => "^"
  | .caretAssign => "^="
  | .colon => ":"
  | .comma => ","
  | .dec => "--"
  | .dot => "."
  | .ellipsis => "..."
  | .eq => "=="
  | .gt => ">"
  | .gtEq => ">="
  | .inc => "++"
  | .lt => "<"
  | .ltEq => "<="
  | .minus => "-"
  | .minusAssign => "-="
  | .bang => "!"
  | .bangEq => "!="
  | .nullish => "??"
  | .nullishAssign => "??="
  | .parenClose => ")"
  | .parenOpen => "("
  | .percent => "%"
  | .percentAssign => "%="
  | .pipe => "|"
  | .pipeAssign => "|="
  | .pipePipe => "||"
  | .pipePipeAssign => "||="
  | .plus => "+"
  | .plusAssign => "+="
  | .question => "?"
  | .questionDot => "?."
  | .semicolon => ";"
  | .shl => "<<"
  | .shlAssign => "<<="
  | .shr => ">>"
  | .shrAssign => ">>="
  | .slash => "/"
  | .slashAssign => "/="
  | .star => "*"
  | .starAssign => "*="
  | .starStar => "**"
  | .starStarAssign => "**="
  | .strictEq => "==="
  | .strictNotEq => "!=="
  | .tilde => "~"
  | .uShr => ">>>"
  | .uShrAssign => ">>>="

def all : List Punctuator := [
  .amp, .ampAmp, .ampAmpAssign, .ampAssign, .arrow, .assign, .braceClose, .braceOpen,
  .bracketClose, .bracketOpen, .caret, .caretAssign, .colon, .comma, .dec, .dot, .ellipsis, .eq,
  .gt, .gtEq, .inc, .lt, .ltEq, .minus, .minusAssign, .bang, .bangEq, .nullish, .nullishAssign,
  .parenClose, .parenOpen, .percent, .percentAssign, .pipe, .pipeAssign, .pipePipe,
  .pipePipeAssign, .plus, .plusAssign, .question, .questionDot, .semicolon, .shl, .shlAssign,
  .shr, .shrAssign, .slash, .slashAssign, .star, .starAssign, .starStar, .starStarAssign,
  .strictEq, .strictNotEq, .tilde, .uShr, .uShrAssign]

/-- The longer of two texts, the first of two equally long ones. -/
def longer (best : Option Punctuator) (p : Punctuator) : Option Punctuator :=
  match best with
  | none => some p
  | some q => if q.text.length < p.text.length then some p else some q

/-- The longest punctuator that the text begins with.  An automaton over the texts of all punctuators finds
it: a search that is anchored to the start of the text and takes the leftmost-longest match.  This documented
behaviour of the automaton is taken over here; the automaton itself is no part of the model. -/
def longest? (cs : List Char) : Option Punctuator :=
  (all.filter fun p => p.text.toList.isPrefixOf cs).foldl longer none

theorem mem_all (p : Punctuator) : p ∈ all := by cases p <;> decide

end Punctuator

/-- Reserved words. -/
inductive Keyword where
  | breakWord | caseWord | catchWord | classWord | constWord | continueWord | debuggerWord
  | defaultWord | deleteWord | doWord | elseWord | enumWord | exportWord | extendsWord
  | falseWord | finallyWord | forWord | functionWord | ifWord | importWord | inWord
  | instanceofWord | newWord | nullWord | returnWord | superWord | switchWord | thisWord
  | throwWord | trueWord | tryWord | typeofWord | varWord | voidWord | whileWord | withWord
  deriving DecidableEq, Inhabited, Repr

namespace Keyword

def text : Keyword → String
  | .breakWord => "break"
  | .caseWord => "case"
  | .catchWord => "catch"
  | .classWord => "class"
  | .constWord => "const"
  | .continueWord => "continue"
  | .debuggerWord => "debugger"
  | .defaultWord => "default"
  | .deleteWord => "delete"
  | .doWord => "do"
  | .elseWord => "else"
  | .enumWord => "enum"
  | .exportWord => "export"
  | .extendsWord => "extends"
  | .falseWord => "false"
  | .finallyWord => "finally"
  | .forWord => "for"
  | .functionWord => "function"
  | .ifWord => "if"
  | .importWord => "import"
  | .inWord => "in"
  | .instanceofWord => "instanceof"
  | .newWord => "new"
  | .nullWord => "null"
  | .returnWord => "return"
  | .superWord => "super"
  | .switchWord => "switch"
  | .thisWord => "this"
  | .throwWord => "throw"
  | .trueWord => "true"
  | .tryWord => "try"
  | .typeofWord => "typeof"
  | .varWord => "var"
  | .voidWord => "void"
  | .whileWord => "while"
  | .withWord => "with"

def all : List Keyword := [
  .breakWord, .caseWord, .catchWord, .classWord, .constWord, .continueWord, .debuggerWord,
  .defaultWord, .deleteWord, .doWord, .elseWord, .enumWord, .exportWord, .extendsWord,
  .falseWord, .finallyWord, .forWord, .functionWord, .ifWord, .importWord, .inWord,
  .instanceofWord, .newWord, .nullWord, .returnWord, .superWord, .switchWord, .thisWord,
  .throwWord, .trueWord, .tryWord, .typeofWord, .varWord, .voidWord, .whileWord, .withWord]

/-- The reserved word with this text. -/
def ofText? (word : String) : Option Keyword := all.find? (·.text == word)

end Keyword

inductive TokenKind where
  | punct (p : Punctuator)
  | word (k : Keyword)
  /-- The end of the program. -/
  | eof
  | identifier
  | bigInt
  | number
  | regex
  | string
  /-- A name that begins with `#`. -/
  | privateName
  /-- A template without substitutions. -/
  | templateWhole
  /-- A template up to its first substitution. -/
  | templateHead
  /-- A template between two substitutions. -/
  | templateMiddle
  /-- A template after its last substitution. -/
  | templateTail
  deriving DecidableEq, Inhabited, Repr

namespace TokenKind

/-- The text of a token with a fixed text. -/
def text? : TokenKind → Option String
  | punct p => some p.text
  | word k => some k.text
  | _ => none

def isKeyword : TokenKind → Bool
  | word _ => true
  | _ => false

/-- Whether the token can be the name of a property. -/
def isIdentifierName : TokenKind → Bool
  | identifier => true
  | word _ => true
  | _ => false

/-- Whether the token begins with a slash, so that its extent depends on what is expected. -/
def isSlash : TokenKind → Bool
  | punct .slash => true
  | punct .slashAssign => true
  | regex => true
  | _ => false

/-- How messages name the token. -/
def describe : TokenKind → String
  | punct p => "`" ++ p.text ++ "`"
  | word k => "`" ++ k.text ++ "`"
  | eof => "end of input"
  | identifier => "identifier"
  | bigInt => "number"
  | number => "number"
  | regex => "regular expression"
  | string => "string"
  | privateName => "private name"
  | templateWhole => "template"
  | templateHead => "template"
  | templateMiddle => "template"
  | templateTail => "template"

end TokenKind

/-- A token with its place, the text it covers and what stands before it. -/
structure Token where
  kind : TokenKind
  span : Span
  text : String
  /-- A line break stands between the previous token and this one. -/
  afterNewline : Bool
  /-- The last documentation comment between the previous token and this one. -/
  doc : Option DocComment
  deriving DecidableEq, Inhabited, Repr

namespace Token

/-- Whether the token is the unreserved word `w`, written without escapes. -/
def isWord (t : Token) (w : String) : Bool := t.kind == .identifier && t.text == w

end Token
end NameAudit
