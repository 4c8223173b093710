/-
# The grammar

The grammar of `Signature.Expr` is read from left to right, one token at a time,
with no turning back: the brackets that are open are a stack of frames, and the
place says what has just been read inside the innermost one.  `step` is one
token, `read` all of them.

A frame is pushed by `<` or `(` and taken off by the bracket that closes it, so
the height of the stack is the nesting of brackets.

When the text is not in the grammar, the reader says what it missed.  At each
token it knows which parts could stand there, tries them in order, and remembers
the ones it tried in vain; `Missed` is the last such memory.  Commas and closing
brackets are never among them.
-/
import TypeNaming.Signature.Expr
import TypeNaming.Signature.Token

namespace TypeNaming.Signature

/-- A bracket that is open, with what has been read inside it. -/
inductive Frame where
  /-- `<` after a path that starts at byte `start`. -/
  | args (path : String) (start : Nat) (read : List TypeExpr)
  /-- `(` at byte `start`. -/
  | tuple (start : Nat) (read : List Element)

/-- What has just been read inside the innermost bracket. -/
inductive Place where
  /-- Nothing, an opening bracket or a comma: a type has to follow. -/
  | atType
  | afterPath (path : String) (span : Span)
  /-- A type that ends in a closing bracket. -/
  | afterBracket (type : TypeExpr)
  /-- A type that ends in `?`. -/
  | afterMark (type : TypeExpr)
  | afterLabel (element : Element)

/-- Where the reader is. -/
structure State where
  stack : List Frame
  place : Place

/-- What comes of reading one token. -/
inductive Step where
  | more (state : State)
  | accept (type : TypeExpr)
  | reject

/-- A token that follows a whole element. -/
def stepAfter (stack : List Frame) (element : Element) (token : Token) : Step :=
  match stack, token.lexeme with
  | [], .done => .accept element.type
  | .args path start read :: outer, .comma =>
    .more ⟨.args path start (read ++ [element.type]) :: outer, .atType⟩
  | .args path start read :: outer, .greaterThan =>
    .more ⟨outer,
      .afterBracket (.named path (read ++ [element.type]) ⟨start, token.span.stop⟩ none)⟩
  | .tuple start read :: outer, .comma =>
    .more ⟨.tuple start (read ++ [element]) :: outer, .atType⟩
  | .tuple start (first :: read) :: outer, .rightParen =>
    .more ⟨outer,
      .afterBracket (.tuple (first :: read ++ [element]) ⟨start, token.span.stop⟩ none)⟩
  | _, _ => .reject

/-- Whether the path is a single identifier. -/
def isIdent (path : String) : Bool :=
  !path.toList.contains '.'

/-- A token that follows a whole type: a label, or what follows an element. -/
def stepAfterType (stack : List Frame) (type : TypeExpr) (token : Token) : Step :=
  match stack, token.lexeme with
  | .tuple _ _ :: _, .path path =>
    if isIdent path then .more ⟨stack, .afterLabel ⟨type, some ⟨path, token.span⟩⟩⟩ else .reject
  | _, _ => stepAfter stack ⟨type, none⟩ token

/-- One token. -/
def step (state : State) (token : Token) : Step :=
  match state.place with
  | .atType =>
    match token.lexeme with
    | .path path => .more ⟨state.stack, .afterPath path token.span⟩
    | .leftParen => .more ⟨.tuple token.span.start [] :: state.stack, .atType⟩
    | _ => .reject
  | .afterPath path span =>
    -- The blanks after a bare path belong to it.
    let bare (mark : Option Span) := TypeExpr.named path [] ⟨span.start, token.span.start⟩ mark
    match token.lexeme with
    | .lessThan => .more ⟨.args path span.start [] :: state.stack, .atType⟩
    | .question => .more ⟨state.stack, .afterMark (bare (some token.span))⟩
    | _ => stepAfterType state.stack (bare none) token
  | .afterBracket type =>
    match token.lexeme with
    | .question => .more ⟨state.stack, .afterMark (type.withMark token.span)⟩
    | _ => stepAfterType state.stack type token
  | .afterMark type => stepAfterType state.stack type token
  | .afterLabel element => stepAfter state.stack element token

/-! ## What is missed -/

/-- A part of the grammar that the reader can name as missing. -/
inductive Part where
  | endOfText
  | type
  | question
  | lessThan
  | label
  deriving DecidableEq, Repr

/-- Whether the part begins with the token.  A label begins with any path,
because a path begins with an identifier. -/
def Part.beginsWith : Part → Lexeme → Bool
  | .endOfText, .done => true
  | .type, .path _ => true
  | .type, .leftParen => true
  | .question, .question => true
  | .lessThan, .lessThan => true
  | .label, .path _ => true
  | _, _ => false

/-- The part that may follow a whole type, by the innermost bracket. -/
def partAfterType : List Frame → List Part
  | [] => [.endOfText]
  | .args _ _ _ :: _ => []
  | .tuple _ _ :: _ => [.label]

/-- The parts that may follow, in the order in which they are tried. -/
def State.parts (state : State) : List Part :=
  match state.place with
  | .atType => [.type]
  | .afterPath _ _ => .lessThan :: .question :: partAfterType state.stack
  | .afterBracket _ => .question :: partAfterType state.stack
  | .afterMark _ => partAfterType state.stack
  | .afterLabel _ => []

/-- The parts that were tried in vain at a place. -/
structure Missed where
  start : Nat
  parts : List Part
  deriving DecidableEq, Repr

/-- At the beginning of a text a type is missing. -/
def Missed.initial : Missed := ⟨0, [.type]⟩

/-- The memory after the parts that may follow were tried on the token: those
before the first that fits, or the old memory when there are none. -/
def Missed.next (missed : Missed) (state : State) (token : Token) : Missed :=
  match state.parts.takeWhile fun part => !part.beginsWith token.lexeme with
  | [] => missed
  | part :: parts => ⟨token.span.start, part :: parts⟩

/-! ## The whole text -/

/-- The type written by the rest of the tokens. -/
def readFrom (state : State) (missed : Missed) : List Token → Except Missed TypeExpr
  | [] => .error missed
  | token :: rest =>
    let missed := missed.next state token
    match step state token with
    | .more state => readFrom state missed rest
    | .accept type => .ok type
    | .reject => .error missed

/-- The reader before the first token. -/
def State.initial : State := ⟨[], .atType⟩

/-- The type that a text writes, or what the reader missed. -/
def parse (text : List Char) : Except Missed TypeExpr :=
  readFrom State.initial Missed.initial (tokens text)

end TypeNaming.Signature
