/-
# Tokens

A signature is cut into paths (`System.Guid`: identifiers with single dots
between them and no blanks inside) and six marks of punctuation.  Blanks may
stand anywhere else.  A path is as long as it can be, so two paths never touch.

Every token knows where it starts, in bytes, and where it ends.  The last token
is `done`, at the end of the text, unless a character turns up that begins no
token: then the last one is `stray`, and what follows is not looked at, because
no signature goes on after it.
-/
import TypeNaming.Signature.Basic

namespace TypeNaming.Signature

/-- What a token is. -/
inductive Lexeme where
  | path (text : String)
  | lessThan
  | greaterThan
  | leftParen
  | rightParen
  | comma
  | question
  /-- A character that begins no token. -/
  | stray
  /-- The end of the text. -/
  | done
  deriving DecidableEq, Repr

/-- A lexeme and the place where it stands. -/
structure Token where
  lexeme : Lexeme
  span : Span
  deriving DecidableEq, Repr

/-- The characters that may stand between two tokens. -/
def isSpace (c : Char) : Bool :=
  c = ' ' || c = '\t' || c = '\r' || c = '\n'

/-- The characters that begin an identifier. -/
def isIdentStart (c : Char) : Bool :=
  c.isAlpha || c = '_'

/-- The characters that go on with an identifier. -/
def isIdentRest (c : Char) : Bool :=
  c.isAlphanum || c = '_'

/-- What a character outside any path does. -/
inductive Opening where
  | space
  | punctuation (lexeme : Lexeme)
  | path
  | stray

/-- What the character does outside any path. -/
def opening (c : Char) : Opening :=
  if isSpace c then .space
  else if c = '<' then .punctuation .lessThan
  else if c = '>' then .punctuation .greaterThan
  else if c = '(' then .punctuation .leftParen
  else if c = ')' then .punctuation .rightParen
  else if c = ',' then .punctuation .comma
  else if c = '?' then .punctuation .question
  else if isIdentStart c then .path
  else .stray

/-- Whether a path goes on with the character, given what comes after it: a dot
belongs to the path only when an identifier follows. -/
def goesOn (c : Char) (rest : List Char) : Bool :=
  isIdentRest c || (c = '.' && (rest.head?.map isIdentStart).getD false)

/-- A path that has begun: its start, and its characters so far in reverse
order. -/
structure OpenPath where
  start : Nat
  reversed : List Char

/-- The token of a path that ends at byte `stop`. -/
def OpenPath.token (path : OpenPath) (stop : Nat) : Token :=
  ⟨.path (String.ofList path.reversed.reverse), ⟨path.start, stop⟩⟩

/-- The tokens of the rest of a text, which begins at byte `pos`, possibly in the
middle of a path. -/
def tokensFrom (pos : Nat) (path : Option OpenPath) : List Char → List Token
  | [] => (path.map (·.token pos)).toList ++ [⟨.done, ⟨pos, pos⟩⟩]
  | c :: rest =>
    let next := pos + c.utf8Size
    match path.filter fun _ => goesOn c rest with
    | some path => tokensFrom next (some { path with reversed := c :: path.reversed }) rest
    | none =>
      (path.map (·.token pos)).toList ++
        match opening c with
        | .space => tokensFrom next none rest
        | .punctuation lexeme => ⟨lexeme, ⟨pos, next⟩⟩ :: tokensFrom next none rest
        | .path => tokensFrom next (some ⟨pos, [c]⟩) rest
        | .stray => [⟨.stray, ⟨pos, next⟩⟩]

/-- The tokens of a text. -/
def tokens (text : List Char) : List Token :=
  tokensFrom 0 none text

end TypeNaming.Signature
