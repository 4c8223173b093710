/-
# Derivations

The grammar of signatures as a context-free grammar over lexemes:

    type    =  base [ `?` ]
    base    =  path [ `<` type { `,` type } `>` ]  |  `(` elem `,` elem { `,` elem } `)`
    elem    =  type [ identifier ]

`Derives written lexemes` says that the lexemes are derivable as the type
`written`.  It is a relation between trees and rows of lexemes only: there is no
reader in it, no place in the text and no order in which anything is tried.

`parse_eq_ok_iff` ties the reader to it, in both directions.  Soundness is an
invariant of the reader's state, `Reads state lexemes`: the open brackets and the
place account for every lexeme that was read.  It holds at the start, and
`step_sound` keeps it token by token until one of them is accepted.
Completeness goes through `Spells`, the derivations of rows of tokens: these have
places, and so does the tree.  Every derivable row spells a tree (`exists_spells`),
and the reader takes what is spelled without turning back, whatever brackets are open
around it (`Spells.accepted`).
-/
import TypeNaming.Signature.Grammar
import TypeNaming.Proofs.Grammar.Lexis

namespace TypeNaming.Signature

/-! ## The grammar -/

mutual

/-- A type as it is written, without places; `marked` when it ends in `?`. -/
inductive Written where
  | named (path : String) (args : List Written) (marked : Bool)
  | tuple (elements : List WrittenElement) (marked : Bool)

/-- A tuple element as it is written. -/
inductive WrittenElement where
  | mk (type : Written) (label : Option String)

end

/-- The optional `?`. -/
def markLexemes (marked : Bool) : List Lexeme :=
  if marked then [.question] else []

/-- The optional label. -/
def labelLexemes : Option String → List Lexeme
  | none => []
  | some label => [.path label]

mutual

/-- The lexemes are derivable as the type. -/
inductive Derives : Written → List Lexeme → Prop
  | path (path : String) (marked : Bool) :
      Derives (.named path [] marked) (.path path :: markLexemes marked)
  | generic {args : List Written} {lexemes : List Lexeme} (path : String) (marked : Bool) :
      DerivesTypes args lexemes →
      Derives (.named path args marked)
        (.path path :: .lessThan :: lexemes ++ .greaterThan :: markLexemes marked)
  | tuple {elements : List WrittenElement} {lexemes : List Lexeme} (marked : Bool) :
      DerivesElements elements lexemes → 2 ≤ elements.length →
      Derives (.tuple elements marked)
        (.leftParen :: lexemes ++ .rightParen :: markLexemes marked)

/-- One type or more, with commas between them. -/
inductive DerivesTypes : List Written → List Lexeme → Prop
  | one {type : Written} {lexemes : List Lexeme} :
      Derives type lexemes → DerivesTypes [type] lexemes
  | more {type : Written} {types : List Written} {lexemes others : List Lexeme} :
      Derives type lexemes → DerivesTypes types others →
      DerivesTypes (type :: types) (lexemes ++ .comma :: others)

/-- A type, and a label that is a single identifier. -/
inductive DerivesElement : WrittenElement → List Lexeme → Prop
  | mk {type : Written} {label : Option String} {lexemes : List Lexeme} :
      Derives type lexemes → (∀ text, label = some text → '.' ∉ text.toList) →
      DerivesElement (.mk type label) (lexemes ++ labelLexemes label)

/-- One element or more, with commas between them. -/
inductive DerivesElements : List WrittenElement → List Lexeme → Prop
  | one {element : WrittenElement} {lexemes : List Lexeme} :
      DerivesElement element lexemes → DerivesElements [element] lexemes
  | more {element : WrittenElement} {elements : List WrittenElement}
      {lexemes others : List Lexeme} :
      DerivesElement element lexemes → DerivesElements elements others →
      DerivesElements (element :: elements) (lexemes ++ .comma :: others)

end

/-! ## The tree of the reader, without its places -/

mutual

/-- What is written, without the places. -/
def TypeExpr.written : TypeExpr → Written
  | .named path args _ mark => .named path (TypeExpr.writtenAll args) mark.isSome
  | .tuple elements _ mark => .tuple (Element.writtenAll elements) mark.isSome

/-- What is written for each of the types. -/
def TypeExpr.writtenAll : List TypeExpr → List Written
  | [] => []
  | type :: types => type.written :: TypeExpr.writtenAll types

/-- What is written, without the places. -/
def Element.written : Element → WrittenElement
  | .mk type label => .mk type.written (label.map (·.text))

/-- What is written for each of the elements. -/
def Element.writtenAll : List Element → List WrittenElement
  | [] => []
  | element :: elements => element.written :: Element.writtenAll elements

end

@[simp] theorem TypeExpr.writtenAll_eq_map (types : List TypeExpr) :
    TypeExpr.writtenAll types = types.map TypeExpr.written := by
  induction types with
  | nil => rfl
  | cons type types ih => simp [TypeExpr.writtenAll, ih]

@[simp] theorem Element.writtenAll_eq_map (elements : List Element) :
    Element.writtenAll elements = elements.map Element.written := by
  induction elements with
  | nil => rfl
  | cons element elements ih => simp [Element.writtenAll, ih]

/-! ## What has been read inside an open bracket -/

/-- Items with a comma after each of them. -/
inductive Followed {α : Type} (Item : α → List Lexeme → Prop) : List α → List Lexeme → Prop
  | nil : Followed Item [] []
  | cons {item : α} {items : List α} {lexemes others : List Lexeme} :
      Item item lexemes → Followed Item items others →
      Followed Item (item :: items) (lexemes ++ .comma :: others)

theorem Followed.snoc {α : Type} {Item : α → List Lexeme → Prop} {items : List α} {item : α}
    {lexemes own : List Lexeme} (h : Followed Item items lexemes) (hitem : Item item own) :
    Followed Item (items ++ [item]) (lexemes ++ own ++ [.comma]) := by
  induction h with
  | nil => exact .cons hitem .nil
  | cons hfirst _ ih => simpa using Followed.cons hfirst ih

theorem Followed.snoc_map {α β : Type} {Item : α → List Lexeme → Prop} {f : β → α}
    {items : List β} {item : β} {lexemes own : List Lexeme}
    (h : Followed Item (items.map f) lexemes) (hitem : Item (f item) own) :
    Followed Item ((items ++ [item]).map f) (lexemes ++ own ++ [.comma]) := by
  simpa using h.snoc hitem

theorem Followed.types {types : List Written} {type : Written} {lexemes own : List Lexeme}
    (h : Followed Derives types lexemes) (htype : Derives type own) :
    DerivesTypes (types ++ [type]) (lexemes ++ own) := by
  induction h with
  | nil => exact .one htype
  | cons hfirst _ ih => simpa using DerivesTypes.more hfirst ih

theorem Followed.elements {elements : List WrittenElement} {element : WrittenElement}
    {lexemes own : List Lexeme} (h : Followed DerivesElement elements lexemes)
    (helement : DerivesElement element own) :
    DerivesElements (elements ++ [element]) (lexemes ++ own) := by
  induction h with
  | nil => exact .one helement
  | cons hfirst _ ih => simpa using DerivesElements.more hfirst ih

/-- The open brackets account for the lexemes, up to what stands after the last
comma. -/
inductive StackReads : List Frame → List Lexeme → Prop
  | nil : StackReads [] []
  | args {stack : List Frame} {read : List TypeExpr} {lexemes own : List Lexeme}
      (path : String) (start : Nat) :
      StackReads stack lexemes → Followed Derives (read.map TypeExpr.written) own →
      StackReads (.args path start read :: stack) (lexemes ++ .path path :: .lessThan :: own)
  | tuple {stack : List Frame} {read : List Element} {lexemes own : List Lexeme} (start : Nat) :
      StackReads stack lexemes → Followed DerivesElement (read.map Element.written) own →
      StackReads (.tuple start read :: stack) (lexemes ++ .leftParen :: own)

/-- The state accounts for the lexemes. -/
inductive Reads : State → List Lexeme → Prop
  | atType {stack : List Frame} {lexemes : List Lexeme} :
      StackReads stack lexemes → Reads ⟨stack, .atType⟩ lexemes
  | afterPath {stack : List Frame} {lexemes : List Lexeme} (path : String) (span : Span) :
      StackReads stack lexemes → Reads ⟨stack, .afterPath path span⟩ (lexemes ++ [.path path])
  | afterBracket {stack : List Frame} {type : TypeExpr} {lexemes own : List Lexeme} :
      StackReads stack lexemes → Derives type.written own →
      (∀ mark, Derives (type.withMark mark).written (own ++ [.question])) →
      Reads ⟨stack, .afterBracket type⟩ (lexemes ++ own)
  | afterMark {stack : List Frame} {type : TypeExpr} {lexemes own : List Lexeme} :
      StackReads stack lexemes → Derives type.written own →
      Reads ⟨stack, .afterMark type⟩ (lexemes ++ own)
  | afterLabel {stack : List Frame} {start : Nat} {read : List Element} {element : Element}
      {lexemes own : List Lexeme} :
      StackReads (.tuple start read :: stack) lexemes → DerivesElement element.written own →
      Reads ⟨.tuple start read :: stack, .afterLabel element⟩ (lexemes ++ own)

/-- What comes of a step accounts for the lexemes and the one that was read: only
the end of the text is accepted, and only after a whole type. -/
def Step.Sound (lexemes : List Lexeme) (lexeme : Lexeme) : Step → Prop
  | .more state => Reads state (lexemes ++ [lexeme])
  | .accept type => lexeme = .done ∧ Derives type.written lexemes
  | .reject => True

/-! ## Soundness -/

theorem derivesElement_of_type {type : TypeExpr} {lexemes : List Lexeme}
    (h : Derives type.written lexemes) :
    DerivesElement (Element.mk type none).written lexemes := by
  have := @DerivesElement.mk type.written none lexemes h (by simp)
  simpa [labelLexemes, Element.written] using this

theorem derivesElement_of_label {type : TypeExpr} (label : Label) {lexemes : List Lexeme}
    (h : Derives type.written lexemes) (hlabel : isIdent label.text = true) :
    DerivesElement (Element.mk type (some label)).written (lexemes ++ [.path label.text]) := by
  refine @DerivesElement.mk type.written (some label.text) lexemes h fun text htext => ?_
  obtain rfl := Option.some.inj htext
  simpa [isIdent] using hlabel

theorem closeArgs_sound {stack : List Frame} {read : List TypeExpr} {type : TypeExpr}
    {lexemes inside own : List Lexeme} (hstack : StackReads stack lexemes)
    (hread : Followed Derives (read.map TypeExpr.written) inside)
    (htype : Derives type.written own) (path : String) (span : Span) :
    Reads ⟨stack, .afterBracket (.named path (read ++ [type]) span none)⟩
      (lexemes ++ .path path :: .lessThan :: inside ++ own ++ [.greaterThan]) := by
  have hrow : DerivesTypes ((read ++ [type]).map TypeExpr.written) (inside ++ own) := by
    simpa using hread.types htype
  have hbare := Derives.generic path false hrow
  have hmarked := Derives.generic path true hrow
  have : Reads ⟨stack, .afterBracket (.named path (read ++ [type]) span none)⟩ (lexemes ++ _) :=
    .afterBracket hstack
      (by simpa [TypeExpr.written, markLexemes] using hbare)
      (fun mark => by simpa [TypeExpr.withMark, TypeExpr.written, markLexemes] using hmarked)
  simpa using this

theorem closeTuple_sound {stack : List Frame} {read : List Element} {element : Element}
    {lexemes inside own : List Lexeme} (hstack : StackReads stack lexemes)
    (hread : Followed DerivesElement (read.map Element.written) inside) (hne : read ≠ [])
    (helement : DerivesElement element.written own) (span : Span) :
    Reads ⟨stack, .afterBracket (.tuple (read ++ [element]) span none)⟩
      (lexemes ++ .leftParen :: inside ++ own ++ [.rightParen]) := by
  have hrow : DerivesElements ((read ++ [element]).map Element.written) (inside ++ own) := by
    simpa using hread.elements helement
  have htwo : 2 ≤ ((read ++ [element]).map Element.written).length := by
    have := List.length_pos_iff.mpr hne
    simp
    omega
  have hbare := Derives.tuple false hrow htwo
  have hmarked := Derives.tuple true hrow htwo
  have : Reads ⟨stack, .afterBracket (.tuple (read ++ [element]) span none)⟩ (lexemes ++ _) :=
    .afterBracket hstack
      (by simpa [TypeExpr.written, markLexemes] using hbare)
      (fun mark => by simpa [TypeExpr.withMark, TypeExpr.written, markLexemes] using hmarked)
  simpa using this

theorem stepAfter_tuple_sound {stack : List Frame} {start : Nat} {read : List Element}
    {element : Element} {lexemes own : List Lexeme}
    (hstack : StackReads (.tuple start read :: stack) lexemes)
    (helement : DerivesElement element.written own) :
    ∀ token : Token, (stepAfter (.tuple start read :: stack) element token).Sound
      (lexemes ++ own) token.lexeme := by
  rintro ⟨lexeme, span⟩
  cases hstack with
  | tuple _ hstack hread =>
      cases lexeme with
      | comma =>
          have := Reads.atType (StackReads.tuple start hstack (hread.snoc_map helement))
          simpa [Step.Sound, stepAfter] using this
      | rightParen =>
          cases read with
          | nil => exact trivial
          | cons first read =>
              have := closeTuple_sound hstack hread (by simp) helement ⟨start, span.stop⟩
              simpa [Step.Sound, stepAfter] using this
      | _ => exact trivial

theorem stepAfter_type_sound {stack : List Frame} {type : TypeExpr}
    {lexemes own : List Lexeme} (hstack : StackReads stack lexemes)
    (htype : Derives type.written own) :
    ∀ token : Token, (stepAfter stack ⟨type, none⟩ token).Sound (lexemes ++ own)
      token.lexeme := by
  rintro ⟨lexeme, span⟩
  cases hstack with
  | nil =>
      cases lexeme with
      | done => exact ⟨rfl, by simpa [Element.type] using htype⟩
      | _ => exact trivial
  | @args _ read _ _ path start hstack hread =>
      cases lexeme with
      | comma =>
          have := Reads.atType (StackReads.args path start hstack (hread.snoc_map htype))
          simpa [Step.Sound, stepAfter, Element.type] using this
      | greaterThan =>
          have := closeArgs_sound hstack hread htype path ⟨start, span.stop⟩
          simpa [Step.Sound, stepAfter, Element.type] using this
      | _ => exact trivial
  | tuple start hstack hread =>
      exact stepAfter_tuple_sound (.tuple start hstack hread) (derivesElement_of_type htype) _

theorem stepAfterType_sound {stack : List Frame} {type : TypeExpr} {lexemes own : List Lexeme}
    (hstack : StackReads stack lexemes) (htype : Derives type.written own) (token : Token) :
    (stepAfterType stack type token).Sound (lexemes ++ own) token.lexeme := by
  unfold stepAfterType
  split
  · next start read outer path hlexeme =>
      split
      · next hident =>
          have helement := derivesElement_of_label ⟨path, token.span⟩ htype hident
          have := Reads.afterLabel hstack helement
          simpa [Step.Sound, hlexeme] using this
      · exact trivial
  · exact stepAfter_type_sound hstack htype token

/-- One token keeps the account. -/
theorem step_sound {state : State} {lexemes : List Lexeme} (h : Reads state lexemes)
    (token : Token) : (step state token).Sound lexemes token.lexeme := by
  obtain ⟨lexeme, span⟩ := token
  cases h with
  | atType hstack =>
      cases lexeme with
      | path path => exact .afterPath path span hstack
      | leftParen => exact .atType (.tuple span.start hstack .nil)
      | _ => exact trivial
  | afterPath path place hstack =>
      have hbare (mark : Option Span) :
          Derives (TypeExpr.named path [] ⟨place.start, span.start⟩ mark).written
            (.path path :: markLexemes mark.isSome) := by
        simpa [TypeExpr.written] using Derives.path path mark.isSome
      cases lexeme with
      | lessThan =>
          have : StackReads (.args path place.start [] :: _) _ :=
            .args path place.start hstack .nil
          have := Reads.atType this
          simpa [Step.Sound, step] using this
      | question =>
          have := Reads.afterMark hstack (hbare (some span))
          simpa [Step.Sound, step, markLexemes] using this
      | _ => exact stepAfterType_sound hstack (hbare none) _
  | afterBracket hstack hbare hmarked =>
      cases lexeme with
      | question =>
          have := Reads.afterMark hstack (hmarked span)
          simpa [Step.Sound, step] using this
      | _ => exact stepAfterType_sound hstack hbare _
  | afterMark hstack htype => exact stepAfterType_sound hstack htype _
  | afterLabel hstack helement => exact stepAfter_tuple_sound hstack helement _

/-- The type that a run accepts.  What a run misses on its way has no part in it. -/
def accepted (state : State) : List Token → Option TypeExpr
  | [] => none
  | token :: rest =>
    match step state token with
    | .more state => accepted state rest
    | .accept type => some type
    | .reject => none

theorem readFrom_eq_ok_iff {type : TypeExpr} : ∀ {tokens : List Token} {state : State}
    {missed : Missed}, readFrom state missed tokens = .ok type ↔
      accepted state tokens = some type
  | [], _, _ => by simp [readFrom, accepted]
  | token :: tokens, state, _ => by
      rw [readFrom, accepted]
      cases step state token with
      | more next => exact readFrom_eq_ok_iff
      | accept type => simp
      | reject => simp

/-- A run that accepts has read a derivable row, and the end of the text after
it. -/
theorem accepted_sound : ∀ {tokens : List Token} {state : State} {lexemes : List Lexeme}
    {type : TypeExpr}, Reads state lexemes → accepted state tokens = some type →
    ∃ own rest, tokens.map (·.lexeme) = own ++ .done :: rest ∧
      Derives type.written (lexemes ++ own)
  | [], _, _, _, _, h => by simp [accepted] at h
  | token :: tokens, state, lexemes, type, hreads, h => by
      have hstep := step_sound hreads token
      rw [accepted] at h
      cases hs : step state token with
      | more next =>
          rw [hs] at h hstep
          obtain ⟨own, rest, hown, hderives⟩ := accepted_sound hstep h
          exact ⟨token.lexeme :: own, rest, by simp [hown], by simpa using hderives⟩
      | accept other =>
          rw [hs] at h hstep
          obtain ⟨hdone, hderives⟩ := hstep
          obtain rfl : other = type := by simpa using h
          exact ⟨[], tokens.map (·.lexeme), by simp [hdone], by simpa using hderives⟩
      | reject => simp [hs] at h

/-! ## Completeness -/

/-- The type that the run accepts after a step. -/
def resume (step : Step) (tokens : List Token) : Option TypeExpr :=
  match step with
  | .more state => accepted state tokens
  | .accept type => some type
  | .reject => none

theorem accepted_cons (state : State) (token : Token) (tokens : List Token) :
    accepted state (token :: tokens) = resume (step state token) tokens := rfl

/-- A token that goes on with no type that has been read up to it. -/
def Token.Ends (token : Token) : Prop :=
  token.lexeme ≠ .lessThan ∧ token.lexeme ≠ .question

theorem Token.ends_of_eq {token : Token} {lexeme : Lexeme} (h : token.lexeme = lexeme)
    (hless : lexeme ≠ .lessThan) (hquestion : lexeme ≠ .question) : token.Ends := by
  subst h
  exact ⟨hless, hquestion⟩

theorem step_afterPath {stack : List Frame} {path : String} {span : Span} {token : Token}
    (h : token.Ends) :
    step ⟨stack, .afterPath path span⟩ token
      = stepAfterType stack (.named path [] ⟨span.start, token.span.start⟩ none) token := by
  obtain ⟨lexeme, place⟩ := token
  cases lexeme <;> first | rfl | simp [Token.Ends] at h

theorem step_afterBracket {stack : List Frame} {type : TypeExpr} {token : Token}
    (h : token.Ends) :
    step ⟨stack, .afterBracket type⟩ token = stepAfterType stack type token := by
  obtain ⟨lexeme, place⟩ := token
  cases lexeme <;> first | rfl | simp [Token.Ends] at h

theorem stepAfterType_tuple {stack : List Frame} {start : Nat} {read : List Element}
    (type : TypeExpr) {token : Token} (h : ∀ path, token.lexeme ≠ .path path) :
    stepAfterType (.tuple start read :: stack) type token
      = stepAfter (.tuple start read :: stack) ⟨type, none⟩ token := by
  obtain ⟨lexeme, place⟩ := token
  cases lexeme with
  | path path => exact absurd rfl (h path)
  | _ => rfl

/-- The optional `?`, where it stands. -/
def markTokens : Option Span → List Token
  | none => []
  | some span => [⟨.question, span⟩]

mutual

/-- The tokens spell the type, places included.  A path without type arguments takes the
blanks after it, up to the place `next` where the token after the type starts. -/
inductive Spells : List Token → Nat → TypeExpr → Prop
  | path (path : String) (span : Span) (mark : Option Span) (next : Nat) :
      Spells (⟨.path path, span⟩ :: markTokens mark) next
        (.named path [] ⟨span.start, mark.elim next (·.start)⟩ mark)
  | generic {tokens : List Token} {args : List TypeExpr} (path : String)
      (span opening closing : Span) (mark : Option Span) (next : Nat) :
      SpellsTypes tokens closing.start args →
      Spells (⟨.path path, span⟩ :: ⟨.lessThan, opening⟩ :: tokens ++
          ⟨.greaterThan, closing⟩ :: markTokens mark) next
        (.named path args ⟨span.start, closing.stop⟩ mark)
  | tuple {tokens : List Token} {elements : List Element} (opening closing : Span)
      (mark : Option Span) (next : Nat) :
      SpellsElements tokens closing.start elements → 2 ≤ elements.length →
      Spells (⟨.leftParen, opening⟩ :: tokens ++ ⟨.rightParen, closing⟩ :: markTokens mark) next
        (.tuple elements ⟨opening.start, closing.stop⟩ mark)

/-- The tokens spell the types, with commas between them. -/
inductive SpellsTypes : List Token → Nat → List TypeExpr → Prop
  | one {tokens : List Token} {next : Nat} {type : TypeExpr} :
      Spells tokens next type → SpellsTypes tokens next [type]
  | more {tokens others : List Token} {next : Nat} {type : TypeExpr} {types : List TypeExpr}
      (comma : Span) : Spells tokens comma.start type → SpellsTypes others next types →
      SpellsTypes (tokens ++ ⟨.comma, comma⟩ :: others) next (type :: types)

/-- The tokens spell the element. -/
inductive SpellsElement : List Token → Nat → Element → Prop
  | bare {tokens : List Token} {next : Nat} {type : TypeExpr} :
      Spells tokens next type → SpellsElement tokens next (.mk type none)
  | labelled {tokens : List Token} {type : TypeExpr} {label : Label} (next : Nat) :
      Spells tokens label.span.start type → isIdent label.text = true →
      SpellsElement (tokens ++ [⟨.path label.text, label.span⟩]) next (.mk type (some label))

/-- The tokens spell the elements, with commas between them. -/
inductive SpellsElements : List Token → Nat → List Element → Prop
  | one {tokens : List Token} {next : Nat} {element : Element} :
      SpellsElement tokens next element → SpellsElements tokens next [element]
  | more {tokens others : List Token} {next : Nat} {element : Element} {elements : List Element}
      (comma : Span) : SpellsElement tokens comma.start element →
      SpellsElements others next elements →
      SpellsElements (tokens ++ ⟨.comma, comma⟩ :: others) next (element :: elements)

end

/-! ### Every derivable row spells a type -/

theorem map_lexeme_eq_mark {tokens : List Token} {marked : Bool}
    (h : tokens.map (·.lexeme) = markLexemes marked) :
    ∃ mark, Option.isSome mark = marked ∧ tokens = markTokens mark := by
  cases marked with
  | false =>
      obtain rfl : tokens = [] := by simpa [markLexemes] using h
      exact ⟨none, rfl, rfl⟩
  | true =>
      obtain ⟨⟨_, place⟩, rfl, hquestion⟩ : ∃ question, tokens = [question] ∧
          question.lexeme = .question := by
        simpa [markLexemes, List.map_eq_singleton_iff] using h
      obtain rfl := hquestion
      exact ⟨some place, rfl, rfl⟩

mutual

/-- Whatever the places of its tokens are, a derivable row spells a type. -/
theorem exists_spells {type : Written} {lexemes : List Lexeme} (h : Derives type lexemes)
    {tokens : List Token} (htokens : tokens.map (·.lexeme) = lexemes) (next : Nat) :
    ∃ own, Spells tokens next own ∧ TypeExpr.written own = type := by
  cases h with
  | path path marked =>
      obtain ⟨⟨_, span⟩, _, rfl, rfl, hmark⟩ := List.map_eq_cons_iff.mp htokens
      obtain ⟨mark, rfl, rfl⟩ := map_lexeme_eq_mark hmark
      exact ⟨_, .path path span mark next, by simp [TypeExpr.written]⟩
  | generic path marked hargs =>
      obtain ⟨⟨_, span⟩, _, rfl, rfl, hopen⟩ := List.map_eq_cons_iff.mp htokens
      obtain ⟨⟨_, opening⟩, _, rfl, rfl, hafter⟩ := List.map_eq_cons_iff.mp hopen
      obtain ⟨inside, _, rfl, hinside, hclose⟩ := List.map_eq_append_iff.mp hafter
      obtain ⟨⟨_, closing⟩, _, rfl, rfl, hmark⟩ := List.map_eq_cons_iff.mp hclose
      obtain ⟨mark, rfl, rfl⟩ := map_lexeme_eq_mark hmark
      obtain ⟨args, hspells, rfl⟩ := exists_spellsTypes hargs hinside closing.start
      exact ⟨_, .generic path span opening closing mark next hspells, by simp [TypeExpr.written]⟩
  | tuple marked helements htwo =>
      obtain ⟨⟨_, opening⟩, _, rfl, rfl, hafter⟩ := List.map_eq_cons_iff.mp htokens
      obtain ⟨inside, _, rfl, hinside, hclose⟩ := List.map_eq_append_iff.mp hafter
      obtain ⟨⟨_, closing⟩, _, rfl, rfl, hmark⟩ := List.map_eq_cons_iff.mp hclose
      obtain ⟨mark, rfl, rfl⟩ := map_lexeme_eq_mark hmark
      obtain ⟨elements, hspells, rfl⟩ := exists_spellsElements helements hinside closing.start
      rw [List.length_map] at htwo
      exact ⟨_, .tuple opening closing mark next hspells htwo, by simp [TypeExpr.written]⟩

theorem exists_spellsTypes {types : List Written} {lexemes : List Lexeme}
    (h : DerivesTypes types lexemes) {tokens : List Token}
    (htokens : tokens.map (·.lexeme) = lexemes) (next : Nat) :
    ∃ own, SpellsTypes tokens next own ∧ own.map TypeExpr.written = types := by
  cases h with
  | one htype =>
      obtain ⟨own, hown, rfl⟩ := exists_spells htype htokens next
      exact ⟨[own], .one hown, rfl⟩
  | more htype hothers =>
      obtain ⟨first, _, rfl, hfirst, hafter⟩ := List.map_eq_append_iff.mp htokens
      obtain ⟨⟨_, comma⟩, others, rfl, rfl, hrest⟩ := List.map_eq_cons_iff.mp hafter
      obtain ⟨own, hown, rfl⟩ := exists_spells htype hfirst comma.start
      obtain ⟨types, htypes, rfl⟩ := exists_spellsTypes hothers hrest next
      exact ⟨own :: types, .more comma hown htypes, rfl⟩

theorem exists_spellsElement {element : WrittenElement} {lexemes : List Lexeme}
    (h : DerivesElement element lexemes) {tokens : List Token}
    (htokens : tokens.map (·.lexeme) = lexemes) (next : Nat) :
    ∃ own, SpellsElement tokens next own ∧ Element.written own = element := by
  cases h with
  | @mk type label lexemes htype hident =>
      obtain ⟨inside, after, rfl, hinside, hafter⟩ := List.map_eq_append_iff.mp htokens
      cases label with
      | none =>
          obtain rfl : after = [] := by simpa [labelLexemes] using hafter
          obtain ⟨own, hown, rfl⟩ := exists_spells htype hinside next
          exact ⟨.mk own none, by simpa using SpellsElement.bare hown, rfl⟩
      | some text =>
          obtain ⟨⟨_, span⟩, rfl, hlexeme⟩ : ∃ label, after = [label] ∧
              label.lexeme = .path text := by
            simpa [labelLexemes, List.map_eq_singleton_iff] using hafter
          obtain rfl := hlexeme
          obtain ⟨own, hown, rfl⟩ := exists_spells htype hinside span.start
          have hident : isIdent text = true := by simpa [isIdent] using hident text rfl
          exact ⟨_, @SpellsElement.labelled inside own ⟨text, span⟩ next hown hident, rfl⟩

theorem exists_spellsElements {elements : List WrittenElement} {lexemes : List Lexeme}
    (h : DerivesElements elements lexemes) {tokens : List Token}
    (htokens : tokens.map (·.lexeme) = lexemes) (next : Nat) :
    ∃ own, SpellsElements tokens next own ∧ own.map Element.written = elements := by
  cases h with
  | one helement =>
      obtain ⟨own, hown, rfl⟩ := exists_spellsElement helement htokens next
      exact ⟨[own], .one hown, rfl⟩
  | more helement hothers =>
      obtain ⟨first, _, rfl, hfirst, hafter⟩ := List.map_eq_append_iff.mp htokens
      obtain ⟨⟨_, comma⟩, others, rfl, rfl, hrest⟩ := List.map_eq_cons_iff.mp hafter
      obtain ⟨own, hown, rfl⟩ := exists_spellsElement helement hfirst comma.start
      obtain ⟨elements, helements, rfl⟩ := exists_spellsElements hothers hrest next
      exact ⟨own :: elements, .more comma hown helements, rfl⟩

end

/-! ### The reader takes what is spelled -/

/-- After a closing bracket the reader takes the `?` that is there, and no other. -/
theorem accepted_afterBracket (stack : List Frame) (type : TypeExpr) (mark : Option Span)
    {token : Token} (rest : List Token) (hends : token.Ends) :
    accepted ⟨stack, .afterBracket type⟩ (markTokens mark ++ token :: rest)
      = resume (stepAfterType stack (mark.elim type type.withMark) token) rest := by
  cases mark with
  | none =>
      rw [markTokens, List.nil_append, accepted_cons, step_afterBracket hends]
      rfl
  | some place => rfl

theorem accepted_afterPath (stack : List Frame) (path : String) (span : Span)
    (mark : Option Span) {token : Token} (rest : List Token) (hends : token.Ends) :
    accepted ⟨stack, .afterPath path span⟩ (markTokens mark ++ token :: rest)
      = resume (stepAfterType stack
          (.named path [] ⟨span.start, mark.elim token.span.start (·.start)⟩ mark) token) rest := by
  cases mark with
  | none =>
      rw [markTokens, List.nil_append, accepted_cons, step_afterPath hends]
      rfl
  | some place => rfl

mutual

/-- The reader takes the type that the tokens spell, whatever is open around it, and then
sees what follows. -/
theorem Spells.accepted {tokens : List Token} {next : Nat} {type : TypeExpr}
    (h : Spells tokens next type) : ∀ (stack : List Frame) {token : Token} (rest : List Token),
    token.span.start = next → token.Ends →
      accepted ⟨stack, .atType⟩ (tokens ++ token :: rest)
        = resume (stepAfterType stack type token) rest := by
  intro stack token rest hnext hends
  cases h with
  | path path span mark =>
      obtain rfl := hnext
      exact accepted_afterPath stack path span mark rest hends
  | @generic tokens args path span opening closing mark _ hargs =>
      have hinside := hargs.accepted path span.start [] stack (markTokens mark ++ token :: rest) rfl
      have hmark := accepted_afterBracket stack
        (.named path args ⟨span.start, closing.stop⟩ none) mark rest hends
      have htype : (TypeExpr.named path args ⟨span.start, closing.stop⟩ mark) =
          mark.elim (.named path args ⟨span.start, closing.stop⟩ none)
            (TypeExpr.named path args ⟨span.start, closing.stop⟩ none).withMark := by
        cases mark <;> rfl
      rw [List.nil_append] at hinside
      rw [htype, ← hmark, ← hinside]
      simp only [List.cons_append, List.append_assoc]
      rfl
  | @tuple tokens elements opening closing mark _ helements htwo =>
      have hinside := helements.accepted opening.start [] stack
        (markTokens mark ++ token :: rest) rfl (Or.inr htwo)
      have hmark := accepted_afterBracket stack
        (.tuple elements ⟨opening.start, closing.stop⟩ none) mark rest hends
      have htype : (TypeExpr.tuple elements ⟨opening.start, closing.stop⟩ mark) =
          mark.elim (.tuple elements ⟨opening.start, closing.stop⟩ none)
            (TypeExpr.tuple elements ⟨opening.start, closing.stop⟩ none).withMark := by
        cases mark <;> rfl
      rw [List.nil_append] at hinside
      rw [htype, ← hmark, ← hinside]
      simp only [List.cons_append, List.append_assoc]
      rfl

theorem SpellsTypes.accepted {tokens : List Token} {next : Nat} {types : List TypeExpr}
    (h : SpellsTypes tokens next types) : ∀ (path : String) (start : Nat) (read : List TypeExpr)
    (stack : List Frame) (rest : List Token) {closing : Span}, closing.start = next →
      accepted ⟨.args path start read :: stack, .atType⟩
          (tokens ++ ⟨.greaterThan, closing⟩ :: rest)
        = accepted ⟨stack, .afterBracket
            (.named path (read ++ types) ⟨start, closing.stop⟩ none)⟩ rest := by
  intro path start read stack rest closing hnext
  cases h with
  | one htype =>
      rw [htype.accepted _ rest hnext (Token.ends_of_eq rfl (by simp) (by simp))]
      rfl
  | @more tokens others _ type types comma htype hothers =>
      have hrest := hothers.accepted path start (read ++ [type]) stack rest hnext
      rw [List.append_assoc, List.singleton_append] at hrest
      rw [List.append_assoc, List.cons_append,
        htype.accepted _ _ rfl (Token.ends_of_eq rfl (by simp) (by simp))]
      exact hrest

/-- An element in a tuple, up to the comma or the bracket that follows it. -/
theorem SpellsElement.accepted {tokens : List Token} {next : Nat} {element : Element}
    (h : SpellsElement tokens next element) : ∀ (start : Nat) (read : List Element)
    (stack : List Frame) {token : Token} (rest : List Token), token.span.start = next →
    token.Ends → (∀ path, token.lexeme ≠ .path path) →
      accepted ⟨.tuple start read :: stack, .atType⟩ (tokens ++ token :: rest)
        = resume (stepAfter (.tuple start read :: stack) element token) rest := by
  intro start read stack token rest hnext hends hlabel
  cases h with
  | bare htype =>
      rw [htype.accepted _ rest hnext hends, stepAfterType_tuple _ hlabel]
  | labelled _ htype hident =>
      rw [List.append_assoc, List.singleton_append,
        htype.accepted _ _ rfl (Token.ends_of_eq rfl (by simp) (by simp))]
      simp [stepAfterType, hident, resume, accepted_cons, step]

theorem SpellsElements.accepted {tokens : List Token} {next : Nat} {elements : List Element}
    (h : SpellsElements tokens next elements) : ∀ (start : Nat) (read : List Element)
    (stack : List Frame) (rest : List Token) {closing : Span}, closing.start = next →
    read ≠ [] ∨ 2 ≤ elements.length →
      accepted ⟨.tuple start read :: stack, .atType⟩ (tokens ++ ⟨.rightParen, closing⟩ :: rest)
        = accepted ⟨stack, .afterBracket
            (.tuple (read ++ elements) ⟨start, closing.stop⟩ none)⟩ rest := by
  intro start read stack rest closing hnext htwo
  cases h with
  | one helement =>
      rw [helement.accepted start read stack rest hnext
        (Token.ends_of_eq rfl (by simp) (by simp)) (by simp)]
      cases read with
      | nil => simp at htwo
      | cons first read => rfl
  | @more tokens others _ element elements comma helement hothers =>
      have hrest := hothers.accepted start (read ++ [element]) stack rest hnext
        (Or.inl (by simp))
      rw [List.append_assoc, List.singleton_append] at hrest
      rw [List.append_assoc, List.cons_append, helement.accepted start read stack _ rfl
        (Token.ends_of_eq rfl (by simp) (by simp)) (by simp)]
      exact hrest

end

/-! ## The whole text -/

theorem parse_of_spells {text : List Char} {inside : List Token} {stop : Span}
    {type : TypeExpr} (htokens : tokens text = inside ++ [⟨.done, stop⟩])
    (h : Spells inside stop.start type) : parse text = .ok type := by
  refine readFrom_eq_ok_iff.mpr ?_
  rw [htokens, State.initial, h.accepted [] [] rfl (Token.ends_of_eq rfl (by simp) (by simp))]
  rfl

theorem exists_spells_of_derives {text : List Char} {lexemes : List Lexeme} {type : Written}
    (hcut : Cut text lexemes) (h : Derives type lexemes) :
    ∃ inside stop own, tokens text = inside ++ [⟨.done, stop⟩] ∧ Spells inside stop.start own ∧
      own.written = type := by
  obtain ⟨inside, last, htokens, hinside, hlast⟩ :=
    List.map_eq_append_iff.mp (cut_iff.mp hcut)
  obtain ⟨⟨_, stop⟩, rfl, hdone⟩ : ∃ token : Token, last = [token] ∧ token.lexeme = .done := by
    simpa [List.map_eq_singleton_iff] using hlast
  obtain rfl := hdone
  obtain ⟨own, hown, hwritten⟩ := exists_spells h hinside stop.start
  exact ⟨inside, stop, own, htokens, hown, hwritten⟩

theorem parse_of_derives {text : List Char} {lexemes : List Lexeme} {type : Written}
    (hcut : Cut text lexemes) (h : Derives type lexemes) :
    ∃ own, parse text = .ok own ∧ own.written = type := by
  obtain ⟨inside, stop, own, htokens, hown, hwritten⟩ := exists_spells_of_derives hcut h
  exact ⟨own, parse_of_spells htokens hown, hwritten⟩

theorem derives_of_parse {text : List Char} {type : TypeExpr} (h : parse text = .ok type) :
    ∃ lexemes, Cut text lexemes ∧ Derives type.written lexemes := by
  obtain ⟨own, rest, htokens, hderives⟩ :=
    accepted_sound (.atType .nil) (readFrom_eq_ok_iff.mp h)
  obtain rfl := (doneLast_tokensFrom text 0 none).nil_of_eq htokens
  exact ⟨own, cut_iff.mpr htokens, by simpa using hderives⟩

/-- What the reader finds is spelled by the tokens of the text. -/
theorem spells_of_parse {text : List Char} {type : TypeExpr} (h : parse text = .ok type) :
    ∃ inside stop, tokens text = inside ++ [⟨.done, stop⟩] ∧ Spells inside stop.start type := by
  obtain ⟨lexemes, hcut, hderives⟩ := derives_of_parse h
  obtain ⟨inside, stop, own, htokens, hown, -⟩ := exists_spells_of_derives hcut hderives
  obtain rfl := Except.ok.inj ((parse_of_spells htokens hown).symm.trans h)
  exact ⟨inside, stop, htokens, hown⟩

/-- The reader accepts a text exactly when its lexemes are derivable, and finds the
type that they are derivable as. -/
theorem parse_eq_ok_iff {text : List Char} {type : Written} :
    (∃ own, parse text = .ok own ∧ own.written = type) ↔
      ∃ lexemes, Cut text lexemes ∧ Derives type lexemes := by
  constructor
  · rintro ⟨own, hparse, rfl⟩
    exact derives_of_parse hparse
  · rintro ⟨lexemes, hcut, hderives⟩
    exact parse_of_derives hcut hderives

/-- A text is derivable as one type only. -/
theorem derives_unique {text : List Char} {lexemes others : List Lexeme} {type other : Written}
    (hcut : Cut text lexemes) (h : Derives type lexemes) (hcut' : Cut text others)
    (h' : Derives other others) : type = other := by
  obtain ⟨own, hown, rfl⟩ := parse_of_derives hcut h
  obtain ⟨own', hown', rfl⟩ := parse_of_derives hcut' h'
  obtain rfl := Except.ok.inj (hown.symm.trans hown')
  rfl

end TypeNaming.Signature
