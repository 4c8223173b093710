/-
# Moving a text

A text that stands `d` bytes further to the right is scanned, read and understood as it was,
with all places moved by `d`: `tokensFrom_shift` says so of the scanner, `step_shift` and
`accepted_shift` of the reader, one token and then all of them, and `meaning_shift` of the
meaning.

The text that the spans point into has a part in the wording of one fault only, so the
meaning that is found does not depend on it.
-/
import TypeNaming.Proofs.Grammar.Denotation

namespace TypeNaming

/-! ## Places that are moved -/

/-- The range, moved to the right. -/
def Span.shift (d : Nat) (span : Span) : Span :=
  ⟨span.start + d, span.stop + d⟩

namespace TypeFacts

variable {α β : Type}

mutual

/-- The type with its notes replaced. -/
def mapNote (f : α → β) : TypeFacts α → TypeFacts β
  | .mk facts args note => .mk facts (mapNotes f args) (f note)

/-- The types with their notes replaced. -/
def mapNotes (f : α → β) : List (TypeFacts α) → List (TypeFacts β)
  | [] => []
  | type :: types => mapNote f type :: mapNotes f types

end

@[simp] theorem mapNotes_eq_map (f : α → β) (types : List (TypeFacts α)) :
    mapNotes f types = types.map (mapNote f) := by
  induction types with
  | nil => rfl
  | cons type types ih => simp [mapNotes, ih]

mutual

theorem mapNote_mapNote {γ : Type} (f : α → β) (g : β → γ) : ∀ type : TypeFacts α,
    (type.mapNote f).mapNote g = type.mapNote (g ∘ f)
  | .mk facts args note => by
      simp only [mapNote, mapNotes_eq_map, map_mapNote_mapNote f g args, Function.comp_apply]

theorem map_mapNote_mapNote {γ : Type} (f : α → β) (g : β → γ) : ∀ types : List (TypeFacts α),
    (types.map (mapNote f)).map (mapNote g) = types.map (mapNote (g ∘ f))
  | [] => rfl
  | type :: types => by
      simp only [List.map_cons, mapNote_mapNote f g type, map_mapNote_mapNote f g types]

end

mutual

theorem bare_mapNote (f : α → β) : ∀ type : TypeFacts α, (type.mapNote f).bare = type.bare
  | .mk facts args note => by
      rw [mapNote, mapNotes_eq_map, bare_mk, bare_mk, map_bare_mapNote f args]

theorem map_bare_mapNote (f : α → β) : ∀ types : List (TypeFacts α),
    (types.map (mapNote f)).map bare = types.map bare
  | [] => rfl
  | type :: types => by
      simp only [List.map_cons, bare_mapNote f type, map_bare_mapNote f types]

end

@[simp] theorem facts_mapNote (f : α → β) (type : TypeFacts α) :
    (type.mapNote f).facts = type.facts := by
  cases type; rfl

@[simp] theorem args_mapNote (f : α → β) (type : TypeFacts α) :
    (type.mapNote f).args = type.args.map (mapNote f) := by
  cases type
  simp [mapNote, args]

@[simp] theorem note_mapNote (f : α → β) (type : TypeFacts α) :
    (type.mapNote f).note = f type.note := by
  cases type; rfl

end TypeFacts

namespace Signature

/-- The type, written further to the right. -/
def shift (d : Nat) (signature : Signature) : Signature :=
  signature.mapNote (Span.shift d)

theorem shift_shift (d d' : Nat) (signature : Signature) :
    (signature.shift d).shift d' = signature.shift (d + d') := by
  have hspan : Span.shift d' ∘ Span.shift d = Span.shift (d + d') := by
    funext span
    simp [Span.shift, Nat.add_assoc]
  rw [shift, shift, TypeFacts.mapNote_mapNote, hspan]
  rfl

/-- The token, further to the right. -/
def Token.shift (d : Nat) (token : Token) : Token :=
  ⟨token.lexeme, token.span.shift d⟩

/-- The label, further to the right. -/
def Label.shift (d : Nat) (label : Label) : Label :=
  ⟨label.text, label.span.shift d⟩

mutual

/-- The type, further to the right. -/
def TypeExpr.shift (d : Nat) : TypeExpr → TypeExpr
  | .named path args span mark =>
    .named path (TypeExpr.shiftAll d args) (span.shift d) (mark.map (Span.shift d))
  | .tuple elements span mark =>
    .tuple (Element.shiftAll d elements) (span.shift d) (mark.map (Span.shift d))

/-- The types, further to the right. -/
def TypeExpr.shiftAll (d : Nat) : List TypeExpr → List TypeExpr
  | [] => []
  | type :: types => type.shift d :: TypeExpr.shiftAll d types

/-- The element, further to the right. -/
def Element.shift (d : Nat) : Element → Element
  | .mk type label => .mk (type.shift d) (label.map (Label.shift d))

/-- The elements, further to the right. -/
def Element.shiftAll (d : Nat) : List Element → List Element
  | [] => []
  | element :: elements => element.shift d :: Element.shiftAll d elements

end

@[simp] theorem TypeExpr.shiftAll_eq_map (d : Nat) (types : List TypeExpr) :
    TypeExpr.shiftAll d types = types.map (TypeExpr.shift d) := by
  induction types with
  | nil => rfl
  | cons type types ih => simp [TypeExpr.shiftAll, ih]

@[simp] theorem Element.shiftAll_eq_map (d : Nat) (elements : List Element) :
    Element.shiftAll d elements = elements.map (Element.shift d) := by
  induction elements with
  | nil => rfl
  | cons element elements ih => simp [Element.shiftAll, ih]

/-! ## The scanner -/

theorem tokensFrom_shift (d : Nat) {text : List Char} {lexemes : List Lexeme}
    (h : Cut text lexemes) (pos : Nat) :
    tokensFrom (pos + d) none text = (tokensFrom pos none text).map (Token.shift d) := by
  induction h generalizing pos with
  | done => rfl
  | @blank c _ _ hc _ ih =>
      have hpos : pos + d + c.utf8Size = pos + c.utf8Size + d := by omega
      rw [tokensFrom_blank hc, tokensFrom_blank hc, hpos, ih]
  | @mark c _ _ _ hc _ ih =>
      have hpos : pos + d + c.utf8Size = pos + c.utf8Size + d := by omega
      rw [tokensFrom_mark hc, tokensFrom_mark hc, hpos, ih]
      rfl
  | @path cs _ _ hpath hlong _ ih =>
      have hpos : pos + d + Text.byteLength cs = pos + Text.byteLength cs + d := by omega
      rw [tokensFrom_longest hpath hlong, tokensFrom_longest hpath hlong, hpos, ih]
      rfl

/-! ## The reader -/

/-- The open bracket, further to the right. -/
def Frame.shift (d : Nat) : Frame → Frame
  | .args path start read => .args path (start + d) (read.map (TypeExpr.shift d))
  | .tuple start read => .tuple (start + d) (read.map (Element.shift d))

/-- What has just been read, further to the right. -/
def Place.shift (d : Nat) : Place → Place
  | .atType => .atType
  | .afterPath path span => .afterPath path (span.shift d)
  | .afterBracket type => .afterBracket (type.shift d)
  | .afterMark type => .afterMark (type.shift d)
  | .afterLabel element => .afterLabel (element.shift d)

/-- The reader, further to the right. -/
def State.shift (d : Nat) (state : State) : State :=
  ⟨state.stack.map (Frame.shift d), state.place.shift d⟩

/-- What comes of a token, further to the right. -/
def Step.shift (d : Nat) : Step → Step
  | .more state => .more (state.shift d)
  | .accept type => .accept (type.shift d)
  | .reject => .reject

@[simp] theorem Element.type_shift (d : Nat) (element : Element) :
    (element.shift d).type = element.type.shift d := by
  cases element; rfl

theorem TypeExpr.shift_withMark (d : Nat) (type : TypeExpr) (mark : Span) :
    (type.withMark mark).shift d = (type.shift d).withMark (mark.shift d) := by
  cases type <;> rfl

theorem stepAfter_shift (d : Nat) (stack : List Frame) (element : Element) (token : Token) :
    stepAfter (stack.map (Frame.shift d)) (element.shift d) (token.shift d)
      = (stepAfter stack element token).shift d := by
  obtain ⟨lexeme, span⟩ := token
  cases stack with
  | nil => cases lexeme <;> simp [stepAfter, Token.shift, Step.shift]
  | cons frame outer =>
      cases frame with
      | args path start read =>
          cases lexeme <;> simp [stepAfter, Token.shift, Step.shift, Frame.shift, State.shift,
            Place.shift, TypeExpr.shift, Span.shift]
      | tuple start read =>
          cases read with
          | nil =>
              cases lexeme <;> simp [stepAfter, Token.shift, Step.shift, Frame.shift, State.shift,
                Place.shift]
          | cons first read =>
              cases lexeme <;> simp [stepAfter, Token.shift, Step.shift, Frame.shift, State.shift,
                Place.shift, TypeExpr.shift, Span.shift]

theorem stepAfterType_shift (d : Nat) (stack : List Frame) (type : TypeExpr) (token : Token) :
    stepAfterType (stack.map (Frame.shift d)) (type.shift d) (token.shift d)
      = (stepAfterType stack type token).shift d := by
  have hafter := stepAfter_shift d stack (.mk type none) token
  obtain ⟨lexeme, span⟩ := token
  cases stack with
  | nil => exact hafter
  | cons frame outer =>
      cases frame with
      | args path start read => exact hafter
      | tuple start read =>
          cases lexeme with
          | path text =>
              simp only [stepAfterType, List.map_cons, Frame.shift, Token.shift]
              split
              · rfl
              · rfl
          | _ => exact hafter

/-- One token is read alike wherever the text stands. -/
theorem step_shift (d : Nat) (state : State) (token : Token) :
    step (state.shift d) (token.shift d) = (step state token).shift d := by
  obtain ⟨stack, place⟩ := state
  cases place with
  | atType =>
      obtain ⟨lexeme, span⟩ := token
      cases lexeme <;> rfl
  | afterPath path place =>
      have htype := stepAfterType_shift d stack
        (.named path [] ⟨place.start, token.span.start⟩ none) token
      obtain ⟨lexeme, span⟩ := token
      cases lexeme with
      | lessThan => rfl
      | question => rfl
      | _ => exact htype
  | afterBracket type =>
      have htype := stepAfterType_shift d stack type token
      obtain ⟨lexeme, span⟩ := token
      cases lexeme with
      | question => simp [step, State.shift, Place.shift, Token.shift, Step.shift,
          TypeExpr.shift_withMark]
      | _ => exact htype
  | afterMark type => exact stepAfterType_shift d stack type token
  | afterLabel element => exact stepAfter_shift d stack element token

/-- A row of tokens is read alike wherever the text stands. -/
theorem accepted_shift (d : Nat) : ∀ (tokens : List Token) (state : State),
    accepted (state.shift d) (tokens.map (Token.shift d))
      = (accepted state tokens).map (TypeExpr.shift d)
  | [], _ => rfl
  | token :: tokens, state => by
      rw [List.map_cons, accepted, accepted, step_shift]
      cases step state token with
      | more next => exact accepted_shift d tokens next
      | accept type => rfl
      | reject => rfl

/-! ## The meaning -/

theorem bind_eq_ok_iff {α β : Type} {x : Except Fault α} {f : α → Except Fault β} {b : β} :
    (x >>= f) = .ok b ↔ ∃ a, x = .ok a ∧ f a = .ok b := by
  cases x <;> simp [bind, Except.bind]

theorem meaning_named_eq_ok_iff {context : Context} {source : List Char} {path : String}
    {args : List TypeExpr} {span : Span} {mark : Option Span} {signature : Signature} :
    meaning context source (.named path args span mark) = .ok signature ↔
      ∃ types, meanings context source args = .ok types ∧
        ∃ type, namedOf context source path types span = .ok type ∧
          underMark type span.start mark = .ok signature := by
  rw [meaning, bind_eq_ok_iff]
  simp only [bind_eq_ok_iff]

theorem meaning_tuple_eq_ok_iff {context : Context} {source : List Char}
    {elements : List Element} {span : Span} {mark : Option Span} {signature : Signature} :
    meaning context source (.tuple elements span mark) = .ok signature ↔
      ∃ pairs, elementMeanings context source [] elements = .ok pairs ∧
        underMark (tupleOf pairs span) span.start mark = .ok signature := by
  rw [meaning, bind_eq_ok_iff]

theorem meanings_cons_eq_ok_iff {context : Context} {source : List Char} {expr : TypeExpr}
    {exprs : List TypeExpr} {types : List Signature} :
    meanings context source (expr :: exprs) = .ok types ↔
      ∃ type, meaning context source expr = .ok type ∧
        ∃ others, meanings context source exprs = .ok others ∧ type :: others = types := by
  rw [meanings, bind_eq_ok_iff]
  simp only [bind_eq_ok_iff, pure, Except.pure, Except.ok.injEq]

theorem elementMeanings_cons_eq_ok_iff {context : Context} {source : List Char}
    {seen : List String} {expr : TypeExpr} {label : Option Label} {elements : List Element}
    {pairs : List (Signature × String)} :
    elementMeanings context source seen (.mk expr label :: elements) = .ok pairs ↔
      ∃ type, meaning context source expr = .ok type ∧
        ∃ text, labelOf seen label = .ok text ∧
          ∃ others, elementMeanings context source (seen ++ [text]) elements = .ok others ∧
            (type, text) :: others = pairs := by
  rw [elementMeanings, bind_eq_ok_iff]
  simp only [bind_eq_ok_iff, pure, Except.pure, Except.ok.injEq]

theorem nullableOf_shift (d : Nat) {source : List Char} (other : List Char)
    {args : List Signature} {span : Span} {type : Signature}
    (h : nullableOf source args span = .ok type) :
    nullableOf other (args.map (shift d)) (span.shift d) = .ok (type.shift d) := by
  unfold nullableOf at h
  split at h
  · next inner =>
      split at h
      · next hvalue =>
          obtain rfl := Except.ok.inj h
          show (if _ then _ else _) = _
          rw [shift, TypeFacts.facts_mapNote, if_pos hvalue]
          simp [wrapNullable, shift, TypeFacts.mapNote]
      · cases h
  · cases h

theorem namedOf_shift (d : Nat) {context : Context} {source : List Char} (other : List Char)
    {path : String} {args : List Signature} {span : Span} {type : Signature}
    (h : namedOf context source path args span = .ok type) :
    namedOf context other path (args.map (shift d)) (span.shift d) = .ok (type.shift d) := by
  unfold namedOf at h ⊢
  rw [List.isEmpty_map]
  split at h
  · next hparam =>
      rw [if_pos hparam]
      split at h
      · next hargs =>
          obtain rfl := Except.ok.inj h
          rw [if_pos hargs]
          rfl
      · cases h
  · next hparam =>
      rw [if_neg hparam]
      split at h
      · next builtIn _ =>
          split at h
          · next hargs =>
              obtain rfl := Except.ok.inj h
              exact if_pos hargs
          · cases h
      · next =>
          split at h
          · next hpath => exact (if_pos hpath).trans (nullableOf_shift d other h)
          · next hpath =>
              obtain rfl := Except.ok.inj h
              refine (if_neg hpath).trans ?_
              simp [ownType, shift, TypeFacts.mapNote]

theorem underMark_shift (d : Nat) {type signature : Signature} {start : Nat}
    {mark : Option Span} (h : underMark type start mark = .ok signature) :
    underMark (type.shift d) (start + d) (mark.map (Span.shift d)) = .ok (signature.shift d) := by
  unfold underMark at h
  split at h
  · obtain rfl := Except.ok.inj h
    rfl
  · next mark =>
      show (if _ then _ else _) = _
      rw [shift, TypeFacts.facts_mapNote]
      split at h
      · cases h
      · next hannotated =>
          rw [if_neg hannotated]
          split at h
          · next hvalue =>
              obtain rfl := Except.ok.inj h
              rw [if_pos hvalue]
              simp [wrapNullable, shift, TypeFacts.mapNote, Span.shift]
          · next hvalue =>
              obtain rfl := Except.ok.inj h
              rw [if_neg hvalue]
              simp [annotate, shift, TypeFacts.mapNote, Span.shift]

theorem labelOf_shift (d : Nat) {seen : List String} {label : Option Label} {text : String}
    (h : labelOf seen label = .ok text) : labelOf seen (label.map (Label.shift d)) = .ok text := by
  cases label with
  | none => exact h
  | some label =>
      simp only [labelOf, Option.map_some, Label.shift] at h ⊢
      split at h
      · cases h
      · next hseen =>
          rw [if_neg hseen]
          split at h
          · next hposition => simpa [hposition] using h
          · next position hposition =>
              split at h
              · next hhere => simpa [hposition, hhere] using h
              · cases h

theorem tupleOf_shift (d : Nat) (pairs : List (Signature × String)) (span : Span) :
    tupleOf (pairs.map fun pair => (pair.1.shift d, pair.2)) (span.shift d)
      = (tupleOf pairs span).shift d := by
  simp [tupleOf, shift, TypeFacts.mapNote, Function.comp_def]

mutual

/-- What a text means is the same wherever it stands, and whatever stands around it. -/
theorem meaning_shift (d : Nat) {context : Context} {source : List Char} (other : List Char) :
    ∀ {expr : TypeExpr} {signature : Signature}, meaning context source expr = .ok signature →
      meaning context other (expr.shift d) = .ok (signature.shift d)
  | .named path args span mark, signature, h => by
      obtain ⟨types, htypes, type, htype, hmark⟩ := meaning_named_eq_ok_iff.mp h
      rw [TypeExpr.shift, TypeExpr.shiftAll_eq_map]
      exact meaning_named_eq_ok_iff.mpr ⟨_, meanings_shift d other htypes, _,
        namedOf_shift d other htype, underMark_shift d hmark⟩
  | .tuple elements span mark, signature, h => by
      obtain ⟨pairs, hpairs, hmark⟩ := meaning_tuple_eq_ok_iff.mp h
      rw [TypeExpr.shift, Element.shiftAll_eq_map]
      refine meaning_tuple_eq_ok_iff.mpr ⟨_, elementMeanings_shift d other hpairs, ?_⟩
      rw [tupleOf_shift]
      exact underMark_shift d hmark

theorem meanings_shift (d : Nat) {context : Context} {source : List Char} (other : List Char) :
    ∀ {exprs : List TypeExpr} {types : List Signature},
      meanings context source exprs = .ok types →
        meanings context other (exprs.map (TypeExpr.shift d)) = .ok (types.map (shift d))
  | [], types, h => by
      obtain rfl := Except.ok.inj h
      rfl
  | expr :: exprs, types, h => by
      obtain ⟨type, htype, others, hothers, rfl⟩ := meanings_cons_eq_ok_iff.mp h
      exact meanings_cons_eq_ok_iff.mpr ⟨_, meaning_shift d other htype, _,
        meanings_shift d other hothers, rfl⟩

theorem elementMeanings_shift (d : Nat) {context : Context} {source : List Char}
    (other : List Char) : ∀ {elements : List Element} {seen : List String}
      {pairs : List (Signature × String)},
      elementMeanings context source seen elements = .ok pairs →
        elementMeanings context other seen (elements.map (Element.shift d))
          = .ok (pairs.map fun pair => (pair.1.shift d, pair.2))
  | [], _, pairs, h => by
      obtain rfl := Except.ok.inj h
      rfl
  | .mk expr label :: elements, _, pairs, h => by
      obtain ⟨type, htype, text, htext, others, hothers, rfl⟩ :=
        elementMeanings_cons_eq_ok_iff.mp h
      exact elementMeanings_cons_eq_ok_iff.mpr ⟨_, meaning_shift d other htype, _,
        labelOf_shift d htext, _, elementMeanings_shift d other hothers, rfl⟩

end

end Signature

end TypeNaming
