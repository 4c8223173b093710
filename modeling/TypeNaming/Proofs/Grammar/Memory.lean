/-
# What the reader remembers

The reader that goes by tokens never turns back.  At each token it knows which parts could
stand there, tries them in order, and remembers the place when it has tried some in vain.
The greedy grammar fails at many places.  `Furthest` ties a memory to a set of places: it has
moved on to the furthest of them, or it has not moved and none is further.  Two steps of a
memory make one (`Furthest.append`), and a place that is not further makes no difference
(`Furthest.more`).
-/
import TypeNaming.Proofs.Grammar.Failures

namespace TypeNaming.Signature

open Peg (Expr)

/-! ## The furthest of some places -/

/-- From `before` the memory has moved on through the places, to the furthest of them, or it
has not moved and none is further. -/
structure Furthest (text : List Char) (before : Nat) (places : List Char → Prop) (after : Nat) :
    Prop where
  le : before ≤ after
  bound : ∀ there, places there → offset text there ≤ after
  met : after = before ∨ ∃ there, places there ∧ offset text there = after

section

variable {text cs : List Char} {before middle after : Nat}
  {places others all : List Char → Prop}

theorem Furthest.nowhere (h : ∀ there, ¬ places there) : Furthest text before places before where
  le := Nat.le_refl _
  bound there hthere := absurd hthere (h there)
  met := .inl rfl

theorem Furthest.only (hle : before ≤ offset text cs) (hcs : places cs)
    (h : ∀ there, places there → offset text there ≤ offset text cs) :
    Furthest text before places (offset text cs) where
  le := hle
  bound := h
  met := .inr ⟨cs, hcs, rfl⟩

theorem Furthest.append (h : Furthest text before places middle)
    (h' : Furthest text middle others after)
    (hall : ∀ there, all there ↔ places there ∨ others there) :
    Furthest text before all after where
  le := Nat.le_trans h.le h'.le
  bound there hthere := by
    rcases (hall there).mp hthere with hthere | hthere
    · exact Nat.le_trans (h.bound there hthere) h'.le
    · exact h'.bound there hthere
  met := by
    rcases h'.met with rfl | ⟨there, hthere, heq⟩
    · rcases h.met with rfl | ⟨there, hthere, heq⟩
      · exact .inl rfl
      · exact .inr ⟨there, (hall there).mpr (.inl hthere), heq⟩
    · exact .inr ⟨there, (hall there).mpr (.inr hthere), heq⟩

/-- Places that are not further make no difference. -/
theorem Furthest.more (h : Furthest text before places after)
    (hmore : ∀ there, places there → all there)
    (hbound : ∀ there, all there → places there ∨ offset text there ≤ after) :
    Furthest text before all after where
  le := h.le
  bound there hthere := by
    rcases hbound there hthere with hthere | hthere
    · exact h.bound there hthere
    · exact hthere
  met := h.met.imp_right fun ⟨there, hthere, heq⟩ => ⟨there, hmore there hthere, heq⟩

theorem Furthest.congr (h : Furthest text before places after)
    (hall : ∀ there, all there ↔ places there) : Furthest text before all after :=
  h.more (fun there => (hall there).mpr) fun there hthere => .inl ((hall there).mp hthere)

/-- The places up to the furthest one. -/
theorem Furthest.upTo (hle : before ≤ offset text cs)
    (hplaces : ∀ there, places there → cs <:+ there) (hcs : places cs) :
    Furthest text before places (offset text cs) :=
  .only hle hcs fun there hthere => Signature.offset_le (hplaces there hthere)

/-- An attempt in which something fails has been remembered. -/
theorem Furthest.offset_le {e : Expr Rule} (h : Furthest text before (Fails e cs) after)
    (hfails : ∃ there, Fails e cs there) : offset text cs ≤ after := by
  obtain ⟨there, hthere⟩ := hfails
  exact Nat.le_trans (Signature.offset_le hthere.suffix) (h.bound there hthere)

end

/-! ## The memory of the reader -/

/-- The memory after the parts were tried on the token, in their order. -/
def Missed.tried (missed : Missed) (parts : List Part) (token : Token) : Missed :=
  match parts.takeWhile fun part => !part.beginsWith token.lexeme with
  | [] => missed
  | part :: parts => ⟨token.span.start, part :: parts⟩

/-- What comes of a step. -/
def follow (missed : Missed) (row : List Token) : Step → Except Missed TypeExpr
  | .more state => readFrom state missed row
  | .accept type => .ok type
  | .reject => .error missed

theorem readFrom_cons (state : State) (missed : Missed) (token : Token) (row : List Token) :
    readFrom state missed (token :: row)
      = follow (missed.tried state.parts token) row (step state token) := by
  rw [readFrom]
  cases step state token <;> rfl

/-- None of the parts begins with the token. -/
def Vain (parts : List Part) (token : Token) : Prop :=
  ∀ part ∈ parts, part.beginsWith token.lexeme = false

section

variable {missed : Missed} {token : Token} {part : Part} {lead parts : List Part}

theorem takeWhile_of_vain (h : Vain lead token) :
    (lead ++ parts).takeWhile (fun part => !part.beginsWith token.lexeme)
      = lead ++ parts.takeWhile fun part => !part.beginsWith token.lexeme :=
  List.takeWhile_append_of_pos fun part hpart => by simp [h part hpart]

theorem tried_append_of_begins (hlead : Vain lead token)
    (h : part.beginsWith token.lexeme = true) :
    missed.tried (lead ++ part :: parts) token = missed.tried lead token := by
  have hlead' : lead.takeWhile (fun part => !part.beginsWith token.lexeme) = lead := by
    simpa using @takeWhile_of_vain token lead [] hlead
  have hall : (lead ++ part :: parts).takeWhile (fun part => !part.beginsWith token.lexeme)
      = lead := by
    rw [takeWhile_of_vain hlead, List.takeWhile_cons_of_neg (by simp [h]), List.append_nil]
  rw [Missed.tried, Missed.tried, hlead', hall]

/-- Parts that were tried in vain are remembered. -/
theorem start_tried (hlead : Vain lead token) (hne : lead ≠ []) :
    (missed.tried (lead ++ parts) token).start = token.span.start := by
  obtain ⟨part, others, rfl⟩ := List.exists_cons_of_ne_nil hne
  rw [Missed.tried, takeWhile_of_vain hlead]
  rfl

theorem start_tried_concat (hlead : Vain lead token) (h : part.beginsWith token.lexeme = false) :
    (missed.tried (lead ++ [part]) token).start = token.span.start := by
  have hall : Vain (lead ++ [part]) token :=
    List.forall_mem_append.mpr ⟨hlead, List.forall_mem_singleton.mpr h⟩
  rw [← List.append_nil (lead ++ [part]), start_tried hall (by simp)]

theorem start_tried_le (hlead : Vain lead token) (h : missed.start ≤ token.span.start) :
    (missed.tried lead token).start ≤ token.span.start := by
  cases lead with
  | nil => exact h
  | cons part others =>
      rw [← List.append_nil (part :: others), start_tried hlead (List.cons_ne_nil part others)]

end

end TypeNaming.Signature
