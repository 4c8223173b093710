/-
# Which stage refuses a text

A text is refused by the count of its brackets, or it is within the limit and refused by the
grammar, or it is in the grammar and refused for its meaning (`read_eq_error_iff`).  Here is
what the first two say of it: the count points at the first bracket that opens a level too
many, and the grammar at a token, with a part that is missing there.
-/
import TypeNaming.Proofs.Grammar.Exact

namespace TypeNaming.Signature

/-! ## The stages in order -/

theorem bind_eq_error_iff {α β : Type} {x : Except Fault α} {f : α → Except Fault β}
    {fault : Fault} :
    (x >>= f) = .error fault ↔ x = .error fault ∨ ∃ a, x = .ok a ∧ f a = .error fault := by
  cases x <;> simp [bind, Except.bind]

theorem readExpr_eq_error_iff {text : List Char} {fault : Fault} :
    readExpr text = .error fault ↔ ∃ missed, parse text = .error missed ∧
      fault = missed.fault text := by
  unfold readExpr
  cases parse text <;> simp [eq_comm]

/-- A text is refused by the first of the stages that finds a fault. -/
theorem read_eq_error_iff {context : Context} {source : String} {fault : Fault} :
    read context source = .error fault ↔
      depthGuard context.maxDepth source.toList = .error fault ∨
        WithinDepth context.maxDepth source.toList ∧
          ((∃ missed, parse source.toList = .error missed ∧ fault = missed.fault source.toList) ∨
            ∃ expr, parse source.toList = .ok expr ∧
              meaning context source.toList expr = .error fault) := by
  show (depthGuard context.maxDepth source.toList >>= fun _ => readExpr source.toList >>=
    meaning context source.toList) = _ ↔ _
  simp only [bind_eq_error_iff, readExpr_eq_error_iff, readExpr_eq_ok_iff]
  exact or_congr Iff.rfl ⟨fun ⟨_, hdepth, h⟩ => ⟨depthGuard_eq_ok_iff.mp hdepth, h⟩,
    fun ⟨hdepth, h⟩ => ⟨(), depthGuard_eq_ok_iff.mpr hdepth, h⟩⟩

/-! ## The count of the brackets -/

/-- The bracket opens a level more than there may be, and no bracket before it does. -/
structure FirstTooDeep (limit : Nat) (front : List Char) (bracket : Char) : Prop where
  opening : bracket = '<' ∨ bracket = '('
  full : front.foldl depthAfter 0 = limit
  within : WithinDepth limit front

theorem exceeds_iff {limit depth : Nat} (h : depth ≤ limit) {c : Char} :
    limit < depthAfter depth c ↔ (c = '<' ∨ c = '(') ∧ depth = limit := by
  unfold depthAfter
  split
  · next hopening => simp only [hopening, true_and]; omega
  · next hopening => split <;> simp only [hopening, false_and, iff_false] <;> omega

theorem exists_firstTooDeepFrom {limit : Nat} : ∀ {text : List Char} {pos depth place : Nat},
    depth ≤ limit → firstTooDeepFrom limit pos depth text = some place →
      ∃ front bracket back, text = front ++ bracket :: back ∧
        place = pos + Text.byteLength front ∧ (bracket = '<' ∨ bracket = '(') ∧
        front.foldl depthAfter depth = limit ∧
        ∀ start, start <+: front → start.foldl depthAfter depth ≤ limit
  | [], _, _, _, _, h => by cases h
  | c :: text, pos, depth, place, hdepth, h => by
      rw [firstTooDeepFrom] at h
      split at h
      · next hexceeds =>
          obtain rfl := Option.some.inj h
          obtain ⟨hopening, hfull⟩ := (exceeds_iff hdepth).mp hexceeds
          refine ⟨[], c, text, rfl, rfl, hopening, hfull, fun start hstart => ?_⟩
          obtain rfl := List.prefix_nil.mp hstart
          exact hdepth
      · next hwithin =>
          obtain ⟨front, bracket, back, rfl, rfl, hopening, hfull, hfront⟩ :=
            exists_firstTooDeepFrom (Nat.le_of_not_lt hwithin) h
          refine ⟨c :: front, bracket, back, rfl, ?_, hopening, hfull, fun start hstart => ?_⟩
          · rw [Text.byteLength, Nat.add_assoc]
          · rcases List.prefix_cons_iff.mp hstart with rfl | ⟨others, rfl, hothers⟩
            · exact hdepth
            · exact hfront others hothers

theorem utf8Size_bracket {c : Char} (h : c = '<' ∨ c = '(') : c.utf8Size = 1 := by
  rcases h with rfl | rfl <;> rfl

/-- The count refuses a text that is not within the limit, at the first bracket that is too
deep. -/
theorem exists_firstTooDeep {limit : Nat} {text : List Char} {fault : Fault}
    (h : depthGuard limit text = .error fault) :
    ∃ front bracket back, text = front ++ bracket :: back ∧ FirstTooDeep limit front bracket ∧
      fault = ⟨.tooDeep limit, ⟨Text.byteLength front, Text.byteLength (front ++ [bracket])⟩⟩ := by
  unfold depthGuard at h
  split at h
  · cases h
  · next place hplace =>
      obtain ⟨front, bracket, back, rfl, rfl, hopening, hfull, hfront⟩ :=
        exists_firstTooDeepFrom (Nat.zero_le limit) hplace
      refine ⟨front, bracket, back, rfl, ⟨hopening, hfull, hfront⟩, ?_⟩
      rw [← Except.error.inj h, Text.byteLength_append, Nat.zero_add]
      simp [Text.byteLength, utf8Size_bracket hopening]

theorem exists_fault_of_not_withinDepth {limit : Nat} {text : List Char}
    (h : ¬ WithinDepth limit text) : ∃ fault, depthGuard limit text = .error fault := by
  cases hguard : depthGuard limit text with
  | error fault => exact ⟨fault, rfl⟩
  | ok _ => exact absurd (depthGuard_eq_ok_iff.mp hguard) h

/-! ## The tokens of any text -/

/-- The text, which begins at byte `pos`, is the row of tokens, as far as it has any: a
character that begins no token ends the row. -/
inductive Lexes : Nat → List Char → List Token → Prop
  | done (pos : Nat) : Lexes pos [] [⟨.done, ⟨pos, pos⟩⟩]
  | blank {pos : Nat} {c : Char} {rest : List Char} {row : List Token} : isSpace c = true →
      Lexes (pos + c.utf8Size) rest row → Lexes pos (c :: rest) row
  | mark {pos : Nat} {c : Char} {lexeme : Lexeme} {rest : List Char} {row : List Token} :
      Punctuation c lexeme → Lexes (pos + c.utf8Size) rest row →
      Lexes pos (c :: rest) (⟨lexeme, ⟨pos, pos + c.utf8Size⟩⟩ :: row)
  | path {pos : Nat} {cs rest : List Char} {row : List Token} : IsPath cs →
      Lexes (pos + Text.byteLength cs) rest row →
      Lexes pos (cs ++ rest)
        (⟨.path (String.ofList cs), ⟨pos, pos + Text.byteLength cs⟩⟩ :: row)
  | stray (pos : Nat) (c : Char) (rest : List Char) :
      Lexes pos (c :: rest) [⟨.stray, ⟨pos, pos + c.utf8Size⟩⟩]

theorem lexes_tokensFrom : ∀ (text : List Char) (pos : Nat),
    Lexes pos text (tokensFrom pos none text)
  | [], pos => .done pos
  | c :: text, pos => by
      cases hc : opening c with
      | space =>
          rw [tokensFrom_blank (opening_eq_space_iff.mp hc)]
          exact .blank (opening_eq_space_iff.mp hc) (lexes_tokensFrom text _)
      | punctuation lexeme =>
          rw [tokensFrom_mark (opening_eq_punctuation_iff.mp hc)]
          exact .mark (opening_eq_punctuation_iff.mp hc) (lexes_tokensFrom text _)
      | path =>
          have hstart := opening_eq_path_iff.mp hc
          obtain ⟨more, rest, htext, hmore, hrest⟩ := exists_goesOn_stops text
          have hshorter : rest.length ≤ text.length := by simp [htext]
          rw [htext, ← List.cons_append, tokensFrom_path hstart hmore hrest]
          exact .path (isPath_cons_iff.mpr ⟨hstart, hmore⟩) (lexes_tokensFrom rest _)
      | stray =>
          have hrow : tokensFrom pos none (c :: text) = [⟨.stray, ⟨pos, pos + c.utf8Size⟩⟩] := by
            simp [tokensFrom, hc]
          rw [hrow]
          exact .stray pos c text
termination_by text => text.length
decreasing_by all_goals grind

/-- The tokens of a text start inside it. -/
theorem Lexes.start_le {pos : Nat} {text : List Char} {row : List Token} (h : Lexes pos text row) :
    ∀ token ∈ row, token.span.start ≤ pos + Text.byteLength text := by
  induction h with
  | done pos => simp
  | blank _ _ ih =>
      intro token hmem
      rw [Text.byteLength, ← Nat.add_assoc]
      exact ih token hmem
  | @mark pos _ _ _ _ _ _ ih =>
      rw [Text.byteLength, ← Nat.add_assoc]
      refine List.forall_mem_cons.mpr ⟨?_, ih⟩
      exact Nat.le_trans (Nat.le_add_right pos _) (Nat.le_add_right _ _)
  | @path pos _ _ _ _ _ ih =>
      rw [Text.byteLength_append, ← Nat.add_assoc]
      refine List.forall_mem_cons.mpr ⟨?_, ih⟩
      exact Nat.le_trans (Nat.le_add_right pos _) (Nat.le_add_right _ _)
  | stray pos c rest => simp

/-! ## What the grammar misses -/

theorem Missed.next_cases (missed : Missed) (state : State) (token : Token) :
    missed.next state token = missed ∨
      (missed.next state token).start = token.span.start ∧
        (missed.next state token).parts ≠ [] := by
  unfold Missed.next
  split
  · exact .inl rfl
  · exact .inr ⟨rfl, List.cons_ne_nil _ _⟩

/-- What the reader missed is what it remembered, or some part at one of the tokens. -/
theorem missed_of_readFrom : ∀ {row : List Token} {state : State} {memory missed : Missed},
    readFrom state memory row = .error missed → missed = memory ∨
      (∃ token ∈ row, missed.start = token.span.start) ∧ missed.parts ≠ []
  | [], _, _, _, h => .inl (Except.error.inj h).symm
  | token :: row, state, memory, missed, h => by
      have hnext : missed = memory.next state token ∨
          (∃ other ∈ token :: row, missed.start = other.span.start) ∧ missed.parts ≠ [] := by
        rw [readFrom] at h
        cases hstep : step state token with
        | more after =>
            rw [hstep] at h
            rcases missed_of_readFrom h with rfl | ⟨⟨other, hother, hstart⟩, hparts⟩
            · exact .inl rfl
            · exact .inr ⟨⟨other, List.mem_cons_of_mem _ hother, hstart⟩, hparts⟩
        | accept type =>
            rw [hstep] at h
            cases h
        | reject =>
            rw [hstep] at h
            exact .inl (Except.error.inj h).symm
      rcases hnext with rfl | hfound
      · rcases memory.next_cases state token with heq | ⟨hstart, hparts⟩
        · exact .inl heq
        · exact .inr ⟨⟨token, List.mem_cons_self, hstart⟩, hparts⟩
      · exact .inr hfound

/-- What is missed in a text is some part, at a place in the text. -/
theorem missed_of_parse {text : List Char} {missed : Missed} (h : parse text = .error missed) :
    missed.start ≤ Text.byteLength text ∧ missed.parts ≠ [] := by
  rcases missed_of_readFrom h with rfl | ⟨⟨token, hmem, hstart⟩, hparts⟩
  · exact ⟨Nat.zero_le _, List.cons_ne_nil _ _⟩
  · have hinside := (lexes_tokensFrom text 0).start_le token hmem
    rw [Nat.zero_add] at hinside
    exact ⟨hstart ▸ hinside, hparts⟩

end TypeNaming.Signature
