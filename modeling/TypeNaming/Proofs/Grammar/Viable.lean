/-
# A refused text is right up to the place of its fault

A beginning of a text is viable when some text of the grammar begins so.  Whatever the reader
has read of a text is viable: each open bracket can be closed and the items that a tuple still
needs can be written, whatever the place inside the innermost bracket is
(`exists_completion`).  A text that is refused by the grammar is refused at a token that the
reader has come to, so the text before that place is viable (`viable_before_fault`): the fault
never points past the mistake.

The completion begins with a blank, because a path at the end of what was read would go on with
a letter or with a dot and a letter.
-/
import TypeNaming.Proofs.Grammar.Guard
import TypeNaming.Proofs.Grammar.Furthest

namespace TypeNaming.Signature

/-! ## Beginnings -/

/-- The text is derivable in the grammar of signatures. -/
def InGrammar (text : List Char) : Prop :=
  ∃ lexemes type, Cut text lexemes ∧ Derives type lexemes

/-- Some text of the grammar begins so. -/
def Viable (front : List Char) : Prop :=
  ∃ more, InGrammar (front ++ more)

theorem inGrammar_of_parse {text : List Char} {type : TypeExpr} (h : parse text = .ok type) :
    InGrammar text := by
  obtain ⟨lexemes, hcut, hderives⟩ := derives_of_parse h
  exact ⟨lexemes, type.written, hcut, hderives⟩

theorem inGrammar_iff_accepted {text : List Char} :
    InGrammar text ↔ ∃ type, accepted State.initial (tokens text) = some type := by
  constructor
  · rintro ⟨lexemes, type, hcut, hderives⟩
    obtain ⟨own, hparse, -⟩ := parse_of_derives hcut hderives
    exact ⟨own, readFrom_eq_ok_iff.mp hparse⟩
  · rintro ⟨type, haccepted⟩
    exact inGrammar_of_parse (readFrom_eq_ok_iff.mpr haccepted)

instance (text : List Char) : Decidable (InGrammar text) :=
  decidable_of_iff ((accepted State.initial (tokens text)).isSome = true)
    (Option.isSome_iff_exists.trans inGrammar_iff_accepted.symm)

theorem Viable.of_prefix {front longer : List Char} (h : Viable longer)
    (hfront : front <+: longer) : Viable front := by
  obtain ⟨back, rfl⟩ := hfront
  obtain ⟨more, hmore⟩ := h
  exact ⟨back ++ more, by rwa [← List.append_assoc]⟩

/-! ## What has been read -/

/-- Before the rest of a text that begins at byte `pos`, its beginning is the row of tokens. -/
inductive Front (rest : List Char) : Nat → List Char → List Token → Prop
  | nil (pos : Nat) : Front rest pos [] []
  | blank {pos : Nat} {c : Char} {front : List Char} {row : List Token} : isSpace c = true →
      Front rest (pos + c.utf8Size) front row → Front rest pos (c :: front) row
  | mark {pos : Nat} {c : Char} {lexeme : Lexeme} {front : List Char} {row : List Token} :
      Punctuation c lexeme → Front rest (pos + c.utf8Size) front row →
      Front rest pos (c :: front) (⟨lexeme, ⟨pos, pos + c.utf8Size⟩⟩ :: row)
  | path {pos : Nat} {cs front : List Char} {row : List Token} : IsPath cs →
      Stops (front ++ rest) → Front rest (pos + Text.byteLength cs) front row →
      Front rest pos (cs ++ front)
        (⟨.path (String.ofList cs), ⟨pos, pos + Text.byteLength cs⟩⟩ :: row)

section

variable {rest front : List Char} {pos : Nat} {row : List Token}

theorem Front.tokensFrom_eq (h : Front rest pos front row) :
    tokensFrom pos none (front ++ rest)
      = row ++ tokensFrom (pos + Text.byteLength front) none rest := by
  induction h with
  | nil pos => rfl
  | blank hc _ ih => rw [List.cons_append, tokensFrom_blank hc, ih, Text.byteLength, Nat.add_assoc]
  | mark hc _ ih =>
      rw [List.cons_append, tokensFrom_mark hc, ih, Text.byteLength, Nat.add_assoc]
      rfl
  | path hpath hstop _ ih =>
      rw [List.append_assoc, tokensFrom_longest hpath (longest_of_stops hpath hstop), ih,
        Text.byteLength_append, Nat.add_assoc]
      rfl

/-- A row of tokens begins with no dot. -/
theorem Front.head?_ne_dot (h : Front rest pos front row) : front.head? ≠ some '.' := by
  cases h with
  | nil => exact fun h => nomatch h
  | blank hc _ =>
      rintro ⟨⟩
      cases hc
  | mark hc _ =>
      rintro ⟨⟩
      cases hc
  | path hpath _ _ =>
      obtain ⟨first, more, rfl, hfirst, -⟩ := hpath.starts
      rintro ⟨⟩
      cases hfirst

theorem stops_of_ne_dot {c : Char} {cs others : List Char} (hdot : c ≠ '.') (h : Stops (c :: cs)) :
    Stops (c :: others) := by
  have hrest : goesOn c cs = false := h
  show goesOn c others = false
  simpa [goesOn, hdot] using hrest

/-- Another text may follow: any where no path ends, and else one that does not go on with it. -/
theorem Front.replace (h : Front rest pos front row) :
    Stops rest ∧ (∀ others, Stops others → Front others pos front row) ∨
      ∀ others, Front others pos front row := by
  induction h with
  | nil pos => exact .inr fun _ => .nil pos
  | blank hc _ ih =>
      rcases ih with ⟨hrest, h⟩ | h
      · exact .inl ⟨hrest, fun others hothers => .blank hc (h others hothers)⟩
      · exact .inr fun others => .blank hc (h others)
  | mark hc _ ih =>
      rcases ih with ⟨hrest, h⟩ | h
      · exact .inl ⟨hrest, fun others hothers => .mark hc (h others hothers)⟩
      · exact .inr fun others => .mark hc (h others)
  | @path pos cs front row hpath hstop hfront ih =>
      cases front with
      | nil =>
          refine .inl ⟨hstop, fun others hothers => .path hpath hothers ?_⟩
          rcases ih with ⟨-, h⟩ | h
          · exact h others hothers
          · exact h others
      | cons c front =>
          have hdot : c ≠ '.' := fun heq => hfront.head?_ne_dot (heq ▸ rfl)
          rcases ih with ⟨hrest, h⟩ | h
          · exact .inl ⟨hrest, fun others hothers =>
              .path hpath (stops_of_ne_dot hdot hstop) (h others hothers)⟩
          · exact .inr fun others => .path hpath (stops_of_ne_dot hdot hstop) (h others)

theorem Front.of_blanks {blanks : List Char} (hblanks : ∀ c ∈ blanks, isSpace c = true)
    (h : Front rest (pos + Text.byteLength blanks) front row) :
    Front rest pos (blanks ++ front) row := by
  induction blanks generalizing pos with
  | nil => exact h
  | cons c blanks ih =>
      obtain ⟨hc, hblanks⟩ := List.forall_mem_cons.mp hblanks
      rw [Text.byteLength, ← Nat.add_assoc] at h
      exact .blank hc (ih hblanks h)

/-- The blanks before a row of tokens belong to its text. -/
theorem Front.of_trim {text cs : List Char} (hcs : cs <:+ text) (htrim : trim cs = front ++ rest)
    (h : Front rest (offset text (trim cs)) front row) :
    ∃ whole, cs = whole ++ rest ∧ Front rest (offset text cs) whole row := by
  have heq : cs.takeWhile isSpace ++ trim cs = cs := List.takeWhile_append_dropWhile
  have hoffset : offset text cs + Text.byteLength (cs.takeWhile isSpace)
      = offset text (trim cs) := by
    rw [← heq] at hcs
    have := offset_append hcs
    rwa [heq] at this
  refine ⟨cs.takeWhile isSpace ++ front, ?_, ?_⟩
  · rw [List.append_assoc, ← htrim, heq]
  · exact .of_blanks (fun c => List.mem_takeWhile_imp) (hoffset ▸ h)

/-- The text before some token of a rest of the text. -/
theorem exists_front {text : List Char} {token : Token} {others : List Token} :
    ∀ {row : List Token} {cs : List Char}, cs <:+ text → rowAt text cs = row ++ token :: others →
      ∃ front there, cs = front ++ there ∧ Front there (offset text cs) front row ∧
        Head text there token others := by
  intro row
  induction row with
  | nil =>
      intro cs hcs hrow
      obtain ⟨first, tokens, hhead, hfirst⟩ := exists_head hcs
      obtain ⟨rfl, rfl⟩ := List.cons.inj (hfirst.symm.trans hrow)
      obtain ⟨whole, hwhole, hfront⟩ := Front.of_trim hcs (List.nil_append _).symm (.nil _)
      exact ⟨whole, trim cs, hwhole, hfront, hhead⟩
  | cons first row ih =>
      intro cs hcs hrow
      obtain ⟨next, tokens, hhead, hfirst⟩ := exists_head hcs
      obtain ⟨rfl, hrest⟩ := List.cons.inj (hfirst.symm.trans hrow)
      have htrim := (trim_suffix cs).trans hcs
      suffices ∃ front there, trim cs = front ++ there ∧
          Front there (offset text (trim cs)) front (next :: row) ∧ Head text there token others by
        obtain ⟨front, there, heq, hfront, hthere⟩ := this
        obtain ⟨whole, hwhole, hfront⟩ := Front.of_trim hcs heq hfront
        exact ⟨whole, there, hwhole, hfront, hthere⟩
      generalize trim cs = text' at hhead htrim
      cases hhead with
      | done => cases row <;> cases hrest
      | @mark c lexeme inside hc =>
          obtain ⟨front, there, rfl, hfront, hthere⟩ :=
            ih ((List.suffix_cons c inside).trans htrim) hrest
          rw [← offset_cons htrim] at hfront ⊢
          exact ⟨c :: front, there, rfl, .mark hc hfront, hthere⟩
      | @path path inside hpath hstop =>
          obtain ⟨front, there, rfl, hfront, hthere⟩ :=
            ih ((List.suffix_append path inside).trans htrim) hrest
          rw [← offset_append htrim] at hfront ⊢
          exact ⟨path ++ front, there, (List.append_assoc ..).symm,
            .path hpath hstop hfront, hthere⟩
      | stray => cases row <;> cases hrest

end

/-! ## What the reader has read -/

/-- After `front` the reader is in the state: it goes on with the rest as with a whole text. -/
def Continues (front : List Char) (state : State) (rest : List Char) : Prop :=
  InGrammar (front ++ rest) ↔
    ∃ type, accepted state (tokensFrom (Text.byteLength front) none rest) = some type

/-- What was read on the way does not depend on what is left. -/
theorem Reaches.exists_consumed {state last : State} {row rest : List Token}
    (h : Reaches state row last rest) :
    ∃ consumed, row = consumed ++ rest ∧
      ∀ others, accepted state (consumed ++ others) = accepted last others := by
  induction h with
  | here => exact ⟨[], rfl, fun _ => rfl⟩
  | @step state next last token row rest hstep _ ih =>
      obtain ⟨consumed, rfl, haccepted⟩ := ih
      refine ⟨token :: consumed, rfl, fun others => ?_⟩
      rw [List.cons_append, accepted_cons, hstep]
      exact haccepted others

/-- The reader has read `front`, which is the row of tokens, and is in the state before the rest
of the text. -/
structure ReadUpTo (text front there : List Char) (consumed : List Token) (state : State) :
    Prop where
  eq : text = front ++ there
  front : Front there 0 front consumed
  accepted : ∀ others, accepted State.initial (consumed ++ others) = accepted state others

/-- Where the reader has come to, it has read the text before. -/
theorem Reaches.readUpTo {text : List Char} {state : State} {token : Token} {row : List Token}
    (h : Reaches State.initial (tokens text) state (token :: row)) :
    ∃ consumed front there, tokens text = consumed ++ token :: row ∧ Head text there token row ∧
      ReadUpTo text front there consumed state := by
  obtain ⟨consumed, hconsumed, haccepted⟩ := h.exists_consumed
  rw [← rowAt_self] at hconsumed
  obtain ⟨front, there, heq, hfront, hhead⟩ := exists_front List.suffix_rfl hconsumed
  rw [offset_self] at hfront
  rw [rowAt_self] at hconsumed
  exact ⟨consumed, front, there, hconsumed, hhead, heq, hfront, haccepted⟩

section

variable {text front there rest : List Char} {consumed : List Token} {state : State}

theorem ReadUpTo.continues (h : ReadUpTo text front there consumed state)
    (hfront : Front rest 0 front consumed) : Continues front state rest := by
  rw [Continues, inGrammar_iff_accepted, tokens, hfront.tokensFrom_eq, h.accepted, Nat.zero_add]

theorem ReadUpTo.of_stops (h : ReadUpTo text front there consumed state) (hrest : Stops rest) :
    Continues front state rest := by
  rcases h.front.replace with ⟨-, hreplace⟩ | hreplace
  · exact h.continues (hreplace rest hrest)
  · exact h.continues (hreplace rest)

/-- Where no path ends, anything may follow. -/
theorem ReadUpTo.stops_or (h : ReadUpTo text front there consumed state) :
    Stops there ∨ ∀ rest, Continues front state rest := by
  rcases h.front.replace with ⟨hthere, -⟩ | hreplace
  · exact .inl hthere
  · exact .inr fun rest => h.continues (hreplace rest)

/-- The place of a token that was read. -/
theorem Front.exists_char {pos : Nat} {row : List Token} (h : Front rest pos front row)
    {token : Token} (hmem : token ∈ row) :
    ∃ before c back, front = before ++ c :: back ∧
      pos + Text.byteLength before = token.span.start ∧ isSpace c = false := by
  induction h with
  | nil => cases hmem
  | @blank pos c front row hc _ ih =>
      obtain ⟨before, d, back, rfl, hstart, hd⟩ := ih hmem
      exact ⟨c :: before, d, back, rfl, by rw [Text.byteLength, ← Nat.add_assoc, hstart], hd⟩
  | @mark pos c lexeme front row hc _ ih =>
      rcases List.mem_cons.mp hmem with rfl | hmem
      · exact ⟨[], c, front, rfl, rfl, by cases hc <;> rfl⟩
      · obtain ⟨before, d, back, rfl, hstart, hd⟩ := ih hmem
        exact ⟨c :: before, d, back, rfl, by rw [Text.byteLength, ← Nat.add_assoc, hstart], hd⟩
  | @path pos cs front row hpath _ _ ih =>
      rcases List.mem_cons.mp hmem with rfl | hmem
      · obtain ⟨first, more, rfl, hfirst, -⟩ := hpath.starts
        exact ⟨[], first, more ++ front, rfl, rfl, isSpace_of_start hfirst⟩
      · obtain ⟨before, d, back, rfl, hstart, hd⟩ := ih hmem
        refine ⟨cs ++ before, d, back, (List.append_assoc ..).symm, ?_, hd⟩
        rw [Text.byteLength_append, ← Nat.add_assoc, hstart]

end

/-! ## Completions -/

/-- The text that closes the brackets.  A tuple with one element needs another. -/
def closing : List Frame → List Char
  | [] => []
  | .args _ _ _ :: outer => '>' :: closing outer
  | .tuple _ [] :: outer => ',' :: 'A' :: ')' :: closing outer
  | .tuple _ (_ :: _) :: outer => ')' :: closing outer

/-- Inside the innermost bracket a whole item has been read. -/
def State.Whole (state : State) : Prop :=
  ∀ token : Token, token.Ends → (∀ path, token.lexeme ≠ .path path) →
    ∃ element, step state token = stepAfter state.stack element token

theorem stepAfterType_bare (stack : List Frame) (type : TypeExpr) {token : Token}
    (h : ∀ path, token.lexeme ≠ .path path) :
    stepAfterType stack type token = stepAfter stack ⟨type, none⟩ token := by
  cases stack with
  | nil => rfl
  | cons frame outer =>
      cases frame with
      | args path start read => rfl
      | tuple start read => exact stepAfterType_tuple type h

/-- After a type or a label an item is whole. -/
theorem whole_of_ne_atType {stack : List Frame} {place : Place} (h : place ≠ .atType) :
    State.Whole ⟨stack, place⟩ := by
  intro token hends hpath
  cases place with
  | atType => exact absurd rfl h
  | afterPath path span => exact ⟨_, (step_afterPath hends).trans (stepAfterType_bare _ _ hpath)⟩
  | afterBracket type => exact ⟨_, (step_afterBracket hends).trans (stepAfterType_bare _ _ hpath)⟩
  | afterMark type => exact ⟨_, stepAfterType_bare _ _ hpath⟩
  | afterLabel element => exact ⟨element, rfl⟩

theorem State.Whole.accepted_mark {state : State} (h : state.Whole) {c : Char} {lexeme : Lexeme}
    (hc : Punctuation c lexeme) (hless : lexeme ≠ .lessThan) (hquestion : lexeme ≠ .question)
    (pos : Nat) (rest : List Char) :
    ∃ element, accepted state (tokensFrom pos none (c :: rest))
      = resume (stepAfter state.stack element ⟨lexeme, ⟨pos, pos + c.utf8Size⟩⟩)
          (tokensFrom (pos + c.utf8Size) none rest) := by
  obtain ⟨element, hstep⟩ := h ⟨lexeme, ⟨pos, pos + c.utf8Size⟩⟩ ⟨hless, hquestion⟩
    (fun path hpath => by
      obtain rfl := hpath
      cases hc)
  exact ⟨element, by rw [tokensFrom_mark hc, accepted_cons, hstep]⟩

theorem stops_closing (stack : List Frame) : Stops (closing stack) := by
  cases stack with
  | nil => trivial
  | cons frame outer =>
      cases frame with
      | args => rfl
      | tuple start read => cases read <;> rfl

theorem isPath_A : IsPath ['A'] := .ident ⟨'A', [], rfl, rfl, List.forall_mem_nil _⟩

/-- A path that does not go on is read as a type. -/
theorem accepted_path {stack : List Frame} {cs rest : List Char} (hcs : IsPath cs)
    (hstop : Stops rest) (pos : Nat) :
    accepted ⟨stack, .atType⟩ (tokensFrom pos none (cs ++ rest))
      = accepted ⟨stack, .afterPath (String.ofList cs) ⟨pos, pos + Text.byteLength cs⟩⟩
          (tokensFrom (pos + Text.byteLength cs) none rest) := by
  rw [tokensFrom_longest hcs (longest_of_stops hcs hstop)]
  rfl

/-- After a whole item the brackets that are open can be closed. -/
theorem accepted_closing (stack : List Frame) : ∀ (place : Place) (pos : Nat), place ≠ .atType →
    ∃ type, accepted ⟨stack, place⟩ (tokensFrom pos none (closing stack)) = some type := by
  induction stack with
  | nil =>
      intro place pos hplace
      have hwhole : State.Whole ⟨[], place⟩ := whole_of_ne_atType hplace
      obtain ⟨element, hstep⟩ := hwhole ⟨.done, ⟨pos, pos⟩⟩ ⟨by simp, by simp⟩ (by simp)
      refine ⟨element.type, ?_⟩
      show accepted ⟨[], place⟩ [⟨.done, ⟨pos, pos⟩⟩] = _
      rw [accepted_cons, hstep]
      rfl
  | cons frame outer ih =>
      intro place pos hplace
      have hwhole : State.Whole ⟨frame :: outer, place⟩ := whole_of_ne_atType hplace
      cases frame with
      | args path start read =>
          obtain ⟨element, haccepted⟩ :=
            hwhole.accepted_mark .greaterThan (by simp) (by simp) pos (closing outer)
          rw [closing, haccepted]
          exact ih _ _ (by simp)
      | tuple start read =>
          cases read with
          | nil =>
              obtain ⟨element, haccepted⟩ :=
                hwhole.accepted_mark .comma (by simp) (by simp) pos ('A' :: ')' :: closing outer)
              rw [closing, haccepted]
              show ∃ type, accepted ⟨.tuple start [element] :: outer, .atType⟩
                (tokensFrom _ none (['A'] ++ ')' :: closing outer)) = some type
              have hstop : Stops (')' :: closing outer) := rfl
              have hnext (span : Span) : State.Whole
                  ⟨.tuple start [element] :: outer, .afterPath "A" span⟩ :=
                whole_of_ne_atType (by simp)
              rw [accepted_path isPath_A hstop]
              obtain ⟨other, haccepted⟩ :=
                (hnext _).accepted_mark .rightParen (by simp) (by simp) _ (closing outer)
              rw [haccepted]
              exact ih _ _ (by simp)
          | cons first read =>
              obtain ⟨element, haccepted⟩ :=
                hwhole.accepted_mark .rightParen (by simp) (by simp) pos (closing outer)
              rw [closing, haccepted]
              exact ih _ _ (by simp)

/-- In every state some text brings the reader to an end. -/
theorem exists_completion (state : State) (pos : Nat) :
    ∃ more type, accepted state (tokensFrom pos none (' ' :: more)) = some type := by
  obtain ⟨stack, place⟩ := state
  have hblank (more : List Char) : tokensFrom pos none (' ' :: more)
      = tokensFrom (pos + ' '.utf8Size) none more := tokensFrom_blank rfl pos more
  by_cases hplace : place = .atType
  · obtain rfl := hplace
    obtain ⟨type, haccepted⟩ := accepted_closing stack (.afterPath "A" ⟨pos + 1, _⟩) _ (by simp)
    refine ⟨['A'] ++ closing stack, type, ?_⟩
    rw [hblank, accepted_path isPath_A (stops_closing stack)]
    exact haccepted
  · obtain ⟨type, haccepted⟩ := accepted_closing stack place (pos + ' '.utf8Size) hplace
    exact ⟨closing stack, type, by rw [hblank, haccepted]⟩

theorem ReadUpTo.viable {text front there : List Char} {consumed : List Token} {state : State}
    (h : ReadUpTo text front there consumed state) : Viable front := by
  obtain ⟨more, type, haccepted⟩ := exists_completion state (Text.byteLength front)
  have hstops : Stops (' ' :: more) := rfl
  exact ⟨' ' :: more, (h.of_stops hstops).mpr ⟨type, haccepted⟩⟩

/-! ## Where a text is refused -/

/-- Nothing goes on after the end of the text, and a character that begins no token is refused. -/
theorem step_last {token : Token} (h : token.lexeme = .done ∨ token.lexeme = .stray)
    (state : State) : step state token = .reject ∨
      token.lexeme = .done ∧ ∃ type, step state token = .accept type := by
  obtain ⟨stack, place⟩ := state
  by_cases hplace : place = .atType
  · obtain rfl := hplace
    obtain ⟨lexeme, span⟩ := token
    rcases h with rfl | rfl <;> exact .inl rfl
  · have hwhole : State.Whole ⟨stack, place⟩ := whole_of_ne_atType hplace
    have hends : token.Ends := by
      rcases h with h | h <;> exact Token.ends_of_eq h (by simp) (by simp)
    have hpath (path : String) : token.lexeme ≠ .path path := by
      rcases h with h | h <;> simp [h]
    obtain ⟨element, hstep⟩ := hwhole token hends hpath
    obtain ⟨lexeme, span⟩ := token
    rw [hstep]
    rcases h with rfl | rfl
    · rcases stack with _ | ⟨⟨path, start, read⟩ | ⟨start, _ | ⟨first, read⟩⟩, outer⟩
      · exact .inr ⟨rfl, _, rfl⟩
      all_goals exact .inl rfl
    · rcases stack with _ | ⟨⟨path, start, read⟩ | ⟨start, _ | ⟨first, read⟩⟩, outer⟩
      all_goals exact .inl rfl

theorem step_last_ne_more {token : Token} (h : token.lexeme = .done ∨ token.lexeme = .stray)
    (state next : State) : step state token ≠ .more next := by
  rcases step_last h state with hstep | ⟨-, type, hstep⟩
  · simp [hstep]
  · simp [hstep]

/-- A run that ends in a refusal: the token that is refused, and what was missed before it. -/
def Refused (state : State) (memory : Missed) (row : List Token) (missed : Missed) : Prop :=
  ∃ consumed token rest last before, row = consumed ++ token :: rest ∧
    Reaches state row last (token :: rest) ∧ step last token = .reject ∧
    missed = before.tried last.parts token ∧
    (before = memory ∨ ∃ other ∈ consumed, before.start = other.span.start)

section

variable {state : State} {memory missed : Missed} {token : Token} {row : List Token}

theorem Refused.of_cons (h : readFrom state memory (token :: row) = .error missed)
    (hmore : ∀ next, step state token = .more next →
      readFrom next (memory.tried state.parts token) row = .error missed →
      Refused next (memory.tried state.parts token) row missed) :
    Refused state memory (token :: row) missed := by
  rw [readFrom_cons] at h
  cases hstep : step state token with
  | reject =>
      rw [hstep] at h
      exact ⟨[], token, row, state, memory, rfl, .here, hstep, (Except.error.inj h).symm, .inl rfl⟩
  | accept type =>
      rw [hstep] at h
      cases h
  | more next =>
      rw [hstep] at h
      obtain ⟨consumed, other, rest, last, before, rfl, hreaches, hreject, rfl, hbefore⟩ :=
        hmore next hstep h
      refine ⟨token :: consumed, other, rest, last, before, rfl, .step hstep hreaches, hreject,
        rfl, ?_⟩
      rcases hbefore with rfl | ⟨seen, hseen, hstart⟩
      · rcases memory.next_cases state token with heq | ⟨hstart, -⟩
        · exact .inl heq
        · exact .inr ⟨token, List.mem_cons_self, hstart⟩
      · exact .inr ⟨seen, List.mem_cons_of_mem _ hseen, hstart⟩

/-- The tokens of a text run out only after one that nothing goes on after. -/
theorem Lexes.refused {pos : Nat} {text : List Char} (h : Lexes pos text row) :
    ∀ {state : State} {memory missed : Missed}, readFrom state memory row = .error missed →
      Refused state memory row missed := by
  induction h with
  | done pos =>
      intro state memory missed h
      exact .of_cons h fun next hstep => absurd hstep (step_last_ne_more (.inl rfl) state next)
  | blank _ _ ih => exact ih
  | mark _ _ ih => exact fun h => .of_cons h fun _ _ => ih
  | path _ _ ih => exact fun h => .of_cons h fun _ _ => ih
  | stray pos c rest =>
      intro state memory missed h
      exact .of_cons h fun next hstep => absurd hstep (step_last_ne_more (.inr rfl) state next)

theorem refused_of_parse {text : List Char} (h : parse text = .error missed) :
    Refused State.initial Missed.initial (tokens text) missed :=
  (lexes_tokensFrom text 0).refused h

/-- What the reader missed in a text stands behind a beginning that is viable. -/
theorem exists_viable_of_parse {text : List Char} (h : parse text = .error missed) :
    ∃ front, front <+: text ∧ Text.byteLength front = missed.start ∧ Viable front := by
  obtain ⟨consumed, token, rest, last, before, hrow, hreaches, -, rfl, hbefore⟩ :=
    refused_of_parse h
  obtain ⟨other, front, there, hother, hhead, hread⟩ := hreaches.readUpTo
  obtain rfl := List.append_cancel_right (hrow.symm.trans hother)
  have hviable : Viable front := hread.viable
  obtain rfl := hread.eq
  rcases before.next_cases last token with heq | ⟨hstart, -⟩
  · obtain ⟨shorter, hshorter, hlength⟩ : ∃ shorter, shorter <+: front ∧
        Text.byteLength shorter = before.start := by
      rcases hbefore with rfl | ⟨seen, hseen, hstart⟩
      · exact ⟨[], List.nil_prefix, rfl⟩
      · obtain ⟨shorter, c, back, rfl, hlength, -⟩ := hread.front.exists_char hseen
        exact ⟨shorter, List.prefix_append _ _,
          (Nat.zero_add _).symm.trans (hlength.trans hstart.symm)⟩
    refine ⟨shorter, hshorter.trans (List.prefix_append front there), ?_,
      hviable.of_prefix hshorter⟩
    exact hlength.trans (congrArg Missed.start heq).symm
  · refine ⟨front, List.prefix_append front there, ?_, hviable⟩
    rw [← offset_of_append front there, ← hhead.start]
    exact hstart.symm

end

/-! ## The fault of a text -/

/-- A text that is within the limit and not in the grammar is refused, with the parts that the
reader missed. -/
theorem read_of_not_inGrammar {context : Context} {source : String}
    (hguard : depthGuard context.maxDepth source.toList = .ok ())
    (hgrammar : ¬ InGrammar source.toList) :
    ∃ missed, parse source.toList = .error missed ∧
      read context source = .error (missed.fault source.toList) := by
  cases hparse : parse source.toList with
  | ok type => exact absurd (inGrammar_of_parse hparse) hgrammar
  | error missed =>
      exact ⟨missed, rfl, read_eq_error_iff.mpr
        (.inr ⟨depthGuard_eq_ok_iff.mp hguard, .inl ⟨missed, hparse, rfl⟩⟩)⟩

/-- A text that the grammar refuses has its fault at the furthest place at which a rule of the
grammar fails, and the text before that place is viable. -/
theorem viable_before_fault {context : Context} {source : String}
    (hguard : depthGuard context.maxDepth source.toList = .ok ())
    (hgrammar : ¬ InGrammar source.toList) :
    ∃ fault, read context source = .error fault ∧ fault.cause.code = "P001" ∧
      ∃ front there, source.toList = front ++ there ∧
        Text.byteLength front = fault.span.start ∧ FurthestFailure source.toList there ∧
        Viable front := by
  obtain ⟨missed, hparse, hread⟩ := read_of_not_inGrammar hguard hgrammar
  obtain ⟨front, there, heq, hlength, hfurthest⟩ := furthestFailure_of_parse hparse
  obtain ⟨before, hbefore, hlength', hviable⟩ := exists_viable_of_parse hparse
  obtain rfl : before = front :=
    eq_of_byteLength_eq hbefore ⟨there, heq.symm⟩ (hlength'.trans hlength.symm)
  exact ⟨missed.fault source.toList, hread, rfl, before, there, heq, hlength, hfurthest, hviable⟩

/-- Two labels stand on one element: the fault is at the first of them. -/
theorem viable_before_fault_labels :
    let source := "Map<int, (A b, List<C> d e)>"
    read {} source = .error ⟨.expected [.question], ⟨23, 24⟩⟩ ∧
      ∃ there, source.toList = "Map<int, (A b, List<C> ".toList ++ there ∧
        FurthestFailure source.toList there ∧ Viable "Map<int, (A b, List<C> ".toList := by
  intro source
  have hread : read {} source = .error ⟨.expected [.question], ⟨23, 24⟩⟩ :=
    read_of_refusedWith (by decide +kernel)
  have hgrammar : ¬ InGrammar source.toList := by decide +kernel
  obtain ⟨fault, hfault, -, front, there, heq, hlength, hfurthest, hviable⟩ :=
    @viable_before_fault {} source (by decide) hgrammar
  obtain rfl := Except.error.inj (hread.symm.trans hfault)
  obtain rfl : "Map<int, (A b, List<C> ".toList = front :=
    eq_of_byteLength_eq ⟨"d e)>".toList, by decide⟩ ⟨there, heq.symm⟩ hlength.symm
  exact ⟨hread, there, heq, hfurthest, hviable⟩

end TypeNaming.Signature
