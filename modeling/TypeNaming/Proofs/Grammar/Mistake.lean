/-
# Whether a fault shows the mistake

The mistake of a refused text is where its longest viable beginning ends.  The fault stands
there or before it (`viable_before_fault`), and when it stands before, what it points at is
correct.

That happens because a comma and a closing bracket are not among the parts that the reader
tries.  Where nothing else can follow the longest viable beginning, the reader tries nothing at
the mistake and points back at the last place where it did; where something else can follow, the
first character that is not a blank from the fault on is the mistake itself.  So what the fault
shows is correct exactly when the longest viable beginning can only go on with a comma or a
closing bracket (`shown_viable_iff`).

Two beginnings end inside a path, where no token can follow.  A dot after a path is viable, so
the fault at it shows something correct.  Of a path with dots in the place of a label the first
identifier is viable.
-/
import TypeNaming.Proofs.Grammar.Viable

namespace TypeNaming.Signature

/-! ## The mistake and the fault -/

/-- The longest viable beginning of the text. -/
structure LongestViable (text front : List Char) : Prop where
  begins : front <+: text
  viable : Viable front
  longest : ∀ other, other <+: text → Viable other → other <+: front

/-- The text up to the first character from byte `pos` on that is not a blank, with it. -/
def Shown (text : List Char) (pos : Nat) (shown : List Char) : Prop :=
  ∃ before blanks c after, text = before ++ blanks ++ c :: after ∧ Text.byteLength before = pos ∧
    (∀ b ∈ blanks, isSpace b = true) ∧ isSpace c = false ∧ shown = before ++ blanks ++ [c]

/-- The marks that end an item inside brackets. -/
def isEndMark (c : Char) : Bool :=
  c = ',' || c = '>' || c = ')'

/-- After the beginning and a blank nothing but a comma or a closing bracket can follow. -/
def EndsItem (front : List Char) : Prop :=
  ∀ more, InGrammar (front ++ ' ' :: more) → ∃ c, isEndMark c = true ∧ (trim more).head? = some c

theorem longestViable_of_next {front rest : List Char} (h : Viable front)
    (hnext : ∀ c, rest.head? = some c → ¬ Viable (front ++ [c])) :
    LongestViable (front ++ rest) front where
  begins := List.prefix_append front rest
  viable := h
  longest other hother hviable := by
    rcases List.prefix_or_prefix_of_prefix hother (List.prefix_append front rest)
      with h | ⟨more, rfl⟩
    · exact h
    · cases more with
      | nil => simp
      | cons c more =>
          obtain ⟨rest, rfl⟩ := (List.prefix_append_right_inj front).mp hother
          refine absurd (hviable.of_prefix ?_) (hnext c rfl)
          exact (List.prefix_append_right_inj front).mpr ⟨more, rfl⟩

/-- Of two pieces that end in their first character that is not a blank, the one that ends
first. -/
theorem prefix_of_first {blanks after mid rest : List Char} {c d : Char}
    (h : blanks ++ c :: after = mid ++ d :: rest) (hblanks : ∀ b ∈ blanks, isSpace b = true)
    (hd : isSpace d = false) : blanks ++ [c] <+: mid ++ [d] := by
  have hfirst : blanks ++ [c] <+: blanks ++ c :: after := ⟨after, by simp⟩
  have hother : mid ++ [d] <+: blanks ++ c :: after := ⟨rest, by simp [h]⟩
  refine List.prefix_of_prefix_length_le hfirst hother ?_
  by_contra hlt
  have hinside : mid ++ [d] <+: blanks :=
    List.prefix_of_prefix_length_le hother (List.prefix_append blanks _) (by simp at hlt ⊢; omega)
  have hspace := hblanks d (hinside.subset (by simp))
  rw [hd] at hspace
  cases hspace

section

variable {front there shown : List Char} {pos : Nat} {consumed : List Token}

/-- Before a token that was read there is nothing shown but what was read. -/
theorem Shown.prefix_front (h : Shown (front ++ there) pos shown)
    (hfront : Front there 0 front consumed) {token : Token} (hmem : token ∈ consumed)
    (hpos : pos ≤ token.span.start) : shown <+: front := by
  obtain ⟨before, blanks, c, after, htext, rfl, hblanks, -, rfl⟩ := h
  obtain ⟨lead, d, back, rfl, hstart, hd⟩ := hfront.exists_char hmem
  rw [Nat.zero_add] at hstart
  obtain ⟨mid, rfl⟩ : before <+: lead := by
    have hbefore : before <+: lead ++ d :: back ++ there := ⟨blanks ++ c :: after, by simp [htext]⟩
    have hlead : lead <+: lead ++ d :: back ++ there := ⟨d :: back ++ there, by simp⟩
    exact prefix_of_byteLength_le hbefore hlead (hstart ▸ hpos)
  have hrest : blanks ++ c :: after = mid ++ d :: (back ++ there) := by
    simpa using htext.symm
  have hfirst := prefix_of_first hrest hblanks hd
  simp only [List.append_assoc]
  exact (List.prefix_append_right_inj before).mpr (hfirst.trans ⟨back, by simp⟩)

/-- A place where no blank stands shows its own character. -/
theorem Shown.at_place (h : Shown (front ++ there) (Text.byteLength front) shown)
    (htrim : trim there = there) : ∃ c, there.head? = some c ∧ shown = front ++ [c] := by
  obtain ⟨before, blanks, c, after, htext, hlength, hblanks, hc, rfl⟩ := h
  obtain rfl : before = front :=
    eq_of_byteLength_eq ⟨blanks ++ c :: after, by simp [htext]⟩ ⟨there, rfl⟩ hlength
  rw [List.append_assoc] at htext
  obtain rfl := List.append_cancel_left htext
  cases blanks with
  | nil => exact ⟨c, rfl, by simp⟩
  | cons b blanks =>
      have hb := hblanks b List.mem_cons_self
      have hlt := length_trim_lt b (blanks ++ c :: after)
      rw [← trim_blank hb] at hlt
      exact absurd (congrArg List.length htrim) (Nat.ne_of_lt hlt)

end

/-! ## Where the reader stops -/

theorem Reaches.eq_of_same {state last : State} {row : List Token}
    (h : Reaches state row last row) : last = state := by
  cases h with
  | here => rfl
  | step _ hrest =>
      obtain ⟨consumed, hrow, -⟩ := hrest.exists_consumed
      have hlength := congrArg List.length hrow
      simp at hlength
      omega

theorem Reaches.reads {state last : State} {row rest : List Token}
    (h : Reaches state row last rest) : ∀ {lexemes : List Lexeme}, Reads state lexemes →
      ∃ more, Reads last more := by
  induction h with
  | here => exact fun h => ⟨_, h⟩
  | @step state next last token row rest hstep _ ih =>
      intro lexemes hreads
      have hsound := step_sound hreads token
      rw [hstep] at hsound
      exact ih hsound

/-- A label stands in a tuple. -/
theorem Reaches.label_in_tuple {row rest : List Token} {stack : List Frame} {element : Element}
    (h : Reaches State.initial row ⟨stack, .afterLabel element⟩ rest) :
    ∃ start read outer, stack = .tuple start read :: outer := by
  obtain ⟨lexemes, hreads⟩ := h.reads (.atType .nil)
  cases hreads
  exact ⟨_, _, _, rfl⟩

/-- The text is refused at the token, in the state, behind `front`. -/
structure Refusal (text front there : List Char) (consumed : List Token) (state : State)
    (token : Token) (row : List Token) : Prop where
  read : ReadUpTo text front there consumed state
  head : Head text there token row
  reject : step state token = .reject
  labelled : ∀ element, state.place = .afterLabel element →
    ∃ start read outer, state.stack = .tuple start read :: outer

/-- Where a type has to follow, it is missing at a token that is refused. -/
theorem beginsWith_of_reject {stack : List Frame} {token : Token}
    (h : step ⟨stack, .atType⟩ token = .reject) :
    Part.type.beginsWith token.lexeme = false := by
  obtain ⟨lexeme, span⟩ := token
  cases lexeme with
  | path path => cases h
  | leftParen => cases h
  | _ => rfl

/-- When a text is refused something was missed at the token where it is, or nothing was, and
then what the fault shows was read before. -/
theorem exists_refusal {text : List Char} {missed : Missed} (h : parse text = .error missed) :
    ∃ front there consumed state token row, Refusal text front there consumed state token row ∧
      (missed.start = Text.byteLength front ∧ state.parts ≠ [] ∨
        (state.parts.takeWhile fun part => !part.beginsWith token.lexeme) = [] ∧
          ∀ shown, Shown text missed.start shown → shown <+: front) := by
  obtain ⟨consumed, token, row, state, before, hrow, hreaches, hreject, rfl, hbefore⟩ :=
    refused_of_parse h
  obtain ⟨other, front, there, hother, hhead, hread⟩ := hreaches.readUpTo
  obtain rfl := List.append_cancel_right (hrow.symm.trans hother)
  refine ⟨front, there, consumed, state, token, row, ⟨hread, hhead, hreject, ?_⟩, ?_⟩
  · intro element hplace
    obtain ⟨stack, place⟩ := state
    obtain rfl := hplace
    exact hreaches.label_in_tuple
  · obtain rfl := hread.eq
    cases hvain : state.parts.takeWhile fun part => !part.beginsWith token.lexeme with
    | cons part parts =>
        refine .inl ⟨?_, fun hnil => by simp [hnil] at hvain⟩
        rw [Missed.tried, hvain, ← offset_of_append front there, ← hhead.start]
    | nil =>
        refine .inr ⟨rfl, fun shown hshown => ?_⟩
        rw [Missed.tried, hvain] at hshown
        obtain ⟨seen, hseen, hle⟩ : ∃ seen ∈ consumed, before.start ≤ seen.span.start := by
          rcases hbefore with rfl | ⟨seen, hseen, hstart⟩
          · cases consumed with
            | cons seen consumed => exact ⟨seen, List.mem_cons_self, Nat.zero_le _⟩
            | nil =>
                rw [hrow, List.nil_append] at hreaches
                obtain rfl := hreaches.eq_of_same
                simp [State.parts, State.initial, beginsWith_of_reject hreject] at hvain
          · exact ⟨seen, hseen, Nat.le_of_eq hstart⟩
        exact hshown.prefix_front hread.front hseen hle

/-! ## What cannot follow -/

/-- In the state no text is read that begins with the character. -/
def State.RefusesChar (state : State) (c : Char) : Prop :=
  ∀ pos more, accepted state (tokensFrom pos none (c :: more)) = none

theorem not_viable_of_refusesChar {front : List Char} {state : State} {c : Char}
    (h : state.RefusesChar c) (hcontinues : ∀ more, Continues front state (c :: more)) :
    ¬ Viable (front ++ [c]) := by
  rintro ⟨more, hmore⟩
  rw [List.append_assoc] at hmore
  obtain ⟨type, htype⟩ := (hcontinues more).mp hmore
  rw [h] at htype
  cases htype

theorem accepted_of_reject {state : State} {token : Token} (h : step state token = .reject)
    (row : List Token) : accepted state (token :: row) = none := by
  rw [accepted_cons, h]
  rfl

section

variable {stack : List Frame} {token again : Token}

theorem stepAfter_reject_congr {element other : Element}
    (h : stepAfter stack element token = .reject) (heq : again.lexeme = token.lexeme) :
    stepAfter stack other again = .reject := by
  obtain ⟨lexeme, span⟩ := token
  obtain ⟨again, place⟩ := again
  obtain rfl : again = lexeme := heq
  rcases stack with _ | ⟨⟨path, start, read⟩ | ⟨start, _ | ⟨first, read⟩⟩, outer⟩
  all_goals cases again <;> first | rfl | cases h

theorem stepAfterType_reject_congr {type other : TypeExpr}
    (h : stepAfterType stack type token = .reject) (heq : again.lexeme = token.lexeme) :
    stepAfterType stack other again = .reject := by
  by_cases hpath : ∃ path, token.lexeme = .path path
  · obtain ⟨path, hpath⟩ := hpath
    rcases stack with _ | ⟨⟨name, start, read⟩ | ⟨start, read⟩, outer⟩
    · exact stepAfter_reject_congr h heq
    · exact stepAfter_reject_congr h heq
    · rw [stepAfterType_path other (heq.trans hpath)]
      rw [stepAfterType_path type hpath] at h
      split
      · next hident => simp [hident] at h
      · rfl
  · have hbare := not_exists.mp hpath
    rw [stepAfterType_bare stack other (fun path => heq ▸ hbare path)]
    rw [stepAfterType_bare stack type hbare] at h
    exact stepAfter_reject_congr h heq

/-- Whether a token is refused does not depend on where it stands. -/
theorem step_reject_congr {state : State} (h : step state token = .reject)
    (heq : again.lexeme = token.lexeme) : step state again = .reject := by
  obtain ⟨stack, place⟩ := state
  obtain ⟨lexeme, span⟩ := token
  obtain ⟨other, span'⟩ := again
  obtain rfl : other = lexeme := heq
  cases place with
  | atType => cases other <;> first | rfl | cases h
  | afterPath path own =>
      cases other with
      | lessThan => cases h
      | question => cases h
      | _ =>
          exact stepAfterType_reject_congr h rfl
  | afterBracket type =>
      cases other with
      | question => cases h
      | _ =>
          exact stepAfterType_reject_congr h rfl
  | afterMark type =>
      exact stepAfterType_reject_congr h rfl
  | afterLabel element =>
      exact stepAfter_reject_congr h rfl

end

theorem refusesChar_of_mark {state : State} {c : Char} {lexeme : Lexeme} {span : Span}
    (hc : Punctuation c lexeme) (h : step state ⟨lexeme, span⟩ = .reject) :
    state.RefusesChar c := by
  intro pos more
  have hreject : step state ⟨lexeme, ⟨pos, pos + c.utf8Size⟩⟩ = .reject := step_reject_congr h rfl
  rw [tokensFrom_mark hc]
  exact accepted_of_reject hreject _

theorem refusesChar_of_stray {c : Char} (h : opening c = .stray) (state : State) :
    state.RefusesChar c := by
  intro pos more
  have hrow : tokensFrom pos none (c :: more) = [⟨.stray, ⟨pos, pos + c.utf8Size⟩⟩] := by
    simp [tokensFrom, h]
  have hlast : Token.lexeme ⟨.stray, ⟨pos, pos + c.utf8Size⟩⟩ = .stray := rfl
  rw [hrow]
  rcases step_last (.inr hlast) state with hreject | ⟨hdone, -⟩
  · exact accepted_of_reject hreject []
  · cases hdone

/-! ## Labels -/

/-- A label may follow, and it is a path without dots. -/
structure State.TakesLabel (state : State) : Prop where
  in_tuple : ∃ start read outer, state.stack = .tuple start read :: outer
  step_path : ∀ path span, ∃ element, step state ⟨.path path, span⟩
    = if isIdent path then .more ⟨state.stack, .afterLabel element⟩ else .reject

theorem takesLabel_of_stepAfterType {start : Nat} {read : List Element} {outer : List Frame}
    {place : Place} (h : ∀ path span, ∃ type,
      step ⟨.tuple start read :: outer, place⟩ ⟨.path path, span⟩
        = stepAfterType (.tuple start read :: outer) type ⟨.path path, span⟩) :
    State.TakesLabel ⟨.tuple start read :: outer, place⟩ where
  in_tuple := ⟨start, read, outer, rfl⟩
  step_path path span := by
    obtain ⟨type, hstep⟩ := h path span
    exact ⟨_, hstep.trans (stepAfterType_path type rfl)⟩

/-- A label that is refused has dots. -/
theorem State.TakesLabel.dotted {state : State} (h : state.TakesLabel) {path : String}
    {span : Span} (hreject : step state ⟨.path path, span⟩ = .reject) : isIdent path = false := by
  obtain ⟨element, hstep⟩ := h.step_path path span
  rw [hreject] at hstep
  by_contra hident
  simp [hident] at hstep

theorem paths_afterType {stack : List Frame} {place : Place}
    (hstep : ∀ path span, ∃ type, step ⟨stack, place⟩ ⟨.path path, span⟩
      = stepAfterType stack type ⟨.path path, span⟩) :
    (∀ path span, step ⟨stack, place⟩ ⟨.path path, span⟩ = .reject) ∨
      State.TakesLabel ⟨stack, place⟩ := by
  rcases stack with _ | ⟨⟨name, start, read⟩ | ⟨start, read⟩, outer⟩
  · exact .inl fun path span => (hstep path span).choose_spec
  · exact .inl fun path span => (hstep path span).choose_spec
  · exact .inr (takesLabel_of_stepAfterType hstep)

/-- Where a path is refused any other path is, or a label may follow. -/
theorem paths_of_reject {state : State} {path : String} {span : Span}
    (h : step state ⟨.path path, span⟩ = .reject) :
    (∀ other place, step state ⟨.path other, place⟩ = .reject) ∨ state.TakesLabel := by
  obtain ⟨stack, place⟩ := state
  cases place with
  | atType => cases h
  | afterPath name own => exact paths_afterType fun _ _ => ⟨_, rfl⟩
  | afterBracket type => exact paths_afterType fun _ _ => ⟨_, rfl⟩
  | afterMark type => exact paths_afterType fun _ _ => ⟨_, rfl⟩
  | afterLabel element =>
      refine .inl fun other span => ?_
      rcases stack with _ | ⟨⟨name, start, read⟩ | ⟨start, _ | ⟨first, read⟩⟩, outer⟩
      all_goals rfl

theorem refusesChar_of_path {state : State} {c : Char} (hc : isIdentStart c = true)
    (h : ∀ path span, step state ⟨.path path, span⟩ = .reject) : state.RefusesChar c := by
  intro pos more
  obtain ⟨path, rest, rfl, hpath, hrest⟩ := exists_goesOn_stops more
  rw [← List.cons_append, tokensFrom_path hc hpath hrest]
  exact accepted_of_reject (h _ _) _

/-! ## What can follow -/

/-- A rest begins with its first token, after its blanks. -/
theorem Lexes.head?_trim {pos : Nat} {cs : List Char} {token : Token} {row : List Token}
    (h : Lexes pos cs (token :: row)) {c : Char} (hc : Punctuation c token.lexeme) :
    (trim cs).head? = some c := by
  generalize hall : token :: row = all at h
  induction h with
  | done =>
      obtain ⟨rfl, -⟩ := List.cons.inj hall
      cases hc
  | blank hspace _ ih =>
      rw [trim_blank hspace]
      exact ih hall
  | @mark pos d lexeme rest row hd _ _ =>
      obtain ⟨rfl, -⟩ := List.cons.inj hall
      obtain rfl := hc.char_eq hd
      have hspace : isSpace c = false := by cases hc <;> rfl
      rw [trim_cons hspace]
      rfl
  | path =>
      obtain ⟨rfl, -⟩ := List.cons.inj hall
      cases hc
  | stray =>
      obtain ⟨rfl, -⟩ := List.cons.inj hall
      cases hc

/-- In the state only a comma or a closing bracket is read. -/
def State.OnlyEnds (state : State) : Prop :=
  ∀ token, step state token ≠ .reject → ∃ c, isEndMark c = true ∧ Punctuation c token.lexeme

theorem endMark_of_stepAfter {frame : Frame} {outer : List Frame} {element : Element}
    {token : Token} (h : stepAfter (frame :: outer) element token ≠ .reject) :
    ∃ c, isEndMark c = true ∧ Punctuation c token.lexeme := by
  obtain ⟨lexeme, span⟩ := token
  cases lexeme with
  | comma => exact ⟨',', rfl, .comma⟩
  | greaterThan => exact ⟨'>', rfl, .greaterThan⟩
  | rightParen => exact ⟨')', rfl, .rightParen⟩
  | _ =>
      refine absurd ?_ h
      rcases frame with ⟨name, start, read⟩ | ⟨start, _ | ⟨first, read⟩⟩ <;> rfl

theorem onlyEnds_afterLabel (frame : Frame) (outer : List Frame) (element : Element) :
    State.OnlyEnds ⟨frame :: outer, .afterLabel element⟩ :=
  fun _ => endMark_of_stepAfter

theorem onlyEnds_afterMark (path : String) (start : Nat) (read : List TypeExpr)
    (outer : List Frame) (type : TypeExpr) :
    State.OnlyEnds ⟨.args path start read :: outer, .afterMark type⟩ :=
  fun _ => endMark_of_stepAfter

theorem State.OnlyEnds.head? {state : State} (h : state.OnlyEnds) {pos : Nat} {more : List Char}
    {type : TypeExpr} (haccepted : accepted state (tokensFrom pos none (' ' :: more)) = some type) :
    ∃ c, isEndMark c = true ∧ (trim more).head? = some c := by
  have hlexes := lexes_tokensFrom (' ' :: more) pos
  generalize tokensFrom pos none (' ' :: more) = row at haccepted hlexes
  cases row with
  | nil => cases haccepted
  | cons token row =>
      have hstep : step state token ≠ .reject := by
        intro hreject
        rw [accepted_of_reject hreject] at haccepted
        cases haccepted
      obtain ⟨c, hend, hc⟩ := h token hstep
      exact ⟨c, hend, hlexes.head?_trim hc⟩

/-- From byte `pos` on the reader can come to the end of a text without beginning with a comma
or a closing bracket. -/
def State.GoesOnOtherwise (state : State) (pos : Nat) : Prop :=
  ∃ more type, accepted state (tokensFrom pos none more) = some type ∧
    ∀ c, isEndMark c = true → (trim more).head? ≠ some c

theorem goesOnOtherwise_mark {stack : List Frame} {place : Place} (pos : Nat)
    (h : ∀ span, ∃ type, step ⟨stack, place⟩ ⟨.question, span⟩ = .more ⟨stack, .afterMark type⟩) :
    State.GoesOnOtherwise ⟨stack, place⟩ pos := by
  obtain ⟨marked, hstep⟩ := h ⟨pos, pos + '?'.utf8Size⟩
  obtain ⟨type, haccepted⟩ :=
    accepted_closing stack (.afterMark marked) (pos + '?'.utf8Size) (by simp)
  refine ⟨'?' :: closing stack, type, ?_, ?_⟩
  · rw [tokensFrom_mark .question, accepted_cons, hstep]
    exact haccepted
  · rintro c hc ⟨⟩
    cases hc

theorem goesOnOtherwise_path {stack : List Frame} {place : Place} (pos : Nat)
    (h : ∀ span, ∃ next, next ≠ .atType ∧
      step ⟨stack, place⟩ ⟨.path "A", span⟩ = .more ⟨stack, next⟩) :
    State.GoesOnOtherwise ⟨stack, place⟩ pos := by
  obtain ⟨next, hnext, hstep⟩ := h ⟨pos, pos + Text.byteLength ['A']⟩
  obtain ⟨type, haccepted⟩ := accepted_closing stack next (pos + Text.byteLength ['A']) hnext
  refine ⟨['A'] ++ closing stack, type, ?_, ?_⟩
  · rw [tokensFrom_longest isPath_A (longest_of_stops isPath_A (stops_closing stack)),
      accepted_cons]
    exact (congrArg (resume · _) hstep).trans haccepted
  · rintro c hc ⟨⟩
    cases hc

/-- Where the reader tries some part, something else than a comma or a closing bracket can
follow. -/
theorem goesOnOtherwise_of_parts {state : State} (h : state.parts ≠ []) (pos : Nat) :
    state.GoesOnOtherwise pos := by
  obtain ⟨stack, place⟩ := state
  cases place with
  | atType => exact goesOnOtherwise_path pos fun span => ⟨.afterPath "A" span, by simp, rfl⟩
  | afterPath path own => exact goesOnOtherwise_mark pos fun _ => ⟨_, rfl⟩
  | afterBracket type => exact goesOnOtherwise_mark pos fun _ => ⟨_, rfl⟩
  | afterMark type =>
      rcases stack with _ | ⟨⟨path, start, read⟩ | ⟨start, read⟩, outer⟩
      · exact ⟨[], type, rfl, fun _ _ => nofun⟩
      · exact absurd rfl h
      · refine goesOnOtherwise_path pos fun span => ⟨.afterLabel ⟨type, some ⟨"A", span⟩⟩, ?_, ?_⟩
        · simp
        · rw [show step ⟨_, .afterMark type⟩ ⟨.path "A", span⟩
            = stepAfterType (.tuple start read :: outer) type ⟨.path "A", span⟩ from rfl,
            stepAfterType_path type rfl]
          rfl
  | afterLabel element => exact absurd rfl h

/-! ## The longest viable beginning -/

theorem State.TakesLabel.accepted {state : State} (h : state.TakesLabel) {first : List Char}
    (hfirst : Identifier first) (pos : Nat) :
    ∃ element, ∀ rest, Stops rest → Signature.accepted state (tokensFrom pos none (first ++ rest))
      = Signature.accepted ⟨state.stack, .afterLabel element⟩
          (tokensFrom (pos + Text.byteLength first) none rest) := by
  have hpath : IsPath first := .ident hfirst
  obtain ⟨element, hstep⟩ :=
    h.step_path (String.ofList first) ⟨pos, pos + Text.byteLength first⟩
  have hident : isIdent (String.ofList first) = true := by simp [isIdent, hfirst.undotted]
  rw [if_pos hident] at hstep
  refine ⟨element, fun rest hrest => ?_⟩
  rw [tokensFrom_longest hpath (longest_of_stops hpath hrest), accepted_cons, hstep]
  rfl

/-- A label with a dot after it is refused, whatever comes after the dot. -/
theorem State.TakesLabel.refuses_dot {state : State} (h : state.TakesLabel) {first : List Char}
    (hfirst : Identifier first) (pos : Nat) (more : List Char) :
    Signature.accepted state (tokensFrom pos none (first ++ '.' :: more)) = none := by
  obtain ⟨dotted, rest, heq, hdotted, hrest⟩ := exists_goesOn_stops ('.' :: more)
  cases dotted with
  | nil =>
      obtain rfl : '.' :: more = rest := heq
      obtain ⟨element, haccepted⟩ := h.accepted hfirst pos
      rw [haccepted _ hrest]
      exact refusesChar_of_stray rfl _ _ more
  | cons dot others =>
      obtain ⟨rfl, -⟩ := List.cons.inj heq
      have hpath : IsPath (first ++ '.' :: others) := isPath_of_goesOn hfirst hdotted
      have hident : isIdent (String.ofList (first ++ '.' :: others)) = false := by simp [isIdent]
      rw [heq, ← List.append_assoc, tokensFrom_longest hpath (longest_of_stops hpath hrest)]
      refine accepted_of_reject ?_ _
      obtain ⟨element, hstep⟩ := h.step_path (String.ofList (first ++ '.' :: others))
        ⟨pos, pos + Text.byteLength (first ++ '.' :: others)⟩
      rw [hstep, hident]
      rfl

section

variable {text front there after : List Char} {consumed : List Token} {state : State}
  {token : Token} {row : List Token} {c : Char}

theorem ReadUpTo.continues_char (h : ReadUpTo text front (c :: after) consumed state)
    (hdot : c ≠ '.') (more : List Char) : Continues front state (c :: more) := by
  rcases h.stops_or with hstops | hfree
  · exact h.of_stops (stops_of_ne_dot hdot hstops)
  · exact hfree (c :: more)

/-- Where a label has dots, the beginning up to its first identifier is viable. -/
theorem ReadUpTo.longest_label (h : ReadUpTo text front there consumed state)
    (hlabel : state.TakesLabel) {first others : List Char} (hfirst : Identifier first)
    (hthere : there = first ++ '.' :: others) :
    LongestViable text (front ++ first) ∧ EndsItem (front ++ first) := by
  have hcontinues (more : List Char) : Continues front state (first ++ more) := by
    obtain ⟨c, rest, rfl, hc, -⟩ := hfirst
    refine ReadUpTo.continues_char (hthere ▸ h) ?_ (rest ++ more)
    rintro rfl
    cases hc
  have hblank (more : List Char) : Stops (' ' :: more) := rfl
  obtain ⟨element, haccepted⟩ := hlabel.accepted hfirst (Text.byteLength front)
  constructor
  · rw [h.eq, hthere, ← List.append_assoc]
    refine longestViable_of_next ?_ ?_
    · obtain ⟨more, type, htype⟩ := exists_completion ⟨state.stack, .afterLabel element⟩
        (Text.byteLength front + Text.byteLength first)
      refine ⟨' ' :: more, ?_⟩
      rw [List.append_assoc]
      exact (hcontinues (' ' :: more)).mpr ⟨type, (haccepted _ (hblank more)).trans htype⟩
    · rintro _ ⟨⟩ ⟨more, hmore⟩
      rw [List.append_assoc, List.append_assoc] at hmore
      obtain ⟨type, htype⟩ := (hcontinues ('.' :: more)).mp hmore
      cases (hlabel.refuses_dot hfirst _ more).symm.trans htype
  · intro more hmore
    rw [List.append_assoc] at hmore
    obtain ⟨type, htype⟩ := (hcontinues (' ' :: more)).mp hmore
    obtain ⟨start, read, outer, hstack⟩ := hlabel.in_tuple
    rw [haccepted _ (hblank more), hstack] at htype
    exact (onlyEnds_afterLabel _ outer element).head? htype

/-- Where a dot comes after a path, no blank can come after the dot. -/
theorem ReadUpTo.longest_dot (h : ReadUpTo text front ('.' :: after) consumed state)
    (hviable : Viable (front ++ ['.'])) :
    LongestViable text (front ++ ['.']) ∧ EndsItem (front ++ ['.']) := by
  have hrefuses : state.RefusesChar '.' := refusesChar_of_stray rfl state
  have hstops : Stops ('.' :: after) := by
    rcases h.stops_or with hstops | hfree
    · exact hstops
    · exact absurd hviable (not_viable_of_refusesChar hrefuses fun more => hfree ('.' :: more))
  constructor
  · rw [h.eq, List.append_cons]
    refine longestViable_of_next hviable ?_
    rintro c hc ⟨more, hmore⟩
    obtain ⟨after, rfl⟩ := List.head?_eq_some_iff.mp hc
    have hnext : Stops ('.' :: c :: more) := hstops
    rw [List.append_assoc, List.append_assoc] at hmore
    obtain ⟨type, htype⟩ := (h.of_stops hnext).mp hmore
    cases (hrefuses _ (c :: more)).symm.trans htype
  · intro more hmore
    have hblank : Stops ('.' :: ' ' :: more) := rfl
    rw [List.append_assoc] at hmore
    obtain ⟨type, htype⟩ := (h.of_stops hblank).mp hmore
    cases (hrefuses _ (' ' :: more)).symm.trans htype

/-- Elsewhere the token that is refused is the mistake. -/
theorem Refusal.longest (h : Refusal text front there consumed state token row)
    (hdot : ¬ (there.head? = some '.' ∧ Viable (front ++ ['.'])))
    (hlabel : ∀ path, token.lexeme = .path path → ¬ state.TakesLabel) :
    LongestViable text front := by
  have hread := h.read
  have hreject := h.reject
  rw [hread.eq]
  refine longestViable_of_next hread.viable fun c hc => ?_
  by_cases heq : c = '.'
  · exact fun hviable => hdot ⟨heq ▸ hc, heq ▸ hviable⟩
  obtain ⟨after, rfl⟩ := List.head?_eq_some_iff.mp hc
  refine not_viable_of_refusesChar ?_ fun more => hread.continues_char heq more
  generalize hthere : c :: after = there at h
  cases h.head with
  | done => cases hthere
  | mark hd =>
      obtain ⟨rfl, -⟩ := List.cons.inj hthere
      exact refusesChar_of_mark hd hreject
  | path hpath =>
      obtain ⟨first, more, rfl, hfirst, -⟩ := hpath.starts
      obtain ⟨rfl, -⟩ := List.cons.inj hthere
      rcases paths_of_reject hreject with hall | htakes
      · exact refusesChar_of_path hfirst hall
      · exact absurd htakes (hlabel _ rfl)
  | stray hd =>
      obtain ⟨rfl, -⟩ := List.cons.inj hthere
      exact refusesChar_of_stray hd state

theorem beginsWith_of_takeWhile {part : Part} {parts : List Part} {lexeme : Lexeme}
    (h : ((part :: parts).takeWhile fun part => !part.beginsWith lexeme) = []) :
    part.beginsWith lexeme = true := by
  by_contra hvain
  rw [List.takeWhile_cons_of_pos (by simp [hvain])] at h
  cases h

/-- Where nothing is missed at the token that is refused, no part is tried there, or the token
stands in the place of a label. -/
theorem Refusal.parts_eq_nil (h : Refusal text front there consumed state token row)
    (hlabel : ∀ path, token.lexeme = .path path → ¬ state.TakesLabel)
    (hvain : (state.parts.takeWhile fun part => !part.beginsWith token.lexeme) = []) :
    state.parts = [] := by
  have hreject := h.reject
  obtain ⟨stack, place⟩ := state
  obtain ⟨lexeme, span⟩ := token
  cases place with
  | atType =>
      cases (beginsWith_of_reject hreject).symm.trans (beginsWith_of_takeWhile hvain)
  | afterPath path own =>
      have hbegins := beginsWith_of_takeWhile hvain
      cases lexeme with
      | lessThan => cases hreject
      | _ => cases hbegins
  | afterBracket type =>
      have hbegins := beginsWith_of_takeWhile hvain
      cases lexeme with
      | question => cases hreject
      | _ => cases hbegins
  | afterMark type =>
      rcases stack with _ | ⟨⟨path, start, read⟩ | ⟨start, read⟩, outer⟩
      · have hbegins := beginsWith_of_takeWhile hvain
        cases lexeme with
        | done => cases hreject
        | _ => cases hbegins
      · rfl
      · have hbegins := beginsWith_of_takeWhile hvain
        cases lexeme with
        | path path =>
            exact absurd (takesLabel_of_stepAfterType fun _ _ => ⟨type, rfl⟩) (hlabel path rfl)
        | _ => cases hbegins
  | afterLabel element => rfl

/-- Where no part is tried, only a comma or a closing bracket can follow. -/
theorem Refusal.onlyEnds (h : Refusal text front there consumed state token row)
    (hparts : state.parts = []) : state.OnlyEnds := by
  have hlabelled := h.labelled
  obtain ⟨stack, place⟩ := state
  cases place with
  | atType => cases hparts
  | afterPath => cases hparts
  | afterBracket => cases hparts
  | afterMark type =>
      rcases stack with _ | ⟨⟨path, start, read⟩ | ⟨start, read⟩, outer⟩
      · cases hparts
      · exact onlyEnds_afterMark path start read outer type
      · cases hparts
  | afterLabel element =>
      obtain ⟨start, read, outer, rfl⟩ := hlabelled element rfl
      exact onlyEnds_afterLabel _ outer element

theorem Refusal.endsItem_iff (h : Refusal text front there consumed state token row) :
    EndsItem front ↔ state.parts = [] := by
  have hcontinues (more : List Char) : Continues front state (' ' :: more) :=
    have hblank : Stops (' ' :: more) := rfl
    h.read.of_stops hblank
  constructor
  · intro hfront
    by_contra hparts
    obtain ⟨more, type, htype, hother⟩ :=
      goesOnOtherwise_of_parts hparts (Text.byteLength front + ' '.utf8Size)
    obtain ⟨c, hc, hhead⟩ := hfront more ((hcontinues more).mpr
      ⟨type, by rw [tokensFrom_blank rfl]; exact htype⟩)
    exact hother c hc hhead
  · intro hparts more hmore
    obtain ⟨type, htype⟩ := (hcontinues more).mp hmore
    exact (h.onlyEnds hparts).head? htype

/-- The mistake of a text that is refused is at the token, or behind a dot or the first identifier
of a path there. -/
theorem Refusal.exists_longest (h : Refusal text front there consumed state token row) :
    ∃ longest, LongestViable text longest ∧ front <+: longest ∧
      (EndsItem longest ∧ (∀ c, there.head? = some c → front ++ [c] <+: longest) ∨
        longest = front ∧ ∀ path, token.lexeme = .path path → ¬ state.TakesLabel) := by
  by_cases hlabel : ∃ path, token.lexeme = .path path ∧ state.TakesLabel
  · obtain ⟨path, hlexeme, htakes⟩ := hlabel
    obtain ⟨rest, hthere, hpath, -, rfl, -⟩ := h.head.of_path hlexeme
    obtain ⟨first, others, hfirst, heq⟩ := hpath.exists_first (htakes.dotted h.reject)
    rw [heq, List.append_assoc] at hthere
    obtain ⟨hlongest, hends⟩ := h.read.longest_label htakes hfirst hthere
    refine ⟨_, hlongest, List.prefix_append _ _, .inl ⟨hends, fun c hc => ?_⟩⟩
    obtain ⟨d, more, rfl, -⟩ := hfirst
    obtain rfl : d = c := by simpa [hthere] using hc
    exact (List.prefix_append_right_inj front).mpr ⟨more, rfl⟩
  · have hlabel' (path : String) (hlexeme : token.lexeme = .path path) : ¬ state.TakesLabel :=
      fun htakes => hlabel ⟨path, hlexeme, htakes⟩
    by_cases hdot : there.head? = some '.' ∧ Viable (front ++ ['.'])
    · obtain ⟨hhead, hviable⟩ := hdot
      obtain ⟨after, rfl⟩ := List.head?_eq_some_iff.mp hhead
      obtain ⟨hlongest, hends⟩ := h.read.longest_dot hviable
      refine ⟨_, hlongest, List.prefix_append _ _, .inl ⟨hends, ?_⟩⟩
      rintro c ⟨⟩
      exact List.prefix_rfl
    · exact ⟨front, h.longest hdot hlabel', List.prefix_rfl, .inr ⟨rfl, hlabel'⟩⟩

/-- What the fault of a refused text shows is viable exactly when only a comma or a closing
bracket can follow the longest viable beginning. -/
theorem shown_viable_of_parse {missed : Missed} (h : parse text = .error missed) :
    ∃ longest, LongestViable text longest ∧
      ∀ shown, Shown text missed.start shown → (Viable shown ↔ EndsItem longest) := by
  obtain ⟨front, there, consumed, state, token, row, hrefusal, hmissed⟩ := exists_refusal h
  obtain ⟨longest, hlongest, hfront, hcases⟩ := hrefusal.exists_longest
  refine ⟨longest, hlongest, fun shown hshown => ?_⟩
  obtain rfl := hrefusal.read.eq
  -- What is shown was read, or it ends in the first character of the token.
  have hplace : missed.start = Text.byteLength front ∧ state.parts ≠ [] ∧
        (∃ c, there.head? = some c ∧ shown = front ++ [c]) ∨
      (state.parts.takeWhile fun part => !part.beginsWith token.lexeme) = [] ∧ shown <+: front := by
    rcases hmissed with ⟨hstart, hparts⟩ | ⟨hvain, hread⟩
    · rw [hstart] at hshown
      exact .inl ⟨hstart, hparts, hshown.at_place hrefusal.head.trim_eq⟩
    · exact .inr ⟨hvain, hread shown hshown⟩
  rcases hcases with ⟨hends, hnext⟩ | ⟨rfl, hlabel⟩
  · refine iff_of_true (hlongest.viable.of_prefix ?_) hends
    rcases hplace with ⟨-, -, c, hc, rfl⟩ | ⟨-, hshown⟩
    · exact hnext c hc
    · exact hshown.trans hfront
  · rw [hrefusal.endsItem_iff]
    rcases hplace with ⟨-, hparts, c, hc, rfl⟩ | ⟨hvain, hshown⟩
    · refine iff_of_false (fun hviable => ?_) hparts
      obtain ⟨after, rfl⟩ := List.head?_eq_some_iff.mp hc
      have hlonger := hlongest.longest _ ⟨after, by simp⟩ hviable
      exact absurd hlonger.length_le (by simp)
    · exact iff_of_true (hlongest.viable.of_prefix hshown) (hrefusal.parts_eq_nil hlabel hvain)

end

/-- The fault of a text that the grammar refuses stands at the furthest place at which a rule of
the grammar fails.  What it shows is viable exactly when only a comma or a closing bracket can
follow the longest viable beginning. -/
theorem shown_viable_iff {context : Context} {source : String}
    (hguard : depthGuard context.maxDepth source.toList = .ok ())
    (hgrammar : ¬ InGrammar source.toList) :
    ∃ fault longest, read context source = .error fault ∧ fault.cause.code = "P001" ∧
      (∃ front there, source.toList = front ++ there ∧
        Text.byteLength front = fault.span.start ∧ FurthestFailure source.toList there) ∧
      LongestViable source.toList longest ∧
      ∀ shown, Shown source.toList fault.span.start shown →
        (Viable shown ↔ EndsItem longest) := by
  obtain ⟨missed, hparse, hread⟩ := read_of_not_inGrammar hguard hgrammar
  obtain ⟨longest, hlongest, hshown⟩ := shown_viable_of_parse hparse
  exact ⟨missed.fault source.toList, longest, hread, rfl, furthestFailure_of_parse hparse,
    hlongest, hshown⟩

/-- Nothing but a comma can follow the label `b`, so the fault shows a part of it. -/
theorem shown_viable_iff_label :
    let source := "(A b.c, d)"
    ∃ longest, LongestViable source.toList longest ∧ EndsItem longest ∧
      Shown source.toList 3 "(A b".toList := by
  intro source
  have hread : read {} source = .error ⟨.expected [.lessThan, .question], ⟨3, 4⟩⟩ :=
    read_of_refusedWith (by decide +kernel)
  have hgrammar : ¬ InGrammar source.toList := by decide +kernel
  have hwhole : InGrammar "(A b, d)".toList := by decide +kernel
  have hshown : Shown source.toList 3 "(A b".toList :=
    ⟨"(A ".toList, [], 'b', ".c, d)".toList, by decide, by decide, by simp, rfl, by decide⟩
  obtain ⟨fault, longest, hfault, -, -, hlongest, hiff⟩ :=
    @shown_viable_iff {} source (by decide) hgrammar
  obtain rfl := Except.error.inj (hread.symm.trans hfault)
  exact ⟨longest, hlongest, (hiff _ hshown).mp ⟨", d)".toList, hwhole⟩, hshown⟩

/-- The fault shows the `?`, which is correct: after it only a comma or a closing bracket can
follow, and something else does. -/
theorem shown_viable_question :
    let source := "List<int? x>"
    depthGuard ({} : Context).maxDepth source.toList = .ok () ∧ ¬ InGrammar source.toList ∧
      read {} source = .error ⟨.expected [.lessThan], ⟨8, 9⟩⟩ ∧
      Shown source.toList 8 "List<int?".toList ∧ Viable "List<int?".toList := by
  intro source
  have hread : read {} source = .error ⟨.expected [.lessThan], ⟨8, 9⟩⟩ :=
    read_of_refusedWith (by decide +kernel)
  have hgrammar : ¬ InGrammar source.toList := by decide +kernel
  have hwhole : InGrammar "List<int?>".toList := by decide +kernel
  have hshown : Shown source.toList 8 "List<int?".toList :=
    ⟨"List<int".toList, [], '?', " x>".toList, by decide, by decide, by simp, rfl, by decide⟩
  exact ⟨by decide, hgrammar, hread, hshown, ['>'], hwhole⟩

end TypeNaming.Signature
