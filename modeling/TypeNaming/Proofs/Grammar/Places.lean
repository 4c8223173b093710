/-
# Where the parts of a text stand

`Scans pos text row` is the cut of a text with places: the text, which begins at byte
`pos`, is the row of tokens, the last of them `done`.  A text can be cut in two where a
token starts (`Scans.split`), and the blanks at its end can be left off (`Scans.trim`);
both pieces are scanned as before.

`SpelledIn row type` says that some tokens of the row, with one more after them, spell the
type.  It goes from a type to its parts (`SpelledIn.part`), and to the type without its
`?` (`SpelledIn.base`), so every type that is read inside another one is spelled in the
same row.  The parts of a type stand one after the other (`SpelledIn.pairwise_parts`).
-/
import TypeNaming.Proofs.Grammar.Derivation

namespace TypeNaming.Signature

/-! ## Tokens with their places -/

/-- The text, which begins at byte `pos`, is the row of tokens. -/
inductive Scans : Nat → List Char → List Token → Prop
  | done (pos : Nat) : Scans pos [] [⟨.done, ⟨pos, pos⟩⟩]
  | blank {pos : Nat} {c : Char} {rest : List Char} {row : List Token} : isSpace c = true →
      Scans (pos + c.utf8Size) rest row → Scans pos (c :: rest) row
  | mark {pos : Nat} {c : Char} {lexeme : Lexeme} {rest : List Char} {row : List Token} :
      Punctuation c lexeme → Scans (pos + c.utf8Size) rest row →
      Scans pos (c :: rest) (⟨lexeme, ⟨pos, pos + c.utf8Size⟩⟩ :: row)
  | path {pos : Nat} {cs rest : List Char} {row : List Token} : IsPath cs → Longest cs rest →
      Scans (pos + Text.byteLength cs) rest row →
      Scans pos (cs ++ rest)
        (⟨.path (String.ofList cs), ⟨pos, pos + Text.byteLength cs⟩⟩ :: row)

theorem Cut.scans {text : List Char} {lexemes : List Lexeme} (h : Cut text lexemes) (pos : Nat) :
    Scans pos text (tokensFrom pos none text) := by
  induction h generalizing pos with
  | done => exact .done pos
  | blank hc _ ih =>
      rw [tokensFrom_blank hc]
      exact .blank hc (ih _)
  | mark hc _ ih =>
      rw [tokensFrom_mark hc]
      exact .mark hc (ih _)
  | path hpath hlong _ ih =>
      rw [tokensFrom_longest hpath hlong]
      exact .path hpath hlong (ih _)

theorem Scans.tokensFrom_eq {pos : Nat} {text : List Char} {row : List Token}
    (h : Scans pos text row) : tokensFrom pos none text = row := by
  induction h with
  | done => rfl
  | blank hc _ ih => rw [tokensFrom_blank hc, ih]
  | mark hc _ ih => rw [tokensFrom_mark hc, ih]
  | path hpath hlong _ ih => rw [tokensFrom_longest hpath hlong, ih]

theorem Scans.cut {pos : Nat} {text : List Char} {row : List Token} (h : Scans pos text row) :
    ∃ lexemes, Cut text lexemes := by
  induction h with
  | done => exact ⟨[], .done⟩
  | blank hc _ ih =>
      obtain ⟨lexemes, h⟩ := ih
      exact ⟨lexemes, .blank hc h⟩
  | mark hc _ ih =>
      obtain ⟨lexemes, h⟩ := ih
      exact ⟨_, .mark hc h⟩
  | path hpath hlong _ ih =>
      obtain ⟨lexemes, h⟩ := ih
      exact ⟨_, .path hpath hlong h⟩

theorem Longest.of_append {cs front back : List Char} (h : Longest cs (front ++ back)) :
    Longest cs front := by
  intro more hne hbegins
  exact h more hne (hbegins.trans (List.prefix_append front back))

/-- A text can be cut where a token starts. -/
theorem Scans.split {pos : Nat} {text : List Char} {row : List Token} (h : Scans pos text row) :
    ∀ {before : List Token} {token : Token} {after : List Token},
      row = before ++ token :: after →
        ∃ front back, text = front ++ back ∧
          pos + Text.byteLength front = token.span.start ∧
          Scans pos front (before ++ [⟨.done, ⟨token.span.start, token.span.start⟩⟩]) ∧
          Scans token.span.start back (token :: after) := by
  induction h with
  | done pos =>
      intro before token after hrow
      obtain ⟨rfl, hrow⟩ : before = [] ∧ [⟨.done, ⟨pos, pos⟩⟩] = token :: after := by
        cases before <;> simp_all
      obtain ⟨rfl, rfl⟩ := List.cons.inj hrow
      exact ⟨[], [], rfl, rfl, .done pos, .done pos⟩
  | @blank pos c rest row hc _ ih =>
      intro before token after hrow
      obtain ⟨front, back, rfl, hstart, hfront, hback⟩ := ih hrow
      refine ⟨c :: front, back, rfl, ?_, .blank hc hfront, hback⟩
      rw [Text.byteLength]
      omega
  | @mark pos c lexeme rest row hc h ih =>
      intro before token after hrow
      cases before with
      | nil =>
          obtain ⟨rfl, rfl⟩ := List.cons.inj hrow
          exact ⟨[], _, rfl, rfl, .done pos, .mark hc h⟩
      | cons first before =>
          obtain ⟨rfl, hrest⟩ := List.cons.inj hrow
          obtain ⟨front, back, rfl, hstart, hfront, hback⟩ := ih hrest
          refine ⟨c :: front, back, rfl, ?_, .mark hc hfront, hback⟩
          rw [Text.byteLength]
          omega
  | @path pos cs rest row hpath hlong h ih =>
      intro before token after hrow
      cases before with
      | nil =>
          obtain ⟨rfl, rfl⟩ := List.cons.inj hrow
          exact ⟨[], _, rfl, rfl, .done pos, .path hpath hlong h⟩
      | cons first before =>
          obtain ⟨rfl, hrest⟩ := List.cons.inj hrow
          obtain ⟨front, back, rfl, hstart, hfront, hback⟩ := ih hrest
          refine ⟨cs ++ front, back, (List.append_assoc ..).symm, ?_,
            .path hpath hlong.of_append hfront, hback⟩
          rw [Text.byteLength_append]
          omega

/-- The blanks after the last token can be left off. -/
theorem Scans.trim {pos : Nat} {text : List Char} {row : List Token} (h : Scans pos text row) :
    ∀ {before : List Token} {last done : Token}, row = before ++ [last, done] →
      ∃ front back, text = front ++ back ∧ pos + Text.byteLength front = last.span.stop ∧
        Scans pos front (before ++ [last, ⟨.done, ⟨last.span.stop, last.span.stop⟩⟩]) := by
  induction h with
  | done pos =>
      intro before last done hrow
      have := congrArg List.length hrow
      simp at this
  | @blank pos c rest row hc _ ih =>
      intro before last done hrow
      obtain ⟨front, back, rfl, hstop, hfront⟩ := ih hrow
      refine ⟨c :: front, back, rfl, ?_, .blank hc hfront⟩
      rw [Text.byteLength]
      omega
  | @mark pos c lexeme rest row hc _ ih =>
      intro before last done hrow
      cases before with
      | nil =>
          obtain ⟨rfl, -⟩ := List.cons.inj hrow
          exact ⟨[c], rest, rfl, rfl, .mark hc (.done _)⟩
      | cons first before =>
          obtain ⟨rfl, hrest⟩ := List.cons.inj hrow
          obtain ⟨front, back, rfl, hstop, hfront⟩ := ih hrest
          refine ⟨c :: front, back, rfl, ?_, .mark hc hfront⟩
          rw [Text.byteLength]
          omega
  | @path pos cs rest row hpath hlong _ ih =>
      intro before last done hrow
      cases before with
      | nil =>
          obtain ⟨rfl, -⟩ := List.cons.inj hrow
          have hlong : Longest cs ([] ++ rest) := hlong
          have halone : Scans pos (cs ++ []) _ := .path hpath hlong.of_append (.done _)
          rw [List.append_nil] at halone
          exact ⟨cs, rest, rfl, rfl, halone⟩
      | cons first before =>
          obtain ⟨rfl, hrest⟩ := List.cons.inj hrow
          obtain ⟨front, back, rfl, hstop, hfront⟩ := ih hrest
          refine ⟨cs ++ front, back, (List.append_assoc ..).symm, ?_,
            .path hpath hlong.of_append hfront⟩
          rw [Text.byteLength_append]
          omega

/-! ## One after the other -/

/-- The tokens stand one after the other between the two places. -/
def Between : Nat → List Token → Nat → Prop
  | start, [], stop => start ≤ stop
  | start, token :: tokens, stop =>
    start ≤ token.span.start ∧ token.span.start ≤ token.span.stop ∧
      Between token.span.stop tokens stop

theorem between_append_cons_iff {stop : Nat} {token : Token} {after : List Token} :
    ∀ {start : Nat} {before : List Token},
      Between start (before ++ token :: after) stop ↔
        Between start before token.span.start ∧ token.span.start ≤ token.span.stop ∧
          Between token.span.stop after stop
  | _, [] => Iff.rfl
  | start, first :: before => by
      rw [List.cons_append, Between, Between, between_append_cons_iff]
      simp only [and_assoc]

theorem Between.mono {start start' stop : Nat} {tokens : List Token} (h : Between start tokens stop)
    (hle : start' ≤ start) : Between start' tokens stop := by
  cases tokens with
  | nil => exact Nat.le_trans hle h
  | cons token tokens => exact ⟨Nat.le_trans hle h.1, h.2⟩

theorem Between.of_append : ∀ {start stop : Nat} {before after : List Token},
    Between start (before ++ after) stop → ∃ middle, Between middle after stop
  | start, _, [], _, h => ⟨start, h⟩
  | _, _, _ :: _, _, ⟨_, _, h⟩ => h.of_append

theorem Between.le : ∀ {start stop : Nat} {tokens : List Token}, Between start tokens stop →
    start ≤ stop
  | _, _, [], h => h
  | _, _, _ :: _, ⟨hstart, htoken, h⟩ => Nat.le_trans hstart (Nat.le_trans htoken h.le)

theorem Scans.between {pos : Nat} {text : List Char} {row : List Token} (h : Scans pos text row) :
    Between pos row (pos + Text.byteLength text) := by
  induction h with
  | done pos => exact ⟨Nat.le_refl pos, Nat.le_refl pos, Nat.le_refl pos⟩
  | @blank pos c rest row _ _ ih =>
      rw [Text.byteLength, ← Nat.add_assoc]
      exact ih.mono (Nat.le_add_right pos _)
  | @mark pos c lexeme rest row _ _ ih =>
      rw [Text.byteLength, ← Nat.add_assoc]
      exact ⟨Nat.le_refl pos, Nat.le_add_right pos _, ih⟩
  | @path pos cs rest row _ _ _ ih =>
      rw [Text.byteLength_append, ← Nat.add_assoc]
      exact ⟨Nat.le_refl pos, Nat.le_add_right pos _, ih⟩

/-! ## The parts of a type -/

/-- Where the `?` stands. -/
def TypeExpr.mark : TypeExpr → Option Span
  | .named _ _ _ mark => mark
  | .tuple _ _ mark => mark

/-- The type before its `?`. -/
def TypeExpr.base : TypeExpr → TypeExpr
  | .named path args span _ => .named path args span none
  | .tuple elements span _ => .tuple elements span none

/-- Where the type stands, with its `?`. -/
def TypeExpr.place : TypeExpr → Span
  | .named _ _ span mark => ⟨span.start, mark.elim span.stop (·.stop)⟩
  | .tuple _ span mark => ⟨span.start, mark.elim span.stop (·.stop)⟩

/-- The types that stand directly inside the type. -/
def TypeExpr.parts : TypeExpr → List TypeExpr
  | .named _ args _ _ => args
  | .tuple elements _ _ => elements.map Element.type

/-- Where the first of the tokens starts; without any, the place given. -/
def startOf (tokens : List Token) (next : Nat) : Nat :=
  (tokens.head?.map (·.span.start)).getD next

/-- The tokens spell the types, with commas between them, and after each of them may stand
other tokens: its label. -/
inductive SpellsParts : List Token → Nat → List TypeExpr → Prop
  | one {own : List Token} {next : Nat} {type : TypeExpr} (label : List Token) :
      Spells own (startOf label next) type → SpellsParts (own ++ label) next [type]
  | more {own others : List Token} {next : Nat} {type : TypeExpr} {types : List TypeExpr}
      (label : List Token) (comma : Token) :
      Spells own (startOf label comma.span.start) type → SpellsParts others next types →
      SpellsParts (own ++ label ++ comma :: others) next (type :: types)

theorem SpellsTypes.parts : ∀ {tokens : List Token} {next : Nat} {types : List TypeExpr},
    SpellsTypes tokens next types → SpellsParts tokens next types
  | tokens, _, _, .one h => by
      rw [← List.append_nil tokens]
      exact .one [] h
  | _, _, _, @SpellsTypes.more tokens _ _ _ _ comma h hothers => by
      rw [← List.append_nil tokens]
      exact .more [] ⟨.comma, comma⟩ h hothers.parts

theorem SpellsElements.parts : ∀ {tokens : List Token} {next : Nat} {elements : List Element},
    SpellsElements tokens next elements →
      SpellsParts tokens next (elements.map Element.type)
  | tokens, _, _, .one (.bare h) => by
      rw [← List.append_nil tokens]
      exact .one [] h
  | _, _, _, .one (.labelled _ h _) => .one [_] h
  | _, _, _, @SpellsElements.more tokens _ _ _ _ comma (.bare h) hothers => by
      rw [← List.append_nil tokens]
      exact .more [] ⟨.comma, comma⟩ h hothers.parts
  | _, _, _, .more comma (.labelled _ h _) hothers =>
      .more [_] ⟨.comma, comma⟩ h hothers.parts

/-- The parts of a type stand before the bracket that closes it. -/
theorem Spells.parts {tokens : List Token} {next : Nat} {type : TypeExpr}
    (h : Spells tokens next type) : type.parts = [] ∨
      ∃ before inside closing after, tokens = before ++ inside ++ closing :: after ∧
        SpellsParts inside closing.span.start type.parts := by
  cases h with
  | path => exact Or.inl rfl
  | @generic tokens args path span opening closing mark _ hargs =>
      exact Or.inr ⟨[⟨.path path, span⟩, ⟨.lessThan, opening⟩], tokens,
        ⟨.greaterThan, closing⟩, markTokens mark, rfl, hargs.parts⟩
  | @tuple tokens elements opening closing mark _ helements _ =>
      exact Or.inr ⟨[⟨.leftParen, opening⟩], tokens, ⟨.rightParen, closing⟩, markTokens mark,
        rfl, helements.parts⟩

/-- The type before its `?` is spelled up to it. -/
theorem Spells.base {tokens : List Token} {next : Nat} {type : TypeExpr} {mark : Span}
    (h : Spells tokens next type) (hmark : type.mark = some mark) :
    ∃ own, tokens = own ++ [⟨.question, mark⟩] ∧ Spells own mark.start type.base := by
  cases h with
  | path path span =>
      obtain rfl := hmark
      exact ⟨[⟨.path path, span⟩], rfl, .path path span none mark.start⟩
  | @generic tokens args path span opening closing _ _ hargs =>
      obtain rfl := hmark
      refine ⟨⟨.path path, span⟩ :: ⟨.lessThan, opening⟩ :: tokens ++
        [⟨.greaterThan, closing⟩], ?_, .generic path span opening closing none mark.start hargs⟩
      simp [markTokens]
  | @tuple tokens elements opening closing _ _ helements htwo =>
      obtain rfl := hmark
      refine ⟨⟨.leftParen, opening⟩ :: tokens ++ [⟨.rightParen, closing⟩], ?_,
        .tuple opening closing none mark.start helements htwo⟩
      simp [markTokens]

/-- A type starts with its first token. -/
theorem Spells.starts {tokens : List Token} {next : Nat} {type : TypeExpr}
    (h : Spells tokens next type) :
    ∃ first others, tokens = first :: others ∧ first.span.start = type.place.start := by
  cases h with
  | path => exact ⟨_, _, rfl, rfl⟩
  | generic => exact ⟨_, _, rfl, rfl⟩
  | tuple => exact ⟨_, _, rfl, rfl⟩

theorem append_cons_markTokens_some (front : List Token) (token : Token) (mark : Span) :
    front ++ token :: markTokens (some mark) = front ++ [token] ++ [⟨.question, mark⟩] := by
  simp [markTokens]

/-- A type ends with its last token, and then no other place has a part in it, or it takes
the blanks after it. -/
theorem Spells.ends {tokens : List Token} {next : Nat} {type : TypeExpr}
    (h : Spells tokens next type) : type.place.stop = next ∨
      ∃ front last, tokens = front ++ [last] ∧ type.place.stop = last.span.stop ∧
        ∀ next', Spells tokens next' type := by
  cases h with
  | path path span mark =>
      cases mark with
      | none => exact Or.inl rfl
      | some mark =>
          exact Or.inr ⟨[_], ⟨.question, mark⟩, rfl, rfl, fun next' =>
            .path path span (some mark) next'⟩
  | generic path span opening closing mark _ hargs =>
      have hown (next' : Nat) := Spells.generic path span opening closing mark next' hargs
      cases mark with
      | none => exact Or.inr ⟨_, _, rfl, rfl, hown⟩
      | some mark =>
          exact Or.inr ⟨_, _, append_cons_markTokens_some _ _ mark, rfl, hown⟩
  | tuple opening closing mark _ helements htwo =>
      have hown (next' : Nat) := Spells.tuple opening closing mark next' helements htwo
      cases mark with
      | none => exact Or.inr ⟨_, _, rfl, rfl, hown⟩
      | some mark =>
          exact Or.inr ⟨_, _, append_cons_markTokens_some _ _ mark, rfl, hown⟩

/-- A type stands between the places that its tokens stand between. -/
theorem Spells.place_between {tokens : List Token} {start next : Nat} {type : TypeExpr}
    (h : Spells tokens next type) (hbetween : Between start tokens next) :
    start ≤ type.place.start ∧ type.place.stop ≤ next := by
  obtain ⟨first, others, rfl, hfirst⟩ := h.starts
  refine ⟨hfirst ▸ hbetween.1, ?_⟩
  rcases h.ends with hnext | ⟨front, last, htokens, hlast, -⟩
  · exact Nat.le_of_eq hnext
  · rw [htokens] at hbetween
    rw [hlast]
    exact (between_append_cons_iff.mp hbetween).2.2

/-! ## Types in a row of tokens -/

/-- Some tokens of the row, with one more after them, spell the type. -/
def SpelledIn (row : List Token) (type : TypeExpr) : Prop :=
  ∃ before own token after, row = before ++ own ++ token :: after ∧
    Spells own token.span.start type

theorem SpelledIn.base {row : List Token} {type : TypeExpr} {mark : Span}
    (h : SpelledIn row type) (hmark : type.mark = some mark) : SpelledIn row type.base := by
  obtain ⟨before, own, token, after, rfl, hspells⟩ := h
  obtain ⟨own, rfl, hbase⟩ := hspells.base hmark
  exact ⟨before, own, ⟨.question, mark⟩, token :: after, by simp, hbase⟩

/-- One of the tokens after a type, before the tokens `next`, is where it ends. -/
theorem exists_startOf (label : List Token) (next : Token) (after : List Token) :
    ∃ token rest, label ++ next :: after = token :: rest ∧
      token.span.start = startOf label next.span.start := by
  cases label with
  | nil => exact ⟨next, after, rfl, rfl⟩
  | cons first label => exact ⟨first, label ++ next :: after, rfl, rfl⟩

theorem SpellsParts.spelledIn {tokens : List Token} {next : Nat} {types : List TypeExpr}
    (h : SpellsParts tokens next types) : ∀ {closing : Token} (after : List Token),
      closing.span.start = next → ∀ type ∈ types, SpelledIn (tokens ++ closing :: after) type := by
  induction h with
  | @one own _ type label hown =>
      intro closing after hclosing other hmem
      obtain rfl := List.mem_singleton.mp hmem
      obtain ⟨token, rest, hrest, hstart⟩ := exists_startOf label closing after
      refine ⟨[], own, token, rest, ?_, ?_⟩
      · rw [List.nil_append, ← hrest, List.append_assoc]
      · rw [hstart, hclosing]
        exact hown
  | @more own others _ type types label comma hown _ ih =>
      intro closing after hclosing other hmem
      rcases List.mem_cons.mp hmem with rfl | hmem
      · obtain ⟨token, rest, hrest, hstart⟩ := exists_startOf label comma (others ++ closing :: after)
        refine ⟨[], own, token, rest, ?_, hstart ▸ hown⟩
        rw [List.nil_append, ← hrest]
        simp
      · obtain ⟨before, found, token, rest, hrow, hfound⟩ := ih after hclosing other hmem
        refine ⟨own ++ label ++ comma :: before, found, token, rest, ?_, hfound⟩
        simp only [List.append_assoc, List.cons_append] at hrow ⊢
        rw [hrow]

theorem SpelledIn.part {row : List Token} {type part : TypeExpr} (h : SpelledIn row type)
    (hpart : part ∈ type.parts) : SpelledIn row part := by
  obtain ⟨before, own, token, after, rfl, hspells⟩ := h
  rcases hspells.parts with hnil | ⟨front, inside, closing, back, rfl, hparts⟩
  · rw [hnil] at hpart
    cases hpart
  · obtain ⟨lead, found, next, rest, hrow, hfound⟩ :=
      hparts.spelledIn (back ++ token :: after) rfl part hpart
    refine ⟨before ++ front ++ lead, found, next, rest, ?_, hfound⟩
    simp only [List.append_assoc, List.cons_append] at hrow ⊢
    rw [hrow]

theorem Between.label {start next : Nat} {own label : List Token}
    (h : Between start (own ++ label) next) :
    Between start own (startOf label next) ∧ startOf label next ≤ next := by
  cases label with
  | nil =>
      rw [List.append_nil] at h
      exact ⟨h, Nat.le_refl next⟩
  | cons first label =>
      obtain ⟨hown, hfirst, hlabel⟩ := between_append_cons_iff.mp h
      exact ⟨hown, Nat.le_trans hfirst hlabel.le⟩

theorem Spells.place_between_label {own label : List Token} {start next : Nat} {type : TypeExpr}
    (h : Spells own (startOf label next) type) (hbetween : Between start (own ++ label) next) :
    start ≤ type.place.start ∧ type.place.stop ≤ next := by
  obtain ⟨hown, hnext⟩ := hbetween.label
  obtain ⟨hstart, hstop⟩ := h.place_between hown
  exact ⟨hstart, Nat.le_trans hstop hnext⟩

/-- The parts stand one after the other, between the places that the tokens stand between. -/
theorem SpellsParts.pairwise {tokens : List Token} {next : Nat} {types : List TypeExpr}
    (h : SpellsParts tokens next types) : ∀ {start : Nat}, Between start tokens next →
      (∀ type ∈ types, start ≤ type.place.start ∧ type.place.stop ≤ next) ∧
        types.Pairwise fun type other => type.place.stop ≤ other.place.start := by
  induction h with
  | one label hown =>
      intro start hbetween
      have hplace := hown.place_between_label hbetween
      exact ⟨List.forall_mem_singleton.mpr hplace, List.pairwise_singleton _ _⟩
  | @more own others next type types label comma hown _ ih =>
      intro start hbetween
      obtain ⟨hfirst, hcomma, hothers⟩ := between_append_cons_iff.mp hbetween
      obtain ⟨hstart, hstop⟩ := hown.place_between_label hfirst
      obtain ⟨hplaces, hpairwise⟩ := ih hothers
      constructor
      · refine List.forall_mem_cons.mpr ⟨⟨hstart, ?_⟩, ?_⟩
        · exact Nat.le_trans hstop (Nat.le_trans hcomma hothers.le)
        · intro other hmem
          obtain ⟨hlow, hhigh⟩ := hplaces other hmem
          exact ⟨Nat.le_trans hfirst.le (Nat.le_trans hcomma hlow), hhigh⟩
      · refine List.pairwise_cons.mpr ⟨?_, hpairwise⟩
        intro other hmem
        exact Nat.le_trans hstop (Nat.le_trans hcomma (hplaces other hmem).1)

/-- The parts of a type stand one after the other. -/
theorem SpelledIn.pairwise_parts {row : List Token} {start stop : Nat} {type : TypeExpr}
    (h : SpelledIn row type) (hbetween : Between start row stop) :
    type.parts.Pairwise fun part other => part.place.stop ≤ other.place.start := by
  obtain ⟨before, own, token, after, rfl, hspells⟩ := h
  rcases hspells.parts with hnil | ⟨front, inside, closing, back, rfl, hparts⟩
  · rw [hnil]
    exact List.Pairwise.nil
  · have hclosing := (between_append_cons_iff.mp hbetween).1
    rw [← List.append_assoc, ← List.append_assoc] at hclosing
    have hinside := (between_append_cons_iff.mp hclosing).1
    obtain ⟨_, hinside⟩ := hinside.of_append
    exact (hparts.pairwise hinside).2

end TypeNaming.Signature
