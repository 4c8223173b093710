/-
# How a text is cut

`Cut text lexemes` says which row of lexemes a text is, without a scanner: blanks
fall away, a mark of punctuation is a lexeme of its own, and a path is a lexeme
when no longer piece of the text is a path.  A text with a character that begins
no lexeme has no cut.

`cut_iff` is the statement to use: `tokens` finds the cut exactly when there is
one, and closes it with `done`.

The relation is about whole paths, the scanner about single characters.  Between
them stand two conditions on characters: `GoesOn cs`, every character of `cs`
goes on with a path that has begun, and `Stops cs`, the first character of `cs`
does not.
-/
import TypeNaming.Signature.Token
import TypeNaming.Text.Offset

namespace TypeNaming.Signature

/-- A letter or `_`, and after it letters, digits and `_`. -/
def Identifier (cs : List Char) : Prop :=
  ∃ first rest, cs = first :: rest ∧ isIdentStart first = true ∧
    ∀ c ∈ rest, isIdentRest c = true

/-- Identifiers with single dots between them. -/
inductive IsPath : List Char → Prop
  | ident {cs : List Char} : Identifier cs → IsPath cs
  | dotted {cs rest : List Char} : Identifier cs → IsPath rest → IsPath (cs ++ '.' :: rest)

/-- The six marks. -/
inductive Punctuation : Char → Lexeme → Prop
  | lessThan : Punctuation '<' .lessThan
  | greaterThan : Punctuation '>' .greaterThan
  | leftParen : Punctuation '(' .leftParen
  | rightParen : Punctuation ')' .rightParen
  | comma : Punctuation ',' .comma
  | question : Punctuation '?' .question

/-- No longer piece of the text is a path. -/
def Longest (cs rest : List Char) : Prop :=
  ∀ more, more ≠ [] → more <+: rest → ¬ IsPath (cs ++ more)

/-- The text is the row of lexemes, with blanks between them. -/
inductive Cut : List Char → List Lexeme → Prop
  | done : Cut [] []
  | blank {c : Char} {rest : List Char} {lexemes : List Lexeme} :
      isSpace c = true → Cut rest lexemes → Cut (c :: rest) lexemes
  | mark {c : Char} {lexeme : Lexeme} {rest : List Char} {lexemes : List Lexeme} :
      Punctuation c lexeme → Cut rest lexemes → Cut (c :: rest) (lexeme :: lexemes)
  | path {cs rest : List Char} {lexemes : List Lexeme} :
      IsPath cs → Longest cs rest → Cut rest lexemes →
      Cut (cs ++ rest) (.path (String.ofList cs) :: lexemes)

/-! ## Characters inside a path -/

/-- Every character goes on with a path that has begun. -/
def GoesOn : List Char → Prop
  | [] => True
  | c :: rest => goesOn c rest = true ∧ GoesOn rest

/-- A path that has begun ends before the text. -/
def Stops : List Char → Prop
  | [] => True
  | c :: rest => goesOn c rest = false

theorem isIdentRest_of_start {c : Char} (h : isIdentStart c = true) : isIdentRest c = true := by
  simp only [isIdentStart, isIdentRest, Char.isAlphanum, Bool.or_eq_true] at *
  rcases h with h | h
  · exact Or.inl (Or.inl h)
  · exact Or.inr h

theorem goesOn_iff {c : Char} {rest : List Char} :
    goesOn c rest = true ↔
      isIdentRest c = true ∨ (c = '.' ∧ ∃ d ds, rest = d :: ds ∧ isIdentStart d = true) := by
  cases rest with
  | nil => simp [goesOn]
  | cons d ds => simp [goesOn]

theorem goesOn_append {c : Char} {cs : List Char} (rest : List Char)
    (h : goesOn c cs = true) : goesOn c (cs ++ rest) = true := by
  rcases goesOn_iff.mp h with hc | ⟨hc, d, ds, rfl, hd⟩
  · exact goesOn_iff.mpr (Or.inl hc)
  · exact goesOn_iff.mpr (Or.inr ⟨hc, d, ds ++ rest, rfl, hd⟩)

theorem GoesOn.append : ∀ {cs more : List Char}, GoesOn cs → GoesOn more → GoesOn (cs ++ more)
  | [], _, _, hm => hm
  | _ :: _, more, h, hm => ⟨goesOn_append more h.1, h.2.append hm⟩

/-- Part of a row that goes on may lean on what follows: a dot needs the
identifier after it. -/
theorem GoesOn.of_append : ∀ {cs more : List Char}, GoesOn (cs ++ more) → GoesOn more
  | [], _, h => h
  | _ :: _, _, h => GoesOn.of_append h.2

theorem goesOn_of_idents {cs rest : List Char} (h : ∀ c ∈ cs, isIdentRest c = true)
    (hr : GoesOn rest) : GoesOn (cs ++ rest) := by
  induction cs with
  | nil => exact hr
  | cons c cs ih =>
      refine ⟨goesOn_iff.mpr (Or.inl (h c List.mem_cons_self)), ih fun d hd => ?_⟩
      exact h d (List.mem_cons_of_mem _ hd)

/-! ## A path, character by character -/

theorem IsPath.starts {cs : List Char} (h : IsPath cs) :
    ∃ first rest, cs = first :: rest ∧ isIdentStart first = true ∧ GoesOn rest := by
  induction h with
  | ident h =>
      obtain ⟨first, rest, rfl, hf, hr⟩ := h
      refine ⟨first, rest, rfl, hf, ?_⟩
      have : GoesOn (rest ++ []) := goesOn_of_idents hr trivial
      simpa using this
  | dotted h _ ih =>
      obtain ⟨first, rest, rfl, hf, hr⟩ := h
      obtain ⟨d, ds, rfl, hd, hds⟩ := ih
      refine ⟨first, rest ++ '.' :: d :: ds, rfl, hf, goesOn_of_idents hr ?_⟩
      exact ⟨goesOn_iff.mpr (Or.inr ⟨rfl, d, ds, rfl, hd⟩),
        goesOn_iff.mpr (Or.inl (isIdentRest_of_start hd)), hds⟩

theorem Identifier.snoc {cs : List Char} {c : Char} (h : Identifier cs)
    (hc : isIdentRest c = true) : Identifier (cs ++ [c]) := by
  obtain ⟨first, rest, rfl, hf, hr⟩ := h
  refine ⟨first, rest ++ [c], rfl, hf, fun d hd => ?_⟩
  rcases List.mem_append.mp hd with hd | hd
  · exact hr d hd
  · exact List.mem_singleton.mp hd ▸ hc

-- The identifier that has begun is the first argument: a dot closes it, and the
-- character after the dot begins the next one.
theorem isPath_of_goesOn : ∀ {cs more : List Char}, Identifier cs → GoesOn more →
    IsPath (cs ++ more)
  | cs, [], h, _ => by simpa using IsPath.ident h
  | cs, [c], h, hm => by
      rcases goesOn_iff.mp hm.1 with hc | ⟨_, _, _, hne, _⟩
      · exact .ident (h.snoc hc)
      · cases hne
  | cs, c :: d :: ds, h, hm => by
      rcases goesOn_iff.mp hm.1 with hc | ⟨rfl, _, _, heq, hd⟩
      · simpa using isPath_of_goesOn (h.snoc hc) hm.2
      · obtain ⟨rfl, rfl⟩ := List.cons.inj heq
        have hident : Identifier [d] := ⟨d, [], rfl, hd, by simp⟩
        exact .dotted h (isPath_of_goesOn hident hm.2.2)

theorem isPath_cons_iff {c : Char} {cs : List Char} :
    IsPath (c :: cs) ↔ isIdentStart c = true ∧ GoesOn cs := by
  constructor
  · intro h
    obtain ⟨_, _, heq, hf, hr⟩ := h.starts
    obtain ⟨rfl, rfl⟩ := List.cons.inj heq
    exact ⟨hf, hr⟩
  · rintro ⟨hc, hcs⟩
    have hident : Identifier [c] := ⟨c, [], rfl, hc, by simp⟩
    exact isPath_of_goesOn hident hcs

/-! ## The longest path -/

theorem exists_goesOn_stops : ∀ text : List Char,
    ∃ more rest, text = more ++ rest ∧ GoesOn more ∧ Stops rest
  | [] => ⟨[], [], rfl, trivial, trivial⟩
  | c :: text => by
      obtain ⟨more, rest, rfl, hm, hr⟩ := exists_goesOn_stops text
      cases hc : goesOn c (more ++ rest) with
      | false => exact ⟨[], c :: (more ++ rest), rfl, trivial, hc⟩
      | true =>
          refine ⟨c :: more, rest, rfl, ⟨?_, hm⟩, hr⟩
          rcases goesOn_iff.mp hc with h | ⟨rfl, d, ds, heq, hd⟩
          · exact goesOn_iff.mpr (Or.inl h)
          · refine goesOn_iff.mpr (Or.inr ⟨rfl, ?_⟩)
            -- The character after the dot belongs to the path as well.
            cases more with
            | nil =>
                obtain rfl : rest = d :: ds := heq
                have : goesOn d ds = true := goesOn_iff.mpr (Or.inl (isIdentRest_of_start hd))
                simp [Stops, this] at hr
            | cons e more =>
                obtain ⟨rfl, _⟩ := List.cons.inj heq
                exact ⟨e, more, rfl, hd⟩

theorem longest_iff {c : Char} {cs rest : List Char} (h : IsPath (c :: cs)) :
    Longest (c :: cs) rest ↔ Stops rest := by
  obtain ⟨hc, hcs⟩ := isPath_cons_iff.mp h
  constructor
  · intro hlong
    cases rest with
    | nil => trivial
    | cons d ds =>
        refine Bool.eq_false_iff.mpr fun hd => ?_
        rcases goesOn_iff.mp hd with hd | ⟨rfl, e, es, rfl, he⟩
        · refine hlong [d] (by simp) ⟨ds, rfl⟩ (isPath_cons_iff.mpr ⟨hc, hcs.append ?_⟩)
          exact ⟨goesOn_iff.mpr (Or.inl hd), trivial⟩
        · refine hlong ['.', e] (by simp) ⟨es, rfl⟩ (isPath_cons_iff.mpr ⟨hc, hcs.append ?_⟩)
          exact ⟨goesOn_iff.mpr (Or.inr ⟨rfl, e, [], rfl, he⟩),
            goesOn_iff.mpr (Or.inl (isIdentRest_of_start he)), trivial⟩
  · rintro hstop more hne ⟨back, rfl⟩ hpath
    cases more with
    | nil => exact hne rfl
    | cons d ds =>
        have hgoes : GoesOn (d :: ds) := (isPath_cons_iff.mp hpath).2.of_append
        have hstop : goesOn d (ds ++ back) = false := hstop
        simp [goesOn_append back hgoes.1] at hstop

/-! ## The scanner -/

theorem opening_of_space {c : Char} (h : isSpace c = true) : opening c = .space := by
  simp [opening, h]

theorem opening_of_punctuation {c : Char} {lexeme : Lexeme} (h : Punctuation c lexeme) :
    opening c = .punctuation lexeme := by
  cases h <;> rfl

theorem opening_eq_punctuation_iff {c : Char} {lexeme : Lexeme} :
    opening c = .punctuation lexeme ↔ Punctuation c lexeme := by
  refine ⟨fun h => ?_, opening_of_punctuation⟩
  unfold opening at h
  repeat' split at h
  all_goals cases h
  all_goals subst c; constructor

theorem opening_eq_space_iff {c : Char} : opening c = .space ↔ isSpace c = true := by
  refine ⟨fun h => ?_, opening_of_space⟩
  unfold opening at h
  split at h
  · assumption
  · repeat' split at h
    all_goals cases h

theorem opening_eq_path_iff {c : Char} : opening c = .path ↔ isIdentStart c = true := by
  constructor
  · intro h
    unfold opening at h
    repeat' split at h
    all_goals first | assumption | cases h
  · intro h
    have hplain (d : Char) (hd : isIdentStart d = false) : c ≠ d := by
      rintro rfl
      rw [h] at hd
      cases hd
    simp [opening, isSpace, h, hplain ' ' rfl, hplain '\t' rfl, hplain '\r' rfl,
      hplain '\n' rfl, hplain '<' rfl, hplain '>' rfl, hplain '(' rfl, hplain ')' rfl,
      hplain ',' rfl, hplain '?' rfl]

theorem tokensFrom_open {more rest : List Char} (hm : GoesOn more) (hr : Stops rest)
    (pos start : Nat) (reversed : List Char) :
    tokensFrom pos (some ⟨start, reversed⟩) (more ++ rest)
      = OpenPath.token ⟨start, more.reverse ++ reversed⟩ (pos + Text.byteLength more)
        :: tokensFrom (pos + Text.byteLength more) none rest := by
  induction more generalizing pos reversed with
  | nil =>
      cases rest with
      | nil => rfl
      | cons c rest =>
          have hc : goesOn c rest = false := hr
          simp [tokensFrom, hc, Text.byteLength, Option.filter_some]
  | cons c more ih =>
      have hc : goesOn c (more ++ rest) = true := goesOn_append rest hm.1
      rw [List.cons_append, tokensFrom]
      simp only [hc, Option.filter_some, if_true]
      rw [ih hm.2 (pos + c.utf8Size) (c :: reversed)]
      simp [Text.byteLength, Nat.add_assoc]

theorem tokensFrom_path {c : Char} {more rest : List Char} (hc : isIdentStart c = true)
    (hm : GoesOn more) (hr : Stops rest) (pos : Nat) :
    tokensFrom pos none (c :: more ++ rest)
      = ⟨.path (String.ofList (c :: more)), ⟨pos, pos + Text.byteLength (c :: more)⟩⟩
        :: tokensFrom (pos + Text.byteLength (c :: more)) none rest := by
  rw [List.cons_append, tokensFrom]
  simp only [Option.filter_none, Option.map_none, Option.toList_none, List.nil_append,
    opening_eq_path_iff.mpr hc]
  rw [tokensFrom_open hm hr]
  simp [OpenPath.token, Text.byteLength, Nat.add_assoc]

theorem tokensFrom_blank {c : Char} (hc : isSpace c = true) (pos : Nat) (rest : List Char) :
    tokensFrom pos none (c :: rest) = tokensFrom (pos + c.utf8Size) none rest := by
  simp [tokensFrom, opening_of_space hc]

theorem tokensFrom_mark {c : Char} {lexeme : Lexeme} (hc : Punctuation c lexeme) (pos : Nat)
    (rest : List Char) :
    tokensFrom pos none (c :: rest)
      = ⟨lexeme, ⟨pos, pos + c.utf8Size⟩⟩ :: tokensFrom (pos + c.utf8Size) none rest := by
  simp [tokensFrom, opening_of_punctuation hc]

theorem tokensFrom_longest {cs rest : List Char} (hpath : IsPath cs) (hlong : Longest cs rest)
    (pos : Nat) :
    tokensFrom pos none (cs ++ rest)
      = ⟨.path (String.ofList cs), ⟨pos, pos + Text.byteLength cs⟩⟩
        :: tokensFrom (pos + Text.byteLength cs) none rest := by
  obtain ⟨c, more, rfl, hc, hm⟩ := hpath.starts
  exact tokensFrom_path hc hm ((longest_iff hpath).mp hlong) pos

theorem map_tokensFrom_of_cut {text : List Char} {lexemes : List Lexeme} (h : Cut text lexemes)
    (pos : Nat) : (tokensFrom pos none text).map (·.lexeme) = lexemes ++ [.done] := by
  induction h generalizing pos with
  | done => rfl
  | blank hc _ ih => rw [tokensFrom_blank hc, ih]
  | mark hc _ ih =>
      rw [tokensFrom_mark hc, List.map_cons, ih]
      rfl
  | path hpath hlong _ ih =>
      rw [tokensFrom_longest hpath hlong, List.map_cons, ih]
      rfl

theorem cut_of_map_tokensFrom : ∀ {text : List Char} {lexemes : List Lexeme} {pos : Nat},
    (tokensFrom pos none text).map (·.lexeme) = lexemes ++ [.done] → Cut text lexemes
  | [], lexemes, pos, h => by
      obtain rfl : lexemes = [] := by simpa [tokensFrom] using h.symm
      exact .done
  | c :: text, lexemes, pos, h => by
      cases hc : opening c with
      | space =>
          have h : (tokensFrom (pos + c.utf8Size) none text).map (·.lexeme)
              = lexemes ++ [.done] := by
            simpa [tokensFrom, hc] using h
          exact .blank (opening_eq_space_iff.mp hc) (cut_of_map_tokensFrom h)
      | punctuation mark =>
          have hmark := opening_eq_punctuation_iff.mp hc
          cases lexemes with
          | nil => cases hmark <;> simp [tokensFrom, hc] at h
          | cons lexeme lexemes =>
              have h : mark = lexeme ∧ (tokensFrom (pos + c.utf8Size) none text).map (·.lexeme)
                  = lexemes ++ [.done] := by
                simpa [tokensFrom, hc] using h
              exact h.1 ▸ .mark hmark (cut_of_map_tokensFrom h.2)
      | path =>
          have hstart := opening_eq_path_iff.mp hc
          obtain ⟨more, rest, htext, hm, hr⟩ := exists_goesOn_stops text
          have hshort : rest.length < (c :: text).length := by
            rw [htext, List.length_cons, List.length_append]
            omega
          rw [htext, ← List.cons_append, tokensFrom_path hstart hm hr] at h
          cases lexemes with
          | nil => simp at h
          | cons lexeme lexemes =>
              simp only [List.map_cons, List.cons_append, List.cons.injEq] at h
              have hpath : IsPath (c :: more) := isPath_cons_iff.mpr ⟨hstart, hm⟩
              rw [htext, ← List.cons_append, ← h.1]
              exact .path hpath ((longest_iff hpath).mpr hr) (cut_of_map_tokensFrom h.2)
      | stray =>
          cases lexemes <;> simp [tokensFrom, hc] at h
termination_by text => text.length

/-- The scanner finds the cut of a text, and `done` after it, exactly when the
text has one. -/
theorem cut_iff {text : List Char} {lexemes : List Lexeme} :
    Cut text lexemes ↔ (tokens text).map (·.lexeme) = lexemes ++ [.done] :=
  ⟨fun h => map_tokensFrom_of_cut h 0, cut_of_map_tokensFrom⟩

/-- `done` is the last lexeme, if it is one at all. -/
def DoneLast (lexemes : List Lexeme) : Prop :=
  ∃ front last, lexemes = front ++ [last] ∧ .done ∉ front

theorem DoneLast.append {front lexemes : List Lexeme} (hfront : .done ∉ front)
    (h : DoneLast lexemes) : DoneLast (front ++ lexemes) := by
  obtain ⟨others, last, rfl, hothers⟩ := h
  exact ⟨front ++ others, last, by simp, by simp [hfront, hothers]⟩

theorem DoneLast.nil_of_eq {lexemes front rest : List Lexeme} (h : DoneLast lexemes)
    (heq : lexemes = front ++ .done :: rest) : rest = [] := by
  obtain ⟨others, last, rfl, hothers⟩ := h
  rcases List.eq_nil_or_concat rest with rfl | ⟨rest, other, rfl⟩
  · rfl
  · rw [List.concat_eq_append, ← List.cons_append, ← List.append_assoc] at heq
    obtain ⟨rfl, -⟩ := List.append_inj' heq rfl
    simp at hothers

theorem doneLast_tokensFrom : ∀ (text : List Char) (pos : Nat) (path : Option OpenPath),
    DoneLast ((tokensFrom pos path text).map (·.lexeme))
  | [], pos, path => by
      rw [tokensFrom, List.map_append]
      refine DoneLast.append ?_ ⟨[], .done, rfl, by simp⟩
      cases path <;> simp [OpenPath.token]
  | c :: text, pos, path => by
      rw [tokensFrom]
      cases path.filter fun _ => goesOn c text with
      | some path => exact doneLast_tokensFrom text _ _
      | none =>
          rw [List.map_append]
          refine DoneLast.append (by cases path <;> simp [OpenPath.token]) ?_
          cases hc : opening c with
          | space => exact doneLast_tokensFrom text _ _
          | punctuation lexeme =>
              have hdone : .done ∉ [lexeme] := by
                have := opening_eq_punctuation_iff.mp hc
                cases this <;> simp
              exact DoneLast.append hdone (doneLast_tokensFrom text _ _)
          | path => exact doneLast_tokensFrom text _ _
          | stray => exact ⟨[], .stray, rfl, by simp⟩

theorem Cut.infix_of_path {text : List Char} {lexemes : List Lexeme} {path : String}
    (h : Cut text lexemes) (hmem : .path path ∈ lexemes) : path.toList <:+: text := by
  induction h with
  | done => cases hmem
  | blank _ _ ih => exact (ih hmem).trans (List.suffix_cons _ _).isInfix
  | mark hmark _ ih =>
      rcases List.mem_cons.mp hmem with heq | hmem
      · subst heq
        cases hmark
      · exact (ih hmem).trans (List.suffix_cons _ _).isInfix
  | path _ _ _ ih =>
      rcases List.mem_cons.mp hmem with heq | hmem
      · obtain rfl := Lexeme.path.inj heq
        rw [String.toList_ofList]
        exact (List.prefix_append _ _).isInfix
      · exact (ih hmem).trans (List.suffix_append _ _).isInfix

theorem Cut.subset_of_path {text : List Char} {lexemes : List Lexeme} {path : String}
    (h : Cut text lexemes) (hmem : .path path ∈ lexemes) : path.toList ⊆ text :=
  (h.infix_of_path hmem).subset

theorem Cut.isPath {text : List Char} {lexemes : List Lexeme} {path : String}
    (h : Cut text lexemes) (hmem : .path path ∈ lexemes) : IsPath path.toList := by
  induction h with
  | done => cases hmem
  | blank _ _ ih => exact ih hmem
  | mark hmark _ ih =>
      rcases List.mem_cons.mp hmem with heq | hmem
      · subst heq
        cases hmark
      · exact ih hmem
  | path hpath _ _ ih =>
      rcases List.mem_cons.mp hmem with heq | hmem
      · obtain rfl := Lexeme.path.inj heq
        simpa using hpath
      · exact ih hmem

end TypeNaming.Signature
