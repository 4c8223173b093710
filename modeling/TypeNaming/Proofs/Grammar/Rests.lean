/-
# The rest of a text and its tokens

A reader that has come to some place has the rest of the text before it.  In a fixed text the
rest says where the place is (`offset`) and which tokens are still to come (`rowAt`); blanks
at the beginning of the rest say nothing (`rowAt_trim`).

`Head text cs token row` takes the first token off a rest that does not begin with a blank, by
what the rest begins with: a mark, a path, or neither, or nothing is left.  Every rest has one
(`exists_head`).
-/
import TypeNaming.Proofs.Grammar.Stages

namespace TypeNaming.Signature

/-! ## Suffixes by their bytes -/

theorem byteLength_le_of_suffix {cs ds : List Char} (h : cs <:+ ds) :
    Text.byteLength cs ≤ Text.byteLength ds := by
  obtain ⟨front, rfl⟩ := h
  rw [Text.byteLength_append]
  exact Nat.le_add_left _ _

theorem eq_nil_of_byteLength {cs : List Char} (h : Text.byteLength cs = 0) : cs = [] := by
  cases cs with
  | nil => rfl
  | cons c cs => exact absurd h (Nat.ne_of_gt (Nat.add_pos_left c.utf8Size_pos _))

/-- Of two suffixes the one with fewer bytes is a suffix of the other. -/
theorem suffix_of_byteLength_le {text cs ds : List Char} (hcs : cs <:+ text) (hds : ds <:+ text)
    (h : Text.byteLength cs ≤ Text.byteLength ds) : cs <:+ ds := by
  rcases List.suffix_or_suffix_of_suffix hcs hds with hsuffix | ⟨front, rfl⟩
  · exact hsuffix
  · rw [Text.byteLength_append] at h
    obtain rfl : front = [] := eq_nil_of_byteLength (by omega)
    exact List.suffix_rfl

/-- Of two beginnings the one with fewer bytes is a beginning of the other. -/
theorem prefix_of_byteLength_le {text front other : List Char} (h : front <+: text)
    (hother : other <+: text) (hle : Text.byteLength front ≤ Text.byteLength other) :
    front <+: other := by
  rcases List.prefix_or_prefix_of_prefix h hother with h | ⟨more, rfl⟩
  · exact h
  · rw [Text.byteLength_append] at hle
    obtain rfl : more = [] := eq_nil_of_byteLength (by omega)
    simp

/-- A beginning of a text is known by its bytes. -/
theorem eq_of_byteLength_eq {text front other : List Char} (h : front <+: text)
    (hother : other <+: text) (heq : Text.byteLength front = Text.byteLength other) :
    front = other := by
  obtain ⟨there, rfl⟩ := h
  obtain ⟨back, hback⟩ := hother
  rw [← Text.takeBytes_append front there, heq, ← hback, Text.takeBytes_append]

/-! ## Blanks -/

theorem trim_blank {c : Char} (h : isSpace c = true) (cs : List Char) :
    trim (c :: cs) = trim cs :=
  List.dropWhile_cons_of_pos h

@[simp] theorem trim_trim (cs : List Char) : trim (trim cs) = trim cs :=
  dropWhile_of_avoids (avoids_dropWhile _ _)

/-! ## Places -/

/-- Where the rest of the text begins. -/
def offset (text rest : List Char) : Nat := Text.byteLength text - Text.byteLength rest

/-- The tokens of the rest of the text. -/
def rowAt (text rest : List Char) : List Token := tokensFrom (offset text rest) none rest

section

variable {text : List Char}

@[simp] theorem offset_self (text : List Char) : offset text text = 0 := Nat.sub_self _

theorem rowAt_self (text : List Char) : rowAt text text = tokens text := by
  rw [rowAt, offset_self]
  rfl

theorem offset_le {cs ds : List Char} (h : cs <:+ ds) : offset text ds ≤ offset text cs :=
  Nat.sub_le_sub_left (byteLength_le_of_suffix h) _

theorem offset_add_byteLength {cs : List Char} (h : cs <:+ text) :
    offset text cs + Text.byteLength cs = Text.byteLength text :=
  Nat.sub_add_cancel (byteLength_le_of_suffix h)

theorem offset_of_append (front back : List Char) :
    offset (front ++ back) back = Text.byteLength front := by
  rw [offset, Text.byteLength_append, Nat.add_sub_cancel]

theorem offset_append {front cs : List Char} (h : front ++ cs <:+ text) :
    offset text (front ++ cs) + Text.byteLength front = offset text cs := by
  have hwhole := offset_add_byteLength h
  have hpart := offset_add_byteLength ((List.suffix_append front cs).trans h)
  rw [Text.byteLength_append] at hwhole
  omega

theorem offset_cons {c : Char} {cs : List Char} (h : c :: cs <:+ text) :
    offset text (c :: cs) + c.utf8Size = offset text cs :=
  @offset_append text [c] cs h

/-- The place says which rest of the text it is. -/
theorem suffix_of_offset_le {cs ds : List Char} (hcs : cs <:+ text) (hds : ds <:+ text)
    (h : offset text ds ≤ offset text cs) : cs <:+ ds := by
  have hcs' := offset_add_byteLength hcs
  have hds' := offset_add_byteLength hds
  exact suffix_of_byteLength_le hcs hds (by omega)

/-! ## Tokens -/

theorem rowAt_trim : ∀ {cs : List Char}, cs <:+ text → rowAt text (trim cs) = rowAt text cs
  | [], _ => rfl
  | c :: cs, h => by
      cases hc : isSpace c with
      | true =>
          rw [trim_blank hc, rowAt_trim ((List.suffix_cons c cs).trans h), rowAt, rowAt,
            tokensFrom_blank hc, offset_cons h]
      | false => rw [trim_cons hc]

/-- The first token of a rest, and the others. -/
inductive Head (text : List Char) : List Char → Token → List Token → Prop
  | done : Head text [] ⟨.done, ⟨offset text [], offset text []⟩⟩ []
  | mark {c : Char} {lexeme : Lexeme} {cs : List Char} : Punctuation c lexeme →
      Head text (c :: cs) ⟨lexeme, ⟨offset text (c :: cs), offset text cs⟩⟩ (rowAt text cs)
  | path {cs rest : List Char} : IsPath cs → Stops rest →
      Head text (cs ++ rest)
        ⟨.path (String.ofList cs), ⟨offset text (cs ++ rest), offset text rest⟩⟩ (rowAt text rest)
  | stray {c : Char} {cs : List Char} : opening c = .stray →
      Head text (c :: cs)
        ⟨.stray, ⟨offset text (c :: cs), offset text (c :: cs) + c.utf8Size⟩⟩ []

theorem Head.start {cs : List Char} {token : Token} {row : List Token}
    (h : Head text cs token row) : token.span.start = offset text cs := by
  cases h <;> rfl

theorem Head.trim_eq {cs : List Char} {token : Token} {row : List Token}
    (h : Head text cs token row) : trim cs = cs := by
  cases h with
  | done => rfl
  | @mark c lexeme cs hc =>
      have hspace : isSpace c = false := by cases hc <;> rfl
      exact trim_cons hspace cs
  | path hpath _ =>
      obtain ⟨first, more, rfl, hfirst, -⟩ := hpath.starts
      exact trim_cons (isSpace_of_start hfirst) _
  | @stray c cs hc =>
      refine trim_cons (Bool.eq_false_iff.mpr fun hspace => ?_) cs
      rw [opening_of_space hspace] at hc
      cases hc

/-- A mark is one character, and a character one mark. -/
theorem Punctuation.char_eq {c d : Char} {lexeme : Lexeme} (h : Punctuation c lexeme)
    (h' : Punctuation d lexeme) : c = d := by
  cases h <;> cases h' <;> rfl

theorem Punctuation.lexeme_eq {c : Char} {lexeme other : Lexeme} (h : Punctuation c lexeme)
    (h' : Punctuation c other) : lexeme = other := by
  cases h <;> cases h' <;> rfl

/-- The first token is the mark exactly when the text begins with its character. -/
theorem Head.head?_eq_iff {cs : List Char} {token : Token} {row : List Token}
    (h : Head text cs token row) {c : Char} {lexeme : Lexeme} (hc : Punctuation c lexeme) :
    cs.head? = some c ↔ token.lexeme = lexeme := by
  cases h with
  | done => cases hc <;> simp
  | @mark d other cs hd =>
      constructor
      · rintro ⟨⟩
        exact hd.lexeme_eq hc
      · rintro rfl
        exact congrArg some (hd.char_eq hc)
  | @path path rest hpath hrest =>
      obtain ⟨first, more, rfl, hfirst, -⟩ := hpath.starts
      constructor
      · rintro ⟨⟩
        cases hc <;> cases hfirst
      · rintro ⟨⟩
        cases hc
  | @stray d cs hd =>
      constructor
      · rintro ⟨⟩
        rw [opening_of_punctuation hc] at hd
        cases hd
      · rintro ⟨⟩
        cases hc

theorem Head.of_mark {c : Char} {lexeme : Lexeme} {cs : List Char} {token : Token}
    {row : List Token} (h : Head text (c :: cs) token row) (hc : Punctuation c lexeme) :
    token = ⟨lexeme, ⟨offset text (c :: cs), offset text cs⟩⟩ ∧ row = rowAt text cs := by
  generalize hds : c :: cs = ds at h
  cases h with
  | done => cases hds
  | mark hd =>
      obtain ⟨rfl, rfl⟩ := List.cons.inj hds
      obtain rfl := hd.lexeme_eq hc
      exact ⟨rfl, rfl⟩
  | path hpath _ =>
      obtain ⟨first, more, rfl, hfirst, -⟩ := hpath.starts
      obtain ⟨rfl, -⟩ := List.cons.inj hds
      cases hc <;> cases hfirst
  | stray hd =>
      obtain ⟨rfl, rfl⟩ := List.cons.inj hds
      rw [opening_of_punctuation hc] at hd
      cases hd

theorem Head.of_nil {token : Token} {row : List Token} (h : Head text [] token row) :
    token.lexeme = .done := by
  generalize hcs : [] = cs at h
  cases h with
  | done => rfl
  | mark => cases hcs
  | path hpath _ =>
      obtain ⟨first, more, rfl, -⟩ := hpath.starts
      cases hcs
  | stray => cases hcs

theorem Head.of_path {cs : List Char} {token : Token} {row : List Token} {path : String}
    (h : Head text cs token row) (htoken : token.lexeme = .path path) :
    ∃ rest, cs = path.toList ++ rest ∧ IsPath path.toList ∧ Stops rest ∧
      token = ⟨.path path, ⟨offset text cs, offset text rest⟩⟩ ∧ row = rowAt text rest := by
  cases h with
  | done => cases htoken
  | mark hc =>
      obtain rfl := htoken
      cases hc
  | @path cs rest hpath hrest =>
      obtain rfl := Lexeme.path.inj htoken
      rw [String.toList_ofList]
      exact ⟨rest, rfl, hpath, hrest, rfl, rfl⟩
  | stray => cases htoken

theorem exists_head_of_trim {cs : List Char} (h : cs <:+ text) (htrim : trim cs = cs) :
    ∃ token row, Head text cs token row ∧ rowAt text cs = token :: row := by
  cases cs with
  | nil => exact ⟨_, _, .done, rfl⟩
  | cons c cs =>
      cases hc : opening c with
      | space =>
          have hlt := length_trim_lt c cs
          rw [← trim_blank (opening_eq_space_iff.mp hc), htrim] at hlt
          exact absurd hlt (Nat.lt_irrefl _)
      | punctuation lexeme =>
          have hmark := opening_eq_punctuation_iff.mp hc
          refine ⟨_, _, .mark hmark, ?_⟩
          rw [rowAt, tokensFrom_mark hmark, offset_cons h]
          rfl
      | path =>
          have hstart := opening_eq_path_iff.mp hc
          obtain ⟨more, rest, rfl, hmore, hrest⟩ := exists_goesOn_stops cs
          refine ⟨_, _, .path (isPath_cons_iff.mpr ⟨hstart, hmore⟩) hrest, ?_⟩
          rw [← List.cons_append, rowAt, tokensFrom_path hstart hmore hrest, offset_append h]
          rfl
      | stray =>
          refine ⟨_, _, .stray hc, ?_⟩
          simp [rowAt, tokensFrom, hc]

/-- Every rest has a first token, after its blanks. -/
theorem exists_head {cs : List Char} (h : cs <:+ text) :
    ∃ token row, Head text (trim cs) token row ∧ rowAt text cs = token :: row := by
  rw [← rowAt_trim h]
  exact exists_head_of_trim ((trim_suffix cs).trans h) (trim_trim cs)

end

end TypeNaming.Signature
