/-
# How deep a tree is written

The brackets of a text are counted character by character, before anything is known of
the tree that it writes.  For a text that does write one the count is a question about the
tree: `Written.nesting` is the number of brackets around its innermost types, and the text
is within a limit exactly when that number is (`withinDepth_iff_nesting`).

Between the text and the tree stands the row of lexemes.  Blanks and paths open and close
nothing, so the text and its row have the same peak (`Cut.peak_eq`); and a tree leaves as
many brackets open as it finds, so its peak is added to what is open around it
(`peakOf_row`).
-/
import TypeNaming.Proofs.Grammar.Row
import TypeNaming.Proofs.Identity.Parsed

namespace TypeNaming.Signature

/-! ## The nesting of a tree -/

mutual

/-- The most brackets that are open at once where the tree is written. -/
def Written.nesting : Written → Nat
  | .named _ [] _ => 0
  | .named _ (arg :: args) _ => max arg.nesting (Written.nestings args) + 1
  | .tuple elements _ => WrittenElement.nestings elements + 1

/-- The most that are open at once in any of the trees. -/
def Written.nestings : List Written → Nat
  | [] => 0
  | type :: types => max type.nesting (Written.nestings types)

/-- The most that are open at once in any of the elements. -/
def WrittenElement.nestings : List WrittenElement → Nat
  | [] => 0
  | .mk type _ :: elements => max type.nesting (WrittenElement.nestings elements)

end

theorem Written.nestings_le_iff {types : List Written} {bound : Nat} :
    Written.nestings types ≤ bound ↔ ∀ type ∈ types, type.nesting ≤ bound := by
  induction types with
  | nil => simp [Written.nestings]
  | cons type types ih => rw [Written.nestings, Nat.max_le, ih, List.forall_mem_cons]

theorem WrittenElement.nestings_le_iff {elements : List WrittenElement} {bound : Nat} :
    WrittenElement.nestings elements ≤ bound ↔
      ∀ element ∈ elements, element.type.nesting ≤ bound := by
  induction elements with
  | nil => simp [WrittenElement.nestings]
  | cons element elements ih =>
      cases element
      rw [WrittenElement.nestings, Nat.max_le, ih, List.forall_mem_cons]
      rfl

/-! ## The peak of a text -/

/-- The most brackets that are open at once, in a text that begins inside `depth`. -/
def peak (depth : Nat) : List Char → Nat
  | [] => depth
  | c :: rest => max depth (peak (depthAfter depth c) rest)

theorem le_peak (depth : Nat) (text : List Char) : depth ≤ peak depth text := by
  cases text with
  | nil => exact Nat.le_refl depth
  | cons c rest => exact Nat.le_max_left _ _

theorem peak_le_iff {limit : Nat} : ∀ {text : List Char} {depth : Nat},
    peak depth text ≤ limit ↔ ∀ front, front <+: text → front.foldl depthAfter depth ≤ limit
  | [], depth => by simp [peak]
  | c :: rest, depth => by
      rw [peak, Nat.max_le, peak_le_iff]
      constructor
      · rintro ⟨hdepth, hrest⟩ front hfront
        rcases List.prefix_cons_iff.mp hfront with rfl | ⟨others, rfl, hothers⟩
        · exact hdepth
        · exact hrest others hothers
      · intro h
        refine ⟨h [] List.nil_prefix, fun front hfront => ?_⟩
        exact h (c :: front) (List.prefix_cons_inj c |>.mpr hfront)

theorem withinDepth_iff_peak {limit : Nat} {text : List Char} :
    WithinDepth limit text ↔ peak 0 text ≤ limit :=
  peak_le_iff.symm

/-- A character that is no bracket has no part in it. -/
theorem peak_cons_of_neutral {c : Char} (h : ∀ depth, depthAfter depth c = depth) (depth : Nat)
    (rest : List Char) : peak depth (c :: rest) = peak depth rest := by
  rw [peak, h, Nat.max_eq_right (le_peak depth rest)]

theorem peak_append_of_neutral {cs : List Char} (h : ∀ c ∈ cs, ∀ depth, depthAfter depth c = depth)
    (depth : Nat) (rest : List Char) : peak depth (cs ++ rest) = peak depth rest := by
  induction cs with
  | nil => rfl
  | cons c cs ih =>
      obtain ⟨hc, hcs⟩ := List.forall_mem_cons.mp h
      rw [List.cons_append, peak_cons_of_neutral hc, ih hcs]

theorem depthAfter_neutral {c : Char} (h : c ∉ ['<', '>', '(', ')']) (depth : Nat) :
    depthAfter depth c = depth := by
  simp only [List.mem_cons, List.not_mem_nil, or_false, not_or] at h
  simp [depthAfter, h]

theorem IsPath.neutral {cs : List Char} (h : IsPath cs) :
    ∀ c ∈ cs, ∀ depth, depthAfter depth c = depth := by
  intro c hc
  refine depthAfter_neutral fun hbracket => ?_
  have hother : ['<', '>', '(', ')'].all (fun c => !isIdentRest c && c != '.') = true := by decide
  have hstop := List.all_eq_true.mp hother c hbracket
  simp only [Bool.and_eq_true, Bool.not_eq_true', bne_iff_ne] at hstop
  exact h.avoids hstop.1 hstop.2 hc

theorem neutral_of_space {c : Char} (h : isSpace c = true) (depth : Nat) :
    depthAfter depth c = depth := by
  refine depthAfter_neutral (fun hbracket => ?_) depth
  have hother : ['<', '>', '(', ')'].all (fun c => !isSpace c) = true := by decide
  have hother := List.all_eq_true.mp hother c hbracket
  rw [h] at hother
  cases hother

/-! ## The peak of a row -/

/-- The number of open brackets after the lexeme. -/
def Lexeme.depthAfter (depth : Nat) : Lexeme → Nat
  | .lessThan => depth + 1
  | .leftParen => depth + 1
  | .greaterThan => depth - 1
  | .rightParen => depth - 1
  | _ => depth

/-- The most brackets that are open at once, in a row that begins inside `depth`. -/
def peakOf (depth : Nat) : List Lexeme → Nat
  | [] => depth
  | lexeme :: rest => max depth (peakOf (lexeme.depthAfter depth) rest)

theorem le_peakOf (depth : Nat) (row : List Lexeme) : depth ≤ peakOf depth row := by
  cases row with
  | nil => exact Nat.le_refl depth
  | cons lexeme rest => exact Nat.le_max_left _ _

theorem depthAfter_of_punctuation {c : Char} {lexeme : Lexeme} (h : Punctuation c lexeme)
    (depth : Nat) : depthAfter depth c = lexeme.depthAfter depth := by
  cases h <;> rfl

/-- A text and its row have the same peak. -/
theorem Cut.peak_eq {text : List Char} {row : List Lexeme} (h : Cut text row) (depth : Nat) :
    peak depth text = peakOf depth row := by
  induction h generalizing depth with
  | done => rfl
  | blank hspace _ ih => rw [peak_cons_of_neutral (neutral_of_space hspace), ih]
  | mark hmark _ ih => rw [peak, peakOf, depthAfter_of_punctuation hmark, ih]
  | @path cs rest lexemes hpath _ _ ih =>
      rw [peak_append_of_neutral hpath.neutral, ih]
      exact (Nat.max_eq_right (le_peakOf depth lexemes)).symm

theorem peakOf_markLexemes (marked : Bool) (depth : Nat) (rest : List Lexeme) :
    peakOf depth (markLexemes marked ++ rest) = peakOf depth rest := by
  cases marked with
  | false => rfl
  | true => exact Nat.max_eq_right (le_peakOf depth rest)

theorem peakOf_labelLexemes (label : Option String) (depth : Nat) (rest : List Lexeme) :
    peakOf depth (labelLexemes label ++ rest) = peakOf depth rest := by
  cases label with
  | none => rfl
  | some label => exact Nat.max_eq_right (le_peakOf depth rest)

mutual

/-- The brackets of a tree are all closed again, so its nesting is added to what is open
around it. -/
theorem peakOf_row : ∀ (type : Written) (depth : Nat) (rest : List Lexeme),
    peakOf depth (type.row ++ rest) = max (depth + type.nesting) (peakOf depth rest)
  | .named path [] marked, depth, rest => by
      have hrest := le_peakOf depth rest
      rw [Written.row, List.cons_append, peakOf, Written.nesting]
      show max depth (peakOf depth (markLexemes marked ++ rest)) = _
      rw [peakOf_markLexemes]
      rfl
  | .named path (arg :: args) marked, depth, rest => by
      have hrest := le_peakOf depth rest
      have harg := peakOf_row arg (depth + 1)
      have hargs := peakOf_rows args (depth + 1)
      rw [Written.row, Written.nesting]
      simp only [List.cons_append, List.append_assoc, peakOf, Lexeme.depthAfter, harg, hargs,
        peakOf_markLexemes, Nat.add_sub_cancel]
      omega
  | .tuple [] marked, depth, rest => by
      have hrest := le_peakOf depth rest
      rw [Written.row, Written.nesting, WrittenElement.nestings]
      simp only [List.cons_append, peakOf, Lexeme.depthAfter, peakOf_markLexemes,
        Nat.add_sub_cancel]
      omega
  | .tuple (.mk type label :: elements) marked, depth, rest => by
      have hrest := le_peakOf depth rest
      have htype := peakOf_row type (depth + 1)
      have helements := peakOf_elementRows elements (depth + 1)
      rw [Written.row, Written.nesting, WrittenElement.nestings, WrittenElement.row]
      simp only [List.cons_append, List.append_assoc, peakOf, Lexeme.depthAfter, htype, helements,
        peakOf_markLexemes, peakOf_labelLexemes, Nat.add_sub_cancel]
      omega

theorem peakOf_rows : ∀ (types : List Written) (depth : Nat) (rest : List Lexeme),
    peakOf depth (Written.rows types ++ rest)
      = max (depth + Written.nestings types) (peakOf depth rest)
  | [], depth, rest => (Nat.max_eq_right (le_peakOf depth rest)).symm
  | type :: types, depth, rest => by
      have hrest := le_peakOf depth rest
      have htype := peakOf_row type depth
      have htypes := peakOf_rows types depth
      rw [Written.rows, Written.nestings]
      simp only [List.cons_append, List.append_assoc, peakOf, Lexeme.depthAfter, htype, htypes]
      omega

theorem peakOf_elementRows : ∀ (elements : List WrittenElement) (depth : Nat)
    (rest : List Lexeme), peakOf depth (WrittenElement.rows elements ++ rest)
      = max (depth + WrittenElement.nestings elements) (peakOf depth rest)
  | [], depth, rest => (Nat.max_eq_right (le_peakOf depth rest)).symm
  | .mk type label :: elements, depth, rest => by
      have hrest := le_peakOf depth rest
      have htype := peakOf_row type depth
      have helements := peakOf_elementRows elements depth
      rw [WrittenElement.rows, WrittenElement.nestings, WrittenElement.row]
      simp only [List.cons_append, List.append_assoc, peakOf, Lexeme.depthAfter, htype, helements,
        peakOf_labelLexemes]
      omega

end

/-- A text is within the limit exactly when the tree that it writes is. -/
theorem withinDepth_iff_nesting {limit : Nat} {text : List Char} {type : Written}
    (h : Cut text type.row) : WithinDepth limit text ↔ type.nesting ≤ limit := by
  have hpeak := peakOf_row type 0 []
  rw [List.append_nil, Nat.zero_add] at hpeak
  rw [withinDepth_iff_peak, h.peak_eq, hpeak]
  simp [peakOf]

end TypeNaming.Signature
