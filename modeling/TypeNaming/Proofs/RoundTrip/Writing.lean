/-
# Writing a tree

`Written.text` writes a tree the way declarations are written: a comma and a blank between
two types, a blank before a label, and no blank anywhere else.  Where all names of the tree
are paths, that text is cut into the row of the tree (`cut_text`), because nothing that
comes after a path goes on with it: a bracket, a comma, a `?`, a blank, or the end.

So a tree that has a derivation, no violation, and no more brackets than the context allows
is read back from its text, as what it denotes (`read_text`).
-/
import TypeNaming.Proofs.Identity.Declaration
import TypeNaming.Proofs.RoundTrip.Nesting

namespace TypeNaming.Signature

open NameTree (followText toList_intercalate_cons toList_suffix labelText)

/-! ## Trees, part by part -/

mutual

/-- What holds of a tree when it holds of its arguments or elements holds of every tree. -/
theorem Written.induct {P : Written → Prop}
    (named : ∀ path args marked, (∀ arg ∈ args, P arg) → P (.named path args marked))
    (tuple : ∀ elements marked, (∀ element ∈ elements, P element.type) →
      P (.tuple elements marked)) : ∀ type : Written, P type
  | .named path args marked => named path args marked (Written.inductAll named tuple args)
  | .tuple elements marked => tuple elements marked (Written.inductElements named tuple elements)

theorem Written.inductAll {P : Written → Prop}
    (named : ∀ path args marked, (∀ arg ∈ args, P arg) → P (.named path args marked))
    (tuple : ∀ elements marked, (∀ element ∈ elements, P element.type) →
      P (.tuple elements marked)) : ∀ types : List Written, ∀ type ∈ types, P type
  | [] => List.forall_mem_nil _
  | type :: types =>
      List.forall_mem_cons.mpr
        ⟨Written.induct named tuple type, Written.inductAll named tuple types⟩

theorem Written.inductElements {P : Written → Prop}
    (named : ∀ path args marked, (∀ arg ∈ args, P arg) → P (.named path args marked))
    (tuple : ∀ elements marked, (∀ element ∈ elements, P element.type) →
      P (.tuple elements marked)) :
    ∀ elements : List WrittenElement, ∀ element ∈ elements, P element.type
  | [] => List.forall_mem_nil _
  | .mk type _ :: elements =>
      List.forall_mem_cons.mpr
        ⟨Written.induct named tuple type, Written.inductElements named tuple elements⟩

end

/-! ## The names of a tree -/

section

variable {Name : String → Prop}

theorem called_append_iff {lexemes others : List Lexeme} :
    Called Name (lexemes ++ others) ↔ Called Name lexemes ∧ Called Name others := by
  simp only [Called, List.mem_append, or_imp, forall_and]

theorem called_cons_iff {lexeme : Lexeme} {lexemes : List Lexeme} :
    Called Name (lexeme :: lexemes) ↔
      (∀ path, lexeme = .path path → Name path) ∧ Called Name lexemes := by
  simp only [Called, List.mem_cons, or_imp, forall_and, eq_comm]

theorem called_markLexemes (marked : Bool) : Called Name (markLexemes marked) := by
  cases marked <;> simp [Called, markLexemes]

theorem called_labelLexemes_iff {label : Option String} :
    Called Name (labelLexemes label) ↔ ∀ text, label = some text → Name text := by
  cases label <;> simp [Called, labelLexemes]

theorem called_rows_iff {types : List Written} :
    Called Name (Written.rows types) ↔ ∀ type ∈ types, Called Name type.row := by
  induction types with
  | nil => simp [Written.rows, Called]
  | cons type types ih =>
      rw [Written.rows, called_cons_iff, called_append_iff, ih, List.forall_mem_cons]
      simp

/-- The names of an element are those of its type, and its label. -/
theorem called_element_iff {element : WrittenElement} :
    Called Name element.row ↔
      Called Name element.type.row ∧ ∀ label, element.label = some label → Name label := by
  cases element
  rw [WrittenElement.row, called_append_iff, called_labelLexemes_iff]
  rfl

theorem called_elementRows_iff {elements : List WrittenElement} :
    Called Name (WrittenElement.rows elements) ↔
      ∀ element ∈ elements, Called Name element.row := by
  induction elements with
  | nil => simp [WrittenElement.rows, Called]
  | cons element elements ih =>
      rw [WrittenElement.rows, called_cons_iff, called_append_iff, ih, List.forall_mem_cons]
      simp

theorem called_named_iff {path : String} {args : List Written} {marked : Bool} :
    Called Name (Written.named path args marked).row ↔
      Name path ∧ ∀ arg ∈ args, Called Name arg.row := by
  have hmark : Called Name (markLexemes marked) := called_markLexemes marked
  cases args with
  | nil => simp [Written.row, called_cons_iff, hmark]
  | cons arg args =>
      simp [Written.row, called_cons_iff, called_append_iff, called_rows_iff, hmark]

theorem called_tuple_iff {elements : List WrittenElement} {marked : Bool} :
    Called Name (Written.tuple elements marked).row ↔
      ∀ element ∈ elements, Called Name element.row := by
  have hmark : Called Name (markLexemes marked) := called_markLexemes marked
  cases elements with
  | nil => simp [Written.row, called_cons_iff, hmark]
  | cons element elements =>
      simp [Written.row, called_cons_iff, called_append_iff, called_elementRows_iff, hmark]

end

/-! ## The text of a tree -/

/-- The optional `?`. -/
def markText (marked : Bool) : String :=
  if marked then "?" else ""

mutual

/-- The text that writes the tree. -/
def Written.text : Written → String
  | .named path [] marked => path ++ markText marked
  | .named path (arg :: args) marked =>
    path ++ "<" ++ ", ".intercalate (arg.text :: Written.texts args) ++ ">" ++ markText marked
  | .tuple elements marked =>
    "(" ++ ", ".intercalate (WrittenElement.texts elements) ++ ")" ++ markText marked

/-- The texts that write the trees. -/
def Written.texts : List Written → List String
  | [] => []
  | type :: types => type.text :: Written.texts types

/-- The text that writes the element. -/
def WrittenElement.text : WrittenElement → String
  | .mk type label => type.text ++ NameTree.LabelStyle.shown.suffix label

/-- The texts that write the elements. -/
def WrittenElement.texts : List WrittenElement → List String
  | [] => []
  | element :: elements => element.text :: WrittenElement.texts elements

end

@[simp] theorem Written.texts_eq_map (types : List Written) :
    Written.texts types = types.map Written.text := by
  induction types with
  | nil => rfl
  | cons type types ih => simp [Written.texts, ih]

@[simp] theorem WrittenElement.texts_eq_map (elements : List WrittenElement) :
    WrittenElement.texts elements = elements.map WrittenElement.text := by
  induction elements with
  | nil => rfl
  | cons element elements ih => simp [WrittenElement.texts, ih]

theorem toList_text_generic (path : String) (arg : Written) (args : List Written)
    (marked : Bool) : (Written.named path (arg :: args) marked).text.toList
      = path.toList ++ '<' :: (arg.text.toList ++
        (followText [',', ' '] (args.map Written.text) ++ '>' :: (markText marked).toList)) := by
  rw [Written.text, Written.texts_eq_map]
  simp only [String.toList_append, toList_intercalate_cons]
  simp

theorem toList_text_nil (marked : Bool) :
    (Written.tuple [] marked).text.toList = '(' :: ')' :: (markText marked).toList := by
  cases marked <;> rfl

theorem toList_text_tuple (element : WrittenElement) (elements : List WrittenElement)
    (marked : Bool) : (Written.tuple (element :: elements) marked).text.toList
      = '(' :: (element.text.toList ++
        (followText [',', ' '] (elements.map WrittenElement.text)
          ++ ')' :: (markText marked).toList)) := by
  rw [Written.text, WrittenElement.texts_eq_map, List.map_cons]
  simp only [String.toList_append, toList_intercalate_cons]
  simp

/-! ## What ends a path -/

theorem stops_cons {c : Char} (h : isIdentRest c = false) (hdot : c ≠ '.') (rest : List Char) :
    Stops (c :: rest) := by
  show goesOn c rest = false
  simp [goesOn, h, hdot]

theorem stops_markText {marked : Bool} {rest : List Char} (h : Stops rest) :
    Stops ((markText marked).toList ++ rest) := by
  cases marked with
  | false => exact h
  | true => exact stops_cons rfl (by decide) rest

theorem stops_labelText {label : Option String} {rest : List Char} (h : Stops rest) :
    Stops (labelText label ++ rest) := by
  cases label with
  | none => exact h
  | some label => exact stops_cons rfl (by decide) _

theorem stops_followText {texts : List String} {rest : List Char} (h : Stops rest) :
    Stops (followText [',', ' '] texts ++ rest) := by
  cases texts with
  | nil => exact h
  | cons text texts => exact stops_cons rfl (by decide) _

/-! ## The cut of the text -/

theorem cut_of_path {path : String} (hpath : IsPath path.toList) {rest : List Char}
    {lexemes : List Lexeme} (hstops : Stops rest) (h : Cut rest lexemes) :
    Cut (path.toList ++ rest) (.path path :: lexemes) := by
  obtain ⟨c, cs, hcs, -, -⟩ := hpath.starts
  have hlong : Longest path.toList rest := by
    rw [hcs] at hpath ⊢
    exact (longest_iff hpath).mpr hstops
  simpa using Cut.path hpath hlong h

theorem cut_markText {marked : Bool} {rest : List Char} {lexemes : List Lexeme}
    (h : Cut rest lexemes) :
    Cut ((markText marked).toList ++ rest) (markLexemes marked ++ lexemes) := by
  cases marked with
  | false => exact h
  | true => exact .mark .question h

theorem cut_labelText {label : Option String} {rest : List Char} {lexemes : List Lexeme}
    (hlabel : ∀ text, label = some text → IsPath text.toList)
    (hstops : Stops rest) (h : Cut rest lexemes) :
    Cut (labelText label ++ rest) (labelLexemes label ++ lexemes) := by
  cases label with
  | none => exact h
  | some label => exact .blank rfl (cut_of_path (hlabel label rfl) hstops h)

theorem cut_separator {text : List Char} {lexemes : List Lexeme} (h : Cut text lexemes) :
    Cut ([',', ' '] ++ text) (.comma :: lexemes) :=
  .mark .comma (.blank rfl h)

mutual

/-- The text of a tree is cut into the row of the tree, whatever comes after it. -/
theorem cut_text : ∀ {type : Written} {rest : List Char} {lexemes : List Lexeme},
    Called (fun name => IsPath name.toList) type.row → Stops rest → Cut rest lexemes →
      Cut (type.text.toList ++ rest) (type.row ++ lexemes)
  | .named path [] marked, rest, lexemes, hcalled, hstops, h => by
      have hpath := (called_named_iff.mp hcalled).1
      rw [Written.row, Written.text, String.toList_append, List.append_assoc]
      exact cut_of_path hpath (stops_markText hstops) (cut_markText h)
  | .named path (arg :: args) marked, rest, lexemes, hcalled, hstops, h => by
      obtain ⟨hpath, hargs⟩ := called_named_iff.mp hcalled
      obtain ⟨harg, hargs⟩ := List.forall_mem_cons.mp hargs
      have hclose : Cut ('>' :: ((markText marked).toList ++ rest))
          (.greaterThan :: (markLexemes marked ++ lexemes)) := .mark .greaterThan (cut_markText h)
      have hends := stops_cons (c := '>') rfl (by decide) ((markText marked).toList ++ rest)
      have hinside := cut_text harg (stops_followText hends) (cut_follow hargs hends hclose)
      rw [Written.row, toList_text_generic]
      simp only [List.append_assoc, List.cons_append]
      exact cut_of_path hpath (stops_cons rfl (by decide) _) (.mark .lessThan hinside)
  | .tuple [] marked, rest, lexemes, _, _, h => by
      rw [Written.row, toList_text_nil]
      exact .mark .leftParen (.mark .rightParen (cut_markText h))
  | .tuple (element :: elements) marked, rest, lexemes, hcalled, hstops, h => by
      obtain ⟨helement, helements⟩ := List.forall_mem_cons.mp (called_tuple_iff.mp hcalled)
      have hclose : Cut (')' :: ((markText marked).toList ++ rest))
          (.rightParen :: (markLexemes marked ++ lexemes)) := .mark .rightParen (cut_markText h)
      have hends := stops_cons (c := ')') rfl (by decide) ((markText marked).toList ++ rest)
      have hinside := cut_elementText helement (stops_followText hends)
        (cut_elementFollow helements hends hclose)
      rw [Written.row, toList_text_tuple]
      simp only [List.append_assoc, List.cons_append]
      exact .mark .leftParen hinside

theorem cut_follow : ∀ {types : List Written} {rest : List Char} {lexemes : List Lexeme},
    (∀ type ∈ types, Called (fun name => IsPath name.toList) type.row) → Stops rest →
      Cut rest lexemes → Cut (followText [',', ' '] (types.map Written.text) ++ rest)
        (Written.rows types ++ lexemes)
  | [], _, _, _, _, h => h
  | type :: types, rest, lexemes, hcalled, hstops, h => by
      obtain ⟨htype, htypes⟩ := List.forall_mem_cons.mp hcalled
      have hothers := cut_text htype (stops_followText hstops) (cut_follow htypes hstops h)
      rw [Written.rows, List.map_cons, followText]
      simp only [List.append_assoc, List.cons_append]
      exact cut_separator hothers

theorem cut_elementText : ∀ {element : WrittenElement} {rest : List Char}
    {lexemes : List Lexeme}, Called (fun name => IsPath name.toList) element.row → Stops rest →
      Cut rest lexemes → Cut (element.text.toList ++ rest) (element.row ++ lexemes)
  | .mk type label, rest, lexemes, hcalled, hstops, h => by
      obtain ⟨htype, hlabel⟩ := called_element_iff.mp hcalled
      rw [WrittenElement.row, WrittenElement.text, String.toList_append, toList_suffix,
        List.append_assoc, List.append_assoc]
      exact cut_text htype (stops_labelText hstops) (cut_labelText hlabel hstops h)

theorem cut_elementFollow : ∀ {elements : List WrittenElement} {rest : List Char}
    {lexemes : List Lexeme},
    (∀ element ∈ elements, Called (fun name => IsPath name.toList) element.row) → Stops rest →
      Cut rest lexemes → Cut (followText [',', ' '] (elements.map WrittenElement.text) ++ rest)
        (WrittenElement.rows elements ++ lexemes)
  | [], _, _, _, _, h => h
  | element :: elements, rest, lexemes, hcalled, hstops, h => by
      obtain ⟨helement, helements⟩ := List.forall_mem_cons.mp hcalled
      have hothers := cut_elementText helement (stops_followText hstops)
        (cut_elementFollow helements hstops h)
      rw [WrittenElement.rows, List.map_cons, followText]
      simp only [List.append_assoc, List.cons_append]
      exact cut_separator hothers

end

/-! ## Reading the text -/

/-- A tree is read back from its text. -/
theorem read_text {context : Context} {type : Written} (hderivable : Derivable type)
    (hcalled : Called (fun name => IsPath name.toList) type.row)
    (hsound : ¬ Violation context type) (hdepth : type.nesting ≤ context.maxDepth) :
    ∃ signature, read context type.text = .ok signature ∧
      signature.bare = denote context type := by
  have hcut : Cut (type.text.toList ++ []) (type.row ++ []) := cut_text hcalled trivial .done
  rw [List.append_nil, List.append_nil] at hcut
  exact read_of_denotes ((withinDepth_iff_nesting hcut).mpr hdepth) hcut hderivable.row hsound

end TypeNaming.Signature
