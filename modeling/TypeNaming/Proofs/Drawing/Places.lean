/-
# Where a diagnostic is drawn

The places of a diagnostic are numbers of bytes, and a drawing takes them as numbers of
characters.  The two agree where the text before the place is ASCII.

Why it is depends on what found the fault.  What the grammar refuses, it refuses behind a
beginning that is viable, and a text of the grammar is ASCII: identifiers, dots, marks and
blanks.  Where a type means nothing, or is no union, or alternatives clash, the whole text is in
the grammar.  Only the count of the brackets looks at any text at all, and its diagnostic, P002,
is drawn in the wrong place when something before the bracket is not ASCII
(`charsBefore_eq_iff`).
-/
import TypeNaming.Drawing.Report
import TypeNaming.Proofs.Grammar.Viable
import TypeNaming.Proofs.Members.Identifiers

namespace TypeNaming

/-! ## Characters and bytes -/

namespace Text

/-- Every character is one byte. -/
def Ascii (text : List Char) : Prop := ∀ c ∈ text, c.toNat < 128

/-- The number of characters that begin before the byte. -/
def charsBefore (text : List Char) (pos : Nat) : Nat := (takeBytes pos text).length

theorem utf8Size_eq_one_iff {c : Char} : c.utf8Size = 1 ↔ c.toNat < 128 := by
  rw [Char.utf8Size_eq_one_iff, UInt32.le_iff_toNat_le]
  exact Nat.lt_succ_iff.symm

theorem length_le_byteLength (text : List Char) : text.length ≤ byteLength text := by
  induction text with
  | nil => exact Nat.le_refl 0
  | cons c text ih =>
      have hsize := c.utf8Size_pos
      rw [List.length_cons, byteLength]
      omega

/-- There are as many characters as bytes exactly when the text is ASCII. -/
theorem length_eq_byteLength_iff {text : List Char} :
    text.length = byteLength text ↔ Ascii text := by
  induction text with
  | nil => exact iff_of_true rfl (List.forall_mem_nil _)
  | cons c text ih =>
      have hsize := c.utf8Size_pos
      have hle := length_le_byteLength text
      rw [Ascii, List.forall_mem_cons, ← utf8Size_eq_one_iff, ← Ascii, ← ih, List.length_cons,
        byteLength]
      omega

theorem charsBefore_append_iff {front back : List Char} :
    charsBefore (front ++ back) (byteLength front) = byteLength front ↔ Ascii front := by
  rw [charsBefore, takeBytes_append, length_eq_byteLength_iff]

end Text

open Text (Ascii charsBefore)

/-! ## The characters of the grammar -/

namespace Signature

theorem isIdentRest_ascii {c : Char} (h : isIdentRest c = true) : c.toNat < 128 := by
  rcases Bool.or_eq_true_iff.mp h with halphanum | hbar
  · rcases Bool.or_eq_true_iff.mp halphanum with halpha | hdigit
    · exact isAlpha_ascii halpha
    · have hcode : c.val ≤ 57 := of_decide_eq_true (Bool.and_eq_true_iff.mp hdigit).2
      exact Nat.lt_of_le_of_lt (UInt32.le_iff_toNat_le.mp hcode) (by decide)
  · rw [of_decide_eq_true hbar]
    decide

theorem IsPath.ascii {cs : List Char} (h : IsPath cs) : Ascii cs := by
  have hident {cs : List Char} (h : Identifier cs) : Ascii cs :=
    fun c hc => isIdentRest_ascii (h.chars c hc)
  induction h with
  | ident h => exact hident h
  | dotted h _ ih =>
      exact List.forall_mem_append.mpr ⟨hident h, List.forall_mem_cons.mpr ⟨by decide, ih⟩⟩

theorem Cut.ascii {text : List Char} {lexemes : List Lexeme} (h : Cut text lexemes) :
    Ascii text := by
  induction h with
  | done => exact List.forall_mem_nil _
  | @blank c rest _ hc _ ih =>
      refine List.forall_mem_cons.mpr ⟨?_, ih⟩
      simp only [isSpace, Bool.or_eq_true, decide_eq_true_eq] at hc
      rcases hc with ((rfl | rfl) | rfl) | rfl <;> decide
  | mark hc _ ih => exact List.forall_mem_cons.mpr ⟨by cases hc <;> decide, ih⟩
  | path hpath _ _ ih => exact List.forall_mem_append.mpr ⟨hpath.ascii, ih⟩

theorem InGrammar.ascii {text : List Char} (h : InGrammar text) : Ascii text := by
  obtain ⟨lexemes, type, hcut, -⟩ := h
  exact hcut.ascii

theorem Viable.ascii {front : List Char} (h : Viable front) : Ascii front := by
  obtain ⟨more, hmore⟩ := h
  exact (List.forall_mem_append.mp hmore.ascii).1

end Signature

/-! ## Places of a diagnostic -/

namespace Drawing

open Signature (InGrammar StandsAlone inGrammar_of_parse)

/-- The places that a diagnostic is drawn at: its own, and the related ones. -/
def places (d : Diagnostic) : List Span :=
  d.span :: d.related.map (·.span)

theorem Marker.span_of_ofSpan? {page : Page} {id : Nat} {span : Span} {message : String}
    {ink : Ink} {m : Marker} (h : Marker.ofSpan? page id span message ink = some m) :
    m.start = span.start ∧ m.stop = span.stop := by
  obtain ⟨first, -, h⟩ := Option.bind_eq_some_iff.mp h
  dsimp only at h
  split at h
  all_goals
    obtain ⟨line, -, h⟩ := Option.bind_eq_some_iff.mp h
    obtain rfl := Option.some.inj h
    exact ⟨rfl, rfl⟩

/-- A marker is where a place of the diagnostic is, counted in characters. -/
theorem exists_place_of_marker {page : Page} {d : Diagnostic} {m : Marker}
    (h : m ∈ markersOf page d) : ∃ span ∈ places d, m.start = span.start ∧ m.stop = span.stop := by
  obtain ⟨⟨⟨place, ink⟩, id⟩, hmem, hmarker⟩ := List.mem_filterMap.mp h
  have hplace := (List.of_mem_zip (List.fst_mem_of_mem_zipIdx hmem)).1
  refine ⟨place.1, ?_, Marker.span_of_ofSpan? hmarker⟩
  rcases List.mem_cons.mp hplace with rfl | hrelated
  · exact List.mem_cons_self
  · obtain ⟨related, hinside, rfl⟩ := List.mem_map.mp hrelated
    exact List.mem_cons_of_mem _ (List.mem_map_of_mem hinside)

/-- The place begins between two characters of the text, behind ASCII unless the brackets are
nested too deep. -/
def Placed (text : List Char) (d : Diagnostic) (span : Span) : Prop :=
  ∃ front back, text = front ++ back ∧ Text.byteLength front = span.start ∧
    (d.code ≠ some "P002" → Ascii front)

theorem Placed.charsBefore_iff {text : List Char} {d : Diagnostic} {span : Span}
    (h : Placed text d span) : charsBefore text span.start = span.start ↔
      (d.code = some "P002" → Ascii (Text.takeBytes span.start text)) := by
  obtain ⟨front, back, rfl, hstart, hascii⟩ := h
  rw [← hstart, Text.charsBefore_append_iff, Text.takeBytes_append]
  constructor
  · exact fun h _ => h
  · intro h
    by_cases hcode : d.code = some "P002"
    · exact h hcode
    · exact hascii hcode

section

variable {context : Context} {source : String}

theorem placed_of_inGrammar (h : InGrammar source.toList) {d : Diagnostic} {span : Span}
    {front piece back : List Char} (htext : source.toList = front ++ piece ++ back)
    (hstart : Text.byteLength front = span.start) : Placed source.toList d span := by
  rw [List.append_assoc] at htext
  exact ⟨front, piece ++ back, htext, hstart,
    fun _ => (List.forall_mem_append.mp (htext ▸ h.ascii)).1⟩

/-- One case for each of the three stages of the reader. -/
theorem placed_fault {fault : Signature.Fault}
    (h : Signature.read context source = .error fault) :
    Placed source.toList fault.diagnostic fault.span := by
  rcases Signature.read_eq_error_iff.mp h with hguard | ⟨hwithin, ⟨missed, hparse, rfl⟩ |
    ⟨expr, hparse, hmeaning⟩⟩
  · obtain ⟨front, bracket, back, htext, -, rfl⟩ := Signature.exists_firstTooDeep hguard
    exact ⟨front, bracket :: back, htext, rfl, fun hcode => absurd rfl hcode⟩
  · obtain ⟨front, ⟨back, htext⟩, hstart, hviable⟩ := Signature.exists_viable_of_parse hparse
    exact ⟨front, back, htext.symm, hstart, fun _ => hviable.ascii⟩
  · have hreports := Signature.reports_of_meaning hwithin hparse hmeaning
    obtain ⟨own, -, -, ⟨code, cause, subject, hfirst⟩, hall⟩ :=
      hreports.meaning hwithin _ (Signature.parse_iff_accepts.mp ⟨expr, hparse, rfl⟩)
    obtain ⟨-, -, -, -, front, piece, back, htext, hstart, -⟩ := hall code cause subject hfirst
    exact placed_of_inGrammar (inGrammar_of_parse hparse) htext hstart

theorem placed_of_standsAlone {type part : Signature}
    (h : Signature.read context source = .ok type)
    (hpart : StandsAlone context source.toList part) (d : Diagnostic) :
    Placed source.toList d part.span := by
  obtain ⟨-, expr, hparse, -⟩ := Signature.read_eq_ok_iff.mp h
  obtain ⟨front, piece, back, htext, hstart, -⟩ := hpart
  exact placed_of_inGrammar (inGrammar_of_parse hparse) htext hstart

theorem placed_placeOf {u : UnionType} (h : UnionType.read context source = .ok u) (index : Nat)
    (d : Diagnostic) : Placed source.toList d (u.placeOf index) := by
  have hread := (UnionType.read_eq_ok h).1
  obtain ⟨hwhole, hargs, -⟩ := Signature.standsAlone_of_read hread
  cases hget : u.signature.args[index]? with
  | none =>
      rw [UnionType.placeOf_of_length_le (List.getElem?_eq_none_iff.mp hget)]
      exact placed_of_standsAlone hread hwhole d
  | some arg =>
      rw [UnionType.placeOf_of_arg hget]
      exact placed_of_standsAlone hread (hargs arg (List.mem_of_getElem? hget)) d

/-! ## What is drawn -/

/-- What there is to draw about a text: why it is refused as a type or as a union, or the
warnings of a union. -/
inductive Reported (context : Context) (source : String) : Failure → Prop
  | type {fault : Signature.Fault} : Signature.read context source = .error fault →
      Reported context source (fault.failure source)
  | union {failure : Failure} : UnionType.read context source = .error failure →
      Reported context source failure
  | warnings {u : UnionType} {failure : Failure} : UnionType.read context source = .ok u →
      u.warnings? = some failure → Reported context source failure

/-- A failure to read a union is one to read a type, or the type is no union. -/
theorem read_union_eq_error {failure : Failure}
    (h : UnionType.read context source = .error failure) :
    (∃ fault, Signature.read context source = .error fault ∧ failure = fault.failure source) ∨
      ∃ type, Signature.read context source = .ok type ∧
        failure = .rejected [UnionType.wrongType context.unionName type] source none := by
  unfold UnionType.read at h
  split at h
  · next fault hread => exact .inl ⟨fault, hread, (Except.error.inj h).symm⟩
  · next type hread =>
      split at h
      · cases h
      · exact .inr ⟨type, hread, (Except.error.inj h).symm⟩

theorem Reported.placed {failure : Failure} (h : Reported context source failure) :
    ∃ diagnostics, failure = .rejected diagnostics source none ∧
      ∀ d ∈ diagnostics, ∀ span ∈ places d, Placed source.toList d span := by
  have hfault {fault : Signature.Fault} (h : Signature.read context source = .error fault) :
      ∀ d ∈ [fault.diagnostic], ∀ span ∈ places d, Placed source.toList d span := by
    intro d hd span hspan
    obtain rfl := List.mem_singleton.mp hd
    obtain rfl := List.mem_singleton.mp hspan
    exact placed_fault h
  cases h with
  | type h => exact ⟨_, rfl, hfault h⟩
  | union h =>
      rcases read_union_eq_error h with ⟨fault, hread, rfl⟩ | ⟨type, hread, rfl⟩
      · exact ⟨_, rfl, hfault hread⟩
      · refine ⟨_, rfl, fun d hd span hspan => ?_⟩
        obtain rfl := List.mem_singleton.mp hd
        obtain rfl := List.mem_singleton.mp hspan
        exact placed_of_standsAlone hread (Signature.standsAlone_of_read hread).1 _
  | @warnings u failure h hwarnings =>
      obtain ⟨-, rfl⟩ := UnionType.warnings?_eq_some_iff.mp hwarnings
      refine ⟨_, by rw [UnionType.source_of_read h], fun d hd span hspan => ?_⟩
      obtain ⟨collision, -, rfl⟩ := List.mem_map.mp hd
      rcases List.mem_cons.mp hspan with rfl | hspan
      · exact placed_placeOf h _ _
      · obtain rfl := List.mem_singleton.mp hspan
        exact placed_placeOf h _ _

/-- What is drawn about a text begins, counted in characters, where it begins counted in bytes;
except that the brackets were nested too deep, and then exactly when the text before the bracket
is ASCII. -/
theorem charsBefore_eq_iff {failure : Failure} (h : Reported context source failure) :
    ∃ diagnostics, failure = .rejected diagnostics source none ∧ ∀ d ∈ diagnostics,
      (∀ m ∈ markersOf (Page.ofText source.toList) d, ∃ span ∈ places d,
        m.start = span.start ∧ m.stop = span.stop) ∧
      ∀ span ∈ places d, (charsBefore source.toList span.start = span.start ↔
        (d.code = some "P002" → Ascii (Text.takeBytes span.start source.toList))) := by
  obtain ⟨diagnostics, hfailure, hplaced⟩ := h.placed
  refine ⟨diagnostics, hfailure, fun d hd => ⟨fun m => exists_place_of_marker, ?_⟩⟩
  exact fun span hspan => (hplaced d hd span hspan).charsBefore_iff

end

/-- The grammar refuses a letter that is not ASCII, where it stands. -/
theorem charsBefore_eq_iff_accent :
    let source := "List<é>"
    Signature.read {} source = .error ⟨.expected [.type], ⟨5, 6⟩⟩ ∧
      charsBefore source.toList 5 = 5 := by
  intro source
  have hread : Signature.read {} source = .error ⟨.expected [.type], ⟨5, 6⟩⟩ :=
    Signature.read_of_refusedWith (by decide +kernel)
  obtain ⟨diagnostics, hfailure, hall⟩ := charsBefore_eq_iff (.type hread)
  obtain rfl := (Failure.rejected.inj hfailure).1
  have hplace := (hall _ (List.mem_singleton_self _)).2 _ List.mem_cons_self
  exact ⟨hread, hplace.mpr fun hcode => absurd hcode (by decide)⟩

/-- The bracket is the fifth character, and its diagnostic is drawn at the sixth. -/
theorem tooDeep_drawn_behind :
    let context : Context := { maxDepth := 0 }
    let source := "Café<int>"
    ∃ d, UnionType.read context source = .error (.rejected [d] source none) ∧
      d.span = ⟨5, 6⟩ ∧ charsBefore source.toList d.span.start = 4 ∧
      location (Page.ofText source.toList) "<unknown>" d.span.start = "<unknown>:1:6" := by
  intro context source
  let fault : Signature.Fault := ⟨.tooDeep 0, ⟨5, 6⟩⟩
  have hread : Signature.read context source = .error fault :=
    Signature.read_of_refusedWith (by decide +kernel)
  refine ⟨fault.diagnostic, ?_, rfl, by decide, by decide +kernel⟩
  rw [UnionType.read, hread]
  rfl

end Drawing

end TypeNaming
