/-
# Which fault is reported

A text is refused with one diagnostic, and `Reports` is what the diagnostic says for each of
the stages of reading: that the text is nested too deep, which part is missing in it, or what
is wrong at the first of the sites that are faulty.  What it points at is more than a range
inside the text: the type, the `?` or the label that is faulty stands there
(`Faulty.standsAt`).
-/
import TypeNaming.Proofs.Grammar.Sites
import TypeNaming.Proofs.Grammar.Stages
import TypeNaming.UnionType

namespace TypeNaming.Signature

/-! ## Where the parts stand -/

/-- The element is among the tokens: its type is spelled by some of them, and its label is
one of them. -/
def Element.StandsIn (row : List Token) : Element → Prop
  | .mk type label => SpelledIn row type ∧
      ∀ own, label = some own → ⟨.path own.text, own.span⟩ ∈ row

/-- What can be pointed at for the site is among the tokens. -/
def Site.StandsIn (row : List Token) : Site → Prop
  | .path name args span => SpelledIn row (.named name args span none)
  | .mark _ place => ⟨.question, place⟩ ∈ row
  | .label _ own => ⟨.path own.text, own.span⟩ ∈ row

theorem SpellsElement.label_mem {tokens : List Token} {next : Nat} {type : TypeExpr}
    {label : Label} (h : SpellsElement tokens next (.mk type (some label))) :
    ⟨.path label.text, label.span⟩ ∈ tokens := by
  cases h with
  | labelled => exact List.mem_append_right _ (List.mem_singleton_self _)

theorem SpellsElements.label_mem : ∀ {tokens : List Token} {next : Nat} {elements : List Element},
    SpellsElements tokens next elements → ∀ {type : TypeExpr} {label : Label},
      .mk type (some label) ∈ elements → ⟨.path label.text, label.span⟩ ∈ tokens
  | _, _, _, .one h, _, _, hmem => by
      obtain rfl := List.mem_singleton.mp hmem
      exact h.label_mem
  | _, _, _, .more comma h hothers, _, _, hmem => by
      rcases List.mem_cons.mp hmem with rfl | hmem
      · exact List.mem_append_left _ h.label_mem
      · exact List.mem_append_right _ (List.mem_cons_of_mem _ (hothers.label_mem hmem))

theorem SpelledIn.mark_mem {row : List Token} {type : TypeExpr} {place : Span}
    (h : SpelledIn row type) (hmark : type.mark = some place) : ⟨.question, place⟩ ∈ row := by
  obtain ⟨before, own, token, after, rfl, hspells⟩ := h
  obtain ⟨own, rfl, -⟩ := hspells.base hmark
  simp

theorem SpelledIn.element {row : List Token} {elements : List Element} {span : Span}
    {mark : Option Span} (h : SpelledIn row (.tuple elements span mark)) :
    ∀ element ∈ elements, element.StandsIn row := by
  rintro ⟨type, label⟩ hmem
  refine ⟨h.part (List.mem_map_of_mem hmem), ?_⟩
  rintro own rfl
  obtain ⟨before, _, token, after, rfl, hspells⟩ := h
  cases hspells with
  | tuple opening closing _ _ helements _ =>
      have hlabel := helements.label_mem hmem
      simp [hlabel]

theorem markSites_stand {row : List Token} {base : TypeExpr} {mark : Option Span}
    (h : ∀ place, mark = some place → ⟨.question, place⟩ ∈ row) :
    ∀ site ∈ markSites base mark, site.StandsIn row := by
  cases mark with
  | none => exact List.forall_mem_nil _
  | some place => exact List.forall_mem_singleton.mpr (h place rfl)

mutual

/-- Every site of a type that is spelled among the tokens is among them. -/
theorem TypeExpr.sites_stand {row : List Token} : ∀ expr : TypeExpr, SpelledIn row expr →
    ∀ site ∈ expr.sites, site.StandsIn row
  | .named path args span mark, h => by
      rw [TypeExpr.sites]
      have hbase : SpelledIn row (.named path args span none) := by
        cases mark with
        | none => exact h
        | some place => exact h.base rfl
      refine List.forall_mem_append.mpr
        ⟨TypeExpr.sitesOf_stand args fun arg harg => h.part harg, ?_⟩
      exact List.forall_mem_cons.mpr ⟨hbase, markSites_stand fun place => h.mark_mem⟩
  | .tuple elements span mark, h => by
      rw [TypeExpr.sites]
      exact List.forall_mem_append.mpr ⟨Element.sitesOf_stand [] elements h.element,
        markSites_stand fun place => h.mark_mem⟩

theorem TypeExpr.sitesOf_stand {row : List Token} : ∀ exprs : List TypeExpr,
    (∀ expr ∈ exprs, SpelledIn row expr) → ∀ site ∈ TypeExpr.sitesOf exprs, site.StandsIn row
  | [], _ => List.forall_mem_nil _
  | expr :: exprs, h => by
      rw [TypeExpr.sitesOf]
      obtain ⟨hfirst, hothers⟩ := List.forall_mem_cons.mp h
      exact List.forall_mem_append.mpr
        ⟨TypeExpr.sites_stand expr hfirst, TypeExpr.sitesOf_stand exprs hothers⟩

theorem Element.sitesOf_stand {row : List Token} (before : List Element) :
    ∀ elements : List Element, (∀ element ∈ elements, element.StandsIn row) →
      ∀ site ∈ Element.sitesOf before elements, site.StandsIn row
  | [], _ => List.forall_mem_nil _
  | .mk type label :: elements, h => by
      rw [Element.sitesOf]
      obtain ⟨⟨htype, hlabel⟩, hothers⟩ := List.forall_mem_cons.mp h
      refine List.forall_mem_append.mpr ⟨TypeExpr.sites_stand type htype, ?_⟩
      refine List.forall_mem_append.mpr ⟨?_, Element.sitesOf_stand _ elements hothers⟩
      cases label with
      | none => exact List.forall_mem_nil _
      | some own => exact List.forall_mem_singleton.mpr (hlabel own rfl)

end

/-- The lexeme is the piece of a text, with no blanks around it. -/
inductive Lexeme.SpelledAs : Lexeme → List Char → Prop
  | sign {c : Char} {lexeme : Lexeme} : Punctuation c lexeme → SpelledAs lexeme [c]
  | path (cs : List Char) : SpelledAs (.path (String.ofList cs)) cs

theorem Lexeme.SpelledAs.eq_question {piece : List Char} (h : Lexeme.question.SpelledAs piece) :
    piece = ['?'] := by
  cases h with
  | sign hc =>
      cases hc
      rfl

theorem Lexeme.SpelledAs.eq_path {text : String} {piece : List Char}
    (h : (Lexeme.path text).SpelledAs piece) : String.ofList piece = text := by
  cases h with
  | sign hc => cases hc
  | path => rfl

/-- Every token of a text but the last stands in it. -/
theorem Scans.exists_token {pos : Nat} {text : List Char} {row : List Token}
    (h : Scans pos text row) : ∀ {token : Token}, token ∈ row → token.lexeme ≠ .done →
      ∃ front piece back, text = front ++ piece ++ back ∧
        pos + Text.byteLength front = token.span.start ∧
        token.span.start + Text.byteLength piece = token.span.stop ∧
        token.lexeme.SpelledAs piece := by
  induction h with
  | done pos =>
      intro token hmem hdone
      obtain rfl := List.mem_singleton.mp hmem
      exact absurd rfl hdone
  | @blank pos c rest row _ _ ih =>
      intro token hmem hdone
      obtain ⟨front, piece, back, rfl, hstart, hpiece⟩ := ih hmem hdone
      refine ⟨c :: front, piece, back, rfl, ?_, hpiece⟩
      rw [← hstart, Text.byteLength, Nat.add_assoc]
  | @mark pos c lexeme rest row hc _ ih =>
      intro token hmem hdone
      rcases List.mem_cons.mp hmem with rfl | hmem
      · exact ⟨[], [c], rest, rfl, rfl, rfl, .sign hc⟩
      · obtain ⟨front, piece, back, rfl, hstart, hpiece⟩ := ih hmem hdone
        refine ⟨c :: front, piece, back, rfl, ?_, hpiece⟩
        rw [← hstart, Text.byteLength, Nat.add_assoc]
  | @path pos cs rest row _ _ _ ih =>
      intro token hmem hdone
      rcases List.mem_cons.mp hmem with rfl | hmem
      · exact ⟨[], cs, rest, rfl, rfl, rfl, .path cs⟩
      · obtain ⟨front, piece, back, rfl, hstart, hpiece⟩ := ih hmem hdone
        refine ⟨cs ++ front, piece, back, by simp, ?_, hpiece⟩
        rw [← hstart, Text.byteLength_append, Nat.add_assoc]

/-- The piece of a text is the part. -/
def Subject.WrittenAs (piece : List Char) : Subject → Prop
  | .type expr => ∃ lexemes, Cut piece lexemes ∧ Derives expr.written lexemes
  | .mark _ => piece = ['?']
  | .label own => String.ofList piece = own.text

/-- What stands in the text at the range is the part. -/
def Subject.StandsAt (text : List Char) (span : Span) (subject : Subject) : Prop :=
  ∃ front piece back, text = front ++ piece ++ back ∧ Text.byteLength front = span.start ∧
    span.start + Text.byteLength piece = span.stop ∧ subject.WrittenAs piece

theorem Subject.StandsAt.inside {text : List Char} {span : Span} {subject : Subject}
    (h : subject.StandsAt text span) :
    span.start ≤ span.stop ∧ span.stop ≤ Text.byteLength text := by
  obtain ⟨front, piece, back, rfl, hstart, hstop, -⟩ := h
  simp only [Text.byteLength_append]
  omega

theorem SpelledIn.standsAt {text : List Char} {row : List Token} {expr : TypeExpr}
    (hscans : Scans 0 text row) (h : SpelledIn row expr) :
    (Subject.type expr).StandsAt text expr.place := by
  obtain ⟨front, piece, back, own, htext, hstart, hstop, hpiece, hspells⟩ := hscans.exists_piece h
  obtain ⟨own, hparse, hmoved⟩ := parse_piece hpiece hspells
  obtain ⟨lexemes, hcut, hderives⟩ := derives_of_parse hparse
  rw [← TypeExpr.written_shift expr.place.start, hmoved] at hderives
  rw [Nat.zero_add] at hstart
  exact ⟨front, piece, back, htext, hstart, hstop, lexemes, hcut, hderives⟩

/-- A part that is one token stands where the token does. -/
theorem Scans.standsAt {text : List Char} {row : List Token} (hscans : Scans 0 text row)
    {token : Token} (hmem : token ∈ row) (hdone : token.lexeme ≠ .done) {subject : Subject}
    (hwritten : ∀ piece, token.lexeme.SpelledAs piece → subject.WrittenAs piece) :
    subject.StandsAt text token.span := by
  obtain ⟨front, piece, back, htext, hstart, hstop, hpiece⟩ := hscans.exists_token hmem hdone
  rw [Nat.zero_add] at hstart
  exact ⟨front, piece, back, htext, hstart, hstop, hwritten piece hpiece⟩

/-- What a fault of a site points at stands where the fault says. -/
theorem Faulty.standsAt {context : Context} {source text : List Char} {row : List Token}
    {site : Site} {code : String} {cause : Cause} {subject : Subject}
    (h : Faulty context source site code cause subject) (hscans : Scans 0 text row)
    (hsite : site.StandsIn row) :
    subject.StandsAt text subject.span := by
  cases h with
  | parameter | keyword | arity => exact SpelledIn.standsAt hscans hsite
  | argument =>
      exact SpelledIn.standsAt hscans (SpelledIn.part hsite (List.mem_singleton_self _))
  | mark => exact hscans.standsAt hsite (by simp) fun piece hpiece => hpiece.eq_question
  | repeated | misplaced =>
      exact hscans.standsAt hsite (by simp) fun piece hpiece => hpiece.eq_path

/-! ## The diagnostic -/

/-- The diagnostic says what is wrong with the text: the first of the three stages that finds
something decides, and the last stage reports the first of the sites that are faulty. -/
structure Reports (context : Context) (source : String) (d : Diagnostic) : Prop where
  severity : d.severity = .error
  inside : d.span.start ≤ d.span.stop ∧ d.span.stop ≤ Text.byteLength source.toList
  tooDeep : d.code = some "P002" ↔ ¬ WithinDepth context.maxDepth source.toList
  grammar : WithinDepth context.maxDepth source.toList →
    ((∃ parts, parts ≠ [] ∧ d.code = some "P001" ∧ d.message = (Cause.expected parts).message) ↔
      ¬ ∃ tree, Accepts source.toList tree)
  meaning : WithinDepth context.maxDepth source.toList → ∀ tree, Accepts source.toList tree →
    ∃ expr, parse source.toList = .ok expr ∧ expr.written.tree = tree ∧
      (∃ code cause subject,
        FirstFaulty context source.toList expr.sites code cause subject) ∧
      ∀ code cause subject, FirstFaulty context source.toList expr.sites code cause subject →
        d.code = some code ∧ d.message = cause.message ∧ d.advice = cause.advice.toList ∧
          d.span = subject.span ∧ subject.StandsAt source.toList d.span

section

variable {context : Context} {source : String} {fault : Fault}

theorem code_diagnostic_iff {code : String} :
    fault.diagnostic.code = some code ↔ fault.cause.code = code :=
  Option.some_inj

theorem reports_of_depthGuard (h : depthGuard context.maxDepth source.toList = .error fault) :
    Reports context source fault.diagnostic := by
  have hdeep : ¬ WithinDepth context.maxDepth source.toList := by
    rw [← depthGuard_eq_ok_iff, h]
    simp
  obtain ⟨front, bracket, back, htext, -, rfl⟩ := exists_firstTooDeep h
  exact {
    severity := rfl
    inside := by
      show Text.byteLength front ≤ Text.byteLength (front ++ [bracket]) ∧
        Text.byteLength (front ++ [bracket]) ≤ _
      rw [htext, List.append_cons front bracket back]
      simp only [Text.byteLength_append]
      omega
    tooDeep := iff_of_true rfl hdeep
    grammar := fun hwithin => absurd hwithin hdeep
    meaning := fun hwithin => absurd hwithin hdeep }

theorem not_accepts_of_parse {text : List Char} {missed : Missed}
    (h : parse text = .error missed) : ¬ ∃ tree, Accepts text tree := by
  rintro ⟨tree, htree⟩
  obtain ⟨expr, hparse, -⟩ := parse_iff_accepts.mpr htree
  rw [h] at hparse
  cases hparse

theorem reports_of_missed {missed : Missed}
    (hwithin : WithinDepth context.maxDepth source.toList)
    (h : parse source.toList = .error missed) :
    Reports context source (missed.fault source.toList).diagnostic := by
  obtain ⟨hstart, hparts⟩ := missed_of_parse h
  have hrejected := not_accepts_of_parse h
  exact {
    severity := rfl
    inside := by
      show missed.start ≤ min (missed.start + 1) _ ∧ min (missed.start + 1) _ ≤ _
      omega
    tooDeep := by
      rw [code_diagnostic_iff]
      exact iff_of_false (by simp [Missed.fault, Cause.code]) (not_not_intro hwithin)
    grammar := fun _ => iff_of_true ⟨missed.parts, hparts, rfl, rfl⟩ hrejected
    meaning := fun _ tree htree => absurd ⟨tree, htree⟩ hrejected }

theorem Faulty.code_ne {text : List Char} {site : Site} {code : String} {cause : Cause}
    {subject : Subject} (h : Faulty context text site code cause subject) : code ≠ "P002" := by
  cases h <;> decide

theorem head?_append {lead : String} (h : lead.toList ≠ []) (rest : String) :
    (lead ++ rest).toList.head? = lead.toList.head? := by
  rw [String.toList_append, List.head?_append, List.head?_eq_some_head h]
  rfl

/-- The two causes that have a code in common are worded differently. -/
theorem message_argumentsOn_ne (path : String) (parts : List Part) :
    (Cause.argumentsOn path).message ≠ (Cause.expected parts).message := by
  have hquoted : (Cause.argumentsOn path).message = "`" ++ (path ++ "` takes no type arguments") :=
    String.append_assoc ..
  intro heq
  have hexpected : (Cause.expected parts).message.toList.head? = "expected ".toList.head? :=
    head?_append (by decide) _
  rw [← heq, hquoted, head?_append (by decide)] at hexpected
  exact absurd hexpected (by decide)

theorem Faulty.message_ne {text : List Char} {site : Site} {code : String} {cause : Cause}
    {subject : Subject} (h : Faulty context text site code cause subject) (hcode : code = "P001")
    (parts : List Part) : cause.message ≠ (Cause.expected parts).message := by
  cases h with
  | parameter | keyword => exact message_argumentsOn_ne _ parts
  | arity | argument | mark | repeated | misplaced => exact absurd hcode (by decide)

theorem reports_of_meaning {expr : TypeExpr}
    (hwithin : WithinDepth context.maxDepth source.toList)
    (hparse : parse source.toList = .ok expr)
    (h : meaning context source.toList expr = .error fault) :
    Reports context source fault.diagnostic := by
  have hchecks := meaning_checks context source.toList expr
  rw [h] at hchecks
  obtain ⟨code, subject, hfirst, hspan⟩ := hchecks
  obtain ⟨before, site, after, hsites, -, hfaulty⟩ := id hfirst
  have hcode := hfaulty.code_eq
  obtain ⟨lexemes, hcut, -⟩ := derives_of_parse hparse
  obtain ⟨inside, stop, htokens, hspells⟩ := spells_of_parse hparse
  have hspelled : SpelledIn (tokens source.toList) expr := ⟨[], inside, _, [], htokens, hspells⟩
  have hstands : subject.StandsAt source.toList fault.span := by
    rw [hspan]
    exact hfaulty.standsAt (hcut.scans 0) (expr.sites_stand hspelled site (by simp [hsites]))
  exact {
    severity := rfl
    inside := hstands.inside
    tooDeep := by
      rw [code_diagnostic_iff, hcode]
      exact iff_of_false hfaulty.code_ne (not_not_intro hwithin)
    grammar := fun _ => by
      refine iff_of_false ?_ (not_not_intro ⟨_, parse_iff_accepts.mp ⟨expr, hparse, rfl⟩⟩)
      rintro ⟨parts, -, hsyntax, hmessage⟩
      rw [code_diagnostic_iff, hcode] at hsyntax
      exact hfaulty.message_ne hsyntax parts hmessage
    meaning := fun _ tree htree => by
      obtain ⟨other, hother, rfl⟩ := parse_iff_accepts.mpr htree
      obtain rfl := Except.ok.inj (hparse.symm.trans hother)
      refine ⟨expr, hparse, rfl, ⟨code, _, subject, hfirst⟩, ?_⟩
      intro code' cause' subject' hfirst'
      obtain ⟨rfl, rfl, rfl⟩ := hfirst.unique hfirst'
      exact ⟨code_diagnostic_iff.mpr hcode, rfl, rfl, hspan, hstands⟩ }

theorem reports_of_read (h : read context source = .error fault) :
    Reports context source fault.diagnostic := by
  rcases read_eq_error_iff.mp h with hdepth | ⟨hwithin, ⟨missed, hparse, rfl⟩ |
    ⟨expr, hparse, hmeaning⟩⟩
  · exact reports_of_depthGuard hdepth
  · exact reports_of_missed hwithin hparse
  · exact reports_of_meaning hwithin hparse hmeaning

/-- Every stage refuses what it finds something wrong with. -/
theorem refused_iff : (∃ fault, read context source = .error fault) ↔
    ¬ WithinDepth context.maxDepth source.toList ∨ (¬ ∃ tree, Accepts source.toList tree) ∨
      ∃ expr, parse source.toList = .ok expr ∧
        ∃ site ∈ expr.sites, ¬ site.Sound context source.toList := by
  simp only [read_eq_error_iff]
  constructor
  · rintro ⟨fault, hguard | ⟨-, ⟨missed, hparse, -⟩ | ⟨expr, hparse, hmeaning⟩⟩⟩
    · exact .inl fun hwithin => by simp [depthGuard_eq_ok_iff.mpr hwithin] at hguard
    · exact .inr (.inl (not_accepts_of_parse hparse))
    · refine .inr (.inr ⟨expr, hparse, ?_⟩)
      have hagrees := meaning_agrees context source.toList expr
      rw [hmeaning] at hagrees
      exact (violation_iff_faulty expr).mp hagrees
  · intro h
    by_cases hwithin : WithinDepth context.maxDepth source.toList
    case neg =>
        obtain ⟨fault, hguard⟩ := exists_fault_of_not_withinDepth hwithin
        exact ⟨fault, .inl hguard⟩
    cases hparse : parse source.toList with
    | error missed => exact ⟨_, .inr ⟨hwithin, .inl ⟨missed, rfl, rfl⟩⟩⟩
    | ok expr =>
        rcases h with hdeep | hrejected | ⟨other, hother, hfaulty⟩
        · exact absurd hwithin hdeep
        · exact absurd ⟨_, parse_iff_accepts.mp ⟨expr, hparse, rfl⟩⟩ hrejected
        · obtain rfl := Except.ok.inj (hparse.symm.trans hother)
          have hagrees := meaning_agrees context source.toList expr
          cases hmeaning : meaning context source.toList expr with
          | error fault => exact ⟨fault, .inr ⟨hwithin, .inr ⟨expr, rfl, hmeaning⟩⟩⟩
          | ok signature =>
              rw [hmeaning] at hagrees
              exact absurd ((violation_iff_faulty expr).mpr hfaulty) hagrees.1

/-- A text is refused when one of the stages finds something wrong with it, and then with one
diagnostic that says what. -/
theorem fault_of_read (context : Context) (source : String) :
    ((∃ fault, read context source = .error fault) ↔
      ¬ WithinDepth context.maxDepth source.toList ∨ (¬ ∃ tree, Accepts source.toList tree) ∨
        ∃ expr, parse source.toList = .ok expr ∧
          ∃ site ∈ expr.sites, ¬ site.Sound context source.toList) ∧
    ∀ fault, read context source = .error fault →
      ∃ d, fault.failure source = .rejected [d] source none ∧
        UnionType.read context source = .error (.rejected [d] source none) ∧
        Reports context source d := by
  refine ⟨refused_iff, fun fault h => ⟨fault.diagnostic, rfl, ?_, reports_of_read h⟩⟩
  rw [UnionType.read, h]
  rfl

end

/-- Whether the text is refused with the fault. -/
def refusedWith (context : Context) (source : String) (fault : Fault) : Bool :=
  match read context source with
  | .ok _ => false
  | .error found => decide (found = fault)

theorem read_of_refusedWith {context : Context} {source : String} {fault : Fault}
    (h : refusedWith context source fault = true) : read context source = .error fault := by
  unfold refusedWith at h
  split at h
  · cases h
  · next found hread => rw [hread, of_decide_eq_true h]

/-- Four things are wrong, and the `?` on the second type is the first of them. -/
theorem fault_of_read_second :
    let source := "(int A, Nullable<int>? A, string<int> Item1)"
    ∃ d, UnionType.read {} source = .error (.rejected [d] source none) ∧
      Reports {} source d ∧ d.code = some "P003" ∧ d.span = ⟨21, 22⟩ := by
  intro source
  have hread : read {} source = .error ⟨.alreadyNullable, ⟨21, 22⟩⟩ :=
    read_of_refusedWith (by decide +kernel)
  obtain ⟨d, hfailure, hunion, hreports⟩ := (fault_of_read {} source).2 _ hread
  obtain rfl := List.singleton_inj.mp (Failure.rejected.inj hfailure).1
  exact ⟨_, hunion, hreports, rfl, rfl⟩

end TypeNaming.Signature
