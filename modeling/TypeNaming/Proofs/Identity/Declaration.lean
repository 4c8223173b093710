/-
# Reading a declaration back

A declaration without nullable values gives away its tree.  It is read from left to right:
a name has no delimiter in it, so it ends where the first one stands (`Clean.append_inj`);
the delimiter says of which kind the node is; and what follows a whole declaration is a
closing bracket or a separator, which no declaration goes on with (`Ended`).  So of two
declarations that begin one text, the trees are alike, and both end at one place
(`alike_of_declaration`).

A nullable value has to be left out: its declaration does not show what it wraps.
-/
import TypeNaming.Proofs.Identity.Reuse

namespace TypeNaming

open Text (capitalize lastPart)

namespace NameTree

/-! ## Where a name ends -/

/-- The characters that stand around the names in a hint. -/
def delimiters : List Char := ['<', '>', '(', ')', ',', '?', ' ', '_']

/-- No character of the text is a delimiter. -/
def Clean (text : List Char) : Prop :=
  ∀ c ∈ text, c ∉ delimiters

instance (text : List Char) : Decidable (Clean text) :=
  List.decidableBAll (fun c => c ∉ delimiters) text

theorem isAlphanum_delimiter {c : Char} (h : c ∈ delimiters) : c.isAlphanum = false := by
  have hall : delimiters.all (fun c => !c.isAlphanum) = true := by decide
  simpa using List.all_eq_true.mp hall c h

/-- The text is empty or begins with a delimiter. -/
def Delimited (text : List Char) : Prop :=
  ∀ c, text.head? = some c → c ∈ delimiters

/-- The text is empty or begins with a delimiter that goes on with no declaration. -/
def Ended (text : List Char) : Prop :=
  ∀ c, text.head? = some c → c ∈ ['>', ')', ',', '_']

theorem Ended.delimited {text : List Char} (h : Ended text) : Delimited text := by
  intro c hc
  have hsub : ['>', ')', ',', '_'] ⊆ delimiters := by decide
  exact hsub (h c hc)

theorem delimited_cons {c : Char} {text : List Char} (h : c ∈ delimiters) :
    Delimited (c :: text) := by
  intro d hd
  exact Option.some.inj hd ▸ h

theorem ended_cons {c : Char} {text : List Char} (h : c ∈ ['>', ')', ',', '_']) :
    Ended (c :: text) := by
  intro d hd
  exact Option.some.inj hd ▸ h

/-- A name ends where the first delimiter stands. -/
theorem Clean.append_inj : ∀ {name name' rest rest' : List Char}, Clean name → Clean name' →
    Delimited rest → Delimited rest' → name ++ rest = name' ++ rest' →
      name = name' ∧ rest = rest'
  | [], [], _, _, _, _, _, _, h => ⟨rfl, h⟩
  | [], c :: name', rest, rest', _, hname', hrest, _, h => by
      have hc : rest.head? = some c := by
        rw [List.nil_append] at h
        rw [h]
        rfl
      exact absurd (hrest c hc) (hname' c List.mem_cons_self)
  | c :: name, [], rest, rest', hname, _, _, hrest', h => by
      have hc : rest'.head? = some c := by
        rw [List.nil_append] at h
        rw [← h]
        rfl
      exact absurd (hrest' c hc) (hname c List.mem_cons_self)
  | c :: name, d :: name', rest, rest', hname, hname', hrest, hrest', h => by
      obtain ⟨rfl, htails⟩ := List.cons.inj h
      have hnames := Clean.append_inj (fun e he => hname e (List.mem_cons_of_mem _ he))
        (fun e he => hname' e (List.mem_cons_of_mem _ he)) hrest hrest' htails
      exact ⟨congrArg _ hnames.1, hnames.2⟩

/-! ## The parts of a declaration -/

/-- The label as it follows an element. -/
def labelText : Option String → List Char
  | none => []
  | some label => ' ' :: label.toList

/-- The name that the declaration of the node begins with; that of a tuple has none. -/
def leadText (info : NodeInfo) : List Char :=
  if info.kind = .tuple then [] else (ShortName.qualified info.qualified).toList

/-- The texts, each after the separator. -/
def followText (separator : List Char) : List String → List Char
  | [] => []
  | text :: texts => separator ++ text.toList ++ followText separator texts

/-- The bracket before the children. -/
def opener : Kind → Char
  | .tuple => '('
  | _ => '<'

/-- What follows the name: the children in their brackets, or the `?` of a reference. -/
def tailText (kind : Kind) : List NameTree → List Char
  | [] => if kind.onReference then ['?'] else []
  | child :: others =>
    opener kind :: child.declaration.toList ++
      followText [',', ' '] (others.map declaration) ++ [closer kind]

theorem toList_intercalate_cons (separator text : String) (texts : List String) :
    (separator.intercalate (text :: texts)).toList
      = text.toList ++ followText separator.toList texts := by
  induction texts generalizing text with
  | nil => simp [followText]
  | cons next texts ih =>
      rw [String.intercalate_cons_cons, followText]
      simp only [String.toList_append, List.append_assoc, ih next]

theorem toList_suffix (label : Option String) :
    (LabelStyle.suffix .shown label).toList = labelText label := by
  cases label with
  | none => rfl
  | some label => simp [LabelStyle.suffix, labelText]

/-- The declaration of a node that is no nullable value. -/
theorem toList_declaration {info : NodeInfo} {children : List NameTree}
    (h : Fits info.qualified children info.kind) (hkind : info.kind ≠ .nullableValue) :
    (declaration (.node info children)).toList
      = leadText info ++ tailText info.kind children ++ labelText info.label := by
  obtain ⟨name, qualified, kind, label, marks⟩ := info
  have hall (ts : List NameTree) : declareAll .shown ts = ts.map declaration :=
    declareAll_eq_map .shown ts
  cases kind with
  | nullableValue => exact absurd rfl hkind
  | plain nullable =>
      obtain rfl := h.1
      cases nullable with
      | false =>
          show (ShortName.qualified qualified ++ LabelStyle.suffix .shown label).toList = _
          simp [toList_suffix, leadText, tailText, Kind.onReference]
      | true =>
          show (ShortName.qualified qualified ++ "?" ++ LabelStyle.suffix .shown label).toList = _
          simp [toList_suffix, leadText, tailText, Kind.onReference]
  | generic nullable =>
      obtain ⟨child, others, rfl⟩ := List.exists_cons_of_ne_nil h
      show (ShortName.qualified qualified ++ "<" ++
        ", ".intercalate (declaration child :: declareAll .shown others) ++ ">" ++
        LabelStyle.suffix .shown label).toList = _
      rw [hall]
      simp only [String.toList_append, toList_intercalate_cons, toList_suffix]
      simp [leadText, tailText, opener, closer]
  | tuple =>
      obtain ⟨child, others, rfl⟩ := List.exists_cons_of_ne_nil h
      show ("(" ++ ", ".intercalate (declaration child :: declareAll .shown others) ++ ")" ++
        LabelStyle.suffix .shown label).toList = _
      rw [hall]
      simp only [String.toList_append, toList_intercalate_cons, toList_suffix]
      simp [leadText, tailText, opener, closer]

/-! ## Reading a declaration -/

/-- The simple name goes with the qualified one, and names and labels have no delimiter. -/
structure Spelled (info : NodeInfo) : Prop where
  label : ∀ label, info.label = some label → Clean label.toList
  tuple : info.kind = .tuple → info.name = "ValueTuple"
  name : info.kind ≠ .tuple → info.kind ≠ .nullableValue →
    info.name = lastPart info.qualified ∧ Clean info.qualified.toList ∧
      ShortName.qualified info.qualified ≠ ""

/-- The node is no nullable value, and its declaration can be read. -/
structure Plainly (info : NodeInfo) (children : List NameTree) : Prop extends Spelled info where
  fits : Fits info.qualified children info.kind
  value : info.kind ≠ .nullableValue

theorem plainly_of_regular {t : NameTree} (hregular : t.Regular)
    (hspelled : t.Everywhere fun info _ => Spelled info)
    (hvalue : ∀ node ∈ t.nodes, node.kind ≠ .nullableValue) : t.Everywhere Plainly := by
  induction hregular with
  | @node info children hfits _ ih =>
      cases hspelled with
      | node hown hchildren =>
          rw [nodes] at hvalue
          obtain ⟨hroot, hbelow⟩ := List.forall_mem_cons.mp hvalue
          refine .node ⟨hown, hfits, hroot⟩ fun t ht => ?_
          refine ih t ht (hchildren t ht) fun node hnode => hbelow node ?_
          rw [nodesOf_eq_flatMap]
          exact List.mem_flatMap.mpr ⟨t, ht, hnode⟩

theorem clean_qualified {name : String} (h : Clean name.toList) :
    Clean (ShortName.qualified name).toList := by
  intro c hc hmem
  have halpha : c.isAlpha = false := (Bool.or_eq_false_iff.mp (isAlphanum_delimiter hmem)).1
  exact ShortName.qualified_avoids halpha (fun hname => h c hname hmem) hc

theorem Plainly.leaf_ne_tuple {info : NodeInfo} (h : Plainly info []) : info.kind ≠ .tuple := by
  intro htuple
  have hfits := h.fits
  rw [htuple] at hfits
  exact hfits rfl

theorem Plainly.clean_lead {info : NodeInfo} {children : List NameTree}
    (h : Plainly info children) : Clean (leadText info) := by
  unfold leadText
  split
  · intro c hc
    cases hc
  · next htuple => exact clean_qualified (h.name htuple h.value).2.1

theorem delimited_labelText {label : Option String} {rest : List Char} (hrest : Ended rest) :
    Delimited (labelText label ++ rest) := by
  cases label with
  | none => exact hrest.delimited
  | some label => exact delimited_cons (by decide)

/-- A label ends where the text goes on. -/
theorem labelText_append_inj {label label' : Option String} {rest rest' : List Char}
    (hlabel : ∀ text, label = some text → Clean text.toList)
    (hlabel' : ∀ text, label' = some text → Clean text.toList)
    (hrest : Ended rest) (hrest' : Ended rest')
    (h : labelText label ++ rest = labelText label' ++ rest') : rest = rest' := by
  cases label with
  | none =>
      cases label' with
      | none => exact h
      | some text' =>
          have hspace : ' ' ∈ ['>', ')', ',', '_'] := hrest ' ' (by
            have hrest : rest = ' ' :: (text'.toList ++ rest') := h
            rw [hrest]
            rfl)
          exact absurd hspace (by decide)
  | some text =>
      cases label' with
      | none =>
          have hspace : ' ' ∈ ['>', ')', ',', '_'] := hrest' ' ' (by
            have hrest : ' ' :: (text.toList ++ rest) = rest' := h
            rw [← hrest]
            rfl)
          exact absurd hspace (by decide)
      | some text' =>
          have htexts : text.toList ++ rest = text'.toList ++ rest' := (List.cons.inj h).2
          exact ((hlabel text rfl).append_inj (hlabel' text' rfl) hrest.delimited
            hrest'.delimited htexts).2

theorem closer_ended {kind : Kind} (h : kind ≠ .nullableValue) :
    closer kind ∈ ['>', ')'] := by
  cases kind with
  | nullableValue => exact absurd rfl h
  | plain nullable => exact List.mem_cons_self
  | generic nullable => exact List.mem_cons_self
  | tuple => exact List.mem_cons_of_mem _ List.mem_cons_self

theorem opener_eq_paren_iff {kind : Kind} : opener kind = '(' ↔ kind = .tuple := by
  cases kind <;> simp [opener]

theorem opener_delimiter (kind : Kind) : opener kind ∈ delimiters := by
  have hopeners : '<' ∈ delimiters ∧ '(' ∈ delimiters := by decide
  cases kind with
  | tuple => exact hopeners.2
  | _ => exact hopeners.1

theorem delimited_tailText (kind : Kind) (children : List NameTree) {label : Option String}
    {rest : List Char} (hrest : Ended rest) :
    Delimited (tailText kind children ++ (labelText label ++ rest)) := by
  cases children with
  | nil =>
      rw [tailText]
      cases kind.onReference with
      | true => exact delimited_cons (by decide)
      | false => exact delimited_labelText hrest
  | cons child others => exact delimited_cons (opener_delimiter kind)

theorem head?_labelText {label : Option String} {rest : List Char} (hrest : Ended rest) {c : Char}
    (h : (labelText label ++ rest).head? = some c) : c ∈ [' ', '>', ')', ',', '_'] := by
  cases label with
  | none => exact List.mem_cons_of_mem _ (hrest c h)
  | some label =>
      obtain rfl : ' ' = c := Option.some.inj h
      exact List.mem_cons_self

/-- A node without children is not followed by an opening bracket. -/
theorem leaf_ne_branch {kind kind' : Kind} {label label' : Option String} {rest rest' : List Char}
    {child : NameTree} {others : List NameTree} (hrest : Ended rest) :
    tailText kind [] ++ (labelText label ++ rest)
      ≠ tailText kind' (child :: others) ++ (labelText label' ++ rest') := by
  intro h
  have hopener : opener kind' ∈ ['?', ' ', '>', ')', ',', '_'] := by
    have hhead := congrArg List.head? h
    rw [tailText] at hhead
    cases hmark : kind.onReference with
    | true =>
        rw [hmark] at hhead
        exact Option.some.inj hhead ▸ List.mem_cons_self
    | false =>
        rw [hmark] at hhead
        exact List.mem_cons_of_mem _ (head?_labelText hrest hhead)
  cases kind' <;> simp [opener] at hopener

theorem leaf_append_inj {kind kind' : Kind} {label label' : Option String}
    {rest rest' : List Char} (hlabel : ∀ text, label = some text → Clean text.toList)
    (hlabel' : ∀ text, label' = some text → Clean text.toList)
    (hrest : Ended rest) (hrest' : Ended rest')
    (h : tailText kind [] ++ (labelText label ++ rest)
      = tailText kind' [] ++ (labelText label' ++ rest')) :
    kind.onReference = kind'.onReference ∧ rest = rest' := by
  rw [tailText, tailText] at h
  cases hmark : kind.onReference with
  | true =>
      cases hmark' : kind'.onReference with
      | true =>
          rw [hmark, hmark'] at h
          exact ⟨rfl, labelText_append_inj hlabel hlabel' hrest hrest' (List.cons.inj h).2⟩
      | false =>
          rw [hmark, hmark'] at h
          have hquestion := head?_labelText hrest' (congrArg List.head? h).symm
          exact absurd hquestion (by decide)
  | false =>
      cases hmark' : kind'.onReference with
      | true =>
          rw [hmark, hmark'] at h
          have hquestion := head?_labelText hrest (congrArg List.head? h)
          exact absurd hquestion (by decide)
      | false =>
          rw [hmark, hmark'] at h
          exact ⟨rfl, labelText_append_inj hlabel hlabel' hrest hrest' h⟩

/-- The nodes agree when their leads do. -/
theorem Plainly.alike {info info' : NodeInfo} {children children' : List NameTree} {leaf : Prop}
    (h : Plainly info children) (h' : Plainly info' children')
    (htuple : info.kind = .tuple ↔ info'.kind = .tuple) (hlead : leadText info = leadText info')
    (hmark : leaf → info.kind.onReference = info'.kind.onReference) : info.Alike info' leaf := by
  have hshort (hkind : info.kind ≠ .tuple) :
      ShortName.qualified info.qualified = ShortName.qualified info'.qualified := by
    have hkind' : info'.kind ≠ .tuple := mt htuple.mpr hkind
    rw [leadText, leadText, if_neg hkind, if_neg hkind'] at hlead
    exact String.toList_inj.mp hlead
  have hword : capitalize (ShortName.simple info.name)
      = capitalize (ShortName.simple info'.name) := by
    by_cases hkind : info.kind = .tuple
    · rw [h.tuple hkind, h'.tuple (htuple.mp hkind)]
    · obtain ⟨hname, hclean, -⟩ := h.name hkind h.value
      obtain ⟨hname', hclean', -⟩ := h'.name (mt htuple.mpr hkind) h'.value
      have hmarkless : '?' ∉ info.qualified.toList := fun hmem => hclean '?' hmem (by decide)
      have hmarkless' : '?' ∉ info'.qualified.toList := fun hmem => hclean' '?' hmem (by decide)
      rw [hname, hname', ← ShortName.simple_lastPart_qualified hmarkless,
        ← ShortName.simple_lastPart_qualified hmarkless', hshort hkind]
  exact ⟨⟨by simp [h.value, h'.value], htuple⟩, hword, hshort, hmark⟩

theorem ended_followText {separator : List Char}
    (hseparator : separator = [',', ' '] ∨ separator = ['_']) (texts : List String) {c : Char}
    (hc : c ∈ ['>', ')']) (rest : List Char) :
    Ended (followText separator texts ++ c :: rest) := by
  cases texts with
  | nil =>
      have hsub : ['>', ')'] ⊆ ['>', ')', ',', '_'] := by decide
      exact ended_cons (hsub hc)
  | cons text texts =>
      rcases hseparator with rfl | rfl
      · exact ended_cons (by decide)
      · exact ended_cons (by decide)

theorem separator_ne_closer {separator : List Char}
    (hseparator : separator = [',', ' '] ∨ separator = ['_']) {text : String}
    {texts : List String} {c : Char} (hc : c ∈ ['>', ')']) {rest rest' : List Char} :
    followText separator (text :: texts) ++ rest ≠ c :: rest' := by
  intro h
  rcases hseparator with rfl | rfl
  · obtain rfl := (List.cons.inj h).1
    exact absurd hc (by decide)
  · obtain rfl := (List.cons.inj h).1
    exact absurd hc (by decide)

mutual

/-- A declaration gives away its tree, and where it ends. -/
theorem alike_of_declaration : ∀ {t u : NameTree}, t.Everywhere Plainly → u.Everywhere Plainly →
    ∀ {rest rest' : List Char}, Ended rest → Ended rest' →
      t.declaration.toList ++ rest = u.declaration.toList ++ rest' → Alike t u ∧ rest = rest'
  | .node info children, .node info' children', .node h hchildren, .node h' hchildren',
      rest, rest', hrest, hrest', heq => by
      rw [toList_declaration h.fits h.value, toList_declaration h'.fits h'.value] at heq
      simp only [List.append_assoc] at heq
      obtain ⟨hlead, htail⟩ := h.clean_lead.append_inj h'.clean_lead
        (delimited_tailText _ _ hrest) (delimited_tailText _ _ hrest') heq
      match children, children' with
      | [], [] =>
          obtain ⟨hmark, hends⟩ := leaf_append_inj h.label h'.label hrest hrest' htail
          have htuple := iff_of_false h.leaf_ne_tuple h'.leaf_ne_tuple
          exact ⟨⟨h.alike h' htuple hlead fun _ => hmark, trivial⟩, hends⟩
      | [], child' :: others' => exact absurd htail (leaf_ne_branch hrest)
      | child :: others, [] => exact absurd htail.symm (leaf_ne_branch hrest')
      | child :: others, child' :: others' =>
          obtain ⟨hchild, hothers⟩ := List.forall_mem_cons.mp hchildren
          obtain ⟨hchild', hothers'⟩ := List.forall_mem_cons.mp hchildren'
          rw [tailText, tailText] at htail
          simp only [List.cons_append, List.append_assoc, List.nil_append] at htail
          obtain ⟨hopener, hinside⟩ := List.cons.inj htail
          have htuple : info.kind = .tuple ↔ info'.kind = .tuple := by
            rw [← opener_eq_paren_iff, hopener, opener_eq_paren_iff]
          obtain ⟨hfirst, hfollow⟩ := alike_of_declaration hchild hchild'
            (ended_followText (Or.inl rfl) _ (closer_ended h.value) _)
            (ended_followText (Or.inl rfl) _ (closer_ended h'.value) _) hinside
          obtain ⟨hall, hlabels⟩ := alikeAll_of_followText (Or.inl rfl) hothers hothers'
            (closer_ended h.value) (closer_ended h'.value) hfollow
          exact ⟨⟨h.alike h' htuple hlead (fun hnil => absurd hnil (List.cons_ne_nil _ _)),
            hfirst, hall⟩, labelText_append_inj h.label h'.label hrest hrest' hlabels⟩

theorem alikeAll_of_followText : ∀ {separator : List Char},
    separator = [',', ' '] ∨ separator = ['_'] → ∀ {ts us : List NameTree},
    (∀ t ∈ ts, t.Everywhere Plainly) → (∀ u ∈ us, u.Everywhere Plainly) →
    ∀ {c c' : Char} {rest rest' : List Char}, c ∈ ['>', ')'] → c' ∈ ['>', ')'] →
      followText separator (ts.map declaration) ++ c :: rest
          = followText separator (us.map declaration) ++ c' :: rest' →
        AlikeAll ts us ∧ rest = rest'
  | _, _, [], [], _, _, _, _, _, _, _, _, heq => ⟨trivial, (List.cons.inj heq).2⟩
  | _, hseparator, [], _ :: _, _, _, _, _, _, _, hc, _, heq =>
      absurd heq.symm (separator_ne_closer hseparator hc)
  | _, hseparator, _ :: _, [], _, _, _, _, _, _, _, hc', heq =>
      absurd heq (separator_ne_closer hseparator hc')
  | separator, hseparator, t :: ts, u :: us, ht, hu, c, c', rest, rest', hc, hc', heq => by
      obtain ⟨hfirst, hothers⟩ := List.forall_mem_cons.mp ht
      obtain ⟨hfirst', hothers'⟩ := List.forall_mem_cons.mp hu
      simp only [List.map_cons, followText, List.append_assoc] at heq
      obtain ⟨halike, hfollow⟩ := alike_of_declaration hfirst hfirst'
        (ended_followText hseparator _ hc rest) (ended_followText hseparator _ hc' rest')
        (List.append_cancel_left heq)
      obtain ⟨hall, hends⟩ := alikeAll_of_followText hseparator hothers hothers' hc hc' hfollow
      exact ⟨⟨halike, hall⟩, hends⟩

end

end NameTree

end TypeNaming
