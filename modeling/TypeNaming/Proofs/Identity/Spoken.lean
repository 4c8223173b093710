/-
# Readable names, word by word

A readable name is spoken as a row of words.  Each word is followed by `Of` when arguments
follow it, and by `_` when they do not and other words do; a nullable value says `Nullable`
in front of the word of the value, as one word with it.  `spoken` is this row for a tree,
and `voice` is how a row sounds.

A row can be told from its sound (`voice_inj`), when its words are `Speakable`: a word goes
on to the first `_`, or to the first `Of` that is not its beginning.  So two trees have one
readable name exactly when they are spoken alike (`readable_eq_iff_spoken`), and this is all
that a readable name tells.  What it does not tell:

  * where the arguments of a type end, since nothing is said there;
  * a nullable value from a type whose own word begins with `Nullable`;
  * a tuple from a type with arguments that is called `ValueTuple`.

On trees without the last two, the number of children of each node is all that is missing
(`matches_iff_readable`).
-/
import Mathlib.Data.List.Infix
import TypeNaming.Proofs.Identity.Declaration
import TypeNaming.Proofs.Identity.Matching

namespace TypeNaming

open Text (capitalize)

/-! ## Rows of words -/

/-- The word of a node in readable names. -/
def NodeInfo.word (info : NodeInfo) : String := capitalize (ShortName.simple info.name)

/-- A word of a readable name. -/
structure Spoken where
  word : String
  /-- No arguments follow. -/
  leaf : Bool
  deriving DecidableEq, Repr

namespace Spoken

/-- The row with `lead` in front of its first word, as one word with it. -/
def under (lead : String) : List Spoken → List Spoken
  | [] => []
  | s :: row => ⟨lead ++ s.word, s.leaf⟩ :: row

/-- How a row sounds. -/
def voice : List Spoken → List Char
  | [] => []
  | s :: row =>
    s.word.toList ++
      if s.leaf then (if row.isEmpty then [] else '_' :: voice row) else 'O' :: 'f' :: voice row

/-- How a row sounds after a word without arguments. -/
def led (row : List Spoken) : List Char :=
  if row.isEmpty then [] else '_' :: voice row

theorem voice_cons (s : Spoken) (row : List Spoken) :
    voice (s :: row) = s.word.toList ++ if s.leaf then led row else 'O' :: 'f' :: voice row := rfl

theorem led_of_ne_nil {row : List Spoken} (h : row ≠ []) : led row = '_' :: voice row := by
  rw [led, if_neg (by simpa using h)]

theorem under_append {lead : String} {row : List Spoken} (h : row ≠ []) (rest : List Spoken) :
    under lead row ++ rest = under lead (row ++ rest) := by
  cases row with
  | nil => exact absurd rfl h
  | cons s row => rfl

theorem voice_under {lead : String} {row : List Spoken} (h : row ≠ []) :
    voice (under lead row) = lead.toList ++ voice row := by
  cases row with
  | nil => exact absurd rfl h
  | cons s row => rw [under, voice_cons, voice_cons, String.toList_append, List.append_assoc]

theorem under_inj {lead : String} {row row' : List Spoken} (h : under lead row = under lead row') :
    row = row' := by
  cases row with
  | nil =>
      cases row' with
      | nil => rfl
      | cons _ _ => cases h
  | cons s row =>
      cases row' with
      | nil => cases h
      | cons s' row' =>
          obtain ⟨hfirst, rfl⟩ := List.cons.inj h
          obtain ⟨hword, hleaf⟩ := Spoken.mk.inj hfirst
          obtain ⟨word, leaf⟩ := s
          obtain ⟨word', leaf'⟩ := s'
          obtain rfl : word = word' := (String.append_right_inj lead).mp hword
          obtain rfl : leaf = leaf' := hleaf
          rfl

theorem under_ne {lead word : String} (h : ¬ lead.toList <+: word.toList) {leaf : Bool}
    {row row' : List Spoken} : under lead row ≠ ⟨word, leaf⟩ :: row' := by
  intro heq
  cases row with
  | nil => cases heq
  | cons first row =>
      obtain ⟨rfl, -⟩ := Spoken.mk.inj (List.cons.inj heq).1
      exact h ⟨first.word.toList, String.toList_append.symm⟩

end Spoken

namespace NameTree

open Spoken (under voice led)

mutual

/-- The words of the readable name, in order. -/
def spoken : NameTree → List Spoken
  | .node info [] => [⟨info.word, true⟩]
  | .node info (child :: others) =>
    let below := spoken child ++ spokenAll others
    if info.kind = .nullableValue then under info.word below else ⟨info.word, false⟩ :: below

/-- The words of the readable names of a list of trees. -/
def spokenAll : List NameTree → List Spoken
  | [] => []
  | t :: ts => spoken t ++ spokenAll ts

end

theorem spoken_ne_nil : ∀ t : NameTree, t.spoken ≠ []
  | .node info [] => by simp [spoken]
  | .node info (child :: others) => by
      have hchild := spoken_ne_nil child
      rw [spoken]
      split
      · obtain ⟨s, row, hrow⟩ := List.exists_cons_of_ne_nil hchild
        simp [hrow, under]
      · exact List.cons_ne_nil _ _

theorem spokenAll_ne_nil {ts : List NameTree} (h : ts ≠ []) : spokenAll ts ≠ [] := by
  obtain ⟨t, others, rfl⟩ := List.exists_cons_of_ne_nil h
  rw [spokenAll]
  exact List.append_ne_nil_of_left_ne_nil (spoken_ne_nil t) _

theorem spoken_node_of_ne_nil {info : NodeInfo} {children : List NameTree} (h : children ≠ []) :
    spoken (.node info children) = if info.kind = .nullableValue
      then under info.word (spokenAll children) else ⟨info.word, false⟩ :: spokenAll children := by
  obtain ⟨child, others, rfl⟩ := List.exists_cons_of_ne_nil h
  rw [spoken, spokenAll]

mutual

/-- The readable name is how the tree is spoken. -/
theorem voice_spoken : ∀ (t : NameTree) (rest : List Spoken),
    voice (t.spoken ++ rest) = t.readable.toList ++ led rest
  | .node info [], rest => by
      rw [spoken, List.singleton_append, Spoken.voice_cons, if_pos rfl, readable]
      rfl
  | .node info (child :: others), rest => by
      have hbelow : voice (spokenAll (child :: others) ++ rest)
          = ("_".intercalate ((child :: others).map readable)).toList ++ led rest := by
        rw [spokenAll, List.append_assoc, voice_spoken child, led_spokenAll others,
          List.map_cons, toList_intercalate_cons, List.append_assoc]
        rfl
      have hne : spokenAll (child :: others) ≠ [] := spokenAll_ne_nil (List.cons_ne_nil _ _)
      have hreadable : readable (.node info (child :: others)) = info.word ++ linkWord info.kind ++
          "_".intercalate ((child :: others).map readable) := readable_node info _
      rw [spoken_node_of_ne_nil (List.cons_ne_nil _ _), hreadable]
      split
      · next hkind =>
          have hlink : linkWord info.kind = "" := by rw [hkind, linkWord]
          rw [Spoken.under_append hne, Spoken.voice_under (by simp [hne]), hbelow, hlink]
          simp
      · next hkind =>
          have hlink : linkWord info.kind = "Of" := by
            revert hkind
            cases info.kind <;> simp [linkWord]
          rw [List.cons_append, Spoken.voice_cons, hbelow, hlink]
          simp

theorem led_spokenAll : ∀ (ts : List NameTree) (rest : List Spoken),
    led (spokenAll ts ++ rest) = followText ['_'] (ts.map readable) ++ led rest
  | [], rest => rfl
  | t :: ts, rest => by
      rw [spokenAll, List.append_assoc,
        Spoken.led_of_ne_nil (List.append_ne_nil_of_left_ne_nil (spoken_ne_nil t) _),
        voice_spoken t, led_spokenAll ts, List.map_cons, followText, List.append_assoc]
      simp

end

theorem voice_spoken_self (t : NameTree) : voice t.spoken = t.readable.toList := by
  have h := voice_spoken t []
  rwa [List.append_nil, led, List.isEmpty_nil, if_pos rfl, List.append_nil] at h

end NameTree

/-! ## Words that can be told apart -/

/-- The text has no `Of`. -/
def Linkless (word : List Char) : Prop := ¬ ['O', 'f'] <:+: word

instance (word : List Char) : Decidable (Linkless word) :=
  inferInstanceAs (Decidable (¬ _))

theorem linkless_append {front word : List Char} (hfront : 'O' ∉ front) (h : Linkless word) :
    Linkless (front ++ word) := by
  induction front with
  | nil => exact h
  | cons c front ih =>
      intro hof
      rw [List.mem_cons, not_or] at hfront
      rcases List.infix_cons_iff.mp hof with hof | hof
      · exact hfront.1 (List.cons_prefix_cons.mp hof).1
      · exact ih hfront.2 hof

/-- The text has no `_`, and `Of` at its beginning only. -/
structure Speakable (word : List Char) : Prop where
  ne_nil : word ≠ []
  bar : '_' ∉ word
  link : Linkless word.tail

instance (word : List Char) : Decidable (Speakable word) :=
  decidable_of_iff (word ≠ [] ∧ '_' ∉ word ∧ Linkless word.tail)
    ⟨fun h => ⟨h.1, h.2.1, h.2.2⟩, fun h => ⟨h.ne_nil, h.bar, h.link⟩⟩

theorem speakable_nullable {word : List Char} (h : Speakable word) (hlink : Linkless word) :
    Speakable ("Nullable".toList ++ word) where
  ne_nil := by simp
  bar := by
    rw [List.mem_append, not_or]
    exact ⟨by decide, h.bar⟩
  link := by
    have htail : ("Nullable".toList ++ word).tail = "ullable".toList ++ word := rfl
    rw [htail]
    exact linkless_append (by decide) hlink

/-- What can stand after a word. -/
def WordEnds (rest : List Char) : Prop :=
  rest = [] ∨ (∃ more, rest = '_' :: more) ∨ ∃ more, rest = 'O' :: 'f' :: more

/-- A word that can be told does not go on into what follows it. -/
theorem Speakable.eq_nil {word more rest : List Char} (h : Speakable (word ++ more))
    (hne : word ≠ []) (hmore : WordEnds (more ++ rest)) (hrest : WordEnds rest) : more = [] := by
  cases more with
  | nil => rfl
  | cons c more =>
      rcases hmore with hnil | ⟨after, hbar⟩ | ⟨after, hof⟩
      · cases hnil
      · obtain ⟨rfl, -⟩ := List.cons.inj hbar
        exact absurd (List.mem_append_right _ List.mem_cons_self) h.bar
      · -- an `Of` that starts in the word is in it as a whole, since nothing after a word
        -- starts with `f`
        obtain ⟨rfl, hafter⟩ := List.cons.inj hof
        rcases List.append_eq_cons_iff.mp hafter with ⟨rfl, hrest'⟩ | ⟨others, rfl, -⟩
        · obtain rfl := hrest'
          rcases hrest with hnil | ⟨_, hbar⟩ | ⟨_, hof⟩
          · cases hnil
          · exact absurd (List.cons.inj hbar).1 (by decide)
          · exact absurd (List.cons.inj hof).1 (by decide)
        · obtain ⟨first, front, rfl⟩ := List.exists_cons_of_ne_nil hne
          exact absurd ⟨front, others, by simp⟩ h.link

theorem Speakable.append_inj {word word' rest rest' : List Char} (h : Speakable word)
    (h' : Speakable word') (hrest : WordEnds rest) (hrest' : WordEnds rest')
    (heq : word ++ rest = word' ++ rest') : word = word' ∧ rest = rest' := by
  rcases List.append_eq_append_iff.mp heq with ⟨more, rfl, rfl⟩ | ⟨more, rfl, rfl⟩
  · obtain rfl := h'.eq_nil h.ne_nil hrest hrest'
    exact ⟨by simp, rfl⟩
  · obtain rfl := h.eq_nil h'.ne_nil hrest' hrest
    exact ⟨by simp, rfl⟩

namespace Spoken

theorem wordEnds_led (row : List Spoken) : WordEnds (led row) := by
  rw [led]
  split
  · exact Or.inl rfl
  · exact Or.inr (Or.inl ⟨_, rfl⟩)

theorem wordEnds_after (s : Spoken) (row : List Spoken) :
    WordEnds (if s.leaf then led row else 'O' :: 'f' :: voice row) := by
  split
  · exact wordEnds_led row
  · exact Or.inr (Or.inr ⟨_, rfl⟩)

theorem led_ne_link (row : List Spoken) (more : List Char) : led row ≠ 'O' :: more := by
  rw [led]
  split <;> simp

theorem led_cases {row row' : List Spoken} (h : led row = led row') :
    (row = [] ∧ row' = []) ∨ voice row = voice row' := by
  cases row <;> cases row' <;> simp_all [led]

/-- Every word of the row can be told. -/
abbrev Clear (row : List Spoken) : Prop := ∀ s ∈ row, Speakable s.word.toList

theorem voice_ne_nil {s : Spoken} {row : List Spoken} (h : Clear (s :: row)) :
    voice (s :: row) ≠ [] := by
  rw [voice_cons]
  exact List.append_ne_nil_of_left_ne_nil (h s List.mem_cons_self).ne_nil _

/-- A row of words that can be told is known from how it sounds. -/
theorem voice_inj : ∀ {row row' : List Spoken}, Clear row → Clear row' →
    voice row = voice row' → row = row'
  | [], [], _, _, _ => rfl
  | [], _ :: _, _, h', heq => absurd heq.symm (voice_ne_nil h')
  | _ :: _, [], h, _, heq => absurd heq (voice_ne_nil h)
  | ⟨word, leaf⟩ :: row, ⟨word', leaf'⟩ :: row', h, h', heq => by
      obtain ⟨hfirst, hothers⟩ := List.forall_mem_cons.mp h
      obtain ⟨hfirst', hothers'⟩ := List.forall_mem_cons.mp h'
      rw [voice_cons, voice_cons] at heq
      obtain ⟨hword, hafter⟩ := hfirst.append_inj hfirst' (wordEnds_after _ row)
        (wordEnds_after _ row') heq
      obtain rfl : word = word' := String.toList_inj.mp hword
      have hrows : voice row = voice row' → row = row' := voice_inj hothers hothers'
      cases leaf with
      | true =>
          cases leaf' with
          | true =>
              rcases led_cases hafter with ⟨rfl, rfl⟩ | hvoice
              · rfl
              · rw [hrows hvoice]
          | false => exact absurd hafter (led_ne_link row _)
      | false =>
          cases leaf' with
          | true => exact absurd hafter.symm (led_ne_link row' _)
          | false => rw [hrows (List.cons.inj (List.cons.inj hafter).2).2]

end Spoken

namespace NameTree

open Spoken (under voice Clear)

/-- The word of the node can be told, also with `Nullable` in front of it where the node is
the value under a `?`. -/
structure Pronounced (info : NodeInfo) (children : List NameTree) : Prop where
  word : Speakable info.word.toList
  tuple : info.kind = .tuple → info.word = "ValueTuple"
  nullable : info.kind = .nullableValue →
    info.word = "Nullable" ∧ ∀ child ∈ children, Linkless child.info.word.toList

theorem spokenAll_eq_flatMap (ts : List NameTree) : spokenAll ts = ts.flatMap spoken := by
  induction ts with
  | nil => rfl
  | cons t ts ih => rw [spokenAll, ih, List.flatMap_cons]

/-- The words of a readable name can be told; the first one has no `Of` where the word of the
root has none. -/
theorem clear_spoken {t : NameTree} (h : t.Everywhere Pronounced) :
    Clear t.spoken ∧ (Linkless t.info.word.toList →
      ∀ s ∈ t.spoken.head?, Linkless s.word.toList) := by
  induction h with
  | @node info children hown _ ih =>
      have hall : Clear (spokenAll children) := by
        rw [spokenAll_eq_flatMap]
        exact List.forall_mem_flatMap.mpr fun t ht => (ih t ht).1
      cases children with
      | nil =>
          rw [spoken]
          exact ⟨by simpa [Clear] using hown.word, fun hlink => by simpa using hlink⟩
      | cons child others =>
          rw [spoken_node_of_ne_nil (List.cons_ne_nil _ _)]
          split
          · next hkind =>
              obtain ⟨hword, hchildren⟩ := hown.nullable hkind
              obtain ⟨s, row, hrow⟩ := List.exists_cons_of_ne_nil (spoken_ne_nil child)
              have hlink : Linkless s.word.toList :=
                (ih child List.mem_cons_self).2 (hchildren child List.mem_cons_self) s
                  (by rw [hrow, List.head?_cons, Option.mem_some_iff])
              rw [spokenAll, hrow, List.cons_append] at hall ⊢
              obtain ⟨hfirst, hothers⟩ := List.forall_mem_cons.mp hall
              rw [under, hword]
              refine ⟨List.forall_mem_cons.mpr ⟨?_, hothers⟩, fun _ => ?_⟩
              · rw [String.toList_append]
                exact speakable_nullable hfirst hlink
              · rw [List.head?_cons]
                rintro _ ⟨⟩
                rw [String.toList_append]
                exact linkless_append (by decide) hlink
          · exact ⟨List.forall_mem_cons.mpr ⟨hown.word, hall⟩, fun hlink => by simpa using hlink⟩

/-- Readable names are equal exactly when they are spoken alike. -/
theorem readable_eq_iff_spoken {t u : NameTree} (ht : t.Everywhere Pronounced)
    (hu : u.Everywhere Pronounced) : t.readable = u.readable ↔ t.spoken = u.spoken := by
  rw [← String.toList_inj, ← voice_spoken_self, ← voice_spoken_self]
  exact ⟨Spoken.voice_inj (clear_spoken ht).1 (clear_spoken hu).1, congrArg voice⟩

/-! ## What is missing -/

/-- The numbers of children, node by node. -/
def arities (t : NameTree) : List Nat := t.nodes.map (·.children.length)

/-- The numbers of children in a list of trees. -/
def aritiesOf (ts : List NameTree) : List Nat := (nodesOf ts).map (·.children.length)

theorem arities_node (info : NodeInfo) (children : List NameTree) :
    arities (.node info children) = children.length :: aritiesOf children := by
  rw [arities, nodes, List.map_cons, children_node, aritiesOf]

theorem aritiesOf_cons (t : NameTree) (ts : List NameTree) :
    aritiesOf (t :: ts) = arities t ++ aritiesOf ts := by
  rw [aritiesOf, nodesOf, List.map_append, arities, aritiesOf]

/-- The word of the node gives away its sort. -/
structure Told (info : NodeInfo) (children : List NameTree) : Prop where
  nullable : info.kind = .nullableValue → info.word = "Nullable"
  unprefixed : info.kind ≠ .nullableValue → ¬ "Nullable".toList <+: info.word.toList
  tuple : info.kind = .tuple ↔ info.word = "ValueTuple" ∧ children ≠ []

end NameTree

/-- The nodes have one word and are of one sort. -/
structure NodeInfo.Concurs (info info' : NodeInfo) : Prop where
  word : info.word = info'.word
  sort : info.kind.SameSort info'.kind

instance (info info' : NodeInfo) : Decidable (info.Concurs info') :=
  decidable_of_iff (info.word = info'.word ∧ (info.kind = .nullableValue ↔
      info'.kind = .nullableValue) ∧ (info.kind = .tuple ↔ info'.kind = .tuple))
    ⟨fun h => ⟨h.1, h.2.1, h.2.2⟩, fun h => ⟨h.word, h.sort.nullableValue, h.sort.tuple⟩⟩

namespace NameTree

theorem Told.nullable_iff {info : NodeInfo} {children : List NameTree} (h : Told info children) :
    info.kind = .nullableValue ↔ info.word = "Nullable" := by
  refine ⟨h.nullable, fun hword => Classical.byContradiction fun hkind => ?_⟩
  exact h.unprefixed hkind (hword ▸ List.prefix_rfl)

theorem Told.concurs {info info' : NodeInfo} {children children' : List NameTree}
    (h : Told info children) (h' : Told info' children') (hword : info.word = info'.word)
    (hlength : children.length = children'.length) : info.Concurs info' := by
  have hempty : children ≠ [] ↔ children' ≠ [] := by
    rw [← List.length_pos_iff, ← List.length_pos_iff, hlength]
  refine ⟨hword, ?_, ?_⟩
  · rw [h.nullable_iff, h'.nullable_iff, hword]
  · rw [h.tuple, h'.tuple, hword, hempty]

/-- Two nodes with children that are spoken alike have one word, and what is spoken after it
is the same. -/
theorem Told.below {info info' : NodeInfo} {children children' : List NameTree}
    (h : Told info children) (h' : Told info' children') (hne : children ≠ [])
    (hne' : children' ≠ []) {row row' : List Spoken}
    (heq : spoken (.node info children) ++ row = spoken (.node info' children') ++ row') :
    info.word = info'.word ∧ spokenAll children ++ row = spokenAll children' ++ row' := by
  rw [spoken_node_of_ne_nil hne, spoken_node_of_ne_nil hne'] at heq
  by_cases hkind : info.kind = .nullableValue
  · rw [if_pos hkind, Spoken.under_append (spokenAll_ne_nil hne), h.nullable hkind] at heq
    by_cases hkind' : info'.kind = .nullableValue
    · rw [if_pos hkind', Spoken.under_append (spokenAll_ne_nil hne'), h'.nullable hkind'] at heq
      exact ⟨(h.nullable hkind).trans (h'.nullable hkind').symm, Spoken.under_inj heq⟩
    · rw [if_neg hkind'] at heq
      exact absurd heq (Spoken.under_ne (h'.unprefixed hkind'))
  · rw [if_neg hkind] at heq
    by_cases hkind' : info'.kind = .nullableValue
    · rw [if_pos hkind', Spoken.under_append (spokenAll_ne_nil hne'), h'.nullable hkind'] at heq
      exact absurd heq.symm (Spoken.under_ne (h.unprefixed hkind))
    · rw [if_neg hkind'] at heq
      obtain ⟨hword, hbelow⟩ := List.cons.inj heq
      exact ⟨(Spoken.mk.inj hword).1, hbelow⟩

mutual

/-- The words and the numbers of children give away the tree, and where it ends. -/
theorem matches_of_spoken : ∀ {t u : NameTree}, t.Everywhere Told → u.Everywhere Told →
    ∀ {row row' : List Spoken} {counts counts' : List Nat}, t.spoken ++ row = u.spoken ++ row' →
      t.arities ++ counts = u.arities ++ counts' →
      Matches NodeInfo.Concurs t u ∧ row = row' ∧ counts = counts'
  | .node info children, .node info' children', .node h hall, .node h' hall',
      row, row', counts, counts', hspoken, harities => by
      rw [arities_node, arities_node, List.cons_append, List.cons_append] at harities
      obtain ⟨hlength, hcounts⟩ := List.cons.inj harities
      -- a leaf is one word; else the children start where the word of the node ends
      by_cases hempty : children = []
      · obtain rfl := hempty
        obtain rfl : children' = [] := List.eq_nil_of_length_eq_zero hlength.symm
        rw [spoken, spoken] at hspoken
        obtain ⟨hword, hrows⟩ := List.cons.inj hspoken
        exact ⟨⟨h.concurs h' (Spoken.mk.inj hword).1 rfl, trivial⟩, hrows, hcounts⟩
      · have hempty' : children' ≠ [] := by
          rwa [← List.length_pos_iff, ← hlength, List.length_pos_iff]
        obtain ⟨hword, hbelow⟩ := h.below h' hempty hempty' hspoken
        obtain ⟨hmatches, hrest⟩ := matchesAll_of_spoken hall hall' hlength hbelow hcounts
        exact ⟨⟨h.concurs h' hword hlength, hmatches⟩, hrest⟩

theorem matchesAll_of_spoken : ∀ {ts us : List NameTree}, (∀ t ∈ ts, t.Everywhere Told) →
    (∀ u ∈ us, u.Everywhere Told) → ts.length = us.length →
    ∀ {row row' : List Spoken} {counts counts' : List Nat},
      spokenAll ts ++ row = spokenAll us ++ row' →
      aritiesOf ts ++ counts = aritiesOf us ++ counts' →
      MatchesAll NodeInfo.Concurs ts us ∧ row = row' ∧ counts = counts'
  | [], [], _, _, _, _, _, _, _, hspoken, harities => ⟨trivial, hspoken, harities⟩
  | t :: ts, u :: us, ht, hu, hlength, row, row', counts, counts', hspoken, harities => by
      obtain ⟨hfirst, hothers⟩ := List.forall_mem_cons.mp ht
      obtain ⟨hfirst', hothers'⟩ := List.forall_mem_cons.mp hu
      rw [spokenAll, spokenAll, List.append_assoc, List.append_assoc] at hspoken
      rw [aritiesOf_cons, aritiesOf_cons, List.append_assoc, List.append_assoc] at harities
      obtain ⟨hmatches, hrows, hcounts⟩ := matches_of_spoken hfirst hfirst' hspoken harities
      obtain ⟨hall, hrest⟩ :=
        matchesAll_of_spoken hothers hothers' (Nat.succ.inj hlength) hrows hcounts
      exact ⟨⟨hmatches, hall⟩, hrest⟩

end

mutual

theorem Matches.spoken : ∀ {t u : NameTree}, Matches NodeInfo.Concurs t u → t.spoken = u.spoken
  | .node info [], .node info' [], ⟨h, _⟩ => by rw [NameTree.spoken, NameTree.spoken, h.word]
  | .node info (child :: others), .node info' (child' :: others'), ⟨h, hall⟩ => by
      rw [spoken_node_of_ne_nil (List.cons_ne_nil _ _), spoken_node_of_ne_nil (List.cons_ne_nil _ _),
        MatchesAll.spokenAll hall, h.word]
      exact if_congr h.sort.nullableValue rfl rfl

theorem MatchesAll.spokenAll : ∀ {ts us : List NameTree}, MatchesAll NodeInfo.Concurs ts us →
    NameTree.spokenAll ts = NameTree.spokenAll us
  | [], [], _ => rfl
  | _ :: _, _ :: _, ⟨h, hall⟩ => by
      rw [NameTree.spokenAll, NameTree.spokenAll, Matches.spoken h, MatchesAll.spokenAll hall]

end

mutual

theorem Matches.arities {R : NodeInfo → NodeInfo → Prop} : ∀ {t u : NameTree}, Matches R t u →
    t.arities = u.arities
  | .node _ _, .node _ _, ⟨_, hall⟩ => by
      rw [arities_node, arities_node, (matchesAll_iff.mp hall).length_eq,
        MatchesAll.aritiesOf hall]

theorem MatchesAll.aritiesOf {R : NodeInfo → NodeInfo → Prop} : ∀ {ts us : List NameTree},
    MatchesAll R ts us → NameTree.aritiesOf ts = NameTree.aritiesOf us
  | [], [], _ => rfl
  | _ :: _, _ :: _, ⟨h, hall⟩ => by
      rw [aritiesOf_cons, aritiesOf_cons, Matches.arities h, MatchesAll.aritiesOf hall]

end

/-- The readable name and the numbers of children, node by node, are all there is to a tree
whose words give away their sorts. -/
theorem matches_iff_readable {t u : NameTree} (ht : t.Everywhere Pronounced)
    (hu : u.Everywhere Pronounced) (htold : t.Everywhere Told) (htold' : u.Everywhere Told) :
    Matches NodeInfo.Concurs t u ↔ t.readable = u.readable ∧ t.arities = u.arities := by
  rw [readable_eq_iff_spoken ht hu]
  refine ⟨fun h => ⟨h.spoken, h.arities⟩, fun ⟨hspoken, harities⟩ => ?_⟩
  have hrows : t.spoken ++ [] = u.spoken ++ [] := by rw [hspoken]
  have hcounts : t.arities ++ [] = u.arities ++ [] := by rw [harities]
  exact (matches_of_spoken htold htold' hrows hcounts).1

/-! ## Words that give away their sorts -/

/-- No word begins with `Nullable` but that of a nullable value, and no type with arguments is
called `ValueTuple` but a tuple. -/
def Unmistakable (t : NameTree) : Prop :=
  ∀ node ∈ t.nodes,
    (node.kind ≠ .nullableValue → ¬ "Nullable".toList <+: node.info.word.toList) ∧
      (node.kind ≠ .tuple → node.info.word = "ValueTuple" → node.children = [])

instance (t : NameTree) : Decidable t.Unmistakable :=
  inferInstanceAs (Decidable (∀ node ∈ t.nodes, _))

theorem told_of_unmistakable {t : NameTree} (hregular : t.Regular)
    (hpronounced : t.Everywhere Pronounced) (h : t.Unmistakable) : t.Everywhere Told := by
  induction hregular with
  | @node info children hfits _ ih =>
      cases hpronounced with
      | node hown hall =>
          rw [Unmistakable, nodes] at h
          obtain ⟨⟨hunprefixed, htuple⟩, hbelow⟩ := List.forall_mem_cons.mp h
          refine .node ⟨fun hkind => (hown.nullable hkind).1, hunprefixed, ?_⟩ fun t ht => ?_
          · refine ⟨fun hkind => ⟨hown.tuple hkind, ?_⟩, fun ⟨hword, hne⟩ => ?_⟩
            · rw [Fits.eq_def, hkind] at hfits
              exact hfits
            · exact Classical.byContradiction fun hkind => hne (htuple hkind hword)
          · refine ih t ht (hall t ht) fun node hnode => hbelow node ?_
            rw [nodesOf_eq_flatMap]
            exact List.mem_flatMap.mpr ⟨t, ht, hnode⟩

end NameTree

end TypeNaming
