/-
# How far readable names are distinct

Types of different structure should have different readable names.  Where no name that was
written has `_`, `Of` or `Nullable` in it, every word of the readable name of a type that is
read can be told (`pronounced_of_read`), so two types have one readable name exactly when
they are spoken alike, and `readable_iff_of_read` says how much of their trees is then the
same.

It is not everything.  Nothing closes a list of arguments, so `(A, (B, C), D)` and
`(A, (B, C, D))` have one readable name; and a name that is written can become a word that a
tuple or a nullable value has too, which is why `ValueTuple<A, B>` is not told from `(A, B)`,
nor `nullableInt` from `int?` (`readable_not_distinct`).
-/
import TypeNaming.Proofs.Identity.Spoken
import TypeNaming.Proofs.RoundTrip.Declared

namespace TypeNaming

open Text (capitalize lastPart)

/-! ## Words of names -/

/-- The text has none of the parts that readable names have a use for. -/
def Unreserved (text : String) : Prop :=
  ∀ part ∈ ["_", "Of", "Nullable"], ¬ part.toList <:+: text.toList

instance (text : String) : Decidable (Unreserved text) :=
  inferInstanceAs (Decidable (∀ part ∈ _, _))

theorem Unreserved.piece {text name : String} (h : Unreserved text)
    (hname : name.toList <:+: text.toList) : Unreserved name :=
  fun part hpart hmem => h part hpart (hmem.trans hname)

theorem Unreserved.bar {text : String} (h : Unreserved text) : '_' ∉ text.toList := by
  intro hmem
  obtain ⟨front, back, hsplit⟩ := List.append_of_mem hmem
  exact h "_" (by simp) ⟨front, back, by simp [hsplit]⟩

theorem Unreserved.linkless {text : String} (h : Unreserved text) : Linkless text.toList :=
  h "Of" (by simp)

/-- The word of a type in readable names. -/
def Facts.word (facts : Facts) : String := capitalize (ShortName.simple facts.name)

theorem isAlpha_ascii {c : Char} (h : c.isAlpha = true) : c.toNat < 128 := by
  rcases Bool.or_eq_true_iff.mp h with hupper | hlower
  · have hcode : 65 ≤ c.val ∧ c.val ≤ 90 := of_decide_eq_true hupper
    exact Nat.lt_of_le_of_lt (UInt32.le_iff_toNat_le.mp hcode.2) (by decide)
  · have hcode : c.val ≤ 122 := of_decide_eq_true (Bool.and_eq_true_iff.mp hlower).2
    exact Nat.lt_of_le_of_lt (UInt32.le_iff_toNat_le.mp hcode) (by decide)

theorem toUpper_eq_bar {c : Char} (h : c.toNat < 128) : c.toUpper = '_' ↔ c = '_' := by
  have hascii : ∀ code < 128, (Char.ofNat code).toUpper = '_' ↔ Char.ofNat code = '_' := by decide
  simpa using hascii c.toNat h

theorem speakable_keyword : ∀ type ∈ ShortName.builtIns,
    Speakable (capitalize type.keyword).toList ∧ Linkless (capitalize type.keyword).toList := by
  decide +kernel

/-- The names that a wrapper and a tuple have are words, and can be told. -/
theorem speakable_own : ∀ name ∈ ["Nullable", "ValueTuple"],
    capitalize (ShortName.simple name) = name ∧ Speakable name.toList ∧ Linkless name.toList := by
  decide +kernel

/-- A name without `_` and `Of` becomes a word that can be told. -/
theorem speakable_word {name : String} (hname : Signature.Identifier name.toList)
    (h : Unreserved name) : Speakable (capitalize (ShortName.simple name)).toList := by
  unfold ShortName.simple
  cases hbuiltIn : ShortName.named? name with
  | some type =>
      exact (speakable_keyword type (List.mem_of_find?_eq_some hbuiltIn)).1
  | none =>
      obtain ⟨first, rest, hcs, hfirst, -⟩ := hname
      have hbar := h.bar
      have hlink := h.linkless
      rw [hcs] at hbar hlink
      rw [List.mem_cons, not_or] at hbar
      have hascii : first.toNat < 128 := by
        have halpha : first.isAlpha = true := by
          simpa [Signature.isIdentStart, Ne.symm hbar.1] using hfirst
        exact isAlpha_ascii halpha
      have hword : (capitalize name).toList = first.toUpper :: rest := by
        rw [← String.ofList_toList (s := name), hcs, Text.toList_capitalize_cons,
          Text.upperCase_ascii hascii, List.singleton_append]
      rw [Option.map_none, Option.getD_none, hword]
      refine ⟨List.cons_ne_nil _ _, ?_, fun hof => ?_⟩
      · rw [List.mem_cons, not_or]
        exact ⟨fun heq => hbar.1 ((toUpper_eq_bar hascii).mp heq.symm).symm, hbar.2⟩
      · exact hlink (hof.trans (List.suffix_cons _ _).isInfix)

/-! ## Types whose words can be told -/

namespace Signature

/-- The word of the type can be told, that of a value type also with `Nullable` in front. -/
structure PronouncedFacts (facts : Facts) (args : List (TypeFacts Unit)) : Prop where
  word : Speakable facts.word.toList
  value : facts.value = true → Linkless facts.word.toList
  tuple : facts.tuple = true → facts.word = "ValueTuple"
  nullable : (facts.annotated && facts.value) = true →
    facts.word = "Nullable" ∧ ∀ arg ∈ args, Linkless arg.facts.word.toList

/-- The words of all parts of the type can be told. -/
abbrev Pronounceable : TypeFacts Unit → Prop := TypeFacts.Everywhere PronouncedFacts

/-- A path without the parts that readable names have a use for. -/
def UnreservedPath (name : String) : Prop := IsPath name.toList ∧ Unreserved name

theorem pronounceable_nominal {name : String} (qualified : String) {value : Bool}
    {args : List (TypeFacts Unit)} (hword : Speakable (capitalize (ShortName.simple name)).toList)
    (hvalue : value = true → Linkless (capitalize (ShortName.simple name)).toList)
    (hargs : ∀ arg ∈ args, Pronounceable arg) :
    Pronounceable (nominal name qualified value args) :=
  .mk ⟨hword, hvalue, by simp, by simp⟩ hargs

theorem pronounceable_nullable {inner : TypeFacts Unit} (h : Pronounceable inner)
    (hvalue : inner.facts.value = true) : Pronounceable (nullable inner) := by
  obtain ⟨hname, hspeakable, hlink⟩ := speakable_own "Nullable" (by simp)
  have hinner : Linkless inner.facts.word.toList := by
    cases h with
    | mk hown _ => exact hown.value hvalue
  refine .mk ⟨?_, fun _ => ?_, by simp, fun _ => ⟨hname, by simpa using hinner⟩⟩ (by simpa using h)
  · rw [Facts.word, hname]
    exact hspeakable
  · rw [Facts.word, hname]
    exact hlink

theorem pronounceable_denoteMark {type : TypeFacts Unit} (h : Pronounceable type) :
    Pronounceable (denoteMark type) := by
  unfold denoteMark
  split
  · next hvalue => exact pronounceable_nullable h hvalue
  · next hvalue =>
      cases h with
      | @mk facts args _ hown hargs =>
          refine .mk ⟨hown.word, hown.value, hown.tuple, fun hnullable => ?_⟩ hargs
          exact absurd (Bool.and_eq_true_iff.mp hnullable).2 hvalue

theorem pronounceable_labelledTuple {labels : List String} {elements : List (TypeFacts Unit)}
    (h : ∀ element ∈ elements, Pronounceable element) :
    Pronounceable (labelledTuple labels elements) := by
  obtain ⟨hname, hspeakable, hlink⟩ := speakable_own "ValueTuple" (by simp)
  refine .mk ⟨?_, fun _ => ?_, fun _ => hname, by simp⟩ h
  · rw [Facts.word, hname]
    exact hspeakable
  · rw [Facts.word, hname]
    exact hlink

/-- The value types that are known without being told of have words without `Of`, when they
are written without it. -/
theorem linkless_of_namesValue {path : String} (hpath : Linkless path.toList)
    (h : namesValue {} path = true) :
    Linkless (capitalize (ShortName.simple (lastPart path))).toList := by
  have hbuiltIns : ∀ type ∈ ShortName.builtIns,
      Linkless (capitalize (ShortName.simple (lastPart ("System." ++ type.name)))).toList := by
    decide +kernel
  -- `DateTimeOffset` is one of these
  have hplain : ∀ name ∈ ShortName.plainValueTypes,
      capitalize (ShortName.simple (lastPart ("System." ++ name))) = name := by
    decide +kernel
  rcases namesValue_iff.mp h with hmem | ⟨simple, rfl, hvalue⟩
  · cases hmem
  · rcases ShortName.isSystemValue_iff.mp hvalue with ⟨type, hmem, -, rfl⟩ | hmem
    · exact hbuiltIns type hmem
    · rw [hplain simple hmem]
      rw [String.toList_append] at hpath
      exact fun hof => hpath (hof.trans (List.suffix_append _ _).isInfix)

theorem UnreservedPath.lastPart {path : String} (h : UnreservedPath path) :
    Speakable (capitalize (ShortName.simple (lastPart path))).toList :=
  speakable_word h.1.lastPart (h.2.piece (Text.lastPart_suffix path).isInfix)

theorem UnreservedPath.notWrapper {path : String} (h : UnreservedPath path) :
    ¬ IsWrapper path := by
  have hmem : "Nullable" ∈ ["_", "Of", "Nullable"] := by simp
  rintro (rfl | rfl)
  · exact h.2 _ hmem List.infix_rfl
  · exact h.2 _ hmem ⟨"System.".toList, [], by decide⟩

theorem pronounceable_denotePath {path : String} (hpath : UnreservedPath path)
    {args : List (TypeFacts Unit)} (hargs : ∀ arg ∈ args, Pronounceable arg) :
    Pronounceable (denotePath {} path args) := by
  have hown : Pronounceable (nominal (Text.lastPart path) path (namesValue {} path) args) :=
    pronounceable_nominal path hpath.lastPart (linkless_of_namesValue hpath.2.linkless) hargs
  unfold denotePath
  rw [if_neg (by simp)]
  split
  · next type htype =>
      have hkeyword : ∀ type ∈ ShortName.builtIns,
          Speakable (capitalize (ShortName.simple type.name)).toList ∧
            Linkless (capitalize (ShortName.simple type.name)).toList := by decide +kernel
      obtain ⟨hword, hlink⟩ := hkeyword type (List.mem_of_find?_eq_some htype)
      exact pronounceable_nominal _ hword (fun _ => hlink) (by simp)
  · rw [if_neg hpath.notWrapper]
    exact hown
  · exact hown

/-- What a derivable type denotes has words that can be told, without the parts that readable
names have a use for. -/
theorem kept_pronounceable : Kept {} UnreservedPath Pronounceable where
  path hpath hargs := pronounceable_denotePath hpath hargs
  mark htype := pronounceable_denoteMark htype
  tuple _ htypes _ := pronounceable_labelledTuple (List.forall_mem_map.mpr htypes)

theorem Cut.called_unreserved {text : String} (h : Unreserved text) {lexemes : List Lexeme}
    (hcut : Cut text.toList lexemes) : Called UnreservedPath lexemes :=
  fun _ hmem => ⟨hcut.isPath hmem, h.piece (hcut.infix_of_path hmem)⟩

/-! ## Trees whose words can be told -/

theorem word_toNameTree (type : TypeFacts Unit) : type.toNameTree.info.word = type.facts.word := by
  obtain ⟨facts, args, note⟩ := type
  obtain ⟨marks, children, heq, -⟩ := TypeFacts.toNameTree_eq_node facts args note
  rw [heq]
  rfl

theorem word_of_isPart {facts : Facts} {args : List (TypeFacts Unit)} {t : NameTree}
    (h : TypeFacts.IsPart facts args t) : ∃ arg ∈ args, t.info.word = arg.facts.word := by
  obtain ⟨arg, hmem, rfl | ⟨label, -, rfl⟩⟩ := h
  · exact ⟨arg, hmem, word_toNameTree arg⟩
  · refine ⟨arg, hmem, Eq.trans ?_ (word_toNameTree arg)⟩
    cases arg.toNameTree
    rfl

theorem pronounced_of_pronounceable {type : TypeFacts Unit} (h : Pronounceable type) :
    type.toNameTree.Everywhere NameTree.Pronounced := by
  refine h.toNameTree ?_ ?_
  · intro facts args marks children hown hchildren
    refine ⟨hown.word, fun hkind => hown.tuple (TypeFacts.tuple_of_kindOf hkind),
      fun hkind => ?_⟩
    obtain ⟨hword, hargs⟩ := hown.nullable (TypeFacts.kindOf_eq_nullableValue_iff.mp hkind)
    refine ⟨hword, fun child hmem => ?_⟩
    obtain ⟨arg, harg, hsame⟩ := word_of_isPart (hchildren child hmem)
    rw [hsame]
    exact hargs arg harg
  · intro facts args label info children _ _ hinfo
    exact ⟨hinfo.word, hinfo.tuple, hinfo.nullable⟩

theorem pronounced_of_read {source : String} (hsource : Unreserved source)
    {signature : Signature} (h : read {} source = .ok signature) :
    signature.toNameTree.Everywhere NameTree.Pronounced := by
  have hpronounceable := kept_pronounceable.read h (Cut.called_unreserved hsource)
  rw [← TypeFacts.toNameTree_bare]
  exact pronounced_of_pronounceable hpronounceable

/-! ## Readable names of types that are read -/

open NameTree (Matches)

/-- Two types that are read, without `_`, `Of` and `Nullable` in what is written, have one
readable name exactly when they are spoken alike.  When their words give away their sorts,
they have one shape, and the same word and sort at every position, exactly when they have one
readable name and the same numbers of arguments. -/
theorem readable_iff_of_read {source source' : String} (hsource : Unreserved source)
    (hsource' : Unreserved source') {signature signature' : Signature}
    (h : read {} source = .ok signature) (h' : read {} source' = .ok signature') :
    (signature.toNameTree.readable = signature'.toNameTree.readable ↔
        signature.toNameTree.spoken = signature'.toNameTree.spoken) ∧
      (signature.toNameTree.Unmistakable → signature'.toNameTree.Unmistakable →
        (Matches NodeInfo.Concurs signature.toNameTree signature'.toNameTree ↔
          signature.toNameTree.readable = signature'.toNameTree.readable ∧
            signature.toNameTree.arities = signature'.toNameTree.arities)) := by
  have hpronounced := pronounced_of_read hsource h
  have hpronounced' := pronounced_of_read hsource' h'
  refine ⟨NameTree.readable_eq_iff_spoken hpronounced hpronounced', fun hclear hclear' => ?_⟩
  exact NameTree.matches_iff_readable hpronounced hpronounced'
    (NameTree.told_of_unmistakable (regular_of_read rfl h) hpronounced hclear)
    (NameTree.told_of_unmistakable (regular_of_read rfl h') hpronounced' hclear')

/-- Namespaces, labels and the `?` of references are ignored. -/
theorem readable_iff_of_read_labels :
    let source := "Map<List<int?>, (A, string)>"
    let source' := "N.Map<X.List<System.Int32 ?>, (A First, System.String? Second)>"
    Unreserved source ∧ Unreserved source' ∧
      ∃ signature signature', read {} source = .ok signature ∧ read {} source' = .ok signature' ∧
        signature.toNameTree.readable = "MapOfListOfNullableInt_ValueTupleOfA_String" ∧
        signature.toNameTree.spoken = signature'.toNameTree.spoken ∧
        Matches NodeInfo.Concurs signature.toNameTree signature'.toNameTree := by
  intro source source'
  have hclear : Unreserved source ∧ Unreserved source' := by decide +kernel
  let test (signature : Signature) : Bool :=
    decide (signature.toNameTree.readable = "MapOfListOfNullableInt_ValueTupleOfA_String") &&
      decide (signature.toNameTree.arities = [2, 1, 1, 0, 2, 0, 0]) &&
      decide signature.toNameTree.Unmistakable
  have hreads : readsAs {} source test = true ∧ readsAs {} source' test = true := by
    decide +kernel
  obtain ⟨signature, hread, h⟩ := exists_of_readsAs hreads.1
  obtain ⟨signature', hread', h'⟩ := exists_of_readsAs hreads.2
  simp only [test, Bool.and_eq_true, decide_eq_true_eq] at h h'
  obtain ⟨⟨hreadable, harities⟩, htold⟩ := h
  obtain ⟨⟨hreadable', harities'⟩, htold'⟩ := h'
  have hsame := hreadable.trans hreadable'.symm
  obtain ⟨hspoken, hmatches⟩ := readable_iff_of_read hclear.1 hclear.2 hread hread'
  exact ⟨hclear.1, hclear.2, signature, signature', hread, hread', hreadable, hspoken.mp hsame,
    (hmatches htold htold').mpr ⟨hsame, harities.trans harities'.symm⟩⟩

/-- The texts are read as types with one readable name and trees that do not match. -/
def Indistinct (source source' : String) : Prop :=
  Unreserved source ∧ Unreserved source' ∧
    ∃ signature signature', read {} source = .ok signature ∧ read {} source' = .ok signature' ∧
      signature.toNameTree.readable = signature'.toNameTree.readable ∧
      ¬ Matches NodeInfo.Concurs signature.toNameTree signature'.toNameTree

/-- Whether the texts are read as types with one readable name and roots that do not match. -/
def readsIndistinct (source source' : String) : Bool :=
  match read {} source, read {} source' with
  | .ok signature, .ok signature' =>
    let t := signature.toNameTree
    let u := signature'.toNameTree
    decide (Unreserved source) && decide (Unreserved source') &&
      decide (t.readable = u.readable) &&
      !decide (t.info.Concurs u.info ∧ t.children.length = u.children.length)
  | _, _ => false

theorem indistinct_of_reads {source source' : String} (h : readsIndistinct source source' = true) :
    Indistinct source source' := by
  unfold readsIndistinct at h
  split at h
  · next signature signature' hread hread' =>
      simp only [Bool.and_eq_true, decide_eq_true_eq, Bool.not_eq_true', decide_eq_false_iff_not]
        at h
      obtain ⟨⟨⟨hsource, hsource'⟩, hsame⟩, hroots⟩ := h
      exact ⟨hsource, hsource', signature, signature', hread, hread', hsame,
        fun hmatches => hroots hmatches.root⟩
  · cases h

/-- The end of a list of arguments is not told, nor a tuple from a type that is called like
one, nor a nullable value from a type whose name begins like that of one. -/
theorem readable_not_distinct :
    Indistinct "(A, (B, C), D)" "(A, (B, C, D))" ∧ Indistinct "ValueTuple<A, B>" "(A, B)" ∧
      Indistinct "nullableInt" "int?" :=
  ⟨indistinct_of_reads (by decide +kernel), indistinct_of_reads (by decide +kernel),
    indistinct_of_reads (by decide +kernel)⟩

end Signature

end TypeNaming
