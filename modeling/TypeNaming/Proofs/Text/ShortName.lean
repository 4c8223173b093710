/-
# Characters of short names

A character in the short form of a qualified name that is no letter says that the name
itself has it: the table and the namespace that is left out add none.  A `?` at the end is
not lost either, and what does not end in a dot is not lost altogether.  Without `?`, the
short form is read by the same word as the name (`simple_lastPart_qualified`).
-/
import TypeNaming.ShortName
import TypeNaming.Proofs.Text.Dotted

namespace TypeNaming

namespace Text

theorem lastPart_suffix (name : String) : (lastPart name).toList <:+ name.toList := by
  unfold lastPart
  split
  · next front back h =>
      obtain ⟨h, -⟩ := (splitLast_eq_some_iff _).mp h
      rw [String.toList_ofList, h]
      exact ⟨front ++ ['.'], by simp⟩
  · exact List.suffix_rfl

theorem getLast?_lastPart {name : String} {c : Char} (h : name.toList.getLast? = some c)
    (hc : c ≠ '.') : (lastPart name).toList.getLast? = some c := by
  unfold lastPart
  split
  · next front back hsplit =>
      obtain ⟨hname, -⟩ := (splitLast_eq_some_iff _).mp hsplit
      rw [hname] at h
      rw [String.toList_ofList]
      cases back with
      | nil =>
          have : c = '.' := by simpa using h.symm
          exact absurd this hc
      | cons d back => simpa using h
  · exact h

theorem lastPart_of_undotted {name : String} (h : '.' ∉ name.toList) : lastPart name = name := by
  rw [lastPart, splitLast_eq_none_iff.mpr h]

theorem lastPart_append_dot (front : String) {back : String} (h : '.' ∉ back.toList) :
    lastPart (front ++ "." ++ back) = back := by
  have hsplit : splitLast '.' (front ++ "." ++ back).toList
      = some (front.toList, back.toList) := by
    refine (splitLast_eq_some_iff _).mpr ⟨?_, h⟩
    simp
  rw [lastPart, hsplit]
  exact String.ofList_toList

/-- A name is its last part, or has the last part after a dot. -/
theorem lastPart_cases (name : String) : '.' ∉ (lastPart name).toList ∧
    (name = lastPart name ∨ ∃ front, name = front ++ "." ++ lastPart name) := by
  unfold lastPart
  split
  · next front back h =>
      obtain ⟨hname, hback⟩ := (splitLast_eq_some_iff _).mp h
      rw [String.toList_ofList]
      refine ⟨hback, Or.inr ⟨String.ofList front, String.toList_inj.mp ?_⟩⟩
      rw [hname]
      simp
  · next h => exact ⟨splitLast_eq_none_iff.mp h, Or.inl rfl⟩

/-- A `?` at the end of a name is at the end of its last part. -/
theorem lastPart_append_mark (name : String) : lastPart (name ++ "?") = lastPart name ++ "?" := by
  obtain ⟨hundotted, hname | ⟨front, hname⟩⟩ := lastPart_cases name
  · have hmarked : '.' ∉ (name ++ "?").toList := by
      rw [← hname] at hundotted
      simpa using hundotted
    rw [lastPart_of_undotted hmarked, ← hname]
  · have hmarked : '.' ∉ (lastPart name ++ "?").toList := by simpa using hundotted
    have hwhole : name ++ "?" = front ++ "." ++ (lastPart name ++ "?") := by
      conv_lhs => rw [hname]
      simp only [String.append_assoc]
    rw [hwhole, lastPart_append_dot front hmarked]

theorem lastPart_lastPart (name : String) : lastPart (lastPart name) = lastPart name :=
  lastPart_of_undotted (lastPart_cases name).1

/-- What stands before a dot has no part in the last part. -/
theorem lastPart_after (front rest : String) :
    lastPart (front ++ "." ++ rest) = lastPart rest := by
  obtain ⟨hundotted, hrest | ⟨more, hrest⟩⟩ := lastPart_cases rest
  · rw [← hrest] at hundotted
    rw [lastPart_append_dot front hundotted]
    exact hrest
  · have hwhole : front ++ "." ++ rest = front ++ "." ++ more ++ "." ++ lastPart rest := by
      conv_lhs => rw [hrest]
      simp only [String.append_assoc]
    rw [hwhole, lastPart_append_dot _ hundotted]

end Text

namespace ShortName

open Text (after? lastPart)

/-! ## Characters that a name does not have -/

theorem named?_eq_some {name : String} {type : BuiltIn} (h : named? name = some type) :
    type ∈ builtIns ∧ type.name = name := by
  have := List.find?_some h
  exact ⟨List.mem_of_find?_eq_some h, by simpa using this⟩

theorem builtIn_unmarked : ∀ type ∈ builtIns, '?' ∉ type.name.toList := by
  decide

theorem keyword_isAlpha : ∀ type ∈ builtIns, type.keyword.toList.all Char.isAlpha = true := by
  decide

theorem keyword_avoids {c : Char} (hc : c.isAlpha = false) {type : BuiltIn}
    (h : type ∈ builtIns) : c ∉ type.keyword.toList := by
  intro hmem
  rw [List.all_eq_true.mp (keyword_isAlpha type h) c hmem] at hc
  cases hc

theorem spelling?_avoids {c : Char} (hc : c.isAlpha = false) {rest text : String}
    (h : spelling? rest = some text) (hrest : c ∉ rest.toList) : c ∉ text.toList := by
  unfold spelling? at h
  split at h
  · next type htype =>
      obtain rfl := Option.some.inj h
      exact keyword_avoids hc (named?_eq_some htype).1
  · obtain ⟨type, htype, rfl⟩ := Option.map_eq_some_iff.mp h
    have hname : type.name ++ "?" = rest := by
      have := List.find?_some htype
      simp at this
      exact this.2
    have hkeyword := keyword_avoids hc (List.mem_of_find?_eq_some htype)
    intro hmem
    have hmem : c ∈ type.keyword.toList ∨ c = '?' := by simpa using hmem
    rcases hmem with hmem | rfl
    · exact hkeyword hmem
    · exact hrest (by simp [← hname])

/-- The short form adds no character to a name, letters apart. -/
theorem qualified_avoids {c : Char} (hc : c.isAlpha = false) {name : String}
    (h : c ∉ name.toList) : c ∉ (qualified name).toList := by
  unfold qualified
  split
  · next rest hrest =>
      obtain rfl := Text.after?_eq_some_iff.mp hrest
      have hrest : c ∉ rest.toList := by
        intro hmem
        exact h (by simp [hmem])
      cases hspelling : spelling? rest with
      | some text => exact spelling?_avoids hc hspelling hrest
      | none => exact fun hmem => hrest ((Text.lastPart_suffix rest).subset hmem)
  · exact h

/-! ## Names that end in a question mark -/

theorem getLast?_of_rootLead {rest : String} {c : Char}
    (h : (rootLead ++ rest).toList.getLast? = some c) (hc : c ≠ '.') :
    rest.toList.getLast? = some c := by
  rw [String.toList_append] at h
  cases hrest : rest.toList with
  | nil =>
      rw [hrest] at h
      exact absurd (Option.some.inj h).symm hc
  | cons d ds => simpa [hrest] using h

theorem spelling?_marked {rest text : String} (h : spelling? rest = some text)
    (hrest : rest.toList.getLast? = some '?') : text.toList.getLast? = some '?' := by
  unfold spelling? at h
  split at h
  · next type htype =>
      obtain ⟨hmem, rfl⟩ := named?_eq_some htype
      exact absurd (List.mem_of_getLast? hrest) (builtIn_unmarked type hmem)
  · obtain ⟨type, -, rfl⟩ := Option.map_eq_some_iff.mp h
    simp

theorem qualified_marked {name : String} (h : name.toList.getLast? = some '?') :
    (qualified name).toList.getLast? = some '?' := by
  unfold qualified
  split
  · next rest hrest =>
      obtain rfl := Text.after?_eq_some_iff.mp hrest
      have hrest := getLast?_of_rootLead h (by decide)
      cases hspelling : spelling? rest with
      | some text => exact spelling?_marked hspelling hrest
      | none => exact Text.getLast?_lastPart hrest (by decide)
  · exact h

/-! ## Names that do not vanish -/

theorem keyword_ne_empty : ∀ type ∈ builtIns, type.keyword ≠ "" := by
  decide

theorem spelling?_ne_empty {rest text : String} (h : spelling? rest = some text) : text ≠ "" := by
  unfold spelling? at h
  split at h
  · next type htype =>
      obtain rfl := Option.some.inj h
      exact keyword_ne_empty type (named?_eq_some htype).1
  · obtain ⟨type, -, rfl⟩ := Option.map_eq_some_iff.mp h
    simp

/-- The short form of a name is empty only where the name ends in a dot, or is empty. -/
theorem qualified_ne_empty {name : String} {c : Char} (h : name.toList.getLast? = some c)
    (hc : c ≠ '.') : qualified name ≠ "" := by
  unfold qualified
  split
  · next rest hrest =>
      obtain rfl := Text.after?_eq_some_iff.mp hrest
      cases hspelling : spelling? rest with
      | some text => exact spelling?_ne_empty hspelling
      | none =>
          intro hempty
          have hlast := Text.getLast?_lastPart (getLast?_of_rootLead h hc) hc
          rw [show lastPart rest = "" from hempty] at hlast
          cases hlast
  · intro hempty
    rw [hempty] at h
    cases h

/-! ## The word of a name -/

theorem named?_keyword : ∀ type ∈ builtIns, named? type.keyword = none := by
  decide

theorem builtIn_undotted : ∀ type ∈ builtIns, '.' ∉ type.name.toList := by
  decide

/-- A spelling without `?` is a keyword. -/
theorem exists_keyword_of_spelling {rest text : String} (h : spelling? rest = some text)
    (hrest : '?' ∉ rest.toList) : ∃ type, named? rest = some type ∧ type.keyword = text := by
  unfold spelling? at h
  split at h
  · next type htype => exact ⟨type, htype, Option.some.inj h⟩
  · obtain ⟨type, htype, rfl⟩ := Option.map_eq_some_iff.mp h
    have hname : type.name ++ "?" = rest := by
      have := List.find?_some htype
      simp at this
      exact this.2
    exact absurd (by simp [← hname]) hrest

/-- A spelling without `?` is the word of its type. -/
theorem word_of_spelling {rest text : String} (h : spelling? rest = some text)
    (hrest : '?' ∉ rest.toList) : simple (lastPart text) = simple (lastPart rest) := by
  obtain ⟨type, htype, rfl⟩ := exists_keyword_of_spelling h hrest
  obtain ⟨hmem, rfl⟩ := named?_eq_some htype
  have hkeyword : '.' ∉ type.keyword.toList := keyword_avoids (by decide) hmem
  rw [Text.lastPart_of_undotted hkeyword, Text.lastPart_of_undotted (builtIn_undotted type hmem),
    simple, simple, named?_keyword type hmem, htype]
  rfl

/-- The short form of a name has the word that the name is read by. -/
theorem simple_lastPart_qualified {name : String} (h : '?' ∉ name.toList) :
    simple (lastPart (qualified name)) = simple (lastPart name) := by
  unfold qualified
  split
  · next rest hrest =>
      obtain rfl := Text.after?_eq_some_iff.mp hrest
      have hrest : '?' ∉ rest.toList := by
        intro hmem
        exact h (by simp [hmem])
      have hlast : lastPart (rootLead ++ rest) = lastPart rest := Text.lastPart_after "System" rest
      rw [hlast]
      cases hspelling : spelling? rest with
      | none => exact congrArg simple (Text.lastPart_lastPart rest)
      | some text => exact word_of_spelling hspelling hrest
  · rfl

/-! ## Names under a mark -/

theorem spelling?_builtIn_marked : ∀ type ∈ builtIns, type.name ≠ "Object" →
    spelling? (type.name ++ "?") = some (type.keyword ++ "?") := by
  decide

/-- Every keyword but `object` is shown with its `?`. -/
theorem spelling?_append_mark {rest : String} (h : '?' ∉ rest.toList) (hobject : rest ≠ "Object") :
    spelling? (rest ++ "?") = (spelling? rest).map (· ++ "?") := by
  cases hnamed : named? rest with
  | some type =>
      obtain ⟨hmem, rfl⟩ := named?_eq_some hnamed
      rw [spelling?_builtIn_marked type hmem hobject, spelling?, hnamed]
      rfl
  | none =>
      have hmarked : named? (rest ++ "?") = none := by
        refine Option.eq_none_iff_forall_ne_some.mpr fun type htype => ?_
        obtain ⟨hmem, hname⟩ := named?_eq_some htype
        exact builtIn_unmarked type hmem (by simp [hname])
      have hnone : (builtIns.find? fun type => type.hasNullable && type.name ++ "?" == rest)
          = none := by
        refine List.find?_eq_none.mpr fun type _ htype => ?_
        have hname : type.name ++ "?" = rest := by
          simp only [Bool.and_eq_true, beq_iff_eq] at htype
          exact htype.2
        exact h (by simp [← hname])
      have hnone' : (builtIns.find? fun type => type.hasNullable && type.name ++ "?" == rest ++ "?")
          = none := by
        refine List.find?_eq_none.mpr fun type hmem htype => ?_
        have hname : type.name = rest := by
          simp only [Bool.and_eq_true, beq_iff_eq] at htype
          simpa using htype.2
        have hfound := List.find?_eq_none.mp hnamed type hmem
        simp [hname] at hfound
      rw [spelling?, hmarked, spelling?, hnamed, hnone, hnone']
      rfl

theorem after?_append_mark {lead name : String} (hlead : '?' ∉ lead.toList) :
    after? lead (name ++ "?") = (after? lead name).map (· ++ "?") := by
  cases h : after? lead name with
  | some rest =>
      obtain rfl := Text.after?_eq_some_iff.mp h
      exact Text.after?_eq_some_iff.mpr (String.append_assoc)
  | none =>
      refine Text.after?_eq_none_iff.mpr fun rest hrest => ?_
      have hlist : name.toList ++ ['?'] = lead.toList ++ rest.toList := by
        simpa using congrArg String.toList hrest
      rcases List.eq_nil_or_concat rest.toList with hnil | ⟨front, last, hfront⟩
      · rw [hnil, List.append_nil] at hlist
        exact hlead (hlist ▸ by simp)
      · rw [hfront, List.concat_eq_append, ← List.append_assoc] at hlist
        have hname := (List.append_inj' hlist rfl).1
        refine Text.after?_eq_none_iff.mp h (String.ofList front) (String.toList_inj.mp ?_)
        simpa using hname

/-- The short form of a name keeps a `?` that is put after it. -/
theorem qualified_append_mark {name : String} (h : '?' ∉ name.toList)
    (hobject : name ≠ "System.Object") : qualified (name ++ "?") = qualified name ++ "?" := by
  have hlead : '?' ∉ rootLead.toList := by decide
  rw [qualified, after?_append_mark hlead, qualified]
  cases hrest : after? rootLead name with
  | none => rfl
  | some rest =>
      obtain rfl := Text.after?_eq_some_iff.mp hrest
      have hmark : '?' ∉ rest.toList := fun hmem => h (by simp [hmem])
      have hrest : rest ≠ "Object" := by
        rintro rfl
        exact hobject rfl
      show (spelling? (rest ++ "?")).getD (lastPart (rest ++ "?"))
        = (spelling? rest).getD (lastPart rest) ++ "?"
      rw [spelling?_append_mark hmark hrest, Text.lastPart_append_mark]
      cases spelling? rest <;> rfl

end ShortName

end TypeNaming
