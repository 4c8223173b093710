/-
# Dotted names

A qualified name is a row of parts with dots between them.  `splitLast` cuts at
the last occurrence of a character, and `splitLast_eq_some_iff` says that this
is the only cut whose right side is free of it; the last part and the enclosing
name are read off that one cut.
-/
namespace TypeNaming.Text

/-- What comes before and after the last `mark`, when there is one. -/
def splitLast (mark : Char) : List Char → Option (List Char × List Char)
  | [] => none
  | c :: cs =>
    match splitLast mark cs with
    | some (front, back) => some (c :: front, back)
    | none => if c = mark then some ([], cs) else none

theorem splitLast_eq_none_iff {mark : Char} {cs : List Char} :
    splitLast mark cs = none ↔ mark ∉ cs := by
  induction cs with
  | nil => simp [splitLast]
  | cons c cs ih =>
      cases h : splitLast mark cs with
      | some parts =>
          have : mark ∈ cs := by
            apply Classical.byContradiction
            intro hn
            simp [ih.2 hn] at h
          simp [splitLast, h, this]
      | none =>
          have hn := ih.1 h
          by_cases hc : c = mark
          · simp [splitLast, h, hc]
          · simp [splitLast, h, hc, hn, Ne.symm hc]

theorem splitLast_eq_some_iff {mark : Char} {cs back : List Char} (front : List Char) :
    splitLast mark cs = some (front, back) ↔ cs = front ++ mark :: back ∧ mark ∉ back := by
  induction cs generalizing front with
  | nil => simp [splitLast]
  | cons c cs ih =>
      cases h : splitLast mark cs with
      | some parts =>
          obtain ⟨f, b⟩ := parts
          constructor
          · intro heq
            simp only [splitLast, h, Option.some.injEq, Prod.mk.injEq] at heq
            obtain ⟨rfl, rfl⟩ := heq
            obtain ⟨rfl, hb⟩ := (ih f).1 h
            exact ⟨rfl, hb⟩
          · rintro ⟨heq, hb⟩
            cases front with
            | nil =>
                simp only [List.nil_append, List.cons.injEq] at heq
                obtain ⟨rfl, rfl⟩ := heq
                simp [splitLast_eq_none_iff.2 hb] at h
            | cons c' front =>
                simp only [List.cons_append, List.cons.injEq] at heq
                obtain ⟨rfl, rfl⟩ := heq
                have := (ih front).2 ⟨rfl, hb⟩
                simp [splitLast, this]
      | none =>
          have hn := splitLast_eq_none_iff.1 h
          constructor
          · intro heq
            by_cases hc : c = mark
            · simp only [splitLast, h, hc, if_true, Option.some.injEq, Prod.mk.injEq] at heq
              obtain ⟨rfl, rfl⟩ := heq
              exact ⟨by simp [hc], hn⟩
            · simp [splitLast, h, hc] at heq
          · rintro ⟨heq, -⟩
            cases front with
            | nil =>
                simp only [List.nil_append, List.cons.injEq] at heq
                obtain ⟨rfl, rfl⟩ := heq
                simp [splitLast, h]
            | cons c' front =>
                simp only [List.cons_append, List.cons.injEq] at heq
                obtain ⟨rfl, rfl⟩ := heq
                simp at hn

/-- The part after the last dot, or the whole name when it has none. -/
def lastPart (name : String) : String :=
  match splitLast '.' name.toList with
  | some (_, back) => String.ofList back
  | none => name

/-- The name before the last dot, when there is one. -/
def enclosing? (name : String) : Option String :=
  (splitLast '.' name.toList).map fun parts => String.ofList parts.1

/-- What follows `lead` in a text that begins with it. -/
def after? (lead text : String) : Option String :=
  (lead.toList.isPrefixOf? text.toList).map String.ofList

end TypeNaming.Text
