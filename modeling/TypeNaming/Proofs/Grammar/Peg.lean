/-
# Parsing expressions

A parsing expression is tried at the beginning of a text and either fails or leaves a
rest.  A choice takes the first side that does not fail and never comes back to the
second, an option and a repetition take what they can get, and nothing is undone except
by a choice, an option or a repetition around it.  `Run` is this, as a relation: it says
of failure as well as of success what comes of an attempt, so that a choice can ask for
the failure of its first side.

The rules of a grammar leave a tree behind: a rule is a node over the rules it used, or,
when it is atomic, a leaf with its text.
-/
import Mathlib.Data.List.Basic

namespace TypeNaming.Peg

variable {ρ : Type}

/-- A parsing expression over the rules `ρ`. -/
inductive Expr (ρ : Type) where
  | endOfText
  | char (accepts : Char → Bool)
  | rule (name : ρ)
  | seq (first second : Expr ρ)
  | choice (first second : Expr ρ)
  | option (inner : Expr ρ)
  | star (inner : Expr ρ)

/-- What the rules leave behind. -/
inductive ParseTree (ρ : Type) where
  | leaf (name : ρ) (text : List Char)
  | node (name : ρ) (children : List (ParseTree ρ))

/-- The expression of every rule, and whether the rule keeps its text. -/
structure Grammar (ρ : Type) where
  body : ρ → Expr ρ
  atomic : ρ → Bool

/-- Failure, or the trees and the rest of the text. -/
abbrev Outcome (ρ : Type) := Option (List (ParseTree ρ) × List Char)

/-- What comes of an attempt at the beginning of a text. -/
inductive Run (g : Grammar ρ) : Expr ρ → List Char → Outcome ρ → Prop
  | atEnd : Run g .endOfText [] (some ([], []))
  | beforeEnd {c : Char} {cs : List Char} : Run g .endOfText (c :: cs) none
  | char {accepts : Char → Bool} {c : Char} {cs : List Char} :
      accepts c = true → Run g (.char accepts) (c :: cs) (some ([], cs))
  | charFail {accepts : Char → Bool} {c : Char} {cs : List Char} :
      accepts c = false → Run g (.char accepts) (c :: cs) none
  | charEnd {accepts : Char → Bool} : Run g (.char accepts) [] none
  | leaf {name : ρ} {cs text rest : List Char} {trees : List (ParseTree ρ)} :
      g.atomic name = true → cs = text ++ rest → Run g (g.body name) cs (some (trees, rest)) →
      Run g (.rule name) cs (some ([.leaf name text], rest))
  | node {name : ρ} {cs rest : List Char} {trees : List (ParseTree ρ)} :
      g.atomic name = false → Run g (g.body name) cs (some (trees, rest)) →
      Run g (.rule name) cs (some ([.node name trees], rest))
  | ruleFail {name : ρ} {cs : List Char} :
      Run g (g.body name) cs none → Run g (.rule name) cs none
  | seq {first second : Expr ρ} {cs mid rest : List Char} {trees others : List (ParseTree ρ)} :
      Run g first cs (some (trees, mid)) → Run g second mid (some (others, rest)) →
      Run g (.seq first second) cs (some (trees ++ others, rest))
  | seqFirst {first second : Expr ρ} {cs : List Char} :
      Run g first cs none → Run g (.seq first second) cs none
  | seqSecond {first second : Expr ρ} {cs mid : List Char} {trees : List (ParseTree ρ)} :
      Run g first cs (some (trees, mid)) → Run g second mid none →
      Run g (.seq first second) cs none
  | choiceFirst {first second : Expr ρ} {cs rest : List Char} {trees : List (ParseTree ρ)} :
      Run g first cs (some (trees, rest)) → Run g (.choice first second) cs (some (trees, rest))
  | choiceSecond {first second : Expr ρ} {cs : List Char} {outcome : Outcome ρ} :
      Run g first cs none → Run g second cs outcome → Run g (.choice first second) cs outcome
  | option {inner : Expr ρ} {cs rest : List Char} {trees : List (ParseTree ρ)} :
      Run g inner cs (some (trees, rest)) → Run g (.option inner) cs (some (trees, rest))
  | optionNone {inner : Expr ρ} {cs : List Char} :
      Run g inner cs none → Run g (.option inner) cs (some ([], cs))
  | starMore {inner : Expr ρ} {cs mid rest : List Char} {trees others : List (ParseTree ρ)} :
      Run g inner cs (some (trees, mid)) → Run g (.star inner) mid (some (others, rest)) →
      Run g (.star inner) cs (some (trees ++ others, rest))
  | starDone {inner : Expr ρ} {cs : List Char} :
      Run g inner cs none → Run g (.star inner) cs (some ([], cs))

variable {g : Grammar ρ}

/-- An expression has one outcome at most. -/
theorem Run.unique {e : Expr ρ} {cs : List Char} {outcome : Outcome ρ} (h : Run g e cs outcome) :
    ∀ {other : Outcome ρ}, Run g e cs other → outcome = other := by
  induction h with
  | atEnd => intro other h'; cases h'; rfl
  | beforeEnd => intro other h'; cases h'; rfl
  | char hc =>
      intro other h'
      cases h' with
      | char _ => rfl
      | charFail hc' => rw [hc] at hc'; cases hc'
  | charFail hc =>
      intro other h'
      cases h' with
      | char hc' => rw [hc] at hc'; cases hc'
      | charFail _ => rfl
  | charEnd => intro other h'; cases h'; rfl
  | leaf hatomic htext _ ih =>
      intro other h'
      cases h' with
      | leaf _ htext' h' =>
          obtain ⟨-, rfl⟩ := Prod.mk.inj (Option.some.inj (ih h'))
          rw [htext] at htext'
          rw [List.append_cancel_right htext']
      | node hnode _ => rw [hatomic] at hnode; cases hnode
      | ruleFail h' => cases ih h'
  | node hnode _ ih =>
      intro other h'
      cases h' with
      | leaf hatomic _ _ => rw [hatomic] at hnode; cases hnode
      | node _ h' =>
          obtain ⟨rfl, rfl⟩ := Prod.mk.inj (Option.some.inj (ih h'))
          rfl
      | ruleFail h' => cases ih h'
  | ruleFail _ ih =>
      intro other h'
      cases h' with
      | leaf _ _ h' => cases ih h'
      | node _ h' => cases ih h'
      | ruleFail _ => rfl
  | seq _ _ ih₁ ih₂ =>
      intro other h'
      cases h' with
      | seq h₁ h₂ =>
          obtain ⟨rfl, rfl⟩ := Prod.mk.inj (Option.some.inj (ih₁ h₁))
          obtain ⟨rfl, rfl⟩ := Prod.mk.inj (Option.some.inj (ih₂ h₂))
          rfl
      | seqFirst h₁ => cases ih₁ h₁
      | seqSecond h₁ h₂ =>
          obtain ⟨rfl, rfl⟩ := Prod.mk.inj (Option.some.inj (ih₁ h₁))
          cases ih₂ h₂
  | seqFirst _ ih =>
      intro other h'
      cases h' with
      | seq h₁ _ => cases ih h₁
      | seqFirst _ => rfl
      | seqSecond h₁ _ => cases ih h₁
  | seqSecond _ _ ih₁ ih₂ =>
      intro other h'
      cases h' with
      | seq h₁ h₂ =>
          obtain ⟨rfl, rfl⟩ := Prod.mk.inj (Option.some.inj (ih₁ h₁))
          cases ih₂ h₂
      | seqFirst _ => rfl
      | seqSecond _ _ => rfl
  | choiceFirst _ ih =>
      intro other h'
      cases h' with
      | choiceFirst h' => exact ih h'
      | choiceSecond h' _ => cases ih h'
  | choiceSecond _ _ ih₁ ih₂ =>
      intro other h'
      cases h' with
      | choiceFirst h' => cases ih₁ h'
      | choiceSecond _ h' => exact ih₂ h'
  | option _ ih =>
      intro other h'
      cases h' with
      | option h' => exact ih h'
      | optionNone h' => cases ih h'
  | optionNone _ ih =>
      intro other h'
      cases h' with
      | option h' => cases ih h'
      | optionNone _ => rfl
  | starMore _ _ ih₁ ih₂ =>
      intro other h'
      cases h' with
      | starMore h₁ h₂ =>
          obtain ⟨rfl, rfl⟩ := Prod.mk.inj (Option.some.inj (ih₁ h₁))
          obtain ⟨rfl, rfl⟩ := Prod.mk.inj (Option.some.inj (ih₂ h₂))
          rfl
      | starDone h' => cases ih₁ h'
  | starDone _ ih =>
      intro other h'
      cases h' with
      | starMore h₁ _ => cases ih h₁
      | starDone _ => rfl

/-- What is left is the end of the text. -/
theorem Run.suffix {e : Expr ρ} {cs : List Char} {outcome : Outcome ρ} (h : Run g e cs outcome) :
    ∀ {trees : List (ParseTree ρ)} {rest : List Char},
      outcome = some (trees, rest) → rest <:+ cs := by
  induction h with
  | atEnd => rintro trees rest ⟨⟩; exact List.suffix_rfl
  | char _ => rintro trees rest ⟨⟩; exact List.suffix_cons _ _
  | leaf _ _ _ ih => rintro trees rest ⟨⟩; exact ih rfl
  | node _ _ ih => rintro trees rest ⟨⟩; exact ih rfl
  | seq _ _ ih₁ ih₂ => rintro trees rest ⟨⟩; exact (ih₂ rfl).trans (ih₁ rfl)
  | choiceFirst _ ih => rintro trees rest ⟨⟩; exact ih rfl
  | choiceSecond _ _ _ ih => exact ih
  | option _ ih => rintro trees rest ⟨⟩; exact ih rfl
  | optionNone _ _ => rintro trees rest ⟨⟩; exact List.suffix_rfl
  | starMore _ _ ih₁ ih₂ => rintro trees rest ⟨⟩; exact (ih₂ rfl).trans (ih₁ rfl)
  | starDone _ _ => rintro trees rest ⟨⟩; exact List.suffix_rfl
  | _ => rintro trees rest ⟨⟩

/-! ## What each form does -/

theorem run_char_some_iff {accepts : Char → Bool} {cs rest : List Char}
    {trees : List (ParseTree ρ)} :
    Run g (.char accepts) cs (some (trees, rest)) ↔
      ∃ c, accepts c = true ∧ cs = c :: rest ∧ trees = [] := by
  constructor
  · rintro (_ | _ | hc)
    exact ⟨_, hc, rfl, rfl⟩
  · rintro ⟨c, hc, rfl, rfl⟩
    exact .char hc

theorem run_char_none_iff {accepts : Char → Bool} {cs : List Char} :
    Run g (.char accepts) cs none ↔ ∀ c ∈ cs.head?, accepts c = false := by
  cases cs with
  | nil => exact ⟨fun _ => by simp, fun _ => .charEnd⟩
  | cons c cs =>
      constructor
      · rintro (_ | _ | _ | hc)
        simpa using hc
      · intro hc
        exact .charFail (hc c rfl)

theorem run_endOfText_iff {cs rest : List Char} {trees : List (ParseTree ρ)} :
    Run g .endOfText cs (some (trees, rest)) ↔ cs = [] ∧ rest = [] ∧ trees = [] := by
  constructor
  · rintro ⟨⟩
    exact ⟨rfl, rfl, rfl⟩
  · rintro ⟨rfl, rfl, rfl⟩
    exact .atEnd

theorem run_leaf_iff {name : ρ} (h : g.atomic name = true) {cs rest : List Char}
    {trees : List (ParseTree ρ)} :
    Run g (.rule name) cs (some (trees, rest)) ↔
      ∃ text inner, cs = text ++ rest ∧ Run g (g.body name) cs (some (inner, rest)) ∧
        trees = [.leaf name text] := by
  constructor
  · intro hrun
    cases hrun with
    | leaf _ htext hrun => exact ⟨_, _, htext, hrun, rfl⟩
    | node hnode _ => rw [h] at hnode; cases hnode
  · rintro ⟨text, inner, htext, hrun, rfl⟩
    exact .leaf h htext hrun

theorem run_node_iff {name : ρ} (h : g.atomic name = false) {cs rest : List Char}
    {trees : List (ParseTree ρ)} :
    Run g (.rule name) cs (some (trees, rest)) ↔
      ∃ inner, Run g (g.body name) cs (some (inner, rest)) ∧ trees = [.node name inner] := by
  constructor
  · intro hrun
    cases hrun with
    | leaf hleaf _ _ => rw [h] at hleaf; cases hleaf
    | node _ hrun => exact ⟨_, hrun, rfl⟩
  · rintro ⟨inner, hrun, rfl⟩
    exact .node h hrun

theorem run_seq_some_iff {first second : Expr ρ} {cs rest : List Char}
    {trees : List (ParseTree ρ)} :
    Run g (.seq first second) cs (some (trees, rest)) ↔
      ∃ front mid back, Run g first cs (some (front, mid)) ∧
        Run g second mid (some (back, rest)) ∧ trees = front ++ back := by
  constructor
  · intro hrun
    cases hrun with
    | seq h₁ h₂ => exact ⟨_, _, _, h₁, h₂, rfl⟩
  · rintro ⟨front, mid, back, h₁, h₂, rfl⟩
    exact .seq h₁ h₂

theorem run_choice_some_iff {first second : Expr ρ} {cs rest : List Char}
    {trees : List (ParseTree ρ)} :
    Run g (.choice first second) cs (some (trees, rest)) ↔
      Run g first cs (some (trees, rest)) ∨
        Run g first cs none ∧ Run g second cs (some (trees, rest)) := by
  constructor
  · intro hrun
    cases hrun with
    | choiceFirst h => exact .inl h
    | choiceSecond h₁ h₂ => exact .inr ⟨h₁, h₂⟩
  · rintro (h | ⟨h₁, h₂⟩)
    · exact .choiceFirst h
    · exact .choiceSecond h₁ h₂

theorem run_option_some_iff {inner : Expr ρ} {cs rest : List Char} {trees : List (ParseTree ρ)} :
    Run g (.option inner) cs (some (trees, rest)) ↔
      Run g inner cs (some (trees, rest)) ∨ Run g inner cs none ∧ trees = [] ∧ rest = cs := by
  constructor
  · intro hrun
    cases hrun with
    | option h => exact .inl h
    | optionNone h => exact .inr ⟨h, rfl, rfl⟩
  · rintro (h | ⟨h, rfl, rfl⟩)
    · exact .option h
    · exact .optionNone h

theorem run_star_some_iff {inner : Expr ρ} {cs rest : List Char} {trees : List (ParseTree ρ)} :
    Run g (.star inner) cs (some (trees, rest)) ↔
      (∃ front mid back, Run g inner cs (some (front, mid)) ∧
        Run g (.star inner) mid (some (back, rest)) ∧ trees = front ++ back) ∨
      Run g inner cs none ∧ trees = [] ∧ rest = cs := by
  constructor
  · intro hrun
    cases hrun with
    | starMore h₁ h₂ => exact .inl ⟨_, _, _, h₁, h₂, rfl⟩
    | starDone h => exact .inr ⟨h, rfl, rfl⟩
  · rintro (⟨front, mid, back, h₁, h₂, rfl⟩ | ⟨h, rfl, rfl⟩)
    · exact .starMore h₁ h₂
    · exact .starDone h

/-! ## Repetitions -/

/-- What holds where a repetition ends, and is kept by every round, holds of it. -/
theorem star_induction {inner : Expr ρ} {P : List Char → List (ParseTree ρ) → List Char → Prop}
    (done : ∀ {cs : List Char}, Run g inner cs none → P cs [] cs)
    (more : ∀ {cs mid rest : List Char} {front back : List (ParseTree ρ)},
      Run g inner cs (some (front, mid)) → P mid back rest → P cs (front ++ back) rest)
    {cs rest : List Char} {trees : List (ParseTree ρ)}
    (h : Run g (.star inner) cs (some (trees, rest))) : P cs trees rest := by
  generalize he : Expr.star inner = e at h
  generalize ho : some (trees, rest) = outcome at h
  induction h generalizing trees rest with
  | starMore hfirst _ _ ih =>
      obtain rfl := Expr.star.inj he
      obtain ⟨rfl, rfl⟩ := Prod.mk.inj (Option.some.inj ho)
      exact more hfirst (ih rfl rfl)
  | starDone hdone _ =>
      obtain rfl := Expr.star.inj he
      obtain ⟨rfl, rfl⟩ := Prod.mk.inj (Option.some.inj ho)
      exact done hdone
  | _ => cases he

theorem run_star_char (accepts : Char → Bool) : ∀ cs : List Char,
    Run g (.star (.char accepts)) cs (some ([], cs.dropWhile accepts))
  | [] => .starDone .charEnd
  | c :: cs => by
      cases hc : accepts c with
      | true =>
          rw [List.dropWhile_cons_of_pos hc]
          exact .starMore (.char hc) (run_star_char accepts cs)
      | false =>
          rw [List.dropWhile_cons_of_neg (by simp [hc])]
          exact .starDone (.charFail hc)

/-! ## Attempts that come to an end -/

/-- An attempt has an outcome on every text up to the length. -/
def Total (g : Grammar ρ) (e : Expr ρ) (limit : Nat) : Prop :=
  ∀ cs : List Char, cs.length ≤ limit → ∃ outcome, Run g e cs outcome

/-- An attempt that succeeds takes a character at least. -/
def Consumes (g : Grammar ρ) (e : Expr ρ) : Prop :=
  ∀ {cs rest : List Char} {trees : List (ParseTree ρ)}, Run g e cs (some (trees, rest)) →
    rest.length < cs.length

theorem total_char (accepts : Char → Bool) (limit : Nat) : Total g (.char accepts) limit := by
  intro cs _
  cases cs with
  | nil => exact ⟨none, .charEnd⟩
  | cons c cs =>
      cases hc : accepts c with
      | true => exact ⟨_, .char hc⟩
      | false => exact ⟨none, .charFail hc⟩

theorem total_endOfText (limit : Nat) : Total g .endOfText limit := by
  intro cs _
  cases cs with
  | nil => exact ⟨_, .atEnd⟩
  | cons c cs => exact ⟨none, .beforeEnd⟩

theorem total_rule {name : ρ} {limit : Nat} (h : Total g (g.body name) limit) :
    Total g (.rule name) limit := by
  intro cs hcs
  obtain ⟨_ | ⟨trees, rest⟩, hrun⟩ := h cs hcs
  · exact ⟨none, .ruleFail hrun⟩
  · cases hatomic : g.atomic name with
    | true =>
        obtain ⟨text, htext⟩ := hrun.suffix rfl
        exact ⟨_, .leaf hatomic htext.symm hrun⟩
    | false => exact ⟨_, .node hatomic hrun⟩

theorem total_seq {first second : Expr ρ} {limit : Nat} (hfirst : Total g first limit)
    (hsecond : Total g second limit) : Total g (.seq first second) limit := by
  intro cs hcs
  obtain ⟨_ | ⟨trees, mid⟩, hrun⟩ := hfirst cs hcs
  · exact ⟨none, .seqFirst hrun⟩
  · obtain ⟨_ | ⟨others, rest⟩, hnext⟩ := hsecond mid (Nat.le_trans (hrun.suffix rfl).length_le hcs)
    · exact ⟨none, .seqSecond hrun hnext⟩
    · exact ⟨_, .seq hrun hnext⟩

/-- After a character, the second part is tried on a shorter text. -/
theorem total_seq_char {accepts : Char → Bool} {second : Expr ρ} {limit : Nat}
    (hsecond : ∀ shorter < limit, Total g second shorter) :
    Total g (.seq (.char accepts) second) limit := by
  intro cs hcs
  obtain ⟨_ | ⟨trees, mid⟩, hrun⟩ := total_char accepts limit cs hcs
  · exact ⟨none, .seqFirst hrun⟩
  · obtain ⟨c, -, rfl, rfl⟩ := run_char_some_iff.mp hrun
    obtain ⟨_ | ⟨others, rest⟩, hnext⟩ := hsecond mid.length hcs mid (Nat.le_refl _)
    · exact ⟨none, .seqSecond hrun hnext⟩
    · exact ⟨_, .seq hrun hnext⟩

theorem total_choice {first second : Expr ρ} {limit : Nat} (hfirst : Total g first limit)
    (hsecond : Total g second limit) : Total g (.choice first second) limit := by
  intro cs hcs
  obtain ⟨_ | ⟨trees, rest⟩, hrun⟩ := hfirst cs hcs
  · obtain ⟨outcome, hnext⟩ := hsecond cs hcs
    exact ⟨outcome, .choiceSecond hrun hnext⟩
  · exact ⟨_, .choiceFirst hrun⟩

theorem total_option {inner : Expr ρ} {limit : Nat} (h : Total g inner limit) :
    Total g (.option inner) limit := by
  intro cs hcs
  obtain ⟨_ | ⟨trees, rest⟩, hrun⟩ := h cs hcs
  · exact ⟨_, .optionNone hrun⟩
  · exact ⟨_, .option hrun⟩

theorem total_star {inner : Expr ρ} {limit : Nat} (h : Total g inner limit)
    (hconsumes : Consumes g inner) : Total g (.star inner) limit := by
  intro cs
  generalize hn : cs.length = n
  induction n using Nat.strongRecOn generalizing cs with
  | ind n ih =>
      intro hcs
      obtain ⟨_ | ⟨trees, mid⟩, hrun⟩ := h cs (hn ▸ hcs)
      · exact ⟨_, .starDone hrun⟩
      · have hmid : mid.length < n := hn ▸ hconsumes hrun
        have hle : mid.length ≤ limit := Nat.le_trans (Nat.le_of_lt hmid) hcs
        obtain ⟨_ | ⟨others, rest⟩, hnext⟩ := ih _ hmid mid rfl hle
        · cases hnext
        · exact ⟨_, .starMore hrun hnext⟩

end TypeNaming.Peg
