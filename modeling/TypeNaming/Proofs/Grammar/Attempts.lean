/-
# What is tried on the way

`Run` says what comes of an attempt.  `Tries` says which attempts are made for it, the ones
that fail and are undone among them: a choice tries its second side when the first has
failed, a repetition tries another round after each that has not.

Some of the rules open a bracket, with the first character that they take.  Such a rule is
open while something is tried after that character, and `Tries` counts the open ones.  A
bracket rule that does not find its character fails there, and has never been open.

A grammar that is read by calling one function for each rule needs a call for each rule that
is open.  `limited` is the grammar with so many calls to spend: a rule hands on to its parts
what it has, a bracket rule one less, and it fails when it has none.  Where no attempt is
made with more rules open than there are calls, this makes no difference (`run_withFuel`).
-/
import TypeNaming.Proofs.Grammar.Peg

namespace TypeNaming.Peg

variable {ρ : Type}

/-! ## Attempts -/

/-- For the attempt at the first expression on the first text, the second expression is tried
on the second text, with so many bracket rules open. -/
inductive Tries (g : Grammar ρ) (opens : ρ → Bool) :
    Expr ρ → List Char → Nat → Expr ρ → List Char → Prop
  | here {e : Expr ρ} {cs : List Char} : Tries g opens e cs 0 e cs
  | rule {name : ρ} {cs there : List Char} {count : Nat} {e : Expr ρ} :
      opens name = false → Tries g opens (g.body name) cs count e there →
      Tries g opens (.rule name) cs count e there
  | opening {name : ρ} {bracket : Char → Bool} {inside : Expr ρ} {cs : List Char} :
      opens name = true → g.body name = .seq (.char bracket) inside →
      Tries g opens (.rule name) cs 0 (.char bracket) cs
  | inside {name : ρ} {bracket : Char → Bool} {inside : Expr ρ} {c : Char} {cs there : List Char}
      {count : Nat} {e : Expr ρ} :
      opens name = true → g.body name = .seq (.char bracket) inside → bracket c = true →
      Tries g opens inside cs count e there →
      Tries g opens (.rule name) (c :: cs) (count + 1) e there
  | first {first second e : Expr ρ} {cs there : List Char} {count : Nat} :
      Tries g opens first cs count e there → Tries g opens (.seq first second) cs count e there
  | second {first second e : Expr ρ} {cs mid there : List Char} {trees : List (ParseTree ρ)}
      {count : Nat} :
      Run g first cs (some (trees, mid)) → Tries g opens second mid count e there →
      Tries g opens (.seq first second) cs count e there
  | choiceFirst {first second e : Expr ρ} {cs there : List Char} {count : Nat} :
      Tries g opens first cs count e there → Tries g opens (.choice first second) cs count e there
  | choiceSecond {first second e : Expr ρ} {cs there : List Char} {count : Nat} :
      Run g first cs none → Tries g opens second cs count e there →
      Tries g opens (.choice first second) cs count e there
  | option {inner e : Expr ρ} {cs there : List Char} {count : Nat} :
      Tries g opens inner cs count e there → Tries g opens (.option inner) cs count e there
  | star {inner e : Expr ρ} {cs there : List Char} {count : Nat} :
      Tries g opens inner cs count e there → Tries g opens (.star inner) cs count e there
  | round {inner e : Expr ρ} {cs mid there : List Char} {trees : List (ParseTree ρ)} {count : Nat} :
      Run g inner cs (some (trees, mid)) → Tries g opens (.star inner) mid count e there →
      Tries g opens (.star inner) cs count e there

variable {g : Grammar ρ} {opens : ρ → Bool}

/-- What is tried for something that is tried is tried, and the open rules add up. -/
theorem Tries.trans {e e' e'' : Expr ρ} {cs cs' cs'' : List Char} {count count' : Nat}
    (h : Tries g opens e cs count e' cs') (h' : Tries g opens e' cs' count' e'' cs'') :
    Tries g opens e cs (count + count') e'' cs'' := by
  induction h with
  | here => rwa [Nat.zero_add]
  | rule hname _ ih => exact .rule hname (ih h')
  | opening hname hbody =>
      cases h' with
      | here => exact .opening hname hbody
  | inside hname hbody hc _ ih =>
      rw [Nat.add_right_comm]
      exact .inside hname hbody hc (ih h')
  | first _ ih => exact .first (ih h')
  | second hfirst _ ih => exact .second hfirst (ih h')
  | choiceFirst _ ih => exact .choiceFirst (ih h')
  | choiceSecond hfirst _ ih => exact .choiceSecond hfirst (ih h')
  | option _ ih => exact .option (ih h')
  | star _ ih => exact .star (ih h')
  | round hinner _ ih => exact .round hinner (ih h')

/-- The rules that open a bracket take a character first. -/
def Bracketed (g : Grammar ρ) (opens : ρ → Bool) : Prop :=
  ∀ name, opens name = true → ∃ bracket inside, g.body name = .seq (.char bracket) inside

/-! ## A limited number of calls -/

/-- The expression, with the number that its rules may spend. -/
def Expr.withFuel (fuel : Nat) : Expr ρ → Expr (ρ × Nat)
  | .endOfText => .endOfText
  | .char accepts => .char accepts
  | .rule name => .rule (name, fuel)
  | .seq first second => .seq (first.withFuel fuel) (second.withFuel fuel)
  | .choice first second => .choice (first.withFuel fuel) (second.withFuel fuel)
  | .option inner => .option (inner.withFuel fuel)
  | .star inner => .star (inner.withFuel fuel)

/-- What always fails. -/
def Expr.failure : Expr ρ := .char fun _ => false

/-- The grammar whose rules that open a bracket spend one each, and fail without it. -/
def Grammar.limited (g : Grammar ρ) (opens : ρ → Bool) : Grammar (ρ × Nat) where
  body := fun (name, fuel) =>
    match opens name, fuel with
    | true, 0 => .failure
    | true, fuel + 1 => (g.body name).withFuel fuel
    | false, fuel => (g.body name).withFuel fuel
  atomic := fun (name, _) => g.atomic name

mutual

/-- The tree without the numbers. -/
def ParseTree.erase : ParseTree (ρ × Nat) → ParseTree ρ
  | .leaf rule text => .leaf rule.1 text
  | .node rule children => .node rule.1 (ParseTree.eraseAll children)

/-- The trees without the numbers. -/
def ParseTree.eraseAll : List (ParseTree (ρ × Nat)) → List (ParseTree ρ)
  | [] => []
  | tree :: trees => tree.erase :: ParseTree.eraseAll trees

end

theorem ParseTree.eraseAll_append (trees others : List (ParseTree (ρ × Nat))) :
    ParseTree.eraseAll (trees ++ others) =
      ParseTree.eraseAll trees ++ ParseTree.eraseAll others := by
  induction trees with
  | nil => rfl
  | cons tree trees ih => rw [List.cons_append, eraseAll, ih, eraseAll, List.cons_append]

/-- The outcome without the numbers. -/
def Outcome.erase : Outcome (ρ × Nat) → Outcome ρ :=
  Option.map fun (trees, rest) => (ParseTree.eraseAll trees, rest)

theorem run_failure (cs : List Char) : Run g .failure cs none := by
  cases cs with
  | nil => exact .charEnd
  | cons c cs => exact .charFail rfl

/-- No attempt that is made for this one has more rules open. -/
def NeverBeyond (g : Grammar ρ) (opens : ρ → Bool) (fuel : Nat) (e : Expr ρ) (cs : List Char) :
    Prop :=
  ∀ {count : Nat} {e' : Expr ρ} {there : List Char}, Tries g opens e cs count e' there →
    count ≤ fuel

/-- The outcome is that of the attempt, without the numbers. -/
def RunsTo (g : Grammar (ρ × Nat)) (e : Expr (ρ × Nat)) (cs : List Char) (outcome : Outcome ρ) :
    Prop :=
  ∃ fuelled : Outcome (ρ × Nat), Run g e cs fuelled ∧ fuelled.erase = outcome

theorem runsTo_some_iff {g : Grammar (ρ × Nat)} {e : Expr (ρ × Nat)} {cs rest : List Char}
    {trees : List (ParseTree ρ)} :
    RunsTo g e cs (some (trees, rest)) ↔
      ∃ others, Run g e cs (some (others, rest)) ∧ ParseTree.eraseAll others = trees := by
  constructor
  · rintro ⟨fuelled, hrun, herase⟩
    obtain ⟨⟨others, _⟩, rfl, heq⟩ := Option.map_eq_some_iff.mp herase
    obtain ⟨rfl, rfl⟩ := Prod.mk.inj heq
    exact ⟨others, hrun, rfl⟩
  · rintro ⟨others, hrun, rfl⟩
    exact ⟨_, hrun, rfl⟩

theorem runsTo_none_iff {g : Grammar (ρ × Nat)} {e : Expr (ρ × Nat)} {cs : List Char} :
    RunsTo g e cs none ↔ Run g e cs none := by
  constructor
  · rintro ⟨fuelled, hrun, herase⟩
    obtain rfl := Option.map_eq_none_iff.mp herase
    exact hrun
  · intro hrun
    exact ⟨none, hrun, rfl⟩

/-- The body of a rule comes to the same with the fuel that the limited grammar leaves it. -/
theorem run_limited_body (hopens : Bracketed g opens) {name : ρ} {cs : List Char}
    {outcome : Outcome ρ} (hrun : Run g (g.body name) cs outcome)
    (ih : ∀ fuel, NeverBeyond g opens fuel (g.body name) cs →
      RunsTo (g.limited opens) ((g.body name).withFuel fuel) cs outcome)
    {fuel : Nat} (hfuel : NeverBeyond g opens fuel (.rule name) cs) :
    RunsTo (g.limited opens) ((g.limited opens).body (name, fuel)) cs outcome := by
  cases hname : opens name with
  | false =>
      have hbody : (g.limited opens).body (name, fuel) = (g.body name).withFuel fuel := by
        simp only [Grammar.limited, hname]
      rw [hbody]
      exact ih fuel fun htries => hfuel (.rule hname htries)
  | true =>
      obtain ⟨bracket, inside, hinside⟩ := hopens name hname
      cases fuel with
      | zero =>
          have hbody : (g.limited opens).body (name, 0) = .failure := by
            simp only [Grammar.limited, hname]
          rw [hbody]
          refine ⟨none, run_failure cs, ?_⟩
          -- Behind its bracket the rule would be open.
          rw [hinside] at hrun
          cases hrun with
          | seqFirst _ => rfl
          | seq hfirst _ =>
              obtain ⟨c, hc, rfl, -⟩ := run_char_some_iff.mp hfirst
              cases hfuel (.inside hname hinside hc .here)
          | seqSecond hfirst _ => rfl
      | succ fuel =>
          have hbody : (g.limited opens).body (name, fuel + 1) = (g.body name).withFuel fuel := by
            simp only [Grammar.limited, hname]
          rw [hbody]
          refine ih fuel fun {count e' there} htries => ?_
          rw [hinside] at htries
          cases htries with
          | here => exact Nat.zero_le fuel
          | first htries =>
              cases htries with
              | here => exact Nat.zero_le fuel
          | second hfirst htries =>
              obtain ⟨c, hc, rfl, -⟩ := run_char_some_iff.mp hfirst
              exact Nat.le_of_succ_le_succ (hfuel (.inside hname hinside hc htries))

/-- With enough calls to spend the limited grammar comes to the same. -/
theorem run_withFuel (hopens : Bracketed g opens) {e : Expr ρ} {cs : List Char}
    {outcome : Outcome ρ} (h : Run g e cs outcome) :
    ∀ fuel, NeverBeyond g opens fuel e cs →
      RunsTo (g.limited opens) (e.withFuel fuel) cs outcome := by
  induction h with
  | atEnd => exact fun _ _ => ⟨_, .atEnd, rfl⟩
  | beforeEnd => exact fun _ _ => ⟨_, .beforeEnd, rfl⟩
  | char hc => exact fun _ _ => ⟨_, .char hc, rfl⟩
  | charFail hc => exact fun _ _ => ⟨_, .charFail hc, rfl⟩
  | charEnd => exact fun _ _ => ⟨_, .charEnd, rfl⟩
  | leaf hatomic htext hrun ih =>
      intro fuel hfuel
      obtain ⟨others, hbody, -⟩ := runsTo_some_iff.mp (run_limited_body hopens hrun ih hfuel)
      exact ⟨_, .leaf hatomic htext hbody, rfl⟩
  | node hatomic hrun ih =>
      intro fuel hfuel
      obtain ⟨others, hbody, rfl⟩ := runsTo_some_iff.mp (run_limited_body hopens hrun ih hfuel)
      exact ⟨_, .node hatomic hbody, rfl⟩
  | ruleFail hrun ih =>
      intro fuel hfuel
      have hbody := runsTo_none_iff.mp (run_limited_body hopens hrun ih hfuel)
      exact ⟨none, .ruleFail hbody, rfl⟩
  | seq hfirst _ ih₁ ih₂ =>
      intro fuel hfuel
      obtain ⟨_, h₁, rfl⟩ := runsTo_some_iff.mp (ih₁ fuel fun htries => hfuel (.first htries))
      obtain ⟨_, h₂, rfl⟩ :=
        runsTo_some_iff.mp (ih₂ fuel fun htries => hfuel (.second hfirst htries))
      exact runsTo_some_iff.mpr ⟨_, .seq h₁ h₂, ParseTree.eraseAll_append _ _⟩
  | seqFirst _ ih =>
      intro fuel hfuel
      have h₁ := runsTo_none_iff.mp (ih fuel fun htries => hfuel (.first htries))
      exact ⟨none, .seqFirst h₁, rfl⟩
  | seqSecond hfirst _ ih₁ ih₂ =>
      intro fuel hfuel
      obtain ⟨_, h₁, rfl⟩ := runsTo_some_iff.mp (ih₁ fuel fun htries => hfuel (.first htries))
      have h₂ := runsTo_none_iff.mp (ih₂ fuel fun htries => hfuel (.second hfirst htries))
      exact ⟨none, .seqSecond h₁ h₂, rfl⟩
  | choiceFirst _ ih =>
      intro fuel hfuel
      obtain ⟨_, h₁, rfl⟩ := runsTo_some_iff.mp (ih fuel fun htries => hfuel (.choiceFirst htries))
      exact ⟨_, .choiceFirst h₁, rfl⟩
  | choiceSecond hfirst _ ih₁ ih₂ =>
      intro fuel hfuel
      have h₁ := runsTo_none_iff.mp (ih₁ fuel fun htries => hfuel (.choiceFirst htries))
      obtain ⟨fuelled, h₂, rfl⟩ := ih₂ fuel fun htries => hfuel (.choiceSecond hfirst htries)
      exact ⟨fuelled, .choiceSecond h₁ h₂, rfl⟩
  | option _ ih =>
      intro fuel hfuel
      obtain ⟨_, h₁, rfl⟩ := runsTo_some_iff.mp (ih fuel fun htries => hfuel (.option htries))
      exact ⟨_, .option h₁, rfl⟩
  | optionNone _ ih =>
      intro fuel hfuel
      have h₁ := runsTo_none_iff.mp (ih fuel fun htries => hfuel (.option htries))
      exact ⟨_, .optionNone h₁, rfl⟩
  | starMore hinner _ ih₁ ih₂ =>
      intro fuel hfuel
      obtain ⟨_, h₁, rfl⟩ := runsTo_some_iff.mp (ih₁ fuel fun htries => hfuel (.star htries))
      obtain ⟨_, h₂, rfl⟩ :=
        runsTo_some_iff.mp (ih₂ fuel fun htries => hfuel (.round hinner htries))
      exact runsTo_some_iff.mpr ⟨_, .starMore h₁ h₂, ParseTree.eraseAll_append _ _⟩
  | starDone _ ih =>
      intro fuel hfuel
      have h₁ := runsTo_none_iff.mp (ih fuel fun htries => hfuel (.star htries))
      exact ⟨_, .starDone h₁, rfl⟩

/-- Where every attempt comes to an end, the two grammars come to the same things. -/
theorem run_iff_limited (hopens : Bracketed g opens) {e : Expr ρ} {cs : List Char} {fuel : Nat}
    (hfuel : NeverBeyond g opens fuel e cs) (htotal : ∃ outcome, Run g e cs outcome)
    (outcome : Outcome ρ) :
    Run g e cs outcome ↔ RunsTo (g.limited opens) (e.withFuel fuel) cs outcome := by
  constructor
  · intro hrun
    exact run_withFuel hopens hrun fuel hfuel
  · rintro ⟨fuelled, hlimited, rfl⟩
    obtain ⟨outcome, hrun⟩ := htotal
    obtain ⟨other, hother, rfl⟩ := run_withFuel hopens hrun fuel hfuel
    rwa [hlimited.unique hother]

end TypeNaming.Peg
