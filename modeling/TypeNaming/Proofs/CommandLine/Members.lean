/-
# The members of many unions

A run over many inputs keeps a register of the lists of alternatives that it printed, and
beside it the texts of the unions they are from; the number that the register gives is looked
up among the texts.  What is printed can be said without either: it is `answerTo`, which
looks for the first equal union among the inputs that came before.

The invariant is `Accounts`.  It says in one equation that a list of alternatives has a
number exactly when an equal union came before, and that the number is the place of the text
of the first of them.  A refused input changes nothing (`Accounts.refused`), nor does a union
that came before (`Accounts.repeated`); a new one takes the next number and the next place,
which are the same (`Accounts.new`).  `answers_runMembers` is the run.

An input that is refused is equal to no union, so it makes no difference to what is printed
for the others.
-/
import Mathlib.Data.List.SplitBy
import TypeNaming.CommandLine.Run
import TypeNaming.Proofs.Identity.Register

namespace TypeNaming

/-! ## The block of a union -/

namespace Alternatives

theorem splitBy_members (a : Alternatives) :
    a.members.splitBy (fun member other => member.index == other.index)
      = a.toList.zipIdx.map fun (alternative, index) => membersAt index alternative := by
  rw [members, List.flatMap_def]
  refine List.splitBy_flatten ?_ ?_ ?_
  · intro hmem
    obtain ⟨⟨alternative, index⟩, -, hnil⟩ := List.mem_map.mp hmem
    cases hnil
  · intro group hgroup
    obtain ⟨⟨alternative, index⟩, -, rfl⟩ := List.mem_map.mp hgroup
    simp [membersAt, Accessor.all]
  · refine (List.isChain_map _).mpr (List.isChain_iff_getElem.mpr fun index hindex => ?_)
    refine ⟨List.cons_ne_nil _ _, List.cons_ne_nil _ _, ?_⟩
    simp [membersAt, Accessor.all]

end Alternatives

namespace CommandLine

/-- The line of the members of one alternative. -/
def membersLine : List NamedMember → String
  | [] => ""
  | member :: others =>
    "  T" ++ toString member.index ++ " " ++ member.declaration ++ ": "
      ++ ", ".intercalate ((member :: others).map (·.name)) ++ "\n"

/-- The block of a union: its text, its key, the namespaces it depends on, and all of its
members, with a line for every alternative. -/
def membersBlock (source : String) (a : Alternatives) : String :=
  let imports :=
    match a.namespaces with
    | [] => ""
    | namespaces => "  using: " ++ ", ".intercalate namespaces ++ "\n"
  source ++ "\n  hint: " ++ a.hint ++ "\n" ++ imports
    ++ String.join ((a.members.splitBy fun member other => member.index == other.index).map
      membersLine)

theorem membersText_eq_block (source : String) (a : Alternatives) :
    membersText source a = membersBlock source a := by
  rw [membersText, membersBlock, a.splitBy_members, List.map_map]
  cases a.namespaces <;> rfl

/-! ## One output after the other -/

namespace Output

theorem answers_append (a b : Output) : (a ++ b).answers = a.answers ++ b.answers := rfl

theorem remarks_append (a b : Output) : (a ++ b).remarks = a.remarks ++ b.remarks := rfl

theorem failed_append (a b : Output) : (a ++ b).failed = (a.failed || b.failed) := rfl

end Output

/-! ## Answers without a register -/

/-- Whether the input is a union. -/
def isUnion (context : Context) (input : Input) : Bool :=
  (UnionType.read context input.text).isOk

/-- Whether the input is a union of alternatives that are equal to these. -/
def isUnionOf (context : Context) (a : Alternatives) (input : Input) : Bool :=
  match UnionType.read context input.text with
  | .ok u => u.alternatives == a
  | .error _ => false

/-- What is printed for an input after other ones: nothing when it is refused, its members
when it is a new union, and else the text of the first equal one. -/
def answerTo (context : Context) (before : List Input) (input : Input) : String :=
  match UnionType.read context input.text with
  | .error _ => ""
  | .ok u =>
    match before.find? (isUnionOf context u.alternatives) with
    | none => membersBlock input.text u.alternatives
    | some first => input.text ++ "\n  duplicate of " ++ first.text ++ "\n"

section

variable {context : Context} {before : List Input} {input : Input} {a : Alternatives}
  {u : UnionType} {printed : Printed} {color : Bool}

theorem isUnionOf_of_read (h : UnionType.read context input.text = .ok u) :
    isUnionOf context a input = (u.alternatives == a) := by
  rw [isUnionOf, h]

theorem isUnionOf_of_refused {failure : Failure}
    (h : UnionType.read context input.text = .error failure) :
    isUnionOf context a input = false := by
  rw [isUnionOf, h]

theorem isUnion_of_read (h : UnionType.read context input.text = .ok u) :
    isUnion context input = true := by
  rw [isUnion, h]
  rfl

theorem isUnion_of_refused {failure : Failure}
    (h : UnionType.read context input.text = .error failure) :
    isUnion context input = false := by
  rw [isUnion, h]
  rfl

theorem isUnion_eq_false_iff : isUnion context input = false ↔
    ∃ failure, UnionType.read context input.text = .error failure := by
  cases h : UnionType.read context input.text with
  | error failure => simp [isUnion_of_refused h]
  | ok u => simp [isUnion_of_read h]

theorem isUnion_of_isUnionOf (h : isUnionOf context a input = true) :
    isUnion context input = true := by
  cases hread : UnionType.read context input.text with
  | error failure =>
      rw [isUnionOf_of_refused hread] at h
      cases h
  | ok u => exact isUnion_of_read hread

theorem text_ne_empty (h : isUnion context input = true) : input.text ≠ "" := by
  intro hempty
  rw [isUnion, hempty] at h
  cases h

/-- Refused inputs before it make no difference to what is printed for an input. -/
theorem answerTo_filter (before : List Input) (input : Input) :
    answerTo context (before.filter (isUnion context)) input = answerTo context before input := by
  have hfind (a : Alternatives) : (before.filter (isUnion context)).find? (isUnionOf context a)
      = before.find? (isUnionOf context a) := by
    rw [List.find?_filter]
    refine congrArg (before.find? ·) (funext fun other => ?_)
    rw [Bool.eq_iff_iff, decide_eq_true_eq]
    exact and_iff_right_of_imp isUnion_of_isUnionOf
  simp only [answerTo, hfind]

/-! ## The invariant -/

/-- What the register and the texts say of the inputs that came before. -/
structure Accounts (context : Context) (printed : Printed) (before : List Input) : Prop where
  /-- A list has a number when an equal union came before, and the number is the place of
  the text of the first one. -/
  number : ∀ a, (printed.register.number? a).map (printed.sources[·]?)
    = (before.find? (isUnionOf context a)).map fun first => some first.text
  /-- The next number is the place of the next text. -/
  aligned : printed.register.size = printed.sources.length

theorem accounts_empty : Accounts context .empty [] where
  number a := by
    have hnone : Printed.empty.register.number? a = none := Std.HashMap.getElem?_empty
    rw [hnone]
    rfl
  aligned := Std.HashMap.size_empty

theorem Accounts.find?_eq_none (h : Accounts context printed before)
    (hnumber : printed.register.number? a = none) :
    before.find? (isUnionOf context a) = none := by
  have hfind := h.number a
  rw [hnumber, Option.map_none] at hfind
  exact Option.map_eq_none_iff.mp hfind.symm

theorem Accounts.find?_eq_some (h : Accounts context printed before) {number : Nat}
    (hnumber : printed.register.number? a = some number) :
    ∃ first, before.find? (isUnionOf context a) = some first ∧
      printed.sources[number]? = some first.text := by
  have hfind := h.number a
  rw [hnumber, Option.map_some] at hfind
  obtain ⟨first, hfirst, htext⟩ := Option.map_eq_some_iff.mp hfind.symm
  exact ⟨first, hfirst, htext.symm⟩

/-- A refused input is not accounted for. -/
theorem Accounts.refused (h : Accounts context printed before) {failure : Failure}
    (hread : UnionType.read context input.text = .error failure) :
    Accounts context printed (before ++ [input]) where
  number a := by
    rw [h.number, List.find?_append, List.find?_singleton, isUnionOf_of_refused hread]
    simp
  aligned := h.aligned

/-- A union that came before is not accounted for again. -/
theorem Accounts.repeated (h : Accounts context printed before) {number : Nat}
    (hread : UnionType.read context input.text = .ok u)
    (hnumber : printed.register.number? u.alternatives = some number) :
    Accounts context printed (before ++ [input]) where
  number a := by
    rw [h.number, List.find?_append, List.find?_singleton, isUnionOf_of_read hread]
    cases heq : u.alternatives == a with
    | false => simp
    | true =>
        -- This input is equal too, but not the first one.
        rw [Register.number?_congr _ heq] at hnumber
        obtain ⟨first, hfirst, -⟩ := h.find?_eq_some hnumber
        rw [hfirst, Option.some_or]
  aligned := h.aligned

/-- The number of a new union is the place of its text. -/
theorem Accounts.new (h : Accounts context printed before)
    (hread : UnionType.read context input.text = .ok u)
    (hnumber : printed.register.number? u.alternatives = none) :
    Accounts context
      ⟨(printed.register.enter u.alternatives).2, printed.sources ++ [input.text]⟩
      (before ++ [input]) where
  number a := by
    rw [Register.number?_enter_of_new hnumber, List.find?_append, List.find?_singleton,
      isUnionOf_of_read hread]
    cases heq : u.alternatives == a with
    | true =>
        rw [Register.number?_congr _ heq] at hnumber
        simp [h.find?_eq_none hnumber, h.aligned]
    | false =>
        cases ha : printed.register.number? a with
        | none => simp [h.find?_eq_none ha]
        | some number =>
            obtain ⟨first, hfirst, htext⟩ := h.find?_eq_some ha
            have hplace : number < printed.sources.length :=
              (List.getElem?_eq_some_iff.mp htext).1
            simp [hfirst, List.getElem?_append_left hplace, htext]
  aligned := by
    rw [Register.size_enter_of_new hnumber, h.aligned, List.length_append, List.length_singleton]

/-! ## One union -/

theorem print_of_number {source : String} {number : Nat}
    (h : printed.register.number? a = some number) :
    printed.print source a
      = (source ++ "\n  duplicate of " ++ (printed.sources[number]?).getD "" ++ "\n", printed) := by
  rw [Printed.print, Register.enter_of_number h]

theorem print_of_new {source : String} (h : printed.register.number? a = none) :
    printed.print source a = (membersBlock source a,
      ⟨(printed.register.enter a).2, printed.sources ++ [source]⟩) := by
  rw [Printed.print, Register.enter_of_new h, membersText_eq_block]

/-- Printing a union accounts for it. -/
theorem Accounts.print (h : Accounts context printed before)
    (hread : UnionType.read context input.text = .ok u) :
    Accounts context (printed.print input.text u.alternatives).2 (before ++ [input]) := by
  cases hnumber : printed.register.number? u.alternatives with
  | some number =>
      rw [print_of_number hnumber]
      exact h.repeated hread hnumber
  | none =>
      rw [print_of_new hnumber]
      exact h.new hread hnumber

/-- What is printed for a union is a matter of the inputs before it. -/
theorem Accounts.print_fst (h : Accounts context printed before)
    (hread : UnionType.read context input.text = .ok u) :
    (printed.print input.text u.alternatives).1 = answerTo context before input := by
  rw [answerTo, hread]
  cases hnumber : printed.register.number? u.alternatives with
  | some number =>
      obtain ⟨first, hfirst, htext⟩ := h.find?_eq_some hnumber
      simp [print_of_number hnumber, hfirst, htext]
  | none => simp [print_of_new hnumber, h.find?_eq_none hnumber]

/-! ## A whole run -/

open Output (answers_append remarks_append failed_append)

/-- What the run does with one input: it is refused, and only drawn, or its warnings are
drawn and it is printed.  The drawings do not depend on the inputs before it. -/
theorem runMembers_cons (context : Context) (color : Bool) (input : Input) :
    (∃ failure, UnionType.read context input.text = .error failure ∧
      ∀ printed rest, runMembers context color printed (input :: rest)
        = .failure color (failure.inFile input.file) ++ runMembers context color printed rest) ∨
    ∃ u warnings, UnionType.read context input.text = .ok u ∧
      warnings.answers = "" ∧ warnings.failed = false ∧
      ∀ printed rest, runMembers context color printed (input :: rest)
        = warnings ++ .answer (printed.print input.text u.alternatives).1
          ++ runMembers context color (printed.print input.text u.alternatives).2 rest := by
  cases hread : UnionType.read context input.text with
  | error failure =>
      refine Or.inl ⟨failure, rfl, fun printed rest => ?_⟩
      rw [runMembers, hread]
  | ok u =>
      refine Or.inr ⟨u, ?_⟩
      cases hwarnings : u.warnings? with
      | none =>
          refine ⟨{}, rfl, rfl, rfl, fun printed rest => ?_⟩
          rw [runMembers, hread]
          simp only [hwarnings]
      | some failure =>
          refine ⟨.warning color (failure.inFile input.file), rfl, rfl, rfl, fun printed rest => ?_⟩
          rw [runMembers, hread]
          simp only [hwarnings]

theorem answers_runMembers (h : Accounts context printed before) (inputs : List Input) :
    (runMembers context color printed inputs).answers
      = String.join (inputs.mapIdx fun place input =>
          answerTo context (before ++ inputs.take place) input) := by
  induction inputs generalizing printed before with
  | nil => rfl
  | cons input rest ih =>
      have htake : (fun place other =>
            answerTo context (before ++ (input :: rest).take (place + 1)) other)
          = fun place other => answerTo context (before ++ [input] ++ rest.take place) other := by
        funext place other
        rw [List.take_succ_cons, List.append_cons]
      rw [List.mapIdx_cons, String.join_cons, htake, List.take_zero, List.append_nil]
      obtain ⟨failure, hread, hstep⟩ | ⟨u, warnings, hread, hsilent, -, hstep⟩ :=
        runMembers_cons context color input
      · rw [hstep, answers_append, ih (h.refused hread), answerTo, hread]
        rfl
      · rw [hstep, answers_append, answers_append, hsilent, ih (h.print hread),
          ← h.print_fst hread, String.empty_append]
        rfl

theorem failed_runMembers (printed : Printed) (inputs : List Input) :
    (runMembers context color printed inputs).failed
      = inputs.any fun input => !isUnion context input := by
  induction inputs generalizing printed with
  | nil => rfl
  | cons input rest ih =>
      rw [List.any_cons]
      obtain ⟨failure, hread, hstep⟩ | ⟨u, warnings, hread, -, hsound, hstep⟩ :=
        runMembers_cons context color input
      · rw [hstep, failed_append, ih, isUnion_of_refused hread]
        rfl
      · rw [hstep, failed_append, failed_append, ih, isUnion_of_read hread, hsound]
        rfl

/-- The drawings for an input are those of a run over it alone. -/
theorem remarks_runMembers (printed : Printed) (inputs : List Input) :
    (runMembers context color printed inputs).remarks
      = String.join (inputs.map fun input =>
          (runMembers context color .empty [input]).remarks) := by
  induction inputs generalizing printed with
  | nil => rfl
  | cons input rest ih =>
      rw [List.map_cons, String.join_cons]
      obtain ⟨failure, -, hstep⟩ | ⟨u, warnings, -, -, -, hstep⟩ :=
        runMembers_cons context color input
      · have hone : (runMembers context color .empty [input]).remarks
            = (Output.failure color (failure.inFile input.file)).remarks := by
          rw [hstep]
          exact String.append_empty
        rw [hone, hstep, remarks_append, ih]
      · have hsilent (text : String) : (warnings ++ .answer text).remarks = warnings.remarks :=
          String.append_empty
        have hone : (runMembers context color .empty [input]).remarks = warnings.remarks := by
          rw [hstep, remarks_append, hsilent]
          exact String.append_empty
        rw [hone, hstep, remarks_append, hsilent, ih]

/-- The answers are those of a run that leaves the refused inputs out. -/
theorem answers_runMembers_filter (printed : Printed) (inputs : List Input) :
    (runMembers context color printed (inputs.filter (isUnion context))).answers
      = (runMembers context color printed inputs).answers := by
  induction inputs generalizing printed with
  | nil => rfl
  | cons input rest ih =>
      obtain ⟨failure, hread, hstep⟩ | ⟨u, warnings, hread, -, -, hstep⟩ :=
        runMembers_cons context color input
      · rw [List.filter_cons_of_neg (by simp [isUnion_of_refused hread]), ih, hstep,
          answers_append]
        exact String.empty_append.symm
      · rw [List.filter_cons_of_pos (isUnion_of_read hread), hstep, hstep, answers_append, ih,
          answers_append _ (runMembers _ _ _ rest)]

end

/-- The command prints, input after input, what `answerTo` says of each and the inputs
before it.  It fails exactly when an input is refused.  The refused inputs make no difference
to the answers for the others, nor do other inputs to what is drawn for one; and the text of
a union, which a repeated one is answered with, is not empty. -/
theorem answer_members (invocation : Invocation) (content : Except Unreadable String)
    {unions : List String} {file : Option String} {given : List Input}
    (hcommand : invocation.command = .members unions file)
    (hinputs : inputs unions file content = .ok given) :
    let context := invocation.context
    let response := (Request.run invocation).answer content
    let run := runMembers context invocation.color .empty
    response.stdout = String.join (given.mapIdx fun place input =>
      answerTo context (given.take place) input) ∧
    (response.exitCode = 1 ↔
      ∃ input ∈ given, ∃ failure, UnionType.read context input.text = .error failure) ∧
    (response.exitCode = 0 ↔ ∀ input ∈ given, isUnion context input = true) ∧
    (∀ before input,
      answerTo context (before.filter (isUnion context)) input = answerTo context before input) ∧
    response.stdout = (run (given.filter (isUnion context))).answers ∧
    response.stderr = String.join (given.map fun input => (run [input]).remarks) ∧
    ∀ input ∈ given, isUnion context input = true → input.text ≠ "" := by
  intro context response run
  have houtput : invocation.output content = run given := by
    simp only [Invocation.output, hcommand, hinputs]
    rfl
  have hstdout : response.stdout = (run given).answers := by
    rw [← houtput]
    rfl
  have hexit : response.exitCode = if (run given).failed then 1 else 0 := by
    rw [← houtput]
    rfl
  have hstderr : response.stderr = (run given).remarks := by
    rw [← houtput]
    rfl
  refine ⟨?_, ?_, ?_, answerTo_filter, ?_, ?_, ?_⟩
  · rw [hstdout, answers_runMembers accounts_empty]
    rfl
  · have hcode : response.exitCode = 1 ↔ (run given).failed = true := by
      rw [hexit]
      cases (run given).failed <;> decide
    simp only [hcode, run, failed_runMembers, List.any_eq_true, Bool.not_eq_true',
      isUnion_eq_false_iff, context]
  · have hcode : response.exitCode = 0 ↔ (run given).failed = false := by
      rw [hexit]
      cases (run given).failed <;> decide
    simp only [hcode, run, failed_runMembers, List.any_eq_false, Bool.not_eq_true',
      Bool.not_eq_false, context]
  · rw [hstdout, answers_runMembers_filter]
  · rw [hstderr, remarks_runMembers]
  · exact fun input _ hunion => text_ne_empty hunion

/-- A refused input, a new union, and the same one in another spelling. -/
theorem answer_members_respelled :
    let texts := ["OneOf<", "OneOf<int>", " OneOf<System.Int32>", "OneOf<int>"]
    let invocation : Invocation := ⟨.members texts none, false, {}⟩
    let given : List Input := [⟨"OneOf<", none⟩, ⟨"OneOf<int>", none⟩,
      ⟨"OneOf<System.Int32>", none⟩, ⟨"OneOf<int>", none⟩]
    let response := (Request.run invocation).answer (.ok "")
    invocation.command = .members texts none ∧ inputs texts none (.ok "") = .ok given ∧
      response.stdout = "OneOf<int>\n  hint: int\n  T0 int: IsInt, AsInt, MapInt, TryPickInt\n"
        ++ "OneOf<System.Int32>\n  duplicate of OneOf<int>\n"
        ++ "OneOf<int>\n  duplicate of OneOf<int>\n" ∧
      response.exitCode = 1 := by
  intro texts invocation given response
  have hinputs : inputs texts none (.ok "") = .ok given := by rfl
  obtain ⟨hstdout, hexit, -⟩ := answer_members invocation (.ok "") rfl hinputs
  refine ⟨rfl, hinputs, hstdout.trans (by decide +kernel), hexit.mpr ?_⟩
  exact ⟨_, List.mem_cons_self, _, rfl⟩

end CommandLine

end TypeNaming
