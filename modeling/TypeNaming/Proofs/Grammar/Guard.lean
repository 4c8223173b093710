/-
# What the guard is good for

The guard counts brackets and knows nothing else of the grammar.  Three things are said of
it here.

For any text that it lets through, in the grammar or not, nothing that is tried in reading
it has more bracket rules open than the limit, and a descent that may open no more of them
comes to the same (`staysWithin_of_depthGuard`).  A bracket rule is open from its bracket on:
one that is tried where the limit is reached does not find its bracket, and fails there.  The
reader that goes by tokens has a stack instead of a descent, and its height is the count of
the guard (`Reaches.height`).

For a text in the grammar, the guard refuses it exactly when its tree is nested too deep.

And the guard has no say in anything else: a text that it does not refuse is read in the same
way under every higher limit (`read_maxDepth`).
-/
import TypeNaming.Proofs.Grammar.Brackets
import TypeNaming.Proofs.Grammar.Faults

namespace TypeNaming.Signature

open Peg (Run Tries RunsTo)

/-! ## The stack of the reader -/

/-- From the state on the tokens the reader comes to the other state on what is left of
them. -/
inductive Reaches : State → List Token → State → List Token → Prop
  | here {state : State} {row : List Token} : Reaches state row state row
  | step {state next last : State} {token : Token} {row rest : List Token} :
      step state token = .more next → Reaches next row last rest →
      Reaches state (token :: row) last rest

theorem stepAfter_height {stack : List Frame} {element : Element} {token : Token} {next : State}
    (h : stepAfter stack element token = .more next) :
    next.stack.length = token.lexeme.depthAfter stack.length := by
  unfold stepAfter at h
  split at h
  all_goals cases h
  all_goals
    next hlexeme =>
        rw [hlexeme]
        rfl

theorem stepAfterType_height {stack : List Frame} {type : TypeExpr} {token : Token} {next : State}
    (h : stepAfterType stack type token = .more next) :
    next.stack.length = token.lexeme.depthAfter stack.length := by
  unfold stepAfterType at h
  split at h
  · next hlexeme =>
      split at h
      · obtain rfl := Step.more.inj h
        rw [hlexeme]
        rfl
      · cases h
  · exact stepAfter_height h

/-- One token: an opening bracket pushes a frame, and a closing one takes a frame off. -/
theorem step_height {state next : State} {token : Token} (h : step state token = .more next) :
    next.stack.length = token.lexeme.depthAfter state.stack.length := by
  unfold step at h
  split at h
  · split at h
    all_goals cases h
    all_goals
      next hlexeme =>
          rw [hlexeme]
          rfl
  · split at h
    case h_3 => exact stepAfterType_height h
    all_goals
      next hlexeme =>
          cases h
          rw [hlexeme]
          rfl
  · split at h
    case h_2 => exact stepAfterType_height h
    · next hlexeme =>
        cases h
        rw [hlexeme]
        rfl
  · exact stepAfterType_height h
  · exact stepAfter_height h

/-- A run: the height is what the tokens that were read count up to. -/
theorem Reaches.height {state last : State} {row rest : List Token}
    (h : Reaches state row last rest) :
    ∃ front, row = front ++ rest ∧ last.stack.length =
      (front.map (·.lexeme)).foldl Lexeme.depthAfter state.stack.length := by
  induction h with
  | here => exact ⟨[], rfl, rfl⟩
  | step hstep _ ih =>
      obtain ⟨front, rfl, hheight⟩ := ih
      refine ⟨_ :: front, rfl, ?_⟩
      rw [hheight, step_height hstep]
      rfl

theorem foldl_depthAfter_of_neutral {cs : List Char}
    (h : ∀ c ∈ cs, ∀ depth, depthAfter depth c = depth) (depth : Nat) :
    cs.foldl depthAfter depth = depth := by
  induction cs with
  | nil => rfl
  | cons c cs ih =>
      obtain ⟨hc, hcs⟩ := List.forall_mem_cons.mp h
      rw [List.foldl_cons, hc, ih hcs]

/-- The first tokens of a text count up to what the text before the others counts up to. -/
theorem Lexes.exists_front {pos : Nat} {text : List Char} {row : List Token}
    (h : Lexes pos text row) : ∀ {front rest : List Token}, row = front ++ rest →
      ∃ start, start <+: text ∧ ∀ depth, (front.map (·.lexeme)).foldl Lexeme.depthAfter depth
        = start.foldl depthAfter depth := by
  induction h with
  | done pos =>
      intro front rest hrow
      refine ⟨[], List.nil_prefix, fun depth => ?_⟩
      rcases List.singleton_eq_append_iff.mp hrow with ⟨rfl, -⟩ | ⟨rfl, -⟩
      · rfl
      · rfl
  | @blank pos c text row hc _ ih =>
      intro front rest hrow
      obtain ⟨start, hstart, hcount⟩ := ih hrow
      refine ⟨c :: start, (List.prefix_cons_inj c).mpr hstart, fun depth => ?_⟩
      rw [List.foldl_cons, neutral_of_space hc, hcount]
  | @mark pos c lexeme text row hc _ ih =>
      intro front rest hrow
      cases front with
      | nil => exact ⟨[], List.nil_prefix, fun _ => rfl⟩
      | cons token front =>
          obtain ⟨rfl, hrest⟩ := List.cons.inj hrow
          obtain ⟨start, hstart, hcount⟩ := ih hrest
          refine ⟨c :: start, (List.prefix_cons_inj c).mpr hstart, fun depth => ?_⟩
          rw [List.foldl_cons, depthAfter_of_punctuation hc, ← hcount]
          rfl
  | @path pos cs text row hpath _ ih =>
      intro front rest hrow
      cases front with
      | nil => exact ⟨[], List.nil_prefix, fun _ => rfl⟩
      | cons token front =>
          obtain ⟨rfl, hrest⟩ := List.cons.inj hrow
          obtain ⟨start, hstart, hcount⟩ := ih hrest
          refine ⟨cs ++ start, (List.prefix_append_right_inj cs).mpr hstart, fun depth => ?_⟩
          rw [List.foldl_append, foldl_depthAfter_of_neutral hpath.neutral, ← hcount]
          rfl
  | stray pos c text =>
      intro front rest hrow
      refine ⟨[], List.nil_prefix, fun depth => ?_⟩
      rcases List.singleton_eq_append_iff.mp hrow with ⟨rfl, -⟩ | ⟨rfl, -⟩
      · rfl
      · rfl

/-- The stack of the reader is never higher than the guard lets the count go. -/
theorem WithinDepth.height_le {limit : Nat} {text : List Char} (h : WithinDepth limit text)
    {state : State} {rest : List Token}
    (hreaches : Reaches State.initial (tokens text) state rest) : state.stack.length ≤ limit := by
  obtain ⟨front, hrow, hheight⟩ := hreaches.height
  obtain ⟨start, hstart, hcount⟩ := (lexes_tokensFrom text 0).exists_front hrow
  rw [hheight, hcount]
  exact h start hstart

/-! ## The descent -/

/-- Reading the text never goes deeper than the limit: not in what the grammar tries, which is
why a descent with so much fuel comes to the same, and not on the stack of the reader. -/
structure StaysWithin (limit : Nat) (text : List Char) : Prop where
  opened : ∀ {count : Nat} {e : Peg.Expr Rule} {there : List Char},
    Tries rules Rule.opens main text count e there → count ≤ limit
  full : ∀ {name : Rule} {there : List Char}, name.opens = true →
    Tries rules Rule.opens main text limit (.rule name) there → Run rules (.rule name) there none
  fuelled : ∀ outcome, Run rules main text outcome ↔
    RunsTo (rules.limited Rule.opens) (main.withFuel limit) text outcome
  height : ∀ {state : State} {rest : List Token},
    Reaches State.initial (tokens text) state rest → state.stack.length ≤ limit

theorem WithinDepth.opened_le {limit : Nat} {text : List Char} (h : WithinDepth limit text)
    {count : Nat} {e : Peg.Expr Rule} {there : List Char}
    (htries : Tries rules Rule.opens main text count e there) : count ≤ limit := by
  obtain ⟨front, rfl, rfl⟩ := open_eq_depth htries
  exact h front (List.prefix_append front there)

/-- A bracket rule that is tried where the limit is reached fails at its first character. -/
theorem WithinDepth.run_none {limit : Nat} {text : List Char} (h : WithinDepth limit text)
    {name : Rule} {there : List Char} (hname : name.opens = true)
    (htries : Tries rules Rule.opens main text limit (.rule name) there) :
    Run rules (.rule name) there none := by
  obtain ⟨bracket, inside, -, hbody, -⟩ := body_of_opens hname
  have hfirst : Run rules (literal bracket) there none := by
    cases there with
    | nil => exact .charEnd
    | cons c there =>
        refine .charFail (Bool.eq_false_iff.mpr fun hc => ?_)
        have hinside := htries.trans (.inside hname hbody hc .here)
        exact absurd (h.opened_le hinside) (Nat.not_succ_le_self limit)
  refine .ruleFail ?_
  show Run rules name.body there none
  rw [hbody]
  exact .seqFirst hfirst

theorem staysWithin_of_depthGuard {limit : Nat} {text : List Char}
    (h : depthGuard limit text = .ok ()) : StaysWithin limit text := by
  have hwithin := depthGuard_eq_ok_iff.mp h
  exact {
    opened := hwithin.opened_le
    full := hwithin.run_none
    fuelled := Peg.run_iff_limited bracketed_rules hwithin.opened_le
      (total_main text.length text le_rfl)
    height := hwithin.height_le }

/-! ## What the guard refuses -/

/-- The text is refused for its depth. -/
def RefusedTooDeep (context : Context) (source : String) : Prop :=
  ∃ fault, read context source = .error fault ∧ fault.cause.code = "P002"

theorem refusedTooDeep_iff {context : Context} {source : String} :
    RefusedTooDeep context source ↔ ¬ WithinDepth context.maxDepth source.toList := by
  constructor
  · rintro ⟨fault, hread, hcode⟩
    exact (reports_of_read hread).tooDeep.mp (congrArg some hcode)
  · intro hdeep
    obtain ⟨fault, hguard⟩ := exists_fault_of_not_withinDepth hdeep
    have hread : read context source = .error fault := read_eq_error_iff.mpr (.inl hguard)
    exact ⟨fault, hread, Option.some.inj ((reports_of_read hread).tooDeep.mpr hdeep)⟩

/-- A text that is refused for its depth is refused at the first bracket that is too deep. -/
theorem exists_bracket_of_refused {context : Context} {source : String} {fault : Fault}
    (h : read context source = .error fault) (hcode : fault.cause.code = "P002") :
    ∃ front bracket back, source.toList = front ++ bracket :: back ∧
      FirstTooDeep context.maxDepth front bracket ∧
      fault = ⟨.tooDeep context.maxDepth,
        ⟨Text.byteLength front, Text.byteLength (front ++ [bracket])⟩⟩ := by
  have hdeep := (reports_of_read h).tooDeep.mp (congrArg some hcode)
  rcases read_eq_error_iff.mp h with hguard | ⟨hwithin, -⟩
  · exact exists_firstTooDeep hguard
  · exact absurd hwithin hdeep

/-! ## Higher limits -/

mutual

/-- The limit has no part in what a type means. -/
theorem meaning_maxDepth (context : Context) (limit : Nat) (source : List Char) :
    ∀ expr : TypeExpr, meaning { context with maxDepth := limit } source expr
      = meaning context source expr
  | .named path args span mark => by
      rw [meaning, meaning, meanings_maxDepth context limit source args]
      rfl
  | .tuple elements span mark => by
      rw [meaning, meaning, elementMeanings_maxDepth context limit source [] elements]

theorem meanings_maxDepth (context : Context) (limit : Nat) (source : List Char) :
    ∀ exprs : List TypeExpr, meanings { context with maxDepth := limit } source exprs
      = meanings context source exprs
  | [] => rfl
  | expr :: exprs => by
      rw [meanings, meanings, meaning_maxDepth context limit source expr,
        meanings_maxDepth context limit source exprs]

theorem elementMeanings_maxDepth (context : Context) (limit : Nat) (source : List Char)
    (seen : List String) : ∀ elements : List Element,
      elementMeanings { context with maxDepth := limit } source seen elements
        = elementMeanings context source seen elements
  | [] => rfl
  | .mk expr label :: elements => by
      rw [elementMeanings, elementMeanings, meaning_maxDepth context limit source expr]
      simp only [elementMeanings_maxDepth context limit source _ elements]

end

theorem WithinDepth.mono {limit limit' : Nat} {text : List Char} (h : WithinDepth limit text)
    (hle : limit ≤ limit') : WithinDepth limit' text :=
  fun front hfront => Nat.le_trans (h front hfront) hle

/-- What is read of a text within the limit. -/
theorem read_of_withinDepth {context : Context} {source : String}
    (h : WithinDepth context.maxDepth source.toList) :
    read context source = readExpr source.toList >>= meaning context source.toList := by
  show (depthGuard context.maxDepth source.toList >>= fun _ => _) = _
  rw [depthGuard_eq_ok_iff.mpr h]
  rfl

/-- A text that is not refused for its depth is read in the same way under a higher limit. -/
theorem read_maxDepth {context : Context} {source : String} {limit : Nat}
    (hle : context.maxDepth ≤ limit) (h : ¬ RefusedTooDeep context source) :
    read { context with maxDepth := limit } source = read context source := by
  have hwithin := not_not.mp (mt refusedTooDeep_iff.mpr h)
  rw [read_of_withinDepth hwithin,
    @read_of_withinDepth { context with maxDepth := limit } source (hwithin.mono hle)]
  exact congrArg _ (funext (meaning_maxDepth context limit source.toList))

/-! ## The guard -/

/-- What the guard lets through stays within the limit, whatever the text is; what it refuses
in the grammar is what is nested too deep, and it says where; and a higher limit changes
nothing else. -/
theorem guard_sound (context : Context) (source : String) :
    (depthGuard context.maxDepth source.toList = .ok () →
      StaysWithin context.maxDepth source.toList) ∧
    (∀ lexemes written, Cut source.toList lexemes → Derives written lexemes →
      (RefusedTooDeep context source ↔ context.maxDepth < written.nesting) ∧
      ∀ front, front <+: source.toList →
        front.foldl depthAfter 0 + front.countP isClosing = front.countP isOpening) ∧
    (∀ fault, read context source = .error fault → fault.cause.code = "P002" →
      ∃ front bracket back, source.toList = front ++ bracket :: back ∧
        FirstTooDeep context.maxDepth front bracket ∧
        fault = ⟨.tooDeep context.maxDepth,
          ⟨Text.byteLength front, Text.byteLength (front ++ [bracket])⟩⟩) ∧
    ∀ limit, context.maxDepth ≤ limit → ¬ RefusedTooDeep context source →
      read { context with maxDepth := limit } source = read context source := by
  refine ⟨staysWithin_of_depthGuard, fun lexemes written hcut hderives => ⟨?_, ?_⟩,
    fun fault => exists_bracket_of_refused, fun limit => read_maxDepth⟩
  · rw [refusedTooDeep_iff, withinDepth_iff_nesting (hderives.eq_row ▸ hcut), Nat.not_le]
  · exact fun front => Accepts.counts (accepts_iff.mpr ⟨lexemes, written, hcut, hderives, rfl⟩)

/-- A text that breaks off inside two brackets, under a limit of two. -/
theorem guard_sound_unfinished :
    let context : Context := { maxDepth := 2 }
    let source := "A<(B, C>("
    depthGuard context.maxDepth source.toList = .ok () ∧
      StaysWithin context.maxDepth source.toList ∧
      read { context with maxDepth := 3 } source = read context source := by
  intro context source
  have hguard : depthGuard context.maxDepth source.toList = .ok () := by decide
  have hread : ¬ RefusedTooDeep context source := by
    rw [refusedTooDeep_iff]
    exact not_not_intro (depthGuard_eq_ok_iff.mp hguard)
  obtain ⟨hstays, -, -, hlimit⟩ := guard_sound context source
  exact ⟨hguard, hstays hguard, hlimit 3 (by decide) hread⟩

/-- A bracket that closes nothing makes no room for one that opens. -/
example : depthGuard 1 ">>A<B<C>>".toList = .error ⟨.tooDeep 1, ⟨5, 6⟩⟩ := by decide

end TypeNaming.Signature
