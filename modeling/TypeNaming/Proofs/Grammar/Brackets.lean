/-
# The counter of the guard counts the open rules

The brackets of a text are counted before it is read, by a scan that knows nothing of the
grammar and stays at zero when a bracket is closed that was not open.  Reading opens and
closes rules by ordered choice, and undoes what has failed.  All the same, whenever anything
is tried at a place of any text, the counter stands there at the number of bracket rules that
are open (`open_eq_depth`).

The reason is in the grammar alone.  A rule takes as many opening brackets as closing ones,
in an order in which none is closed before it was opened (`moves_body`); so all that has been
read and kept leaves the counter as it was, but for the opening brackets of the rules that
are open still (`even_body`, `even_inside`).  What has failed has been read over the same
text, and has left no trace.

In a text that is in the grammar the counter never stays at zero, so it is the number of
opening brackets less that of closing ones (`Accepts.counts`).
-/
import TypeNaming.Proofs.Grammar.Attempts
import TypeNaming.Proofs.Grammar.Descent
import TypeNaming.Proofs.RoundTrip.Nesting

namespace TypeNaming.Signature

open Peg (Expr ParseTree Outcome Run Tries)

/-! ## Counting brackets -/

/-- An opening bracket. -/
def isOpening (c : Char) : Bool := c = '<' || c = '('

/-- A closing bracket. -/
def isClosing (c : Char) : Bool := c = '>' || c = ')'

/-- The text leaves `stop` brackets open where it finds `start`, and closes no others. -/
structure Balanced (start stop : Nat) (text : List Char) : Prop where
  ends : ∀ depth, text.foldl depthAfter (depth + start) = depth + stop
  counts : ∀ front, front <+: text → ∀ depth,
    front.foldl depthAfter (depth + start) + front.countP isClosing
      = depth + start + front.countP isOpening

theorem Balanced.nil (start : Nat) : Balanced start start [] where
  ends _ := rfl
  counts front hfront depth := by
    obtain rfl := List.prefix_nil.mp hfront
    rfl

theorem Balanced.append {start middle stop : Nat} {text others : List Char}
    (h : Balanced start middle text) (h' : Balanced middle stop others) :
    Balanced start stop (text ++ others) where
  ends depth := by rw [List.foldl_append, h.ends, h'.ends]
  counts front hfront depth := by
    obtain ⟨back, hback⟩ := hfront
    rcases List.append_eq_append_iff.mp hback with ⟨more, rfl, -⟩ | ⟨more, rfl, rfl⟩
    · exact h.counts front (List.prefix_append front more) depth
    · have hall := h.counts text List.prefix_rfl depth
      have hmore := h'.counts more (List.prefix_append more back) depth
      rw [h.ends] at hall
      rw [List.foldl_append, h.ends, List.countP_append, List.countP_append]
      omega

/-- Brackets around the text do not matter. -/
theorem Balanced.lift {start stop : Nat} {text : List Char} (h : Balanced start stop text)
    (outer : Nat) : Balanced (outer + start) (outer + stop) text where
  ends depth := by rw [← Nat.add_assoc, h.ends, Nat.add_assoc]
  counts front hfront depth := by rw [← Nat.add_assoc, h.counts front hfront]

theorem Balanced.singleton {c : Char} {start stop : Nat}
    (hends : ∀ depth, depthAfter (depth + start) c = depth + stop)
    (hcounts : stop + [c].countP isClosing = start + [c].countP isOpening) :
    Balanced start stop [c] where
  ends := hends
  counts front hfront depth := by
    rcases List.prefix_cons_iff.mp hfront with rfl | ⟨others, rfl, hothers⟩
    · rfl
    · obtain rfl := List.prefix_nil.mp hothers
      rw [List.foldl_cons, List.foldl_nil, hends, Nat.add_assoc, hcounts, Nat.add_assoc]

theorem balanced_neutral {c : Char} (h : c ∉ ['<', '>', '(', ')']) (start : Nat) :
    Balanced start start [c] := by
  refine .singleton (fun depth => depthAfter_neutral h _) ?_
  simp only [List.mem_cons, List.not_mem_nil, or_false, not_or] at h
  simp [isOpening, isClosing, h]

theorem isOpening_iff {c : Char} : isOpening c = true ↔ c = '<' ∨ c = '(' := by
  simp [isOpening]

theorem isClosing_iff {c : Char} : isClosing c = true ↔ c = '>' ∨ c = ')' := by
  simp [isClosing]

theorem depthAfter_opening {c : Char} (h : isOpening c = true) (depth : Nat) :
    depthAfter depth c = depth + 1 :=
  if_pos (isOpening_iff.mp h)

theorem balanced_opening {c : Char} (h : isOpening c = true) (start : Nat) :
    Balanced start (start + 1) [c] := by
  refine .singleton (fun depth => depthAfter_opening h _) ?_
  have hother : isClosing c = false := by
    rcases isOpening_iff.mp h with rfl | rfl <;> rfl
  simp [h, hother]

theorem balanced_closing {c : Char} (h : isClosing c = true) (start : Nat) :
    Balanced (start + 1) start [c] := by
  refine .singleton (fun depth => ?_) ?_
  · rcases isClosing_iff.mp h with rfl | rfl <;> rfl
  · have hother : isOpening c = false := by
      rcases isClosing_iff.mp h with rfl | rfl <;> rfl
    simp [h, hother]

/-! ## What a rule does to the counter -/

/-- What the expression takes is balanced, as far as its characters say. -/
inductive Moves : Expr Rule → Nat → Nat → Prop
  | endOfText {start : Nat} : Moves .endOfText start start
  | char {accepts : Char → Bool} {start stop : Nat} :
      (∀ c, accepts c = true → Balanced start stop [c]) → Moves (.char accepts) start stop
  | rule {name : Rule} {start : Nat} : Moves (.rule name) start start
  | seq {first second : Expr Rule} {start middle stop : Nat} :
      Moves first start middle → Moves second middle stop → Moves (.seq first second) start stop
  | choice {first second : Expr Rule} {start stop : Nat} :
      Moves first start stop → Moves second start stop → Moves (.choice first second) start stop
  | option {inner : Expr Rule} {start : Nat} :
      Moves inner start start → Moves (.option inner) start start
  | star {inner : Expr Rule} {start : Nat} :
      Moves inner start start → Moves (.star inner) start start

section

variable {start middle stop : Nat}

/-- A class of characters without brackets. -/
theorem moves_class {accepts : Char → Bool}
    (h : ['<', '>', '(', ')'].all (fun c => !accepts c) = true) :
    Moves (.char accepts) start start := by
  refine .char fun c hc => balanced_neutral (fun hbracket => ?_) start
  have hother := List.all_eq_true.mp h c hbracket
  rw [hc] at hother
  cases hother

theorem moves_blanks : Moves blanks start start := .star (moves_class (by decide))

theorem moves_andThen {first second : Expr Rule} (h : Moves first start middle)
    (h' : Moves second middle stop) : Moves (andThen first second) start stop :=
  .seq h (.seq moves_blanks h')

theorem moves_literal {c : Char} (h : Balanced start stop [c]) : Moves (literal c) start stop :=
  .char fun d hd => by
    obtain rfl : d = c := by simpa using hd
    exact h

theorem moves_commaThen (item : Rule) : Moves (commaThen item) start start :=
  moves_andThen (moves_literal (balanced_neutral (by decide) start)) .rule

theorem moves_many {e : Expr Rule} (h : Moves e start start) : Moves (many e) start start :=
  .option (.seq h (.star (.seq moves_blanks h)))

theorem moves_opening {c : Char} (h : isOpening c = true) :
    Moves (literal c) start (start + 1) :=
  moves_literal (balanced_opening h start)

theorem moves_closing {c : Char} (h : isClosing c = true) :
    Moves (literal c) (start + 1) start :=
  moves_literal (balanced_closing h start)

theorem moves_neutral {c : Char} (h : c ∉ ['<', '>', '(', ')']) : Moves (literal c) start start :=
  moves_literal (balanced_neutral h start)

end

/-- A rule closes the brackets that it opens. -/
theorem moves_body (name : Rule) : Moves name.body 0 0 := by
  cases name with
  | signature => exact moves_andThen (.choice .rule .rule) (.option .rule)
  | nullable => exact moves_neutral (by decide)
  | tuple =>
      exact moves_andThen (moves_opening rfl) (moves_andThen .rule (moves_andThen
        (moves_andThen (moves_commaThen _) (moves_many (moves_commaThen _))) (moves_closing rfl)))
  | element => exact moves_andThen .rule (.option .rule)
  | label => exact .rule
  | named => exact moves_andThen .rule (.option .rule)
  | typeArgs =>
      exact moves_andThen (moves_opening rfl) (moves_andThen .rule (moves_andThen
        (moves_many (moves_commaThen _)) (moves_closing rfl)))
  | path => exact .seq .rule (.star (.seq (moves_neutral (by decide)) .rule))
  | ident => exact .seq (moves_class (by decide)) (.star (moves_class (by decide)))

theorem moves_main : Moves main 0 0 :=
  .seq moves_blanks (.seq .rule (.seq moves_blanks .endOfText))

/-- What an attempt takes is balanced. -/
theorem Moves.balanced {e : Expr Rule} {cs : List Char} {outcome : Outcome Rule}
    (hrun : Run rules e cs outcome) : ∀ {trees : List (ParseTree Rule)} {rest : List Char},
      outcome = some (trees, rest) → ∀ {start stop : Nat}, Moves e start stop →
        ∃ taken, cs = taken ++ rest ∧ Balanced start stop taken := by
  induction hrun with
  | atEnd =>
      rintro trees rest ⟨⟩ start stop hmoves
      cases hmoves with
      | endOfText => exact ⟨[], rfl, .nil _⟩
  | char hc =>
      rintro trees rest ⟨⟩ start stop hmoves
      cases hmoves with
      | char h => exact ⟨[_], rfl, h _ hc⟩
  | @leaf name _ _ _ _ _ _ _ ih =>
      rintro trees rest ⟨⟩ start stop hmoves
      obtain ⟨taken, htaken, hbalanced⟩ := ih rfl (moves_body name)
      cases hmoves with
      | rule => exact ⟨taken, htaken, hbalanced.lift _⟩
  | @node name _ _ _ _ _ ih =>
      rintro trees rest ⟨⟩ start stop hmoves
      obtain ⟨taken, htaken, hbalanced⟩ := ih rfl (moves_body name)
      cases hmoves with
      | rule => exact ⟨taken, htaken, hbalanced.lift _⟩
  | seq _ _ ih₁ ih₂ =>
      rintro trees rest ⟨⟩ start stop hmoves
      cases hmoves with
      | seq h₁ h₂ =>
          obtain ⟨taken, rfl, hbalanced⟩ := ih₁ rfl h₁
          obtain ⟨more, rfl, hmore⟩ := ih₂ rfl h₂
          exact ⟨taken ++ more, (List.append_assoc ..).symm, hbalanced.append hmore⟩
  | choiceFirst _ ih =>
      rintro trees rest ⟨⟩ start stop hmoves
      cases hmoves with
      | choice h₁ _ => exact ih rfl h₁
  | choiceSecond _ _ _ ih =>
      intro trees rest houtcome start stop hmoves
      cases hmoves with
      | choice _ h₂ => exact ih houtcome h₂
  | option _ ih =>
      rintro trees rest ⟨⟩ start stop hmoves
      cases hmoves with
      | option h => exact ih rfl h
  | optionNone _ _ =>
      rintro trees rest ⟨⟩ start stop hmoves
      cases hmoves with
      | option _ => exact ⟨[], rfl, .nil _⟩
  | starMore _ _ ih₁ ih₂ =>
      rintro trees rest ⟨⟩ start stop hmoves
      cases hmoves with
      | star h =>
          obtain ⟨taken, rfl, hbalanced⟩ := ih₁ rfl h
          obtain ⟨more, rfl, hmore⟩ := ih₂ rfl (.star h)
          exact ⟨taken ++ more, (List.append_assoc ..).symm, hbalanced.append hmore⟩
  | starDone _ _ =>
      rintro trees rest ⟨⟩ start stop hmoves
      cases hmoves with
      | star _ => exact ⟨[], rfl, .nil _⟩
  | _ => rintro trees rest ⟨⟩

/-- In a text of the grammar the counter is the number of opening brackets less that of
closing ones, wherever it stands. -/
theorem Accepts.counts {text : List Char} {tree : ParseTree Rule} (h : Accepts text tree)
    {front : List Char} (hfront : front <+: text) :
    front.foldl depthAfter 0 + front.countP isClosing = front.countP isOpening := by
  obtain ⟨taken, htaken, hbalanced⟩ := moves_main.balanced h rfl
  rw [List.append_nil] at htaken
  simpa using hbalanced.counts front (htaken ▸ hfront) 0

/-! ## What is open where something is tried -/

/-- The rules that open a bracket. -/
def Rule.opens : Rule → Bool
  | .tuple => true
  | .typeArgs => true
  | _ => false

/-- In a sequence of the expression, every part but the last closes the brackets it opens. -/
def Even : Expr Rule → Prop
  | .seq first second => Moves first 0 0 ∧ Even first ∧ Even second
  | .choice first second => Even first ∧ Even second
  | .option inner => Even inner
  | .star inner => Moves inner 0 0 ∧ Even inner
  | _ => True

theorem even_blanks : Even blanks := ⟨moves_class (by decide), trivial⟩

theorem even_andThen {first second : Expr Rule} (h : Moves first 0 0) (hfirst : Even first)
    (hsecond : Even second) : Even (andThen first second) :=
  ⟨h, hfirst, moves_blanks, even_blanks, hsecond⟩

theorem even_commaThen (item : Rule) : Even (commaThen item) :=
  even_andThen (moves_neutral (by decide)) trivial trivial

theorem even_many (item : Rule) : Even (many (commaThen item)) := by
  have hitem : Moves (commaThen item) 0 0 := moves_commaThen item
  exact ⟨hitem, even_commaThen item, .seq moves_blanks hitem, moves_blanks, even_blanks,
    even_commaThen item⟩

theorem even_body {name : Rule} (h : name.opens = false) : Even name.body := by
  cases name with
  | signature => exact even_andThen (.choice .rule .rule) ⟨trivial, trivial⟩ trivial
  | nullable => exact trivial
  | tuple => cases h
  | element => exact even_andThen .rule trivial trivial
  | label => exact trivial
  | named => exact even_andThen .rule trivial trivial
  | typeArgs => cases h
  | path =>
      have hdot : Moves dotIdent 0 0 := .seq (moves_neutral (by decide)) .rule
      exact ⟨.rule, trivial, hdot, moves_neutral (by decide), trivial, trivial⟩
  | ident => exact ⟨moves_class (by decide), trivial, moves_class (by decide), trivial⟩

/-- A rule that opens a bracket takes it first, and what follows is even. -/
theorem body_of_opens {name : Rule} (h : name.opens = true) :
    ∃ bracket inside, isOpening bracket = true ∧
      name.body = .seq (literal bracket) inside ∧ Even inside := by
  have hmany (item : Rule) : Moves (many (commaThen item)) 0 0 := moves_many (moves_commaThen item)
  cases name with
  | tuple =>
      have hmany1 : Even (many1 (commaThen .element)) :=
        even_andThen (moves_commaThen _) (even_commaThen _) (even_many _)
      have hmoves : Moves (many1 (commaThen .element)) 0 0 :=
        moves_andThen (moves_commaThen _) (hmany _)
      exact ⟨'(', _, rfl, rfl, moves_blanks, even_blanks,
        even_andThen .rule trivial (even_andThen hmoves hmany1 trivial)⟩
  | typeArgs =>
      exact ⟨'<', _, rfl, rfl, moves_blanks, even_blanks,
        even_andThen .rule trivial (even_andThen (hmany _) (even_many _) trivial)⟩
  | _ => cases h

/-- Where something is tried, the counter has gone up by the number of rules that are open. -/
theorem counted_of_tries {e e' : Expr Rule} {cs there : List Char} {count : Nat}
    (h : Tries rules Rule.opens e cs count e' there) : Even e →
      ∃ front, cs = front ++ there ∧ ∀ depth, front.foldl depthAfter depth = depth + count := by
  induction h with
  | here => exact fun _ => ⟨[], rfl, fun _ => rfl⟩
  | rule hname _ ih => exact fun _ => ih (even_body hname)
  | opening => exact fun _ => ⟨[], rfl, fun _ => rfl⟩
  | @inside name bracket inside c cs there count e hname hbody hc _ ih =>
      intro _
      obtain ⟨opening, rest, hopening, hown, heven⟩ := body_of_opens hname
      obtain ⟨hfirst, rfl⟩ := Expr.seq.inj (hbody.symm.trans hown)
      obtain rfl : c = opening := by simpa [Expr.char.inj hfirst] using hc
      obtain ⟨front, rfl, hcount⟩ := ih heven
      refine ⟨c :: front, rfl, fun depth => ?_⟩
      rw [List.foldl_cons, depthAfter_opening hopening, hcount, Nat.add_right_comm, Nat.add_assoc]
  | first _ ih => exact fun heven => ih heven.2.1
  | second hfirst _ ih =>
      intro heven
      obtain ⟨taken, rfl, hbalanced⟩ := heven.1.balanced hfirst rfl
      obtain ⟨front, rfl, hcount⟩ := ih heven.2.2
      refine ⟨taken ++ front, (List.append_assoc ..).symm, fun depth => ?_⟩
      rw [List.foldl_append, show taken.foldl depthAfter depth = depth from hbalanced.ends depth,
        hcount]
  | choiceFirst _ ih => exact fun heven => ih heven.1
  | choiceSecond _ _ ih => exact fun heven => ih heven.2
  | option _ ih => exact ih
  | star _ ih => exact fun heven => ih heven.2
  | round hinner _ ih =>
      intro heven
      obtain ⟨taken, rfl, hbalanced⟩ := heven.1.balanced hinner rfl
      obtain ⟨front, rfl, hcount⟩ := ih heven
      refine ⟨taken ++ front, (List.append_assoc ..).symm, fun depth => ?_⟩
      rw [List.foldl_append, show taken.foldl depthAfter depth = depth from hbalanced.ends depth,
        hcount]

theorem even_main : Even main :=
  ⟨moves_blanks, even_blanks, .rule, trivial, moves_blanks, even_blanks, trivial⟩

/-- Whatever is tried in a text, the number of rules that are open is what the counter of the
guard says of the text before it. -/
theorem open_eq_depth {text there : List Char} {count : Nat} {e : Expr Rule}
    (h : Tries rules Rule.opens main text count e there) :
    ∃ front, text = front ++ there ∧ front.foldl depthAfter 0 = count := by
  obtain ⟨front, htext, hcount⟩ := counted_of_tries h even_main
  exact ⟨front, htext, (hcount 0).trans (Nat.zero_add count)⟩

/-- The rules that open a bracket take it first. -/
theorem bracketed_rules : Peg.Bracketed rules Rule.opens := by
  intro name hname
  obtain ⟨bracket, inside, -, hbody, -⟩ := body_of_opens hname
  exact ⟨_, inside, hbody⟩

end TypeNaming.Signature
