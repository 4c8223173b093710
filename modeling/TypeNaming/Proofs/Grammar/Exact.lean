/-
# The language of signatures

What `Signature.read` accepts, and what it answers, with the three conditions side
by side: the brackets are not nested too deep, the text is derivable in the grammar,
and the derivation has no violation.  The answer is what the derivation denotes,
with the places of its parts as notes.

The three stages of the reader are three equivalences, `depthGuard_eq_ok_iff`,
`parse_eq_ok_iff` and `meaning_eq_ok_iff`, and the language is their conjunction.
The second stage is also the greedy grammar of `Rules`: both find the derivations of
the lexemes of the text, so each finds what the other does.
-/
import TypeNaming.Signature.Read
import TypeNaming.Proofs.Grammar.Denotation
import TypeNaming.Proofs.Grammar.Descent

namespace TypeNaming.Signature

/-- The count of open brackets never passes the limit. -/
def WithinDepth (limit : Nat) (text : List Char) : Prop :=
  ∀ front, front <+: text → front.foldl depthAfter 0 ≤ limit

theorem firstTooDeepFrom_eq_none_iff {limit : Nat} : ∀ {text : List Char} {pos depth : Nat},
    depth ≤ limit → (firstTooDeepFrom limit pos depth text = none ↔
      ∀ front, front <+: text → front.foldl depthAfter depth ≤ limit)
  | [], pos, depth, h => by simp [firstTooDeepFrom, h]
  | c :: text, pos, depth, h => by
      rw [firstTooDeepFrom]
      split
      · next hdeep =>
          constructor
          · intro h
            cases h
          · intro hfront
            have hc : depthAfter depth c ≤ limit := hfront [c] ⟨text, rfl⟩
            omega
      · next hdeep =>
          rw [firstTooDeepFrom_eq_none_iff (by omega)]
          constructor
          · rintro hfront front ⟨back, heq⟩
            cases front with
            | nil => exact h
            | cons d front =>
                obtain ⟨rfl, rfl⟩ := List.cons.inj heq
                exact hfront front ⟨back, rfl⟩
          · rintro hfront front ⟨back, rfl⟩
            exact hfront (c :: front) ⟨back, rfl⟩

theorem depthGuard_eq_ok_iff {limit : Nat} {text : List Char} :
    depthGuard limit text = .ok () ↔ WithinDepth limit text := by
  have h : firstTooDeepFrom limit 0 0 text = none ↔ WithinDepth limit text :=
    firstTooDeepFrom_eq_none_iff (Nat.zero_le limit)
  rw [← h, depthGuard, firstTooDeep?]
  cases firstTooDeepFrom limit 0 0 text <;> simp

theorem readExpr_eq_ok_iff {text : List Char} {expr : TypeExpr} :
    readExpr text = .ok expr ↔ parse text = .ok expr := by
  unfold readExpr
  cases parse text <;> simp

theorem read_eq_ok_iff {context : Context} {source : String} {signature : Signature} :
    read context source = .ok signature ↔
      WithinDepth context.maxDepth source.toList ∧ ∃ expr, parse source.toList = .ok expr ∧
        meaning context source.toList expr = .ok signature := by
  simp only [← depthGuard_eq_ok_iff, ← readExpr_eq_ok_iff]
  show (depthGuard context.maxDepth source.toList >>= fun _ => readExpr source.toList >>=
    meaning context source.toList) = _ ↔ _
  cases depthGuard context.maxDepth source.toList with
  | error fault => simp [bind, Except.bind]
  | ok _ => cases readExpr source.toList <;> simp [bind, Except.bind]

theorem denotes_of_read {context : Context} {source : String} {signature : Signature}
    (h : read context source = .ok signature) :
    WithinDepth context.maxDepth source.toList ∧
      ∃ lexemes written, Cut source.toList lexemes ∧ Derives written lexemes ∧
        ¬ Violation context written ∧ signature.bare = denote context written := by
  obtain ⟨hdepth, expr, hparse, hmeaning⟩ := read_eq_ok_iff.mp h
  obtain ⟨lexemes, hcut, hderives⟩ := derives_of_parse hparse
  obtain ⟨hsound, htype⟩ := (meaning_eq_ok_iff context source.toList expr _).mp
    ⟨signature, hmeaning, rfl⟩
  exact ⟨hdepth, lexemes, expr.written, hcut, hderives, hsound, htype⟩

theorem read_of_denotes {context : Context} {source : String} {lexemes : List Lexeme}
    {written : Written} (hdepth : WithinDepth context.maxDepth source.toList)
    (hcut : Cut source.toList lexemes) (hderives : Derives written lexemes)
    (hsound : ¬ Violation context written) :
    ∃ signature, read context source = .ok signature ∧
      signature.bare = denote context written := by
  obtain ⟨expr, hparse, rfl⟩ := parse_of_derives hcut hderives
  obtain ⟨signature, hmeaning, htype⟩ :=
    (meaning_eq_ok_iff context source.toList expr _).mpr ⟨hsound, rfl⟩
  exact ⟨signature, read_eq_ok_iff.mpr ⟨hdepth, expr, hparse, hmeaning⟩, htype⟩

/-- The reader finds what the grammar finds. -/
theorem parse_iff_accepts {text : List Char} {tree : Peg.ParseTree Rule} :
    (∃ expr, parse text = .ok expr ∧ tree = expr.written.tree) ↔ Accepts text tree := by
  rw [accepts_iff]
  constructor
  · rintro ⟨expr, hparse, rfl⟩
    obtain ⟨lexemes, hcut, hderives⟩ := parse_eq_ok_iff.mp ⟨expr, hparse, rfl⟩
    exact ⟨lexemes, expr.written, hcut, hderives, rfl⟩
  · rintro ⟨lexemes, written, hcut, hderives, rfl⟩
    obtain ⟨expr, hparse, rfl⟩ := parse_eq_ok_iff.mpr ⟨lexemes, hcut, hderives⟩
    exact ⟨expr, hparse, rfl⟩

/-- A text is read exactly when its brackets are within the limit, its lexemes are
derivable as a type, and that type has no violation; the answer is what the type
denotes.  The greedy grammar finds the derivable types, and nothing else. -/
theorem read_iff_denotes (context : Context) (source : String) :
    (∀ type : TypeFacts Unit,
      (∃ signature, read context source = .ok signature ∧ signature.bare = type) ↔
        WithinDepth context.maxDepth source.toList ∧
          ∃ lexemes written, Cut source.toList lexemes ∧ Derives written lexemes ∧
            ¬ Violation context written ∧ type = denote context written) ∧
      ∀ tree, Accepts source.toList tree ↔
        ∃ lexemes written, Cut source.toList lexemes ∧ Derives written lexemes ∧
          tree = written.tree := by
  refine ⟨fun type => ?_, fun tree => accepts_iff⟩
  constructor
  · rintro ⟨signature, hread, rfl⟩
    exact denotes_of_read hread
  · rintro ⟨hdepth, lexemes, written, hcut, hderives, hsound, rfl⟩
    exact read_of_denotes hdepth hcut hderives hsound

/-- Whether the text is read as a type that passes the test. -/
def readsAs (context : Context) (source : String) (test : Signature → Bool) : Bool :=
  match read context source with
  | .ok signature => test signature
  | .error _ => false

theorem exists_of_readsAs {context : Context} {source : String} {test : Signature → Bool}
    (h : readsAs context source test = true) :
    ∃ signature, read context source = .ok signature ∧ test signature = true := by
  unfold readsAs at h
  split at h
  · next signature hread => exact ⟨signature, hread, h⟩
  · cases h

end TypeNaming.Signature
