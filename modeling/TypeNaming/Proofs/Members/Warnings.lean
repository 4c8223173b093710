/-
# Warnings point at the alternatives that they number

The alternatives of a union are the trees of its arguments, and the places are looked up
among the arguments too, by the position of the alternative.  So an alternative is what is
read at its place (`readAt_placeOf`), and of two alternatives the one with the smaller
position is written first (`placeOf_precedes`).  Nothing is left out in between: an argument
that is an open type parameter is an alternative like any other, and a `?` behind the union
leaves its arguments as they are.

A warning is given for each collision, and it points at the places of the two alternatives
that it numbers (`Warns`).  That its range shows the quoted name would not be enough: a third
alternative can have that name too.  Which collisions there are is said in `Collisions`, from
the readable names alone; here they meet the text.
-/
import TypeNaming.Proofs.Grammar.Locality
import TypeNaming.Proofs.Identity.Reuse
import TypeNaming.Proofs.Members.Collisions

namespace TypeNaming

/-! ## What is written at a place -/

namespace Signature

/-- The range is cut between characters, and what is written there is read on its own as a
type with the tree. -/
def ReadAt (context : Context) (source : String) (span : Span) (t : NameTree) : Prop :=
  ∃ front piece back, source.toList = front ++ piece ++ back ∧
    Text.byteLength front = span.start ∧ Text.byteLength (front ++ piece) = span.stop ∧
    ∃ own, read context (String.ofList piece) = .ok own ∧ own.toNameTree = t

/-- The tree of a type does not depend on where the type stands. -/
theorem toNameTree_shift (d : Nat) (signature : Signature) :
    (signature.shift d).toNameTree = signature.toNameTree := by
  rw [shift, ← TypeFacts.toNameTree_bare, TypeFacts.bare_mapNote, TypeFacts.toNameTree_bare]

theorem StandsAlone.readAt {context : Context} {source : String} {signature : Signature}
    (h : StandsAlone context source.toList signature) :
    ReadAt context source signature.span signature.toNameTree := by
  obtain ⟨front, piece, back, htext, hstart, hstop, own, hown, hsame⟩ := h
  refine ⟨front, piece, back, htext, hstart, hstop, own, hown, ?_⟩
  conv_rhs => rw [← hsame, toNameTree_shift]

end Signature

namespace UnionType

open Signature (ReadAt)

variable {context : Context} {source : String} {u : UnionType}

/-! ## Places of alternatives -/

theorem source_of_read (h : read context source = .ok u) : u.source = source := by
  unfold read at h
  split at h
  · cases h
  · split at h
    · obtain rfl := Except.ok.inj h
      rfl
    · cases h

/-- Every argument is an alternative. -/
theorem size_of_read (h : read context source = .ok u) :
    u.alternatives.size = u.signature.args.length := by
  rw [Alternatives.size, alternatives_of_read h, List.length_map]

theorem placeOf_of_arg {index : Nat} {arg : Signature} (h : u.signature.args[index]? = some arg) :
    u.placeOf index = arg.span := by
  rw [placeOf, h]
  rfl

theorem placeOf_of_length_le {index : Nat} (h : u.signature.args.length ≤ index) :
    u.placeOf index = u.signature.span := by
  rw [placeOf, List.getElem?_eq_none h]
  rfl

/-- An alternative is what is read at its place. -/
theorem readAt_placeOf (h : read context source = .ok u) {index : Nat} {t : NameTree}
    (hget : u.alternatives.get? index = some t) :
    ReadAt context source (u.placeOf index) t := by
  rw [Alternatives.get?, alternatives_of_read h, List.getElem?_map] at hget
  obtain ⟨arg, harg, rfl⟩ := Option.map_eq_some_iff.mp hget
  rw [placeOf_of_arg harg]
  exact ((Signature.standsAlone_of_read (read_eq_ok h).1).2.1 arg
    (List.mem_of_getElem? harg)).readAt

/-- The alternatives are written in their order. -/
theorem placeOf_precedes (h : read context source = .ok u) {first second : Nat}
    (hlt : first < second) (hsize : second < u.alternatives.size) :
    (u.placeOf first).stop ≤ (u.placeOf second).start := by
  rw [size_of_read h] at hsize
  have hfirst : first < u.signature.args.length := Nat.lt_trans hlt hsize
  rw [placeOf_of_arg (List.getElem?_eq_getElem hfirst),
    placeOf_of_arg (List.getElem?_eq_getElem hsize)]
  have hordered := (Signature.standsAlone_of_read (read_eq_ok h).1).2.2
  exact List.pairwise_iff_getElem.mp hordered first second hfirst hsize hlt

/-! ## Warnings -/

/-- The alternative of this number has the readable name, and what is written at its own place
is read as its tree. -/
def ShowsName (context : Context) (source : String) (u : UnionType) (index : Nat)
    (name : String) : Prop :=
  ∃ t, u.alternatives.get? index = some t ∧ t.readable = name ∧
    ReadAt context source (u.placeOf index) t

/-- The diagnostic warns of the collision: it points at the place of the second alternative,
and besides at that of the first one, which comes before it.  Both alternatives have the
readable name that the message quotes, and so has what is written at their places. -/
structure Warns (context : Context) (source : String) (u : UnionType) (collision : Collision)
    (d : Diagnostic) : Prop where
  severity : d.severity = .warning
  code : d.code = some "U002"
  message : d.message = "alternatives T" ++ toString collision.first ++ " and T"
    ++ toString collision.second ++ " both generate members named after `"
    ++ collision.name ++ "`"
  primary : d.span = u.placeOf collision.second
  related : d.related = [⟨u.placeOf collision.first, "first used here"⟩]
  second : ShowsName context source u collision.second collision.name
  first : ShowsName context source u collision.first collision.name
  order : (u.placeOf collision.first).stop ≤ (u.placeOf collision.second).start

theorem warns_clashRemark (h : read context source = .ok u) {collision : Collision}
    (hmem : collision ∈ u.alternatives.collisions) :
    Warns context source u collision (u.clashRemark collision) := by
  obtain ⟨⟨t, hsecond, hname⟩, hfirst, hlt⟩ := Alternatives.mem_collisions_iff.mp hmem
  obtain ⟨v, hv, hsame⟩ := Alternatives.exists_firstWith hsecond
  rw [hname] at hv hsame
  rw [← hfirst] at hv
  have hsize : collision.second < u.alternatives.size :=
    (List.getElem?_eq_some_iff.mp hsecond).1
  exact {
    severity := rfl
    code := rfl
    message := rfl
    primary := rfl
    related := rfl
    second := ⟨t, hsecond, hname, readAt_placeOf h hsecond⟩
    first := ⟨v, hv, hsame, readAt_placeOf h hv⟩
    order := placeOf_precedes h hlt hsize }

theorem warnings?_eq_none_iff : u.warnings? = none ↔ u.alternatives.collisions = [] := by
  rw [warnings?]
  cases u.alternatives.collisions <;> simp

theorem warnings?_eq_some_iff {failure : Failure} :
    u.warnings? = some failure ↔ u.alternatives.collisions ≠ [] ∧
      failure = .rejected (u.alternatives.collisions.map u.clashRemark) u.source none := by
  rw [warnings?]
  cases u.alternatives.collisions <;> simp [eq_comm]

/-- A union that is read has an alternative for every argument, which is what is read at its
place, where the argument stands; the places come in the order of the alternatives, and past
the last one the place is that of the union.  There are warnings exactly when two members are
called the same, one for each collision, in order. -/
theorem warnings_of_read (h : read context source = .ok u) :
    Signature.read context source = .ok u.signature ∧
      u.alternatives.size = u.signature.args.length ∧
      (∀ index < u.alternatives.size, ∃ (arg : Signature) (t : NameTree),
        u.signature.args[index]? = some arg ∧ u.placeOf index = arg.span ∧
          u.alternatives.get? index = some t ∧ ReadAt context source (u.placeOf index) t) ∧
      (∀ first second, first < second → second < u.alternatives.size →
        (u.placeOf first).stop ≤ (u.placeOf second).start) ∧
      (∀ index, u.alternatives.size ≤ index → u.placeOf index = u.signature.span) ∧
      (u.warnings? = none ↔ (u.alternatives.members.map (·.name)).Nodup) ∧
      ∀ failure, u.warnings? = some failure →
        ∃ diagnostics, failure = .rejected diagnostics source none ∧
          List.Forall₂ (Warns context source u) u.alternatives.collisions diagnostics := by
  refine ⟨(read_eq_ok h).1, size_of_read h, fun index hlt => ?_,
    fun first second => placeOf_precedes h, fun index hle => ?_, ?_, fun failure hfailure => ?_⟩
  · have harg := List.getElem?_eq_getElem (size_of_read h ▸ hlt)
    have hget : u.alternatives.get? index = some _ := List.getElem?_eq_getElem hlt
    exact ⟨_, _, harg, placeOf_of_arg harg, hget, readAt_placeOf h hget⟩
  · exact placeOf_of_length_le (size_of_read h ▸ hle)
  · rw [warnings?_eq_none_iff, Alternatives.collisions_eq_nil_iff, Alternatives.nodup_members_iff]
  · obtain ⟨-, rfl⟩ := warnings?_eq_some_iff.mp hfailure
    refine ⟨_, by rw [source_of_read h], List.forall₂_map_right_iff.mpr ?_⟩
    exact List.forall₂_same.mpr fun collision hmem => warns_clashRemark h hmem

/-- Whether the text is read as a union that passes the test. -/
def readsAs (context : Context) (source : String) (test : UnionType → Bool) : Bool :=
  match read context source with
  | .ok u => test u
  | .error _ => false

theorem exists_of_readsAs {context : Context} {source : String} {test : UnionType → Bool}
    (h : readsAs context source test = true) :
    ∃ u, read context source = .ok u ∧ test u = true := by
  unfold readsAs at h
  split at h
  · next u hu => exact ⟨u, hu, h⟩
  · cases h

/-- Two lists of an open type parameter, behind the parameter itself and under the `?` of
the union. -/
theorem warnings_of_read_parameter :
    let context : Context := { typeParams := ["T"] }
    let source := "OneOf<T, A.List<T>, C.List<T>>?"
    ∃ u d, read context source = .ok u ∧ u.alternatives.size = 3 ∧
      u.warnings? = some (.rejected [d] source none) ∧
      d.span = ⟨20, 29⟩ ∧ d.related = [⟨⟨9, 18⟩, "first used here"⟩] ∧
      Warns context source u ⟨"List", 1, 2⟩ d := by
  intro context source
  have hreads : readsAs context source (fun u =>
      decide (u.alternatives.collisions = [⟨"List", 1, 2⟩]) && decide (u.alternatives.size = 3)
        && decide (u.placeOf 1 = ⟨9, 18⟩) && decide (u.placeOf 2 = ⟨20, 29⟩)) = true := by
    decide +kernel
  obtain ⟨u, hread, h⟩ := exists_of_readsAs hreads
  simp only [Bool.and_eq_true, decide_eq_true_eq] at h
  obtain ⟨⟨⟨hcollisions, hsize⟩, hfirst⟩, hsecond⟩ := h
  obtain ⟨-, -, -, -, -, -, hwarns⟩ := warnings_of_read hread
  have hfailure : u.warnings? = some _ :=
    warnings?_eq_some_iff.mpr ⟨by simp [hcollisions], rfl⟩
  obtain ⟨diagnostics, hrejected, hall⟩ := hwarns _ hfailure
  rw [hcollisions] at hall
  obtain ⟨d, rest, hd, hrest, rfl⟩ := List.forall₂_cons_left_iff.mp hall
  obtain rfl := List.forall₂_nil_left_iff.mp hrest
  refine ⟨u, d, hread, hsize, hrejected ▸ hfailure, ?_, ?_, hd⟩
  · exact hd.primary.trans hsecond
  · rw [hd.related, hfirst]

end UnionType

end TypeNaming
