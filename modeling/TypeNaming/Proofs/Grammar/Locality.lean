/-
# Spans are exact and local

Every part of a signature knows the range of bytes where it is written.  `StandsAlone` says
what that is worth: the range is a piece of the text, cut between characters, and the piece
is read on its own as the same part, moved by its start.

A signature is reached from its root by going to the arguments, and this module goes the
same way.  For one step (`standsAlone_of_read`), the tokens of the text spell the root and
each of its parts, so the piece under a part has those tokens, `done` after them, and they
are read in the same way wherever they stand (`Shift`).  For many steps, the piece under a
part is read as the part, so its arguments stand alone in the piece, and pieces of pieces
are pieces (`StandsAlone.arg`).

A type under `?` that became the argument of a wrapper is written without the mark, and a
path without arguments takes the blanks after it.  Both are seen in `Spells.base` and
`Spells.ends`, and nowhere here.
-/
import TypeNaming.Proofs.Grammar.Exact
import TypeNaming.Proofs.Grammar.Places
import TypeNaming.Proofs.Grammar.Shift

namespace TypeNaming

/-- The range is a part of the other one. -/
def Span.Inside (span outer : Span) : Prop :=
  outer.start ≤ span.start ∧ span.stop ≤ outer.stop

/-- The node is the type itself or stands in one of its arguments. -/
inductive TypeFacts.HasNode {α : Type} : TypeFacts α → TypeFacts α → Prop
  | root (type : TypeFacts α) : HasNode type type
  | arg {type arg node : TypeFacts α} : arg ∈ type.args → HasNode arg node → HasNode type node

namespace Signature

/-! ## The depth of a piece -/

theorem depthAfter_mono {depth depth' : Nat} (h : depth ≤ depth') (c : Char) :
    depthAfter depth c ≤ depthAfter depth' c := by
  unfold depthAfter
  split
  · omega
  · split <;> omega

theorem foldl_depthAfter_mono : ∀ (text : List Char) {depth depth' : Nat}, depth ≤ depth' →
    text.foldl depthAfter depth ≤ text.foldl depthAfter depth'
  | [], _, _, h => h
  | c :: text, _, _, h => foldl_depthAfter_mono text (depthAfter_mono h c)

/-- A piece of a text is not nested deeper than the text. -/
theorem WithinDepth.piece {limit : Nat} {front piece back : List Char}
    (h : WithinDepth limit (front ++ piece ++ back)) : WithinDepth limit piece := by
  intro start hbegins
  have hwhole : front ++ start <+: front ++ piece ++ back :=
    ((List.prefix_append_right_inj front).mpr hbegins).trans (List.prefix_append _ back)
  have hlimit := h (front ++ start) hwhole
  rw [List.foldl_append] at hlimit
  exact Nat.le_trans (foldl_depthAfter_mono start (Nat.zero_le _)) hlimit

/-! ## Where the meaning stands -/

mutual

theorem TypeExpr.written_shift (d : Nat) : ∀ type : TypeExpr,
    (type.shift d).written = type.written
  | .named path args span mark => by
      rw [TypeExpr.shift, TypeExpr.shiftAll_eq_map, TypeExpr.written, TypeExpr.written,
        TypeExpr.writtenAll_eq_map, TypeExpr.writtenAll_eq_map, TypeExpr.map_written_shift d args,
        Option.isSome_map]
  | .tuple elements span mark => by
      rw [TypeExpr.shift, Element.shiftAll_eq_map, TypeExpr.written, TypeExpr.written,
        Element.writtenAll_eq_map, Element.writtenAll_eq_map,
        Element.map_written_shift d elements, Option.isSome_map]

theorem TypeExpr.map_written_shift (d : Nat) : ∀ types : List TypeExpr,
    (types.map (TypeExpr.shift d)).map TypeExpr.written = types.map TypeExpr.written
  | [] => rfl
  | type :: types => by
      simp only [List.map_cons]
      rw [TypeExpr.written_shift d type, TypeExpr.map_written_shift d types]

theorem Element.map_written_shift (d : Nat) : ∀ elements : List Element,
    (elements.map (Element.shift d)).map Element.written = elements.map Element.written
  | [] => rfl
  | .mk type label :: elements => by
      simp only [List.map_cons]
      rw [Element.shift, Element.written, Element.written, TypeExpr.written_shift d type,
        Element.map_written_shift d elements, Option.map_map]
      rfl

end

theorem namedOf_node {context : Context} {source : List Char} {path : String}
    {args : List Signature} {span : Span} {type : Signature}
    (h : namedOf context source path args span = .ok type) :
    type.span = span ∧ type.args = args := by
  unfold namedOf at h
  split at h
  · split at h
    · next hargs =>
        obtain rfl := Except.ok.inj h
        exact ⟨rfl, (List.isEmpty_iff.mp hargs).symm⟩
    · cases h
  · split at h
    · split at h
      · next hargs =>
          obtain rfl := Except.ok.inj h
          exact ⟨rfl, (List.isEmpty_iff.mp hargs).symm⟩
      · cases h
    · split at h
      · unfold nullableOf at h
        split at h
        · split at h
          · obtain rfl := Except.ok.inj h
            exact ⟨rfl, rfl⟩
          · cases h
        · cases h
      · obtain rfl := Except.ok.inj h
        exact ⟨rfl, rfl⟩

/-- What a `?` makes of a type: it starts where it is told to and ends with the mark, and
the type is its only argument, or has the same arguments. -/
theorem underMark_node {type signature : Signature} {start : Nat} {mark : Option Span}
    (h : underMark type start mark = .ok signature) (hstart : start = type.span.start) :
    signature.span = ⟨start, mark.elim type.span.stop (·.stop)⟩ ∧
      (signature.args = type.args ∨ ∃ place, mark = some place ∧ signature.args = [type]) := by
  unfold underMark at h
  split at h
  · obtain rfl := Except.ok.inj h
    exact ⟨by rw [hstart]; rfl, Or.inl rfl⟩
  · next place =>
      split at h
      · cases h
      · split at h
        · obtain rfl := Except.ok.inj h
          exact ⟨rfl, Or.inr ⟨place, rfl, rfl⟩⟩
        · obtain rfl := Except.ok.inj h
          exact ⟨rfl, Or.inl rfl⟩

theorem forall₂_meanings {context : Context} {source : List Char} {exprs : List TypeExpr}
    {types : List Signature} (h : meanings context source exprs = .ok types) :
    List.Forall₂ (fun expr type => meaning context source expr = .ok type) exprs types := by
  induction exprs generalizing types with
  | nil =>
      obtain rfl := Except.ok.inj h
      exact .nil
  | cons expr exprs ih =>
      obtain ⟨type, htype, others, hothers, rfl⟩ := meanings_cons_eq_ok_iff.mp h
      exact .cons htype (ih hothers)

theorem forall₂_elementMeanings {context : Context} {source : List Char}
    {elements : List Element} {seen : List String} {pairs : List (Signature × String)}
    (h : elementMeanings context source seen elements = .ok pairs) :
    List.Forall₂ (fun expr type => meaning context source expr = .ok type)
      (elements.map Element.type) (pairs.map (·.1)) := by
  induction elements generalizing seen pairs with
  | nil =>
      obtain rfl := Except.ok.inj h
      exact .nil
  | cons element elements ih =>
      obtain ⟨expr, label⟩ := element
      obtain ⟨type, htype, text, -, others, hothers, rfl⟩ := elementMeanings_cons_eq_ok_iff.mp h
      exact .cons htype (ih hothers)

/-- What a type means stands where it is written.  Its arguments are what its parts mean,
or it wraps what it means without its `?`. -/
theorem meaning_node {context : Context} {source : List Char} {expr : TypeExpr}
    {signature : Signature} (h : meaning context source expr = .ok signature) :
    signature.span = expr.place ∧
      (List.Forall₂ (fun part arg => meaning context source part = .ok arg)
          expr.parts signature.args ∨
        ∃ mark type, expr.mark = some mark ∧ meaning context source expr.base = .ok type ∧
          signature.args = [type]) := by
  cases expr with
  | named path args span mark =>
      obtain ⟨types, htypes, type, htype, hmark⟩ := meaning_named_eq_ok_iff.mp h
      obtain ⟨rfl, hargs⟩ := namedOf_node htype
      obtain ⟨hspan, hnode⟩ := underMark_node hmark rfl
      refine ⟨hspan, ?_⟩
      rcases hnode with hsame | ⟨place, rfl, hwrapped⟩
      · rw [hsame, hargs]
        exact Or.inl (forall₂_meanings htypes)
      · exact Or.inr ⟨place, type, rfl,
          meaning_named_eq_ok_iff.mpr ⟨types, htypes, type, htype, rfl⟩, hwrapped⟩
  | tuple elements span mark =>
      obtain ⟨pairs, hpairs, hmark⟩ := meaning_tuple_eq_ok_iff.mp h
      obtain ⟨hspan, hnode⟩ := underMark_node hmark rfl
      refine ⟨hspan, ?_⟩
      rcases hnode with hsame | ⟨place, rfl, hwrapped⟩
      · rw [hsame]
        exact Or.inl (forall₂_elementMeanings hpairs)
      · exact Or.inr ⟨place, tupleOf pairs span, rfl,
          meaning_tuple_eq_ok_iff.mpr ⟨pairs, hpairs, rfl⟩, hwrapped⟩

/-! ## One piece -/

/-- The type stands in the text where its span says, and this piece of the text is read on
its own as the type, moved by its start. -/
def StandsAlone (context : Context) (text : List Char) (signature : Signature) : Prop :=
  ∃ front piece back, text = front ++ piece ++ back ∧
    Text.byteLength front = signature.span.start ∧
    Text.byteLength (front ++ piece) = signature.span.stop ∧
    ∃ own, read context (String.ofList piece) = .ok own ∧
      own.shift signature.span.start = signature

/-- The piece of a text that a type is spelled in. -/
theorem Scans.exists_piece {pos : Nat} {text : List Char} {row : List Token} {type : TypeExpr}
    (hscans : Scans pos text row) (h : SpelledIn row type) :
    ∃ front piece back own, text = front ++ piece ++ back ∧
      pos + Text.byteLength front = type.place.start ∧
      type.place.start + Text.byteLength piece = type.place.stop ∧
      Scans type.place.start piece
        (own ++ [⟨.done, ⟨type.place.stop, type.place.stop⟩⟩]) ∧
      Spells own type.place.stop type := by
  obtain ⟨before, own, token, after, rfl, hspells⟩ := h
  obtain ⟨first, others, rfl, hfirst⟩ := hspells.starts
  rw [List.append_assoc, List.cons_append] at hscans
  obtain ⟨front, rest, rfl, hfront, -, hrest⟩ := hscans.split rfl
  rw [hfirst] at hfront hrest
  rw [← List.cons_append] at hrest
  obtain ⟨piece, back, rfl, hstop, hpiece, -⟩ := hrest.split rfl
  rcases hspells.ends with hnext | ⟨init, last, htokens, hlast, hown⟩
  · rw [← hnext] at hstop hpiece hspells
    exact ⟨front, piece, back, first :: others, by simp, hfront, hstop, hpiece, hspells⟩
  · rw [htokens, List.append_assoc] at hpiece
    obtain ⟨piece, gap, rfl, hstop, hpiece⟩ := hpiece.trim rfl
    rw [← hlast] at hstop hpiece
    refine ⟨front, piece, gap ++ back, first :: others, by simp, hfront, hstop, ?_, hown _⟩
    rw [htokens, List.append_assoc]
    exact hpiece

/-- A piece that is scanned as a row that spells a type is read as the type, moved. -/
theorem parse_piece {piece : List Char} {own : List Token} {type : TypeExpr} {start : Nat}
    {stop : Span} (hpiece : Scans start piece (own ++ [⟨.done, stop⟩]))
    (hspells : Spells own stop.start type) :
    ∃ expr, parse piece = .ok expr ∧ expr.shift start = type := by
  obtain ⟨lexemes, hcut⟩ := hpiece.cut
  have hrow : (tokens piece).map (Token.shift start) = own ++ [⟨.done, stop⟩] := by
    rw [tokens, ← tokensFrom_shift start hcut, Nat.zero_add, hpiece.tokensFrom_eq]
  have htype : accepted State.initial (own ++ [⟨.done, stop⟩]) = some type := by
    rw [State.initial, hspells.accepted [] [] rfl (Token.ends_of_eq rfl (by simp) (by simp))]
    rfl
  have hshift := accepted_shift start (tokens piece) State.initial
  rw [hrow] at hshift
  obtain ⟨expr, hexpr, hmoved⟩ := Option.map_eq_some_iff.mp (hshift.symm.trans htype)
  exact ⟨expr, readFrom_eq_ok_iff.mpr hexpr, hmoved⟩

/-- A type that is spelled by some tokens of a text stands alone. -/
theorem standsAlone_of_spelledIn {context : Context} {text : List Char} {row : List Token}
    {expr : TypeExpr} {signature : Signature} (hscans : Scans 0 text row)
    (hdepth : WithinDepth context.maxDepth text) (h : SpelledIn row expr)
    (hmeaning : meaning context text expr = .ok signature) :
    StandsAlone context text signature := by
  obtain ⟨front, piece, back, own, rfl, hstart, hstop, hpiece, hspells⟩ := hscans.exists_piece h
  obtain ⟨expr', hparse, hmoved⟩ := parse_piece hpiece hspells
  have hsound := ((meaning_eq_ok_iff context (front ++ piece ++ back) expr _).mp
    ⟨signature, hmeaning, rfl⟩).1
  rw [← hmoved, TypeExpr.written_shift] at hsound
  obtain ⟨own', hown, -⟩ := (meaning_eq_ok_iff context piece expr' _).mpr ⟨hsound, rfl⟩
  have hsame : signature = own'.shift expr.place.start := by
    have hshift := meaning_shift expr.place.start (front ++ piece ++ back) hown
    rw [hmoved, hmeaning] at hshift
    exact Except.ok.inj hshift
  have hspan := (meaning_node hmeaning).1
  rw [Nat.zero_add] at hstart
  refine ⟨front, piece, back, rfl, ?_, ?_, own', ?_, ?_⟩
  · rw [hspan, hstart]
  · rw [hspan, Text.byteLength_append, hstart, hstop]
  · refine read_eq_ok_iff.mpr ?_
    rw [String.toList_ofList]
    exact ⟨hdepth.piece, expr', hparse, hown⟩
  · rw [hspan, ← hsame]

/-- The first type ends before the second starts. -/
def Precedes (type other : Signature) : Prop :=
  type.span.stop ≤ other.span.start

theorem exists_part_of_mem {context : Context} {source : List Char} {parts : List TypeExpr}
    {args : List Signature}
    (h : List.Forall₂ (fun part arg => meaning context source part = .ok arg) parts args) :
    ∀ arg ∈ args, ∃ part ∈ parts, meaning context source part = .ok arg := by
  induction h with
  | nil =>
      intro arg harg
      cases harg
  | @cons part arg parts args hpart _ ih =>
      intro other hother
      rcases List.mem_cons.mp hother with rfl | hother
      · exact ⟨part, List.mem_cons_self, hpart⟩
      · obtain ⟨found, hfound, hmeans⟩ := ih other hother
        exact ⟨found, List.mem_cons_of_mem _ hfound, hmeans⟩

theorem map_span_of_parts {context : Context} {source : List Char} {parts : List TypeExpr}
    {args : List Signature}
    (h : List.Forall₂ (fun part arg => meaning context source part = .ok arg) parts args) :
    args.map Signature.span = parts.map TypeExpr.place := by
  induction h with
  | nil => rfl
  | cons hpart _ ih => rw [List.map_cons, List.map_cons, (meaning_node hpart).1, ih]

theorem pairwise_precedes {context : Context} {source : List Char} {parts : List TypeExpr}
    {args : List Signature}
    (h : List.Forall₂ (fun part arg => meaning context source part = .ok arg) parts args)
    (hparts : parts.Pairwise fun part other => part.place.stop ≤ other.place.start) :
    args.Pairwise Precedes := by
  have hplaces : (parts.map TypeExpr.place).Pairwise fun span other => span.stop ≤ other.start :=
    List.pairwise_map.mpr hparts
  rw [← map_span_of_parts h, List.pairwise_map] at hplaces
  exact hplaces

/-- One step: what is read stands alone, and so do its arguments, one after the other. -/
theorem standsAlone_of_read {context : Context} {source : String} {signature : Signature}
    (h : read context source = .ok signature) :
    StandsAlone context source.toList signature ∧
      (∀ arg ∈ signature.args, StandsAlone context source.toList arg) ∧
      signature.args.Pairwise Precedes := by
  obtain ⟨hdepth, expr, hparse, hmeaning⟩ := read_eq_ok_iff.mp h
  obtain ⟨lexemes, hcut, -⟩ := derives_of_parse hparse
  obtain ⟨inside, stop, htokens, hspells⟩ := spells_of_parse hparse
  have hscans : Scans 0 source.toList (tokens source.toList) := hcut.scans 0
  have hroot : SpelledIn (tokens source.toList) expr := ⟨[], inside, _, [], htokens, hspells⟩
  have hstands := standsAlone_of_spelledIn hscans hdepth hroot hmeaning
  rcases (meaning_node hmeaning).2 with hparts | ⟨mark, type, hmark, hbase, hargs⟩
  · refine ⟨hstands, ?_, ?_⟩
    · intro arg harg
      obtain ⟨part, hpart, hmeans⟩ := exists_part_of_mem hparts arg harg
      exact standsAlone_of_spelledIn hscans hdepth (hroot.part hpart) hmeans
    · exact pairwise_precedes hparts (hroot.pairwise_parts hscans.between)
  · rw [hargs]
    refine ⟨hstands, ?_, List.pairwise_singleton _ _⟩
    intro arg harg
    obtain rfl := List.mem_singleton.mp harg
    exact standsAlone_of_spelledIn hscans hdepth (hroot.base hmark) hbase

/-! ## Pieces of pieces -/

@[simp] theorem span_shift (d : Nat) (signature : Signature) :
    (signature.shift d).span = signature.span.shift d :=
  TypeFacts.note_mapNote _ signature

@[simp] theorem args_shift (d : Nat) (signature : Signature) :
    (signature.shift d).args = signature.args.map (shift d) :=
  TypeFacts.args_mapNote _ signature

/-- An argument of a type that stands alone stands alone. -/
theorem StandsAlone.arg {context : Context} {text : List Char} {signature arg : Signature}
    (h : StandsAlone context text signature) (harg : arg ∈ signature.args) :
    StandsAlone context text arg := by
  obtain ⟨front, piece, back, rfl, hstart, -, own, hown, hsame⟩ := h
  rw [← hsame, args_shift] at harg
  obtain ⟨ownArg, hmem, rfl⟩ := List.mem_map.mp harg
  obtain ⟨front', piece', back', hpiece, hstart', hstop', own', hown', hsame'⟩ :=
    (standsAlone_of_read hown).2.1 ownArg hmem
  rw [String.toList_ofList] at hpiece
  subst hpiece
  have hspan := span_shift signature.span.start ownArg
  refine ⟨front ++ front', piece', back' ++ back, by simp, ?_, ?_, own', hown', ?_⟩
  · rw [hspan, Text.byteLength_append, hstart, hstart']
    exact Nat.add_comm _ _
  · rw [hspan, List.append_assoc, Text.byteLength_append, hstart, hstop']
    exact Nat.add_comm _ _
  · have hmoved := congrArg (shift signature.span.start) hsame'
    rw [shift_shift] at hmoved
    rw [hspan]
    exact hmoved

theorem StandsAlone.node {context : Context} {text : List Char} {signature node : Signature}
    (h : StandsAlone context text signature) (hnode : signature.HasNode node) :
    StandsAlone context text node := by
  induction hnode with
  | root => exact h
  | arg harg _ ih => exact ih (h.arg harg)

theorem StandsAlone.inside {context : Context} {text : List Char} {signature : Signature}
    (h : StandsAlone context text signature) :
    signature.span.start ≤ signature.span.stop ∧
      signature.span.stop ≤ Text.byteLength text := by
  obtain ⟨front, piece, back, rfl, hstart, hstop, -⟩ := h
  rw [← hstart, ← hstop]
  simp only [Text.byteLength_append]
  omega

/-- What stands alone has its arguments inside it, one after the other. -/
theorem StandsAlone.args {context : Context} {text : List Char} {signature : Signature}
    (h : StandsAlone context text signature) :
    (∀ arg : Signature, arg ∈ signature.args → arg.span.Inside signature.span) ∧
      signature.args.Pairwise Precedes := by
  obtain ⟨front, piece, back, -, hstart, hstop, own, hown, hsame⟩ := h
  obtain ⟨-, hargs, hordered⟩ := standsAlone_of_read hown
  rw [String.toList_ofList] at hargs
  rw [Text.byteLength_append, hstart] at hstop
  have hmoved : signature.args = own.args.map (shift signature.span.start) := by
    conv_lhs => rw [← hsame, args_shift]
  rw [hmoved]
  constructor
  · intro arg harg
    obtain ⟨ownArg, hmem, rfl⟩ := List.mem_map.mp harg
    have hpiece := (hargs ownArg hmem).inside.2
    have hspan := span_shift signature.span.start ownArg
    rw [hspan]
    constructor
    · exact Nat.le_add_left _ _
    · show ownArg.span.stop + signature.span.start ≤ signature.span.stop
      omega
  · refine List.pairwise_map.mpr (hordered.imp ?_)
    intro first second hprecedes
    rw [Precedes, span_shift, span_shift]
    exact Nat.add_le_add_right hprecedes _

/-- Every node of what is read has a range inside the text.  The arguments of the node
have their ranges inside it, one after the other, and what is written in the range is read
on its own as the node, moved by where the range starts. -/
theorem spans_of_read {context : Context} {source : String} {signature node : Signature}
    (h : read context source = .ok signature) (hnode : signature.HasNode node) :
    node.span.start ≤ node.span.stop ∧ node.span.stop ≤ Text.byteLength source.toList ∧
      (∀ arg : Signature, arg ∈ node.args → arg.span.Inside node.span) ∧
      node.args.Pairwise Precedes ∧ StandsAlone context source.toList node := by
  have hstands := (standsAlone_of_read h).1.node hnode
  exact ⟨hstands.inside.1, hstands.inside.2, hstands.args.1, hstands.args.2, hstands⟩

/-- The type under the `?` takes the blank before it. -/
theorem spans_of_read_nullable :
    ∃ signature node : Signature, read {} "List< int ? >" = .ok signature ∧
      signature.HasNode node ∧ node.span = ⟨6, 10⟩ ∧
      StandsAlone {} "List< int ? >".toList node := by
  have hreads : readsAs {} "List< int ? >" (fun signature =>
      (signature.args.flatMap TypeFacts.args).map TypeFacts.note = [⟨6, 10⟩]) = true := by
    decide +kernel
  obtain ⟨signature, hread, hspans⟩ := exists_of_readsAs hreads
  obtain ⟨node, hnodes, hspan⟩ := List.map_eq_singleton_iff.mp (of_decide_eq_true hspans)
  obtain ⟨arg, harg, hnode⟩ : ∃ arg ∈ signature.args, node ∈ arg.args :=
    List.mem_flatMap.mp (hnodes ▸ List.mem_singleton_self node)
  have hpath : signature.HasNode node := .arg harg (.arg hnode (.root node))
  obtain ⟨-, -, -, -, hstands⟩ := spans_of_read hread hpath
  exact ⟨signature, node, hread, hpath, hspan, hstands⟩

end Signature

end TypeNaming
