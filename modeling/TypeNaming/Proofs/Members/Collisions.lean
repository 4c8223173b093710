/-
# Collisions are found in one pass

`Survey` goes through the alternatives once and keeps the first position of each readable
name in a hash map.  An alternative whose name is in the map collides with the position
found there, and the map keeps that position, so the first one stays the first for any
number of repeats.  The invariant is `Covers`; `Covers.next` is its step and
`covers_survey` its run: one pass finds the members and the collisions.

`catalogued` says what these are, position by position.  That no two members are called the
same exactly when nothing collides needs more than the collisions: a member is found by its
name among those of all accessors, and no readable name makes two leads meet
(`Accessor.lead_append_inj`).
-/
import Mathlib.Data.List.Induction
import Mathlib.Data.List.Nodup
import Std.Data.HashMap
import TypeNaming.Proofs.Members.Resolution

namespace TypeNaming

/-! ## One pass -/

/-- What was found in the alternatives so far. -/
structure Survey where
  /-- The first position of each readable name. -/
  firsts : Std.HashMap String Nat
  members : List NamedMember
  collisions : List Collision

namespace Survey

/-- Before the first alternative. -/
def empty : Survey := ⟨∅, [], []⟩

/-- The next alternative, at its position. -/
def next (s : Survey) : NameTree × Nat → Survey
  | (t, index) =>
    let members := s.members ++ Alternatives.membersAt index t
    match s.firsts[t.readable]? with
    | some first => ⟨s.firsts, members, s.collisions ++ [⟨t.readable, first, index⟩]⟩
    | none => ⟨s.firsts.insert t.readable index, members, s.collisions⟩

end Survey

namespace Alternatives

/-- What one pass over the alternatives finds. -/
def survey (a : Alternatives) : Survey :=
  a.toList.zipIdx.foldl Survey.next .empty

/-! ## One alternative more -/

section

variable {ts : List NameTree} {t : NameTree}

theorem survey_snoc : survey ⟨ts ++ [t]⟩ = (survey ⟨ts⟩).next (t, ts.length) := by
  rw [survey, survey, List.zipIdx_append, List.foldl_append, Nat.zero_add]
  rfl

theorem members_snoc : members ⟨ts ++ [t]⟩ = members ⟨ts⟩ ++ membersAt ts.length t := by
  simp [members, List.zipIdx_append]

theorem firstWith_snoc (name : String) :
    firstWith ⟨ts ++ [t]⟩ name =
      if name ∈ ts.map (·.readable) then firstWith ⟨ts⟩ name
      else ts.length + if t.readable = name then 0 else 1 := by
  rw [firstWith, firstWith, List.map_append, List.idxOf_append, List.length_map]
  split
  · rfl
  · rw [List.map_singleton, List.idxOf_cons, List.idxOf_nil, Nat.add_comm]
    simp [cond_eq_ite]

theorem firstWith_lt_iff {name : String} :
    firstWith ⟨ts⟩ name < ts.length ↔ name ∈ ts.map (·.readable) := by
  rw [← List.idxOf_lt_length_iff, List.length_map]
  rfl

/-- The collision of the alternative with a name at a position, if it has one. -/
def collisionAt? (a : Alternatives) (place : String × Nat) : Option Collision :=
  if a.firstWith place.1 < place.2 then some ⟨place.1, a.firstWith place.1, place.2⟩ else none

theorem collisions_eq (a : Alternatives) :
    a.collisions = (a.toList.map (·.readable)).zipIdx.filterMap a.collisionAt? := rfl

/-- An alternative behind all others collides when one of them has its name, and changes no
collision of theirs. -/
theorem collisions_snoc :
    collisions ⟨ts ++ [t]⟩ = collisions ⟨ts⟩ ++
      if t.readable ∈ ts.map (·.readable)
      then [⟨t.readable, firstWith ⟨ts⟩ t.readable, ts.length⟩] else [] := by
  rw [collisions_eq, collisions_eq, List.map_append, List.zipIdx_append, List.filterMap_append]
  congr 1
  · refine List.filterMap_congr fun place hplace => ?_
    rw [collisionAt?, collisionAt?, firstWith_snoc, if_pos (List.fst_mem_of_mem_zipIdx hplace)]
  · rw [Nat.zero_add, List.length_map, List.map_singleton, List.zipIdx_singleton,
      List.filterMap_cons, List.filterMap_nil, collisionAt?, firstWith_snoc]
    by_cases hmem : t.readable ∈ ts.map (·.readable)
    · rw [if_pos hmem, if_pos hmem, if_pos (firstWith_lt_iff.mpr hmem)]
    · rw [if_neg hmem, if_neg hmem, if_pos rfl]
      simp

end

/-! ## The invariant -/

/-- The survey has gone through the alternatives. -/
structure Covers (s : Survey) (ts : List NameTree) : Prop where
  firsts : ∀ name, s.firsts[name]? =
    if name ∈ ts.map (·.readable) then some (firstWith ⟨ts⟩ name) else none
  members : s.members = members ⟨ts⟩
  collisions : s.collisions = collisions ⟨ts⟩

theorem covers_empty : Covers .empty [] where
  firsts _ := Std.HashMap.getElem?_empty
  members := rfl
  collisions := rfl

theorem Covers.next {s : Survey} {ts : List NameTree} (h : Covers s ts) (t : NameTree) :
    Covers (s.next (t, ts.length)) (ts ++ [t]) := by
  have hfirst := h.firsts t.readable
  -- a name that is in the map keeps its position there
  by_cases hmem : t.readable ∈ ts.map (·.readable)
  · rw [if_pos hmem] at hfirst
    rw [Survey.next, hfirst]
    refine ⟨fun name => ?_, ?_, ?_⟩
    · rw [h.firsts name, firstWith_snoc]
      by_cases hname : name ∈ ts.map (·.readable)
      · simp [hname]
      · have hother : name ≠ t.readable := fun heq => hname (heq ▸ hmem)
        simp [hname, hother]
    · rw [h.members, members_snoc]
    · rw [h.collisions, collisions_snoc, if_pos hmem]
  · rw [if_neg hmem] at hfirst
    rw [Survey.next, hfirst]
    refine ⟨fun name => ?_, ?_, ?_⟩
    · rw [Std.HashMap.getElem?_insert, h.firsts name, firstWith_snoc]
      by_cases hname : t.readable = name
      · simp [← hname, hmem]
      · have hother : name ≠ t.readable := Ne.symm hname
        by_cases hbefore : name ∈ ts.map (·.readable) <;> simp [hname, hother, hbefore]
    · rw [h.members, members_snoc]
    · rw [h.collisions, collisions_snoc, if_neg hmem, List.append_nil]

theorem covers_survey (a : Alternatives) : Covers a.survey a.toList := by
  obtain ⟨ts⟩ := a
  induction ts using List.reverseRecOn with
  | nil => exact covers_empty
  | append_singleton ts t ih =>
      rw [survey_snoc]
      exact ih.next t

/-! ## Collisions and names -/

/-- Nothing collides exactly when the readable names are distinct. -/
theorem collisions_eq_nil_iff {a : Alternatives} :
    a.collisions = [] ↔ (a.toList.map (·.readable)).Nodup := by
  obtain ⟨ts⟩ := a
  induction ts using List.reverseRecOn with
  | nil => exact iff_of_true rfl List.nodup_nil
  | append_singleton ts t ih =>
      rw [collisions_snoc, List.append_eq_nil_iff, ih, List.map_append, List.map_singleton,
        ← List.concat_eq_append, List.nodup_concat, and_comm]
      refine and_congr_left' ?_
      split <;> simp_all

theorem map_name_members (a : Alternatives) :
    a.members.map (·.name) = (a.toList.map (·.readable)).flatMap fun name =>
      Accessor.all.map (·.lead ++ name) := by
  obtain ⟨ts⟩ := a
  induction ts using List.reverseRecOn with
  | nil => rfl
  | append_singleton ts t ih =>
      rw [members_snoc, List.map_append, ih, List.map_append, List.flatMap_append]
      rfl

/-- The names of the members are distinct exactly when the readable names are. -/
theorem nodup_members_iff {a : Alternatives} :
    (a.members.map (·.name)).Nodup ↔ (a.toList.map (·.readable)).Nodup := by
  have hleads : ∀ name : String, (Accessor.all.map (·.lead ++ name)).Nodup := fun name =>
    List.Nodup.map (fun _ _ h => (Accessor.lead_append_inj.mp h).1) (by decide)
  have hapart : ∀ name other : String,
      (Accessor.all.map (·.lead ++ name)).Disjoint (Accessor.all.map (·.lead ++ other)) ↔
        name ≠ other := by
    intro name other
    constructor
    · rintro h rfl
      exact h (List.mem_map_of_mem (Accessor.mem_all .test))
        (List.mem_map_of_mem (Accessor.mem_all .test))
    · intro hne text h h'
      obtain ⟨accessor, -, rfl⟩ := List.mem_map.mp h
      obtain ⟨accessor', -, heq⟩ := List.mem_map.mp h'
      exact hne (Accessor.lead_append_inj.mp heq).2.symm
  rw [map_name_members, List.nodup_flatMap]
  constructor
  · rintro ⟨-, h⟩
    exact h.imp fun {name other} => (hapart name other).mp
  · intro h
    exact ⟨fun name _ => hleads name, List.Pairwise.imp (fun {name other} =>
      (hapart name other).mpr) h⟩

theorem pairwise_collisions (a : Alternatives) :
    a.collisions.Pairwise (·.second < ·.second) := by
  rw [collisions_eq, List.pairwise_filterMap]
  have hplaces : (a.toList.map (·.readable)).zipIdx.Pairwise (·.2 < ·.2) := by
    rw [← List.pairwise_map, List.zipIdx_map_snd]
    exact List.pairwise_lt_range' 1
  refine hplaces.imp fun {place other} hlt collision h collision' h' => ?_
  rw [collisionAt?, Option.ite_none_right_eq_some, Option.some.injEq] at h h'
  rw [← h.2, ← h'.2]
  exact hlt

/-! ## The catalogue of members -/

theorem length_members (a : Alternatives) : a.members.length = 4 * a.size := by
  obtain ⟨ts⟩ := a
  induction ts using List.reverseRecOn with
  | nil => rfl
  | append_singleton ts t ih =>
      rw [members_snoc, List.length_append, ih, length_membersAt, size, size, List.length_append,
        List.length_singleton, Nat.mul_add]

theorem take_drop_membersFrom {t : NameTree} :
    ∀ {ts : List NameTree} (start index : Nat), ts[index]? = some t →
      ((membersFrom start ts).drop (4 * index)).take 4 = membersAt (start + index) t
  | [], _, _, h => by simp at h
  | u :: ts, start, 0, h => by
      obtain rfl : u = t := Option.some.inj h
      rw [membersFrom_cons]
      exact List.take_left' (length_membersAt start u)
  | u :: ts, start, index + 1, h => by
      have hdrop : (membersFrom start (u :: ts)).drop (4 * (index + 1))
          = (membersFrom (start + 1) ts).drop (4 * index) := by
        rw [membersFrom_cons, Nat.mul_add, Nat.mul_one, Nat.add_comm, ← length_membersAt start u,
          List.drop_length_add_append]
      rw [hdrop, take_drop_membersFrom (start + 1) index (by simpa using h), Nat.add_assoc,
        Nat.add_comm 1]

theorem exists_firstWith {a : Alternatives} {index : Nat} {t : NameTree}
    (h : a.get? index = some t) :
    ∃ u, a.get? (a.firstWith t.readable) = some u ∧ u.readable = t.readable := by
  have hmem : t.readable ∈ a.toList.map (·.readable) :=
    List.mem_map_of_mem (List.mem_of_getElem? h)
  have hfirst := List.getElem?_idxOf hmem
  rw [List.getElem?_map] at hfirst
  exact Option.map_eq_some_iff.mp hfirst

/-- What the members and the collisions of alternatives are. -/
structure Catalogue (a : Alternatives) (members : List NamedMember)
    (collisions : List Collision) : Prop where
  /-- There are four members for each alternative. -/
  length : members.length = 4 * a.size
  /-- Those of the alternative at a position are one of each accessor. -/
  four : ∀ index t, a.get? index = some t → (members.drop (4 * index)).take 4 =
    [⟨.test, index, "Is" ++ t.readable, t.declaration⟩,
      ⟨.get, index, "As" ++ t.readable, t.declaration⟩,
      ⟨.map, index, "Map" ++ t.readable, t.declaration⟩,
      ⟨.tryPick, index, "TryPick" ++ t.readable, t.declaration⟩]
  /-- An alternative collides exactly when an earlier one has its readable name. -/
  collides : ∀ second t, a.get? second = some t →
    ((∃ index < second, ∃ u, a.get? index = some u ∧ u.readable = t.readable) ↔
      ∃ collision ∈ collisions, collision.second = second)
  /-- A collision is with the first alternative of the name. -/
  first : ∀ collision ∈ collisions, collision.first < collision.second ∧
    (∃ t, a.get? collision.second = some t ∧ t.readable = collision.name) ∧
    (∃ u, a.get? collision.first = some u ∧ u.readable = collision.name) ∧
    ∀ index < collision.first, ∀ u, a.get? index = some u → u.readable ≠ collision.name
  /-- An alternative has at most one collision, and they are in the order of their
  alternatives. -/
  ordered : collisions.Pairwise (·.second < ·.second)
  /-- Nothing collides exactly when no two members are called the same. -/
  distinct : collisions = [] ↔ (members.map (·.name)).Nodup

/-- One pass over the alternatives finds their members and their collisions, and these are
complete and exact. -/
theorem catalogue_of_survey (a : Alternatives) :
    (a.survey.members = a.members ∧ a.survey.collisions = a.collisions) ∧
      Catalogue a a.members a.collisions := by
  have hcovers := covers_survey a
  refine ⟨⟨hcovers.members, hcovers.collisions⟩, length_members a, ?_, ?_, ?_,
    pairwise_collisions a, collisions_eq_nil_iff.trans nodup_members_iff.symm⟩
  · intro index t h
    have hfour := take_drop_membersFrom 0 index h
    rw [Nat.zero_add] at hfour
    exact hfour
  · intro second t h
    constructor
    · rintro ⟨index, hlt, u, hget, hname⟩
      have hle : a.firstWith t.readable ≤ index := hname ▸ firstWith_le hget
      exact ⟨⟨t.readable, a.firstWith t.readable, second⟩,
        mem_collisions_iff.mpr ⟨⟨t, h, rfl⟩, rfl, Nat.lt_of_le_of_lt hle hlt⟩, rfl⟩
    · rintro ⟨collision, hmem, rfl⟩
      obtain ⟨⟨v, hget, hname⟩, hfirst, hlt⟩ := mem_collisions_iff.mp hmem
      obtain rfl := Option.some.inj (h.symm.trans hget)
      rw [hfirst, ← hname] at hlt
      exact ⟨_, hlt, exists_firstWith h⟩
  · intro collision hmem
    obtain ⟨⟨t, hget, hname⟩, hfirst, hlt⟩ := mem_collisions_iff.mp hmem
    refine ⟨hlt, ⟨t, hget, hname⟩, ?_, fun index hindex u hu hsame => ?_⟩
    · rw [hfirst, ← hname]
      exact exists_firstWith hget
    · rw [hfirst, ← hsame] at hindex
      exact absurd (firstWith_le hu) (Nat.not_le_of_lt hindex)

end Alternatives

end TypeNaming
