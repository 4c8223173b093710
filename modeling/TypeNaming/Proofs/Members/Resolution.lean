/-
# Which member a name reaches

The members of a union are listed alternative by alternative, and a name reaches the first
member that has it.  Two names are equal exactly when the accessors are and the readable
names of the alternatives are (`Accessor.nameFor_inj`), so the member that a name reaches
belongs to the first alternative with that readable name (`find?_members`).

A collision is listed for every alternative behind the first one of its name, and for no
other (`mem_collisions_iff`).  So the named form of a positional member reaches its own
alternative where no collision is listed for it, and else the first one of the collision.
-/
import TypeNaming.NamedMember
import TypeNaming.Positional

namespace TypeNaming

/-! ## Names of members -/

namespace Accessor

/-- The first character of the lead. -/
def initial : Accessor → Char
  | .test => 'I'
  | .get => 'A'
  | .map => 'M'
  | .tryPick => 'T'

theorem initial_inj {accessor other : Accessor} (h : accessor.initial = other.initial) :
    accessor = other := by
  revert h
  cases accessor <;> cases other <;> decide

theorem head?_lead_append (accessor : Accessor) (rest : String) :
    (accessor.lead ++ rest).toList.head? = some accessor.initial := by
  rw [String.toList_append]
  cases accessor <;> rfl

theorem lead_append_inj {accessor other : Accessor} {rest rest' : String} :
    accessor.lead ++ rest = other.lead ++ rest' ↔ accessor = other ∧ rest = rest' := by
  constructor
  · intro h
    have hinitials := congrArg (fun text => text.toList.head?) h
    simp only [head?_lead_append, Option.some.injEq] at hinitials
    obtain rfl := initial_inj hinitials
    exact ⟨rfl, (String.append_right_inj _).mp h⟩
  · rintro ⟨rfl, rfl⟩
    rfl

theorem nameFor_inj {accessor other : Accessor} {t u : NameTree} :
    accessor.nameFor t = other.nameFor u ↔ accessor = other ∧ t.readable = u.readable :=
  lead_append_inj

end Accessor

namespace Alternatives

/-- The member with the accessor, of the alternative at a position. -/
def memberAt (accessor : Accessor) (index : Nat) (alternative : NameTree) : NamedMember :=
  ⟨accessor, index, accessor.nameFor alternative, alternative.declaration⟩

theorem membersAt_eq_map (index : Nat) (alternative : NameTree) :
    membersAt index alternative
      = Accessor.all.map fun accessor => memberAt accessor index alternative := rfl

/-! ## The member that a name reaches -/

theorem find?_membersAt (accessor : Accessor) (t u : NameTree) (index : Nat) :
    (membersAt index u).find? (·.name == accessor.nameFor t)
      = if u.readable = t.readable then some (memberAt accessor index u) else none := by
  split
  · next hname =>
      have hall : ∀ accessor : Accessor, Accessor.all.find? (· == accessor) = some accessor := by
        intro accessor
        cases accessor <;> rfl
      have htest : (fun other => (memberAt other index u).name == accessor.nameFor t)
          = (· == accessor) := by
        funext other
        rw [Bool.eq_iff_iff, beq_iff_eq, beq_iff_eq]
        show other.nameFor u = accessor.nameFor t ↔ _
        rw [Accessor.nameFor_inj]
        exact and_iff_left hname
      rw [membersAt_eq_map, List.find?_map, Function.comp_def, htest, hall]
      rfl
  · next hname =>
      refine List.find?_eq_none.mpr fun member hmember => ?_
      obtain ⟨other, -, rfl⟩ := List.mem_map.mp hmember
      rw [beq_iff_eq, Accessor.nameFor_inj]
      exact fun h => hname h.2

/-- The position of the first alternative with the readable name. -/
def firstWith (a : Alternatives) (name : String) : Nat :=
  (a.toList.map (·.readable)).idxOf name

/-- The members of alternatives, the first of which is at the position `start`. -/
def membersFrom (start : Nat) (alternatives : List NameTree) : List NamedMember :=
  (alternatives.zipIdx start).flatMap fun (alternative, index) => membersAt index alternative

theorem membersFrom_cons (start : Nat) (u : NameTree) (us : List NameTree) :
    membersFrom start (u :: us) = membersAt start u ++ membersFrom (start + 1) us := by
  simp [membersFrom, List.zipIdx_cons]

theorem find?_membersFrom (accessor : Accessor) {t : NameTree} :
    ∀ {us : List NameTree} (start : Nat), t ∈ us →
      ∃ index u, (us.map (·.readable)).idxOf t.readable = index ∧ us[index]? = some u ∧
        (membersFrom start us).find? (·.name == accessor.nameFor t)
          = some (memberAt accessor (start + index) u)
  | u :: us, start, hmem => by
      rw [membersFrom_cons, List.find?_append, find?_membersAt, List.map_cons]
      by_cases hname : u.readable = t.readable
      · refine ⟨0, u, ?_, rfl, ?_⟩
        · rw [hname, List.idxOf_cons_self]
        · rw [if_pos hname]
          rfl
      · have hothers : t ∈ us := by
          rcases List.mem_cons.mp hmem with rfl | hmem
          · exact absurd rfl hname
          · exact hmem
        obtain ⟨index, v, hindex, hget, hfind⟩ := find?_membersFrom accessor (start + 1) hothers
        refine ⟨index + 1, v, ?_, hget, ?_⟩
        · rw [List.idxOf_cons, beq_false_of_ne hname, hindex]
          rfl
        · have hplace : start + 1 + index = start + (index + 1) := by omega
          rw [if_neg hname, Option.none_or, hfind, hplace]

/-- A name reaches the first alternative that is called so. -/
theorem find?_members {a : Alternatives} {t : NameTree} (h : t ∈ a.toList)
    (accessor : Accessor) :
    ∃ u, a.get? (a.firstWith t.readable) = some u ∧
      a.members.find? (·.name == accessor.nameFor t)
        = some (memberAt accessor (a.firstWith t.readable) u) := by
  obtain ⟨index, u, rfl, hget, hfind⟩ := find?_membersFrom accessor 0 h
  rw [Nat.zero_add] at hfind
  exact ⟨u, hget, hfind⟩

/-! ## The members of one alternative -/

theorem mem_members_iff {a : Alternatives} {member : NamedMember} :
    member ∈ a.members ↔ ∃ t, a.get? member.index = some t ∧
      member = memberAt member.accessor member.index t := by
  rw [members, List.mem_flatMap]
  constructor
  · rintro ⟨⟨t, index⟩, hmem, hmember⟩
    obtain ⟨accessor, -, rfl⟩ := List.mem_map.mp hmember
    exact ⟨t, List.mk_mem_zipIdx_iff_getElem?.mp hmem, rfl⟩
  · rintro ⟨t, hget, heq⟩
    refine ⟨(t, member.index), List.mk_mem_zipIdx_iff_getElem?.mpr hget, ?_⟩
    rw [heq]
    exact List.mem_map.mpr ⟨_, Accessor.mem_all _, rfl⟩

/-! ## Collisions -/

/-- A collision is listed for every alternative behind the first one of its name. -/
theorem mem_collisions_iff {a : Alternatives} {collision : Collision} :
    collision ∈ a.collisions ↔
      (∃ t, a.get? collision.second = some t ∧ t.readable = collision.name) ∧
        collision.first = a.firstWith collision.name ∧ collision.first < collision.second := by
  rw [collisions, List.mem_filterMap]
  constructor
  · rintro ⟨⟨name, index⟩, hmem, hcollision⟩
    have hget := List.mk_mem_zipIdx_iff_getElem?.mp hmem
    rw [List.getElem?_map] at hget
    obtain ⟨hbehind, hsame⟩ := Option.ite_none_right_eq_some.mp hcollision
    obtain rfl := Option.some.inj hsame
    exact ⟨by simpa [get?] using hget, rfl, hbehind⟩
  · obtain ⟨name, first, second⟩ := collision
    rintro ⟨⟨t, hget, hname⟩, hfirst, hbehind⟩
    obtain rfl : first = a.firstWith name := hfirst
    refine ⟨(name, second), List.mk_mem_zipIdx_iff_getElem?.mpr ?_, if_pos hbehind⟩
    rw [List.getElem?_map]
    exact Option.map_eq_some_iff.mpr ⟨t, hget, hname⟩

theorem firstWith_le {a : Alternatives} {index : Nat} {t : NameTree}
    (h : a.get? index = some t) : a.firstWith t.readable ≤ index := by
  have hget : (a.toList.map (·.readable))[index]? = some t.readable := by
    rw [List.getElem?_map]
    exact Option.map_eq_some_iff.mpr ⟨t, h, rfl⟩
  obtain ⟨hlt, hname⟩ := List.getElem?_eq_some_iff.mp hget
  refine Nat.le_of_not_lt fun hbefore => ?_
  have hother := List.not_of_lt_findIdx hbefore
  rw [hname, beq_self_eq_true] at hother
  exact Bool.noConfusion hother

/-! ## Named forms -/

theorem namedForm?_eq_none_iff {a : Alternatives} {p : Positional} :
    a.namedForm? p = none ↔ a.size ≤ p.index := by
  rw [namedForm?, Option.map_eq_none_iff, get?, List.getElem?_eq_none_iff, size]

theorem needsCall_iff {accessor : Accessor} :
    accessor.needsCall = true ↔ accessor = .test ∨ accessor = .get := by
  cases accessor <;> decide

/-- A positional member has a named form exactly when there is such an alternative.  The
form is the name of the member with that accessor of that alternative, called where the
accessor is `Is` or `As`.  The first member with that name has the accessor; it is that of
the alternative itself, unless a collision is listed for it, and then that of the first
alternative of the collision. -/
theorem namedForm?_resolves (a : Alternatives) (p : Positional) :
    (a.namedForm? p = none ↔ a.size ≤ p.index) ∧
      ∀ form, a.namedForm? p = some form →
        (∃ own ∈ a.members, own.accessor = p.accessor ∧ own.index = p.index ∧
          own.name = form.name ∧
          ∀ other ∈ a.members, other.accessor = p.accessor → other.index = p.index →
            other = own) ∧
        (form.call = true ↔ p.accessor = .test ∨ p.accessor = .get) ∧
        ∃ reached, a.members.find? (·.name == form.name) = some reached ∧
          reached.accessor = p.accessor ∧
          ((∀ collision ∈ a.collisions, collision.second ≠ p.index) →
            reached.index = p.index) ∧
          ∀ collision ∈ a.collisions, collision.second = p.index →
            reached.index = collision.first := by
  refine ⟨namedForm?_eq_none_iff, fun form hform => ?_⟩
  obtain ⟨t, hget, rfl⟩ := Option.map_eq_some_iff.mp hform
  have hmem : t ∈ a.toList := List.mem_of_getElem? hget
  obtain ⟨u, hfirst, hfind⟩ := find?_members hmem p.accessor
  refine ⟨⟨memberAt p.accessor p.index t, mem_members_iff.mpr ⟨t, hget, rfl⟩, rfl, rfl, rfl, ?_⟩,
    needsCall_iff, memberAt p.accessor (a.firstWith t.readable) u, hfind, rfl, ?_, ?_⟩
  · intro other hother haccessor hindex
    obtain ⟨v, hv, hother⟩ := mem_members_iff.mp hother
    rw [hindex, hget] at hv
    obtain rfl := Option.some.inj hv
    rw [hother, haccessor, hindex]
  · intro hclear
    -- The first alternative of the name does not come after this one.
    have hle : a.firstWith t.readable ≤ p.index := firstWith_le hget
    refine Nat.le_antisymm hle (Nat.le_of_not_lt fun hlt => ?_)
    exact hclear ⟨t.readable, _, p.index⟩ (mem_collisions_iff.mpr ⟨⟨t, hget, rfl⟩, rfl, hlt⟩) rfl
  · intro collision hcollision hsecond
    obtain ⟨⟨v, hv, hname⟩, hcollides, -⟩ := mem_collisions_iff.mp hcollision
    rw [hsecond, hget] at hv
    obtain rfl := Option.some.inj hv
    rw [hcollides, ← hname]
    rfl

/-- Two lists of different namespaces have one readable name, so the named form of the
second one reaches the first. -/
theorem namedForm?_resolves_shadowed :
    let a : Alternatives := ⟨[.generic "List" "A.List" [.plain "Int32" "System.Int32"],
      .plain "B" "B", .generic "List" "C.List" [.plain "Int32" "System.Int32"]]⟩
    a.namedForm? ⟨.get, 2⟩ = some ⟨"AsListOfInt", true⟩ ∧
      ⟨"ListOfInt", 0, 2⟩ ∈ a.collisions ∧
      ∃ reached, a.members.find? (·.name == "AsListOfInt") = some reached ∧
        reached.accessor = .get ∧ reached.index = 0 := by
  intro a
  have hform : a.namedForm? ⟨.get, 2⟩ = some ⟨"AsListOfInt", true⟩ := by decide +kernel
  have hcollision : ⟨"ListOfInt", 0, 2⟩ ∈ a.collisions := by
    have hcollisions : a.collisions = [⟨"ListOfInt", 0, 2⟩] := by decide +kernel
    rw [hcollisions]
    exact List.mem_singleton_self _
  obtain ⟨-, -, reached, hfind, haccessor, -, hshadowed⟩ :=
    (namedForm?_resolves a ⟨.get, 2⟩).2 _ hform
  exact ⟨hform, hcollision, reached, hfind, haccessor, hshadowed _ hcollision rfl⟩

end Alternatives

end TypeNaming
