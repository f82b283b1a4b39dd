import ClassSynth.Proofs.Synthesis.Acceptance

/-!
# Signatures of constructors

A constructor has a parameter for each member, and one for each inherited parameter that no member
shares. What it passes on stands at positions of its own: the position of the first member with the
type and the name of the inherited parameter, or one behind the members
(`ConstructorPlan.forwards_signature`).
-/

namespace ClassSynth

open ClassSynth.Expr

namespace ConstructorPlan

/-- The parameter at the position is passed on for an inherited one. It belongs to a member exactly
if some member has the type and the name, and then to such a member. -/
structure PassedAt (members : List Member) (params : List TypeName) (position : Nat)
    (p : Parameter) : Prop where
  inRange : 1 ≤ position ∧ position ≤ params.length
  type : paramType? params position = some p.type
  shared : position ≤ members.length ↔ ∃ m ∈ members, m.storedType = p.type ∧ m.field = p.name
  member : ∀ m, members[position - 1]? = some m → m.storedType = p.type ∧ m.field = p.name

theorem shares_iff {p : Parameter} {m : Member} :
    shares p m = true ↔ m.storedType = p.type ∧ m.field = p.name := by
  simp [shares]

/-- Parameters that are added at the end leave the others where they are. -/
theorem PassedAt.append {members : List Member} {params more : List TypeName} {position : Nat}
    {p : Parameter} (h : PassedAt members params position p) :
    PassedAt members (params ++ more) position p where
  inRange := ⟨h.inRange.1, by rw [List.length_append]; exact Nat.le_add_right_of_le h.inRange.2⟩
  type := paramType?_append h.type
  shared := h.shared
  member := h.member

/-- Parameters, and the positions of those that are passed on for the inherited ones. -/
structure Forwards (members : List Member) (inherited : List Parameter) (s : Signature) : Prop where
  params : members.map Member.storedType <+: s.params
  passed : List.Forall₂ (PassedAt members s.params) s.forwarded inherited
  /-- The positions behind the members are passed on in order, each once. -/
  added : s.forwarded.filter (members.length < ·) =
    List.range' (members.length + 1) (s.params.length - members.length)
  /-- Inherited parameters with names of their own have positions of their own. -/
  nodup : (inherited.map Parameter.name).Nodup → s.forwarded.Nodup

namespace Forwards

variable {members : List Member} {inherited : List Parameter} {s : Signature} {p : Parameter}

theorem length_le (h : Forwards members inherited s) : members.length ≤ s.params.length := by
  have hle := h.params.length_le
  rwa [List.length_map] at hle

/-- A position that is passed on is passed on for an inherited parameter. -/
theorem exists_passedAt (h : Forwards members inherited s) {position : Nat}
    (hposition : position ∈ s.forwarded) :
    ∃ q ∈ inherited, PassedAt members s.params position q := by
  obtain ⟨i, hi, rfl⟩ := List.getElem_of_mem hposition
  have hi' : i < inherited.length := h.passed.length_eq ▸ hi
  exact ⟨inherited[i], List.getElem_mem hi', h.passed.get hi hi'⟩

theorem nil (members : List Member) :
    Forwards members [] { params := members.map Member.storedType } where
  params := List.prefix_refl _
  passed := .nil
  added := by simp
  nodup := fun _ => List.nodup_nil

/-- One more inherited parameter, which the first member that shares it passes on. -/
theorem forward_shared (h : Forwards members inherited s) {i : Nat}
    (hi : members.findIdx? (shares p) = some i) :
    Forwards members (inherited ++ [p]) { s with forwarded := s.forwarded ++ [i + 1] } := by
  obtain ⟨hlt, hshares, -⟩ := List.findIdx?_eq_some_iff_getElem.mp hi
  have hmatch := shares_iff.mp hshares
  have hparam : paramType? s.params (i + 1) = some p.type := by
    obtain ⟨more, hmore⟩ := h.params
    rw [← hmore]
    exact paramType?_append (by simp [paramType?, hlt, hmatch.1])
  refine ⟨h.params, List.rel_append h.passed (.cons ?_ .nil), ?_, fun hnames => ?_⟩
  · refine ⟨⟨Nat.le_add_left 1 i, Nat.le_trans hlt h.length_le⟩, hparam, ?_, ?_⟩
    · exact iff_of_true hlt ⟨members[i], List.getElem_mem hlt, hmatch⟩
    · intro m hm
      rw [Nat.add_sub_cancel, List.getElem?_eq_getElem hlt] at hm
      obtain rfl := Option.some.inj hm
      exact hmatch
  · have hnot : ¬ members.length < i + 1 := by omega
    simp [List.filter_append, h.added, hnot]
  · rw [List.map_append, List.map_singleton, List.nodup_append] at hnames
    refine List.nodup_append.mpr ⟨h.nodup hnames.1, List.nodup_singleton _, ?_⟩
    rintro position hposition _ hlast rfl
    obtain rfl := List.mem_singleton.mp hlast
    -- the member at this position has the names of two inherited parameters
    obtain ⟨q, hq, hpassed⟩ := h.exists_passedAt hposition
    have hsame : members[i].field = q.name :=
      (hpassed.member members[i] (by simp [hlt])).2
    exact hnames.2.2 q.name (List.mem_map_of_mem hq) p.name (List.mem_singleton_self _)
      (hsame.symm.trans hmatch.2)

/-- One more inherited parameter, which no member shares: it is added behind the others. -/
theorem forward_added (h : Forwards members inherited s)
    (hnone : members.findIdx? (shares p) = none) :
    Forwards members (inherited ++ [p])
      { params := s.params ++ [p.type], forwarded := s.forwarded ++ [s.params.length + 1] } := by
  have hle := h.length_le
  refine ⟨h.params.trans (List.prefix_append _ _), ?_, ?_, fun hnames => ?_⟩
  · refine List.rel_append (h.passed.imp fun _ _ hq => hq.append) (.cons ⟨?_, ?_, ?_, ?_⟩ .nil)
    · simp
    · simp [paramType?]
    · refine iff_of_false (by omega) ?_
      rintro ⟨m, hm, hmatch⟩
      have hnot := List.findIdx?_eq_none_iff.mp hnone m hm
      rw [shares_iff.mpr hmatch] at hnot
      cases hnot
    · intro m hm
      have hlt := (List.getElem?_eq_some_iff.mp hm).1
      omega
  · have hlast : members.length < s.params.length + 1 := by omega
    have hcount : s.params.length + 1 - members.length
        = s.params.length - members.length + 1 := by omega
    have hend : members.length + 1 + (s.params.length - members.length) = s.params.length + 1 := by
      omega
    simp [List.filter_append, h.added, hlast, hcount, List.range'_1_concat, hend]
  · rw [List.map_append, List.nodup_append] at hnames
    refine List.nodup_append.mpr ⟨h.nodup hnames.1, List.nodup_singleton _, ?_⟩
    rintro position hposition _ hlast rfl
    obtain rfl := List.mem_singleton.mp hlast
    obtain ⟨q, -, hpassed⟩ := h.exists_passedAt hposition
    have hle := hpassed.inRange.2
    omega

theorem forward (h : Forwards members inherited s) (p : Parameter) :
    Forwards members (inherited ++ [p]) (ConstructorPlan.forward members s p) := by
  unfold ConstructorPlan.forward
  split
  · next i hi => exact h.forward_shared hi
  · next hnone => exact h.forward_added hnone

end Forwards

/-- **What a constructor passes on.** The parameters start with those of the members, and each
inherited parameter is passed on from a position with its type. -/
theorem forwards_signature (plan : ConstructorPlan) :
    Forwards plan.members plan.superParams plan.signature := by
  have hfold : ∀ (ps inherited : List Parameter) (s : Signature),
      Forwards plan.members inherited s →
      Forwards plan.members (inherited ++ ps) (ps.foldl (forward plan.members) s) := by
    intro ps
    induction ps with
    | nil =>
      intro inherited s h
      rwa [List.append_nil]
    | cons p ps ih =>
      intro inherited s h
      rw [List.append_cons]
      exact ih _ _ (h.forward p)
  exact hfold plan.superParams [] _ (.nil plan.members)

end ConstructorPlan

end ClassSynth
