import ClassSynth.ConstantPool.Basic
import ClassSynth.Proofs.Checked

/-!
# Growing pools

Pools only grow: the constant at an index stays there, and no constant is added that is there
already. A step that adds a constant gives an index that holds it, in the pool after the step and in
every later pool, as long as no index exceeds 16 bits. `Adds` states this for steps of any size, and
compound constants follow from their parts.
-/

namespace ClassSynth.ConstantPool

/-! ## Growth -/

/-- The later pool starts with the slots of the earlier one, and what follows is new. -/
structure Grows (p q : ConstantPool) : Prop where
  slots : p.slots.toList <+: q.slots.toList
  fresh : ∀ position c, p.slots.size ≤ position → q.slots.toList[position]? = some (some c) →
    some c ∉ p.slots.toList

theorem slots_getElem?_of_prefix {p q : ConstantPool} (h : p.slots.toList <+: q.slots.toList)
    {position : Nat} {slot : Option Constant} (hget : p.slots[position]? = some slot) :
    q.slots[position]? = some slot := by
  rw [← Array.getElem?_toList] at hget ⊢
  obtain ⟨more, hmore⟩ := h
  rw [← hmore, List.getElem?_append_left (List.getElem?_eq_some_iff.mp hget).1, hget]

/-- Every slot has an index in 16 bits. -/
def Indexable (p : ConstantPool) : Prop :=
  p.slots.size ≤ 65535

theorem mem_of_get? {p : ConstantPool} {index : UInt16} {c : Constant}
    (h : p.get? index = some c) : some c ∈ p.slots.toList := by
  simp only [get?, slot?] at h
  split_ifs at h
  · cases h
  · exact Array.mem_toList_iff.mpr (Array.mem_of_getElem? (Option.join_eq_some_iff.mp h))

theorem utf8_eq_ok {p : ConstantPool} {index : UInt16} {text : String} :
    p.utf8 index = .ok text ↔ p.get? index = some (.utf8 text) := by
  unfold utf8
  split
  · next found hfound => simp [hfound]
  · next hother =>
    constructor
    · intro h
      cases h
    · intro h
      exact absurd h (hother text)

namespace Grows

variable {p q r : ConstantPool}

theorem refl (p : ConstantPool) : p.Grows p where
  slots := List.prefix_rfl
  fresh := fun position c hle hget => by
    rw [List.getElem?_eq_none (by simpa using hle)] at hget
    cases hget

theorem size_le (h : p.Grows q) : p.slots.size ≤ q.slots.size := by
  simpa using List.IsPrefix.length_le h.slots

theorem trans (hpq : p.Grows q) (hqr : q.Grows r) : p.Grows r where
  slots := List.IsPrefix.trans hpq.slots hqr.slots
  fresh := fun position c hle hget hmem => by
    obtain ⟨more, hmore⟩ := hqr.slots
    rcases Nat.lt_or_ge position q.slots.size with hlt | hge
    · rw [← hmore, List.getElem?_append_left (by simpa using hlt)] at hget
      exact hpq.fresh position c hle hget hmem
    · exact hqr.fresh position c hge hget (hpq.slots.subset hmem)

theorem indexable (h : p.Grows q) (hq : q.Indexable) : p.Indexable :=
  Nat.le_trans h.size_le hq

theorem slots_getElem? (h : p.Grows q) {position : Nat} {slot : Option Constant}
    (hget : p.slots[position]? = some slot) : q.slots[position]? = some slot :=
  slots_getElem?_of_prefix h.slots hget

theorem get? (h : p.Grows q) {index : UInt16} {c : Constant} (hget : p.get? index = some c) :
    q.get? index = some c := by
  simp only [ConstantPool.get?, slot?] at hget ⊢
  split_ifs at hget ⊢ with hindex
  · cases hget
  · cases hslot : p.slots[index.toNat - 1]? with
    | none =>
      rw [hslot] at hget
      cases hget
    | some slot =>
      rw [h.slots_getElem? hslot, ← hslot]
      exact hget

theorem utf8 (h : p.Grows q) {index : UInt16} {text : String}
    (hget : p.utf8 index = .ok text) : q.utf8 index = .ok text := by
  simp only [ConstantPool.utf8] at hget ⊢
  split at hget
  · next hp =>
    rw [h.get? hp]
    exact hget
  · cases hget

theorem className (h : p.Grows q) {index : UInt16} {name : String}
    (hget : p.className index = .ok name) : q.className index = .ok name := by
  simp only [ConstantPool.className] at hget ⊢
  split at hget
  · next hp =>
    rw [h.get? hp]
    exact h.utf8 hget
  · cases hget

theorem nameAndType (h : p.Grows q) {index : UInt16} {pair : String × String}
    (hget : p.nameAndType index = .ok pair) : q.nameAndType index = .ok pair := by
  simp only [ConstantPool.nameAndType] at hget ⊢
  split at hget
  · next hp =>
    obtain ⟨name, hname, hget⟩ := Checked.bind_eq_ok.mp hget
    obtain ⟨descriptor, hdescriptor, hget⟩ := Checked.bind_eq_ok.mp hget
    rw [h.get? hp]
    exact Checked.bind_eq_ok.mpr
      ⟨name, h.utf8 hname, Checked.bind_eq_ok.mpr ⟨descriptor, h.utf8 hdescriptor, hget⟩⟩
  · cases hget

theorem memberRef (h : p.Grows q) {index : UInt16} {m : MemberRef}
    (hget : p.memberRef index = .ok m) : q.memberRef index = .ok m := by
  have hresolve : ∀ {owner nat : UInt16} {onInterface : Bool},
      (p.nameAndType nat >>= fun pair => p.className owner >>= fun owner =>
        pure { owner, name := pair.1, descriptor := pair.2, onInterface }) = .ok m →
      (q.nameAndType nat >>= fun pair => q.className owner >>= fun owner =>
        pure { owner, name := pair.1, descriptor := pair.2, onInterface }) = .ok m := by
    intro owner nat onInterface hm
    obtain ⟨pair, hpair, hm⟩ := Checked.bind_eq_ok.mp hm
    obtain ⟨name, hname, hm⟩ := Checked.bind_eq_ok.mp hm
    exact Checked.bind_eq_ok.mpr
      ⟨pair, h.nameAndType hpair, Checked.bind_eq_ok.mpr ⟨name, h.className hname, hm⟩⟩
  simp only [ConstantPool.memberRef] at hget ⊢
  split at hget
  · next hp => rw [h.get? hp]; exact hresolve hget
  · next hp => rw [h.get? hp]; exact hresolve hget
  · next hp => rw [h.get? hp]; exact hresolve hget
  · cases hget

/-- An index that holds a constant now, and held none before, holds a constant that is new. -/
theorem not_mem_of_get? (h : p.Grows q) {index : UInt16} {c : Constant}
    (hget : q.get? index = some c) (hbefore : p.get? index ≠ some c) : some c ∉ p.slots.toList := by
  simp only [ConstantPool.get?, slot?] at hget hbefore
  split_ifs at hget hbefore with hindex
  · cases hget
  have hslot : q.slots[index.toNat - 1]? = some (some c) := Option.join_eq_some_iff.mp hget
  refine h.fresh (index.toNat - 1) c ?_ (by rwa [Array.getElem?_toList])
  by_contra hlt
  obtain ⟨more, hmore⟩ := h.slots
  rw [← Array.getElem?_toList, ← hmore,
    List.getElem?_append_left (by simpa using hlt), Array.getElem?_toList] at hslot
  exact hbefore (by rw [hslot]; rfl)

end Grows

/-! ## Adding constants -/

theorem toNat_indexAt {position : Nat} (h : position < 65535) :
    (indexAt position).toNat = position + 1 := by
  rw [indexAt, Nat.toUInt16_eq, UInt16.toNat_ofNat']
  exact Nat.mod_eq_of_lt (Nat.succ_lt_succ h)

theorem get?_indexAt {p : ConstantPool} {position : Nat} {c : Constant} (hlt : position < 65535)
    (h : p.slots[position]? = some (some c)) : p.get? (indexAt position) = some c := by
  have hindex := toNat_indexAt hlt
  have hne : indexAt position ≠ 0 := by
    intro h0
    rw [h0] at hindex
    cases hindex
  rw [get?, slot?, if_neg hne, hindex, Nat.add_sub_cancel, h]
  rfl

theorem not_mem_of_index? {p : ConstantPool} {c : Constant} (h : p.index? c = none) :
    some c ∉ p.slots.toList := by
  have hnone : p.slots.toList.findIdx? (· == some c) = none := by
    rw [← p.positions_eq]
    exact Option.map_eq_none_iff.mp h
  rw [List.findIdx?_eq_none_iff] at hnone
  intro hmem
  simpa using hnone _ hmem

/-- A constant that the pool does not hold is appended. -/
theorem add_of_not_mem {p : ConstantPool} {c : Constant} (h : some c ∉ p.slots.toList) :
    p.add c = p.push c := by
  have hnone : p.index? c = none := by
    rw [index?, p.positions_eq, Option.map_eq_none_iff, List.findIdx?_eq_none_iff]
    intro slot hslot
    exact beq_false_of_ne fun hsame => h (hsame ▸ hslot)
  rw [add, hnone]

theorem grows_push {p : ConstantPool} {c : Constant} (h : p.index? c = none) :
    p.Grows (p.push c).2 where
  slots := ⟨slotsOf c, by simp [push]⟩
  fresh := fun position d hle hget => by
    have hslots : (p.push c).2.slots.toList = p.slots.toList ++ slotsOf c := by simp [push]
    rw [hslots, List.getElem?_append_right (by simpa using hle)] at hget
    have hmem := List.mem_of_getElem? hget
    have hd : d = c := by
      rw [slotsOf] at hmem
      split_ifs at hmem <;> simpa using hmem
    exact hd ▸ not_mem_of_index? h

theorem grows_add (p : ConstantPool) (c : Constant) : p.Grows (p.add c).2 := by
  unfold add
  split
  · exact Grows.refl p
  · next h => exact grows_push h

theorem size_add_le (p : ConstantPool) (c : Constant) :
    (p.add c).2.slots.size ≤ p.slots.size + 2 := by
  unfold add
  split
  · exact Nat.le_add_right _ _
  · simp only [push, slotsOf]
    split_ifs <;> simp

/-- The index of an added constant is that of the first slot that holds it. -/
theorem exists_position_add (p : ConstantPool) (c : Constant) :
    ∃ position, (p.add c).2.slots.toList.findIdx? (· == some c) = some position ∧
      (p.add c).1 = indexAt position ∧ position ≤ p.slots.size := by
  unfold add
  split
  · next index hindex =>
    obtain ⟨position, hposition, rfl⟩ := Option.map_eq_some_iff.mp hindex
    rw [p.positions_eq] at hposition
    obtain ⟨hlt, -, -⟩ := List.findIdx?_eq_some_iff_getElem.mp hposition
    exact ⟨position, hposition, rfl, by simpa using Nat.le_of_lt hlt⟩
  · next hindex =>
    have hnone : p.slots.toList.findIdx? (· == some c) = none := by
      rw [← p.positions_eq]
      exact Option.map_eq_none_iff.mp hindex
    refine ⟨p.slots.size, ?_, rfl, Nat.le_refl _⟩
    rw [push, Array.toList_appendList, List.findIdx?_append, hnone, findIdx?_slotsOf, if_pos rfl]
    simp

/-- The index of an added constant holds it, now and later. -/
theorem get?_add {p r : ConstantPool} {c : Constant} (hr : (p.add c).2.Grows r)
    (hindexable : r.Indexable) : r.get? (p.add c).1 = some c := by
  obtain ⟨position, hposition, hindex, -⟩ := exists_position_add p c
  obtain ⟨hlt, hfound, -⟩ :=
    List.findIdx?_eq_some_iff_getElem.mp (hr.slots.findIdx?_eq_some hposition)
  rw [hindex]
  refine get?_indexAt (Nat.lt_of_lt_of_le (by simpa using hlt) hindexable) ?_
  rw [← Array.getElem?_toList, List.getElem?_eq_getElem hlt]
  exact congrArg some (eq_of_beq hfound)

/-! ## Steps -/

/-- The step keeps all constants, and its result satisfies `P` in every later pool. -/
def Adds {α : Type} (step : Adding α) (P : ConstantPool → α → Prop) : Prop :=
  ∀ p, p.Grows (step.run p).2 ∧
    ∀ r, (step.run p).2.Grows r → r.Indexable → P r (step.run p).1

namespace Adds

variable {α β : Type} {step : Adding α} {P : ConstantPool → α → Prop}

theorem pure {a : α} (h : ∀ r, P r a) : Adds (Pure.pure a) P :=
  fun p => ⟨Grows.refl p, fun r _ _ => h r⟩

theorem bind {f : α → Adding β} {Q : ConstantPool → β → Prop} (hstep : Adds step P)
    (hf : ∀ a, Adds (f a) fun r b => P r a → Q r b) : Adds (step >>= f) Q := by
  intro p
  obtain ⟨hgrows, hP⟩ := hstep p
  obtain ⟨hgrows', hQ⟩ := hf (step.run p).1 (step.run p).2
  refine ⟨hgrows.trans hgrows', fun r hr hindexable => ?_⟩
  exact hQ r hr hindexable (hP r (hgrows'.trans hr) hindexable)

theorem mono {Q : ConstantPool → α → Prop} (hstep : Adds step P)
    (h : ∀ r a, P r a → Q r a) : Adds step Q :=
  fun p => ⟨(hstep p).1, fun r hr hindexable => h r _ ((hstep p).2 r hr hindexable)⟩

end Adds

theorem adds_constant (c : Constant) : Adds (add' c) fun r index => r.get? index = some c :=
  fun p => ⟨p.grows_add c, fun _ hr hindexable => get?_add hr hindexable⟩

theorem adds_utf8 (text : String) : Adds (addUtf8 text) fun r index => r.utf8 index = .ok text :=
  (adds_constant _).mono fun r index h => by rw [utf8, h]

theorem adds_class (name : String) :
    Adds (addClass name) fun r index => r.className index = .ok name :=
  (adds_utf8 name).bind fun _ => (adds_constant _).mono fun r index h hname => by
    rw [className, h]
    exact hname

theorem adds_string (text : String) :
    Adds (addString text) fun r index =>
      ∃ u, r.get? index = some (.string u) ∧ r.utf8 u = .ok text :=
  (adds_utf8 text).bind fun u => (adds_constant _).mono fun _ _ h htext => ⟨u, h, htext⟩

theorem adds_integer (value : Int32) :
    Adds (addInteger value) fun r index => r.get? index = some (.integer value) :=
  adds_constant _

theorem adds_nameAndType (name descriptor : String) :
    Adds (addNameAndType name descriptor) fun r index =>
      r.nameAndType index = .ok (name, descriptor) :=
  (adds_utf8 name).bind fun _ => (adds_utf8 descriptor).bind fun _ =>
    (adds_constant _).mono fun r index h hdescriptor hname => by
      rw [nameAndType, h]
      simp only [hname, hdescriptor]
      rfl

/-- A reference to a member is resolved to the member it was made for. -/
theorem adds_member {make : UInt16 → UInt16 → Constant} (onInterface : Bool)
    (hmake : make = .fieldRef ∧ onInterface = false ∨ make = .methodRef ∧ onInterface = false ∨
      make = .interfaceMethodRef ∧ onInterface = true) (owner name descriptor : String) :
    Adds (addMember make owner name descriptor) fun r index =>
      r.memberRef index = .ok { owner, name, descriptor, onInterface } :=
  (adds_class owner).bind fun _ => (adds_nameAndType name descriptor).bind fun _ =>
    (adds_constant _).mono fun r index h hnat howner => by
      rcases hmake with ⟨rfl, rfl⟩ | ⟨rfl, rfl⟩ | ⟨rfl, rfl⟩ <;>
        (rw [memberRef, h]; simp only [hnat, howner]; rfl)

/-! ## Constants that are there -/

/-- The pool holds the constants of a step, which returns `a`. -/
def Holds {α : Type} (p : ConstantPool) (step : Adding α) (a : α) : Prop :=
  step.run p = (a, p)

theorem Holds.bind {α β : Type} {p : ConstantPool} {step : Adding α} {f : α → Adding β} {a : α}
    {b : β} (h : p.Holds step a) (hf : p.Holds (f a) b) : p.Holds (step >>= f) b := by
  rw [Holds, StateT.run_bind, h]
  exact hf

/-- A constant is found at its first position. -/
theorem holds_constant {p : ConstantPool} {c : Constant} (position : Nat)
    (h : p.slots.toList.findIdx? (· == some c) = some position) :
    p.Holds (add' c) (indexAt position) := by
  change p.add c = _
  rw [add, index?, p.positions_eq, h]
  rfl

end ClassSynth.ConstantPool
