import ClassSynth.Proofs.ConstantPool.Growth

/-!
# Filling pools

A pool is filled by adding constants and by pushing those of a class file, where a constant may
stand more than once. However it was filled, the table of first positions and the slots stay in
step: `faithful_fillAll` says what every filled pool does with constants, indices and references.
-/

namespace ClassSynth.ConstantPool

/-- One constant more: it is added, or it is pushed as it stands in a class file. -/
inductive Filling
  | add (c : Constant)
  | push (c : Constant)

/-- The pool with one constant more. -/
def fill (p : ConstantPool) : Filling → ConstantPool
  | .add c => (p.add c).2
  | .push c => (p.push c).2

/-- The pool after fillings in order. -/
def fillAll (p : ConstantPool) (fs : List Filling) : ConstantPool := fs.foldl fill p

theorem fillAll_append (p : ConstantPool) (fs fs' : List Filling) :
    p.fillAll (fs ++ fs') = (p.fillAll fs).fillAll fs' :=
  List.foldl_append

variable {p q : ConstantPool} {c : Constant} {i : UInt16}

/-! ## What is kept -/

theorem slots_prefix_push (p : ConstantPool) (c : Constant) :
    p.slots.toList <+: (p.push c).2.slots.toList :=
  ⟨slotsOf c, by simp [push]⟩

theorem slots_prefix_fill (p : ConstantPool) (f : Filling) :
    p.slots.toList <+: (p.fill f).slots.toList := by
  cases f with
  | add c => exact (p.grows_add c).slots
  | push c => exact p.slots_prefix_push c

theorem slots_prefix_fillAll (p : ConstantPool) (fs : List Filling) :
    p.slots.toList <+: (p.fillAll fs).slots.toList := by
  induction fs generalizing p with
  | nil => exact List.prefix_rfl
  | cons f fs ih => exact (p.slots_prefix_fill f).trans (ih (p.fill f))

theorem slot?_fillAll {slot : Option Constant} (h : p.slot? i = some slot) (fs : List Filling) :
    (p.fillAll fs).slot? i = some slot := by
  rw [slot?] at h ⊢
  split_ifs at h ⊢
  exact slots_getElem?_of_prefix (p.slots_prefix_fillAll fs) h

/-! ## Eight-byte numbers -/

/-- The slot after an eight-byte number is empty. -/
def Spaced (p : ConstantPool) : Prop :=
  ∀ position c, p.slots[position]? = some (some c) → c.isWide = true →
    p.slots[position + 1]? = some none

theorem spaced_empty : Spaced empty := by
  intro position c h
  simp [empty] at h

theorem Spaced.push (h : p.Spaced) (c : Constant) : (p.push c).2.Spaced := by
  intro position d hd hwide
  have hslots : (p.push c).2.slots.toList = p.slots.toList ++ slotsOf c := by
    simp [ConstantPool.push]
  rcases Nat.lt_or_ge position p.slots.toList.length with hlt | hge
  · have hold : p.slots[position]? = some (some d) := by
      rwa [← Array.getElem?_toList, hslots, List.getElem?_append_left hlt,
        Array.getElem?_toList] at hd
    exact slots_getElem?_of_prefix (p.slots_prefix_push c) (h position d hold hwide)
  · -- the constant is the new one, and its second slot was appended with it
    obtain ⟨k, rfl⟩ := Nat.exists_eq_add_of_le hge
    rw [← Array.getElem?_toList, hslots, List.getElem?_append_right (Nat.le_add_right _ _),
      Nat.add_sub_cancel_left, slotsOf] at hd
    rw [← Array.getElem?_toList, hslots, Nat.add_assoc,
      List.getElem?_append_right (Nat.le_add_right _ _), Nat.add_sub_cancel_left, slotsOf]
    cases k with
    | zero =>
      obtain rfl : c = d := by simpa using hd
      simp [hwide]
    | succ k => split_ifs at hd <;> cases k <;> simp at hd

theorem Spaced.fill (h : p.Spaced) (f : Filling) : (p.fill f).Spaced := by
  cases f with
  | add c =>
    rw [ConstantPool.fill, ConstantPool.add]
    split
    · exact h
    · exact h.push c
  | push c => exact h.push c

theorem Spaced.fillAll (h : p.Spaced) (fs : List Filling) : (p.fillAll fs).Spaced := by
  induction fs generalizing p with
  | nil => exact h
  | cons f fs ih => exact ih (h.fill f)

/-! ## Indices of added constants -/

/-- Adding a constant again finds it where it was, whatever was added in between. -/
theorem add_fillAll_add (p : ConstantPool) (c : Constant) (fs : List Filling) :
    ((p.add c).2.fillAll fs).add c = ((p.add c).1, (p.add c).2.fillAll fs) := by
  obtain ⟨position, hposition, hindex, -⟩ := exists_position_add p c
  rw [hindex]
  exact holds_constant position
    (((p.add c).2.slots_prefix_fillAll fs).findIdx?_eq_some hposition)

/-- No earlier index holds an added constant. -/
theorem add_le_of_get? (hcount : p.count ≤ 65535) (h : (p.add c).2.get? i = some c) :
    (p.add c).1 ≤ i := by
  obtain ⟨position, hposition, hindex, hle⟩ := exists_position_add p c
  obtain ⟨_, _, hfirst⟩ := List.findIdx?_eq_some_iff_getElem.mp hposition
  rw [hindex, UInt16.le_iff_toNat_le, toNat_indexAt (Nat.lt_of_le_of_lt hle hcount)]
  simp only [get?, slot?] at h
  split_ifs at h with hzero
  · cases h
  have hpos : 0 < i.toNat := Nat.pos_of_ne_zero fun hi => hzero (UInt16.toNat_inj.mp hi)
  have hslot : (p.add c).2.slots[i.toNat - 1]? = some (some c) := Option.join_eq_some_iff.mp h
  rw [← Array.getElem?_toList] at hslot
  obtain ⟨hlt, hheld⟩ := List.getElem?_eq_some_iff.mp hslot
  by_contra hbefore
  exact hfirst (i.toNat - 1) (by omega) (by simp [hheld])

/-- The index of an added constant holds it, also if its second slot has no index. -/
theorem get?_add_self (hcount : p.count ≤ 65535) (c : Constant) :
    (p.add c).2.get? (p.add c).1 = some c := by
  obtain ⟨position, hposition, hindex, hle⟩ := exists_position_add p c
  obtain ⟨hlt, hfound, -⟩ := List.findIdx?_eq_some_iff_getElem.mp hposition
  rw [hindex]
  refine get?_indexAt (Nat.lt_of_le_of_lt hle hcount) ?_
  rw [← Array.getElem?_toList, List.getElem?_eq_getElem hlt]
  exact congrArg some (eq_of_beq hfound)

/-- The index after that of an eight-byte number holds nothing. -/
theorem slot?_succ_of_isWide (hspaced : p.Spaced) (hcount : p.count ≤ 65535)
    (h : p.get? i = some c) (hwide : c.isWide = true) : p.slot? (i + 1) = some none := by
  simp only [get?, slot?] at h
  split_ifs at h with hzero
  · cases h
  have hpos : 0 < i.toNat := Nat.pos_of_ne_zero fun hi => hzero (UInt16.toNat_inj.mp hi)
  have hnext := hspaced (i.toNat - 1) c (Option.join_eq_some_iff.mp h) hwide
  rw [Nat.sub_add_cancel hpos] at hnext
  have hlt : i.toNat < p.slots.size := (Array.getElem?_eq_some_iff.mp hnext).1
  have hsucc : (i + 1).toNat = i.toNat + 1 := by
    rw [UInt16.toNat_add, UInt16.toNat_one]
    exact Nat.mod_eq_of_lt (by rw [count] at hcount; omega)
  rw [slot?, if_neg (fun h0 => by rw [h0] at hsucc; cases hsucc), hsucc, Nat.add_sub_cancel, hnext]

/-- No constant is added where the pool has an empty slot. -/
theorem add_ne_of_slot? (hcount : p.count ≤ 65535) (h : p.slot? i = some none) (d : Constant) :
    (p.add d).1 ≠ i := by
  rintro rfl
  have hempty := slot?_fillAll h [.add d]
  have hheld := get?_add_self hcount d
  rw [get?, show (p.add d).2.slot? (p.add d).1 = some none from hempty] at hheld
  cases hheld

/-! ## References to members -/

/-- The step adds constants one by one. -/
def AddsOnly {α : Type} (step : Adding α) : Prop :=
  ∀ p, ∃ fs, (step.run p).2 = p.fillAll fs

theorem AddsOnly.bind {α β : Type} {step : Adding α} {f : α → Adding β} (hstep : AddsOnly step)
    (hf : ∀ a, AddsOnly (f a)) : AddsOnly (step >>= f) := by
  intro p
  obtain ⟨fs, hfs⟩ := hstep p
  obtain ⟨fs', hfs'⟩ := hf (step.run p).1 (step.run p).2
  refine ⟨fs ++ fs', ?_⟩
  rw [fillAll_append, ← hfs]
  exact hfs'

theorem addsOnly_constant (c : Constant) : AddsOnly (add' c) := fun _ => ⟨[.add c], rfl⟩

theorem addsOnly_member (make : UInt16 → UInt16 → Constant) (owner name descriptor : String) :
    AddsOnly (addMember make owner name descriptor) :=
  .bind (.bind (addsOnly_constant _) fun _ => addsOnly_constant _) fun _ =>
    .bind (.bind (addsOnly_constant _) fun _ => .bind (addsOnly_constant _) fun _ =>
      addsOnly_constant _) fun _ => addsOnly_constant _

/-- The kinds of references to members: how each is added, and whether it is one to a method of an
interface. -/
def memberAdders : List ((String → String → String → Adding UInt16) × Bool) :=
  [(addFieldRef, false), (addMethodRef, false), (addInterfaceMethodRef, true)]

/-- A reference that was added is resolved to the member it was added for. -/
theorem memberRef_of_adder {adder : String → String → String → Adding UInt16} {onInterface : Bool}
    (hadder : (adder, onInterface) ∈ memberAdders) (p : ConstantPool)
    (owner name descriptor : String) :
    (∃ fs, ((adder owner name descriptor).run p).2 = p.fillAll fs) ∧
      (((adder owner name descriptor).run p).2.count ≤ 65535 →
        ((adder owner name descriptor).run p).2.memberRef ((adder owner name descriptor).run p).1
          = .ok { owner, name, descriptor, onInterface }) := by
  have hmade : ∀ make : UInt16 → UInt16 → Constant,
      (make = .fieldRef ∧ onInterface = false ∨ make = .methodRef ∧ onInterface = false ∨
        make = .interfaceMethodRef ∧ onInterface = true) → adder = addMember make →
      (∃ fs, ((adder owner name descriptor).run p).2 = p.fillAll fs) ∧
        (((adder owner name descriptor).run p).2.count ≤ 65535 →
          ((adder owner name descriptor).run p).2.memberRef
            ((adder owner name descriptor).run p).1
              = .ok { owner, name, descriptor, onInterface }) := by
    rintro make hmake rfl
    refine ⟨addsOnly_member make owner name descriptor p, fun hcount => ?_⟩
    obtain ⟨-, hresolved⟩ := adds_member onInterface hmake owner name descriptor p
    exact hresolved _ (Grows.refl _) (by rw [count] at hcount; rw [Indexable]; omega)
  simp only [memberAdders, List.mem_cons, List.not_mem_nil, or_false, Prod.mk.injEq] at hadder
  obtain ⟨rfl, rfl⟩ | ⟨rfl, rfl⟩ | ⟨rfl, rfl⟩ := hadder
  · exact hmade .fieldRef (.inl ⟨rfl, rfl⟩) rfl
  · exact hmade .methodRef (.inr (.inl ⟨rfl, rfl⟩)) rfl
  · exact hmade .interfaceMethodRef (.inr (.inr ⟨rfl, rfl⟩)) rfl

/-! ## Filled pools -/

/-- What indices of a pool mean, also when it is filled further. -/
structure Faithful (p : ConstantPool) : Prop where
  /-- The index of an added constant is the first one that holds it. -/
  first : ∀ c, (p.add c).2.get? (p.add c).1 = some c ∧
    ∀ i, (p.add c).2.get? i = some c → (p.add c).1 ≤ i
  /-- A constant that was added is not added again. -/
  again : ∀ c later, ((p.add c).2.fillAll later).add c = ((p.add c).1, (p.add c).2.fillAll later)
  /-- What an index holds does not change. -/
  kept : ∀ later i slot, p.slot? i = some slot → (p.fillAll later).slot? i = some slot
  /-- The slot after an eight-byte number stays empty. -/
  reserved : ∀ i c, p.get? i = some c → c.isWide = true → ∀ later,
    (p.fillAll later).slot? (i + 1) = some none ∧
      ((p.fillAll later).count ≤ 65535 → ∀ d, ((p.fillAll later).add d).1 ≠ i + 1)
  /-- Adding a reference adds constants one by one, and the reference leads to its member. -/
  resolved : ∀ adder onInterface, (adder, onInterface) ∈ memberAdders →
    ∀ owner name descriptor, (∃ fs, ((adder owner name descriptor).run p).2 = p.fillAll fs) ∧
      (((adder owner name descriptor).run p).2.count ≤ 65535 →
        ((adder owner name descriptor).run p).2.memberRef ((adder owner name descriptor).run p).1
          = .ok { owner, name, descriptor, onInterface })

/-- **Filled pools are faithful.** In a pool that was filled from the empty one by adding constants
and by pushing those of class files, an added constant is found at the first index that holds it,
now and later; no index changes what it holds; the slot after an eight-byte number stays empty; and
references lead to the members they were added for. -/
theorem faithful_fillAll (fs : List Filling) (hcount : (empty.fillAll fs).count ≤ 65535) :
    (empty.fillAll fs).Faithful where
  first := fun c => ⟨get?_add_self hcount c, fun _ hi => add_le_of_get? hcount hi⟩
  again := fun c later => add_fillAll_add _ c later
  kept := fun later _ _ h => slot?_fillAll h later
  reserved := by
    intro i c hget hwide later
    have hempty := slot?_succ_of_isWide (spaced_empty.fillAll fs) hcount hget hwide
    have hlater := slot?_fillAll hempty later
    exact ⟨hlater, fun hlaterCount d => add_ne_of_slot? hlaterCount hlater d⟩
  resolved := fun _ _ hadder owner name descriptor =>
    memberRef_of_adder hadder _ owner name descriptor

theorem count_fillAll_le (p : ConstantPool) (fs : List Filling) :
    (p.fillAll fs).count ≤ p.count + 2 * fs.length := by
  induction fs generalizing p with
  | nil => exact Nat.le_refl _
  | cons f fs ih =>
    have hfill : (p.fill f).count ≤ p.count + 2 := by
      cases f with
      | add c => exact Nat.succ_le_succ (p.size_add_le c)
      | push c => simp only [fill, count, push, slotsOf]; split_ifs <;> simp
    have hrest := ih (p.fill f)
    rw [List.length_cons]
    exact Nat.le_trans hrest (by omega)

/-- A text that is read twice is found at its first index, and no text takes the second slot of the
number. -/
theorem faithful_fillAll_duplicate :
    let p := empty.fillAll [.push (.long 7), .push (.utf8 "name"), .push (.utf8 "name")]
    p.count ≤ 65535 ∧ p.Faithful ∧ p.slot? 2 = some none ∧ (p.add (.utf8 "name")).1 = 3 := by
  have hcount : (empty.fillAll [.push (.long 7), .push (.utf8 "name"), .push (.utf8 "name")]).count
      ≤ 65535 := Nat.le_trans (count_fillAll_le _ _) (by decide)
  have h := faithful_fillAll _ hcount
  refine ⟨hcount, h, (h.reserved 1 (.long 7) rfl rfl []).1, ?_⟩
  exact congrArg Prod.fst (holds_constant (c := .utf8 "name") 2 rfl)

end ClassSynth.ConstantPool
