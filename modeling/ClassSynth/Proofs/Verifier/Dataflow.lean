import ClassSynth.Emit.Context
import ClassSynth.Proofs.Verifier.Effect
import Mathlib.Tactic.SplitIfs

/-!
# A pass over the kinds of values

The pass follows finished code from the local variables that a method starts with. It knows of every
value only its kind, of `null` that it is `null`, and of an object that no constructor was called on
where it comes from. An instruction is passed only if it finds values of the kinds that its effect
takes; what happens to frames, labels or types during emission has no part in this.
-/

namespace ClassSynth.Verifier

/-! ## Values -/

/-- What a local variable or an entry of the stack holds. -/
inductive Held
  | value (kind : ValueKind)
  | null
  /-- The receiver of a constructor, until an inherited constructor was called. -/
  | receiver
  /-- An object of the instruction at an offset, until a constructor was called on it. -/
  | created (pc : Nat)
  deriving DecidableEq, Repr

namespace Held

/-- The kind of values that it counts as. -/
def kind? : Held → Option ValueKind
  | value k => some k
  | null => some .reference
  | receiver | created _ => none

def isWide : Held → Bool
  | value k => k.isWide
  | _ => false

/-- An object that no constructor was called on. -/
def isRaw : Held → Bool
  | receiver | created _ => true
  | _ => false

def slots (x : Held) : Nat := if x.isWide then 2 else 1

end Held

/-! ## States -/

/-- What the slots of local variables and the entries of the stack hold. A wide value stands in its
first slot; the top of the stack is last. -/
structure KindState where
  locals : Nat → Option Held
  stack : List Held

namespace KindState

/-- The slots of a parameter. -/
def paramSlots (t : TypeName) : List (Option Held) :=
  some (.value (.ofType t)) :: if (ValueKind.ofType t).isWide then [none] else []

/-- The slots of the receiver. -/
def receiverSlots (ctx : MethodContext) : List (Option Held) :=
  if ctx.isStatic then [] else [some (if ctx.isConstructor then .receiver else .value .reference)]

/-- The state at the start of a method. -/
def entry (ctx : MethodContext) : KindState where
  locals j := (receiverSlots ctx ++ ctx.params.flatMap paramSlots)[j]?.join
  stack := []

/-- The value on top of a stack, and what is below. -/
def pop? (stack : List Held) : Option (List Held × Held) :=
  stack.getLast?.map fun x => (stack.dropLast, x)

/-- What is below values of the given kinds, the last of which is on top. -/
def popKinds? (kinds : List ValueKind) (stack : List Held) : Option (List Held) :=
  let rest := stack.take (stack.length - kinds.length)
  if (stack.drop rest.length).map Held.kind? = kinds.map some then some rest else none

/-- Local variables with a value in a slot. A wide value that reached into the slot is lost. -/
def write (locals : Nat → Option Held) (slot : Nat) (x : Held) : Nat → Option Held := fun j =>
  if j = slot then some x
  else if j = slot + 1 ∧ x.isWide = true then none
  else if j + 1 = slot ∧ (locals j).any Held.isWide = true then none
  else locals j

/-- A constructor was called on an object: wherever it is held, it is a reference now. -/
def construct (raw : Held) (s : KindState) : KindState :=
  let become := fun x => if x = raw then .value .reference else x
  { locals := fun j => (s.locals j).map become, stack := s.stack.map become }

end KindState

open KindState

/-- What an effect at an offset does to a state, if it finds the values that it takes. -/
def kinds (pc : Nat) (effect : Effect) (s : KindState) : Option KindState :=
  match effect with
  | .takes pops pushes => do
    let rest ← popKinds? pops s.stack
    return { s with stack := rest ++ pushes.map .value }
  | .null => some { s with stack := s.stack ++ [.null] }
  | .load k slot => do
    let x ← s.locals slot
    if x.kind? = some k ∨ x.isRaw = true ∧ k = .reference then
      some { s with stack := s.stack ++ [x] }
    else none
  | .store k slot => do
    let (rest, x) ← pop? s.stack
    if x.kind? = some k then some { locals := write s.locals slot x, stack := rest } else none
  | .drop slots => do
    let (rest, x) ← pop? s.stack
    if x.slots = slots then some { s with stack := rest } else none
  | .dup => do
    let (_, x) ← pop? s.stack
    if x.isWide then none else some { s with stack := s.stack ++ [x] }
  | .new => some { s with stack := s.stack ++ [.created pc] }
  | .init params => do
    let (rest, x) ← pop? (← popKinds? params s.stack)
    if x.isRaw then some (construct x { s with stack := rest })
    else if x.kind? = some .reference then some { s with stack := rest }
    else none

/-! ## Objects and their instructions -/

namespace KindState

variable {s s' : KindState} {pc o : Nat} {effect : Effect}

/-- An object that was created is held somewhere. -/
def Holds (s : KindState) (x : Held) : Prop := x ∈ s.stack ∨ ∃ j, s.locals j = some x

theorem mem_of_pop? {stack rest : List Held} {x : Held} (h : pop? stack = some (rest, x)) :
    x ∈ stack ∧ ∀ y ∈ rest, y ∈ stack := by
  obtain ⟨y, hy, heq⟩ := Option.map_eq_some_iff.mp h
  obtain ⟨rfl, rfl⟩ := Prod.mk.inj heq
  exact ⟨List.mem_of_getLast? hy, fun y hy => List.dropLast_subset _ hy⟩

theorem mem_of_popKinds? {kinds : List ValueKind} {stack rest : List Held}
    (h : popKinds? kinds stack = some rest) : ∀ y ∈ rest, y ∈ stack := by
  simp only [popKinds?] at h
  split_ifs at h
  obtain rfl := Option.some.inj h
  exact fun y hy => List.mem_of_mem_take hy

theorem of_write {locals : Nat → Option Held} {slot j : Nat} {x y : Held}
    (h : write locals slot x j = some y) : y = x ∨ locals j = some y := by
  unfold write at h
  split_ifs at h
  · exact .inl (Option.some.inj h).symm
  · exact .inr h

theorem holds_of_construct {raw x : Held} (h : (construct raw s).Holds x) (hx : x.isRaw = true) :
    s.Holds x := by
  have hkept : ∀ y : Held, (if y = raw then .value .reference else y) = x → y = x := by
    intro y hy
    split_ifs at hy
    · rw [← hy] at hx
      cases hx
    · exact hy
  rcases h with h | ⟨j, h⟩
  · obtain ⟨y, hy, heq⟩ := List.mem_map.mp h
    exact .inl (hkept y heq ▸ hy)
  · obtain ⟨y, hy, heq⟩ := Option.map_eq_some_iff.mp h
    exact .inr ⟨j, hkept y heq ▸ hy⟩

theorem holds_of_append {rest pushed : List Held} {x : Held} (hrest : ∀ y ∈ rest, y ∈ s.stack)
    (h : Holds { s with stack := rest ++ pushed } x) : s.Holds x ∨ x ∈ pushed := by
  rcases h with h | h
  · exact (List.mem_append.mp h).imp_left fun hx => .inl (hrest x hx)
  · exact .inl (.inr h)

/-- An object that is held after an instruction was held before, or was created by it. -/
theorem holds_of_kinds (h : kinds pc effect s = some s') (ho : s'.Holds (.created o)) :
    s.Holds (.created o) ∨ effect = .new ∧ o = pc := by
  have hall : ∀ y ∈ s.stack, y ∈ s.stack := fun _ hy => hy
  cases effect with
  | takes pops pushes =>
    obtain ⟨rest, hrest, h⟩ := Option.bind_eq_some_iff.mp h
    obtain rfl := Option.some.inj h
    rcases holds_of_append (mem_of_popKinds? hrest) ho with ho | ho
    · exact .inl ho
    · obtain ⟨k, _, hk⟩ := List.mem_map.mp ho
      cases hk
  | null =>
    obtain rfl := Option.some.inj h
    exact .inl ((holds_of_append hall ho).resolve_right (by simp))
  | load k slot =>
    obtain ⟨x, hx, h⟩ := Option.bind_eq_some_iff.mp h
    split_ifs at h
    obtain rfl := Option.some.inj h
    rcases holds_of_append hall ho with ho | ho
    · exact .inl ho
    · exact .inl (.inr ⟨slot, List.mem_singleton.mp ho ▸ hx⟩)
  | store k slot =>
    obtain ⟨⟨rest, x⟩, hpop, h⟩ := Option.bind_eq_some_iff.mp h
    simp only at h
    split_ifs at h
    obtain rfl := Option.some.inj h
    obtain ⟨hx, hrest⟩ := mem_of_pop? hpop
    rcases ho with ho | ⟨j, ho⟩
    · exact .inl (.inl (hrest _ ho))
    · rcases of_write ho with rfl | ho
      · exact .inl (.inl hx)
      · exact .inl (.inr ⟨j, ho⟩)
  | drop slots =>
    obtain ⟨⟨rest, x⟩, hpop, h⟩ := Option.bind_eq_some_iff.mp h
    simp only at h
    split_ifs at h
    obtain rfl := Option.some.inj h
    exact .inl (ho.imp_left ((mem_of_pop? hpop).2 _))
  | dup =>
    obtain ⟨⟨rest, x⟩, hpop, h⟩ := Option.bind_eq_some_iff.mp h
    simp only at h
    split_ifs at h
    obtain rfl := Option.some.inj h
    rcases holds_of_append hall ho with ho | ho
    · exact .inl ho
    · exact .inl (.inl (List.mem_singleton.mp ho ▸ (mem_of_pop? hpop).1))
  | new =>
    obtain rfl := Option.some.inj h
    rcases holds_of_append hall ho with ho | ho
    · exact .inl ho
    · exact .inr ⟨rfl, Held.created.inj (List.mem_singleton.mp ho)⟩
  | init params =>
    obtain ⟨below, hbelow, h⟩ := Option.bind_eq_some_iff.mp h
    obtain ⟨⟨rest, x⟩, hpop, h⟩ := Option.bind_eq_some_iff.mp h
    have hrest : ∀ y ∈ rest, y ∈ s.stack := fun y hy =>
      mem_of_popKinds? hbelow y ((mem_of_pop? hpop).2 y hy)
    simp only at h
    split_ifs at h
    · obtain rfl := Option.some.inj h
      exact .inl ((holds_of_construct ho rfl).imp_left (hrest _))
    · obtain rfl := Option.some.inj h
      exact .inl (ho.imp_left (hrest _))

end KindState

/-- Wherever the pass arrives, the objects that no constructor was called on come from instructions
of the code. -/
theorem Arrives.created {pool : ConstantPool} {code : List (Nat × Instruction)}
    {ctx : MethodContext} {pc o : Nat} {s : KindState}
    (h : Arrives pool code kinds (KindState.entry ctx) pc s)
    (ho : s.Holds (.created o)) : ∃ i, (o, i) ∈ code ∧ i.effect? pool = some .new := by
  induction h with
  | entry =>
    rcases ho with ho | ⟨j, ho⟩
    · cases ho
    · obtain ⟨x, hx, rfl⟩ : ∃ x, (receiverSlots ctx ++ ctx.params.flatMap paramSlots)[j]? = some x ∧
          x = some (.created o) := by
        simpa [KindState.entry, Option.join_eq_some_iff] using ho
      rcases List.mem_append.mp (List.mem_of_getElem? hx) with hmem | hmem
      · rw [receiverSlots] at hmem
        split_ifs at hmem
        · cases hmem
        · cases Option.some.inj (List.mem_singleton.mp hmem)
        · cases Option.some.inj (List.mem_singleton.mp hmem)
      · obtain ⟨t, _, hmem⟩ := List.mem_flatMap.mp hmem
        rw [paramSlots] at hmem
        split_ifs at hmem <;> simp at hmem
  | @step pc pc' i effect s s' _ hi heffect hs _ ih =>
    rcases holds_of_kinds hs ho with ho | ⟨rfl, rfl⟩
    · exact ih ho
    · exact ⟨i, hi, heffect⟩

end ClassSynth.Verifier
