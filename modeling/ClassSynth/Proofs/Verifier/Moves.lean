import ClassSynth.Proofs.Emit.Order
import ClassSynth.Proofs.Verifier.Typing

/-!
# Moves of the emitter

A `Move` is a change of the emitter together with its reason: an instruction is appended and the
slots change by its effect (`Fits`), a jump hands its state to a label, a label is placed and its
state is taken up again. Moves are sequences of small changes (`Move.steps`), so all that is known
of these holds of moves.
-/

namespace ClassSynth

/-! ## Slots of values -/

namespace VerificationType

/-- The kind of values that instructions tell apart; objects that no constructor was called on are
only moved. -/
def kind? : VerificationType → Option ValueKind
  | integer => some .int
  | float => some .float
  | long => some .long
  | double => some .double
  | null | object _ => some .reference
  | top | uninitializedThis | uninitialized _ => none

/-- An object that no constructor was called on. -/
def isRaw : VerificationType → Bool
  | uninitializedThis | uninitialized _ => true
  | _ => false

/-- The slots of values one after the other. -/
def flat (ts : List VerificationType) : List VerificationType :=
  ts.flatMap slots

@[simp] theorem flat_nil : flat [] = [] := rfl

@[simp] theorem flat_cons (t : VerificationType) (ts : List VerificationType) :
    flat (t :: ts) = t.slots ++ flat ts := rfl

@[simp] theorem flat_append (ts us : List VerificationType) :
    flat (ts ++ us) = flat ts ++ flat us :=
  List.flatMap_append

/-- The values are found again in their slots. -/
@[simp] theorem ofSlots_flat (ts : List VerificationType) : ofSlots (flat ts) = ts := by
  induction ts with
  | nil => rfl
  | cons t ts ih =>
    rw [flat_cons, slots]
    by_cases hwide : t.isWide = true
    · rw [if_pos hwide, List.cons_append, List.cons_append, List.nil_append, ofSlots,
        if_pos hwide, ih]
    · rw [if_neg hwide, List.cons_append, List.nil_append]
      cases hflat : flat ts with
      | nil =>
        rw [hflat] at ih
        rw [← ih]
        rfl
      | cons u rest =>
        rw [hflat] at ih
        rw [ofSlots, if_neg hwide, ih]

theorem length_slots (t : VerificationType) : t.slots.length = if t.isWide then 2 else 1 := by
  rw [slots]
  split_ifs <;> rfl

theorem isWide_of_kind? {t : VerificationType} {k : ValueKind} (h : t.kind? = some k) :
    t.isWide = k.isWide := by
  cases t <;> cases k <;> first | rfl | cases h

theorem isWide_of_isRaw {t : VerificationType} (h : t.isRaw = true) : t.isWide = false := by
  cases t <;> first | rfl | cases h

end VerificationType

namespace SlotState

open VerificationType

/-- The state with more values on the stack. -/
def pushAll (s : SlotState) (ts : List VerificationType) : SlotState :=
  { s with stack := s.stack ++ flat ts }

/-- The stack is made of whole values. -/
def Valued (s : SlotState) : Prop := ∃ ts, s.stack = flat ts

@[simp] theorem pushAll_nil (s : SlotState) : s.pushAll [] = s := by
  simp [pushAll]

@[simp] theorem pushAll_pushAll (s : SlotState) (ts us : List VerificationType) :
    (s.pushAll ts).pushAll us = s.pushAll (ts ++ us) := by
  simp [pushAll]

theorem Valued.pushAll {s : SlotState} (h : s.Valued) (ts : List VerificationType) :
    (s.pushAll ts).Valued := by
  obtain ⟨base, hbase⟩ := h
  exact ⟨base ++ ts, by simp [SlotState.pushAll, hbase]⟩

/-- Values that were pushed are popped again. -/
theorem pop?_pushAll {s s' : SlotState} {ts : List VerificationType} {n : Nat}
    (hn : (flat ts).length = n) (h : (s.pushAll ts).pop? n = some s') : s' = s := by
  obtain ⟨_, rfl⟩ := Emit.pop?_eq_some.mp h
  simp [SlotState.pushAll, ← hn]

/-- The later state knows at most what the earlier one does: local variables may be forgotten. -/
structure Forgets (s t : SlotState) : Prop where
  stack : t.stack = s.stack
  locals : ∀ (j : Nat) (u : VerificationType), t.locals[j]? = some u →
    u = .top ∨ s.locals[j]? = some u

theorem Forgets.refl (s : SlotState) : s.Forgets s :=
  ⟨rfl, fun _ _ h => .inr h⟩

theorem Forgets.trans {s t u : SlotState} (h : s.Forgets t) (h' : t.Forgets u) : s.Forgets u where
  stack := h'.stack.trans h.stack
  locals := fun j v hv => (h'.locals j v hv).elim .inl (h.locals j v)

theorem Forgets.valued {s t : SlotState} (h : s.Forgets t) (hs : s.Valued) : t.Valued := by
  obtain ⟨ts, hts⟩ := hs
  exact ⟨ts, h.stack.trans hts⟩

theorem mergeStacks_self (stack : List VerificationType) : mergeStacks stack stack = .ok stack := by
  induction stack with
  | nil => rfl
  | cons t stack ih =>
    have hentry : mergeEntry t t = .ok t := by
      unfold mergeEntry
      rw [if_pos rfl]
    rw [mergeStacks, hentry, ih]
    rfl

theorem zipWith_mergeLocal_self (locals : List VerificationType) :
    List.zipWith mergeLocal locals locals = locals := by
  induction locals with
  | nil => rfl
  | cons t locals ih => rw [List.zipWith_cons_cons, ih, mergeLocal, if_pos rfl]

/-- Where the stacks are the same, only the local variables are merged. -/
theorem merge_eq {a b : SlotState} (h : a.stack = b.stack) :
    a.merge b = .ok { locals := List.zipWith mergeLocal a.locals b.locals, stack := a.stack } := by
  rw [merge, if_neg (by simp [h]), ← h, mergeStacks_self]
  rfl

theorem merge_self (s : SlotState) : s.merge s = .ok s := by
  rw [merge_eq rfl, zipWith_mergeLocal_self]

theorem getElem?_mergeLocals {as bs : List VerificationType} {j : Nat} {u : VerificationType}
    (h : (List.zipWith mergeLocal as bs)[j]? = some u) :
    u = .top ∨ as[j]? = some u ∧ bs[j]? = some u := by
  rw [List.getElem?_zipWith_eq_some] at h
  obtain ⟨a, b, ha, hb, rfl⟩ := h
  rw [mergeLocal]
  split_ifs with hab
  · exact .inr ⟨ha, hab ▸ hb⟩
  · exact .inl rfl

/-- A merged state knows at most what either state does. -/
theorem forgets_of_merge {a b c : SlotState} (hstack : a.stack = b.stack)
    (h : a.merge b = .ok c) : a.Forgets c ∧ b.Forgets c := by
  rw [merge_eq hstack] at h
  obtain rfl := Except.ok.inj h
  refine ⟨⟨rfl, fun j u hu => ?_⟩, ⟨hstack, fun j u hu => ?_⟩⟩
  · exact (getElem?_mergeLocals hu).imp_right And.left
  · exact (getElem?_mergeLocals hu).imp_right And.right

end SlotState

/-! ## Effects on slots -/

namespace Precision

/-- The value can be taken where one of the kind is wanted. -/
def Holds : Precision → VerificationType → ValueKind → Prop
  | width, t, k => t.isWide = k.isWide
  | kind, t, k => t.kind? = some k

/-- The value stands for all values of the kind. -/
def Yields (p : Precision) (t : VerificationType) (k : ValueKind) : Prop :=
  p.Holds t k ∧ (p = kind → t ≠ .null)

theorem Holds.isWide {p : Precision} {t : VerificationType} {k : ValueKind} (h : p.Holds t k) :
    t.isWide = k.isWide := by
  cases p with
  | width => exact h
  | kind => exact VerificationType.isWide_of_kind? h

theorem Holds.of_same {p : Precision} {t : VerificationType} {k l : ValueKind} (h : p.Holds t k)
    (hsame : p.same k l = true) : p.Holds t l := by
  cases p with
  | width =>
    have hkl : k.isWide = l.isWide := by simpa [same] using hsame
    exact Eq.trans h hkl
  | kind =>
    have hkl : k = l := by simpa [same] using hsame
    exact hkl ▸ h

theorem length_flat {p : Precision} {ts : List VerificationType} {ks : List ValueKind}
    (h : List.Forall₂ p.Holds ts ks) :
    (VerificationType.flat ts).length = ValueKind.slotsOf ks := by
  induction h with
  | nil => rfl
  | cons ht _ ih =>
    rw [VerificationType.flat_cons, List.length_append, ih, VerificationType.length_slots,
      ht.isWide]
    rfl

end Precision

open VerificationType in
/-- An instruction at an offset with the given effect leads from the one state to the other. -/
inductive Fits (p : Precision) (pc : Nat) : Effect → SlotState → SlotState → Prop
  | takes {s : SlotState} {base xs ys : List VerificationType} {pops pushes : List ValueKind}
      (hs : s.stack = flat (base ++ xs)) (hx : List.Forall₂ p.Holds xs pops)
      (hy : List.Forall₂ p.Yields ys pushes) :
      Fits p pc (.takes pops pushes) s { s with stack := flat (base ++ ys) }
  | null {s : SlotState} {base : List VerificationType} (hs : s.stack = flat base) :
      Fits p pc .null s { s with stack := flat (base ++ [.null]) }
  | load {s : SlotState} {base : List VerificationType} {k : ValueKind} {slot : Nat}
      {t : VerificationType} (hs : s.stack = flat base) (hwide : t.isWide = k.isWide)
      (hlocal : p = .kind → s.locals[slot]? = some t ∧
        (t.kind? = some k ∨ t.isRaw = true ∧ k = .reference)) :
      Fits p pc (.load k slot) s { s with stack := flat (base ++ [t]) }
  | store {s : SlotState} {base : List VerificationType} {k : ValueKind} {slot : Nat}
      {x t : VerificationType} (hs : s.stack = flat (base ++ [x])) (hx : p.Holds x k)
      (ht : p.Yields t k)
      (hapart : p = .kind → ∀ j u, s.locals[j]? = some u → u.isWide = true → j + 1 ≠ slot) :
      Fits p pc (.store k slot) s
        { locals := SlotState.store s.locals slot t.slots, stack := flat base }
  | drop {s : SlotState} {base : List VerificationType} {x : VerificationType}
      (hs : s.stack = flat (base ++ [x])) :
      Fits p pc (.drop x.slots.length) s { s with stack := flat base }
  | dup {s : SlotState} {base : List VerificationType} {x : VerificationType}
      (hs : s.stack = flat (base ++ [x])) (hx : x.isWide = false) :
      Fits p pc .dup s { s with stack := flat (base ++ [x, x]) }
  | new {s : SlotState} {base : List VerificationType} {offset : UInt16} (hs : s.stack = flat base)
      (hoffset : offset.toNat = pc) :
      Fits p pc .new s { s with stack := flat (base ++ [.uninitialized offset]) }
  /-- The constructor of the object is called. -/
  | construct {s : SlotState} {base xs : List VerificationType} {params : List ValueKind}
      {target old : VerificationType} {index : UInt16} (hs : s.stack = flat (base ++ target :: xs))
      (hx : List.Forall₂ p.Holds xs params) (htarget : target.isWide = false)
      (hold : old.isRaw = true) (hkind : p = .kind → target = old) :
      Fits p pc (.init params) s ({ s with stack := flat base }.replaceAll old (.object index))
  /-- A constructor is called on an object once more. -/
  | again {s : SlotState} {base xs : List VerificationType} {params : List ValueKind}
      {target : VerificationType} (hs : s.stack = flat (base ++ target :: xs))
      (hx : List.Forall₂ p.Holds xs params) (htarget : p.Holds target .reference) :
      Fits p pc (.init params) s { s with stack := flat base }

/-! ## Moves -/

namespace Emitter

/-- The instruction has the effect in every pool that the constants grow to. -/
def Means (e : Emitter) (i : Instruction) (effect : Effect) : Prop :=
  ∀ r, e.pool.Grows r → r.Indexable → i.effect? r = some effect

theorem Means.grows {e e' : Emitter} {i : Instruction} {effect : Effect} (h : e.Means i effect)
    (hpool : e.pool.Grows e'.pool) : e'.Means i effect :=
  fun r hr hindexable => h r (hpool.trans hr) hindexable

/-- A change of the emitter with its reason. -/
inductive Move (p : Precision) : Emitter → Emitter → Prop
  | constants (e : Emitter) (pool : ConstantPool) (h : e.pool.Grows pool) :
      Move p e { e with pool }
  | named (e : Emitter) (nextLocal : Nat) (named : List NamedLocal) :
      Move p e { e with nextLocal, named }
  /-- An instruction is appended and has its effect. -/
  | act (e : Emitter) (i : Instruction) (effect : Effect) (s : SlotState)
      (maxStack maxLocals : Nat) (reachable : Bool) (hplain : i.Plain) (hmeans : e.Means i effect)
      (hfits : Fits p e.pc effect e.slots s)
      (hheight : s.stack.length ≤ max e.slots.stack.length maxStack)
      (hstack : e.maxStack ≤ maxStack) (hend : effect.localsEnd ≤ maxLocals)
      (hlocals : e.maxLocals ≤ maxLocals)
      (hreachable : reachable = (e.reachable && !i.isUnconditionalExit)) :
      Move p e { e.append i with slots := s, maxStack, maxLocals, reachable }
  | newLabel (e : Emitter) : Move p e { e with labels := e.labels.push {} }
  /-- A jump to a label that stands nowhere yet. All jumps to a label carry the same state. -/
  | jump (e : Emitter) (opcode : UInt8) (l : Label) (pops : List ValueKind) (s : SlotState)
      (hopcode : Opcode.shape? opcode = some .branch)
      (hexit : Instruction.isUnconditionalExit ⟨opcode, .branch l⟩ = (opcode == Opcode.goto))
      (heffect : Effect.ofBranchOpcode? opcode = some (.takes pops []))
      (hfits : Fits p e.pc (.takes pops []) e.slots s) (hl : l < e.labels.size)
      (hnew : (e.info l).placement? = none)
      (hstate : (e.info l).state? = none ∨ (e.info l).state? = some s) :
      Move p e (Emit.jumpTo { e with slots := s } opcode l s)
  | place (e : Emitter) (l : Label) (hnew : (e.info l).placement? = none)
      (h : (e.info l).state? = none) : Move p e (Emit.placed e l)
  /-- The state of the jumps to a label is taken up again. -/
  | join (e : Emitter) (l : Label) (jumped s : SlotState) (hnew : (e.info l).placement? = none)
      (h : (e.info l).state? = some jumped) (hjumped : jumped.Forgets s)
      (hreached : e.reachable = true → e.slots.Forgets s) : Move p e (Emit.joinAt e l s)

/-- Any number of moves. -/
abbrev Moves (p : Precision) : Emitter → Emitter → Prop :=
  Relation.ReflTransGen (Move p)

variable {p : Precision} {e e' e'' : Emitter}

theorem Moves.trans (h : Moves p e e') (h' : Moves p e' e'') : Moves p e e'' :=
  Relation.ReflTransGen.trans h h'

/-- A move is a sequence of small changes. -/
theorem Move.steps (h : Move p e e') : Steps true 0 e e' := by
  cases h with
  | constants pool h => exact .single (.constants e pool h)
  | named nextLocal named => exact .single (.named e nextLocal named rfl)
  | act i effect s maxStack maxLocals reachable hplain _ _ _ hstack _ hlocals hreachable =>
    have hslots : ∀ (e₁ : Emitter), e₁.maxStack = e.maxStack → e₁.maxLocals = e.maxLocals →
        Steps true 0 e₁ { e₁ with slots := s, maxStack, maxLocals } := fun e₁ hs hl =>
      .tail (.single (.slots e₁ s maxStack (hs ▸ hstack)))
        (.store _ s maxLocals rfl (Nat.le_trans (Nat.le_of_eq hl) hlocals))
    cases hexit : i.isUnconditionalExit with
    | true =>
      obtain rfl : reachable = false := by rw [hreachable, hexit]; simp
      exact .head (.exit e i s hplain) (hslots _ rfl rfl)
    | false =>
      obtain rfl : reachable = e.reachable := by rw [hreachable, hexit]; simp
      exact .head (.instruction e i hplain) (hslots _ rfl rfl)
  | newLabel => exact .single (.newLabel e)
  | jump opcode l pops s hopcode _ _ _ hl =>
    exact .tail (.single (.slots e s e.maxStack (Nat.le_refl _)))
      (.jump { e with slots := s } opcode l s hopcode hl)
  | place l hnew h => exact .single (.place e l (Nat.zero_le _) hnew h)
  | join l jumped s hnew h =>
    exact .single (.join e l s (Nat.zero_le _) hnew (by rw [h]; exact Option.some_ne_none _))

theorem Moves.steps (h : Moves p e e') : Steps true 0 e e' := by
  induction h with
  | refl => exact .refl
  | tail _ hlast ih => exact ih.trans hlast.steps

/-- What each move preserves, all moves preserve. -/
theorem Moves.invariant {P : Emitter → Prop} (hstep : ∀ e e', Move p e e' → P e → P e')
    (h : Moves p e e') (he : P e) : P e' := by
  induction h with
  | refl => exact he
  | tail _ hlast ih => exact hstep _ _ hlast ih

end Emitter

end ClassSynth
