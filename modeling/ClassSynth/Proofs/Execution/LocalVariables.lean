import ClassSynth.Proofs.Execution.Expressions
import Mathlib.Data.List.Nodup

/-!
# Local variables on the machine

Every named local variable has a slot of its own above the parameters (`Tidy`), so storing into one
leaves the others and the arguments alone. Statements only name new variables (`Grown`), and names
are declared once, so the variables in scope are found again behind those of inner blocks.
-/

namespace ClassSynth.Machine

open Emit Emitter Scalar

/-! ## Slots -/

/-- Named local variables have slots of their own, from `entry` on. -/
structure Tidy (entry : Nat) (e : Emitter) : Prop where
  slots : e.named.Pairwise fun a b => b.slot < a.slot
  bounds : ∀ l ∈ e.named, entry ≤ l.slot ∧ l.slot < e.nextLocal
  scalar : ∀ l ∈ e.named, (kindOf? l.type).isSome
  entry_le : entry ≤ e.nextLocal
  next_le : e.nextLocal ≤ e.maxLocals
  /-- Each slot beyond the parameters is paid for by an instruction. -/
  small : e.maxLocals ≤ entry + e.pc

/-- The later emitter has named more local variables, with some names and in new slots. -/
def Grown (e e' : Emitter) (names : List String) : Prop :=
  ∃ new, e'.named = new ++ e.named ∧ ∀ l ∈ new, l.name ∈ names

theorem Grown.refl (e : Emitter) (names : List String) : Grown e e names :=
  ⟨[], rfl, by simp⟩

theorem Grown.trans {e e₁ e₂ : Emitter} {names more : List String} (h : Grown e e₁ names)
    (h' : Grown e₁ e₂ more) : Grown e e₂ (names ++ more) := by
  obtain ⟨new, hnew, hnames⟩ := h
  obtain ⟨new', hnew', hnames'⟩ := h'
  refine ⟨new' ++ new, by rw [hnew', hnew, List.append_assoc], fun l hl => ?_⟩
  rcases List.mem_append.mp hl with hl | hl
  · exact List.mem_append_right _ (hnames' l hl)
  · exact List.mem_append_left _ (hnames l hl)

/-- The names that are in use afterwards. -/
theorem Grown.names {e e' : Emitter} {names : List String} (h : Grown e e' names) {name : String}
    (hname : name ∈ e'.named.map (·.name)) : name ∈ names ∨ name ∈ e.named.map (·.name) := by
  obtain ⟨new, hnew, hnames⟩ := h
  rw [hnew, List.map_append, List.mem_append] at hname
  rcases hname with hname | hname
  · obtain ⟨l, hl, rfl⟩ := List.mem_map.mp hname
    exact .inl (hnames l hl)
  · exact .inr hname

variable {entry : Nat} {ctx : MethodContext} {e e' : Emitter} {u : Unit}

/-- Expressions leave the local variables as they are. -/
theorem Tidy.of_steps {floor : Nat} (h : Tidy entry e) (hto : Steps false floor e e') :
    Tidy entry e' := by
  obtain ⟨hnamed, hnext, hmax⟩ := hto.sameLocals
  have hpc := hto.pc_le
  have hsmall := h.small
  exact ⟨hnamed ▸ h.slots, by rw [hnamed, hnext]; exact h.bounds, hnamed ▸ h.scalar,
    hnext ▸ h.entry_le, by rw [hnext, hmax]; exact h.next_le, by omega⟩

/-- What a store into a local variable leaves behind. -/
structure Stored (e e' : Emitter) (t : TypeName) (slot : Nat) : Prop where
  code : e'.code = e.code.push (storeForm (ValueKind.ofType t) slot)
  pc : e.pc < e'.pc
  named : e'.named = e.named
  nextLocal : e'.nextLocal = e.nextLocal
  maxLocals : e'.maxLocals = max e.maxLocals (slot + 1)
  reachable : e'.reachable = e.reachable

theorem stored_of_store {t : TypeName} {k : Kind} (ht : kindOf? t = some k) {slot : Nat}
    (hrun : Runs (store t slot) ctx e u e') : Stored e e' t slot := by
  unfold store at hrun
  rw [runs_pop_bind] at hrun
  obtain ⟨s, _, hrun⟩ := hrun
  obtain ⟨_, e₁, hslot, hrun⟩ := runs_bind.mp hrun
  obtain rfl := runs_slotInstruction.mp hslot
  rw [runs_addConstants_bind, runs_setLocal] at hrun
  subst hrun
  refine ⟨rfl, ?_, rfl, rfl, ?_, rfl⟩
  · exact Ordered.pc_lt_append { e with slots := s } _
  · simp only [length_slots ht]
    rfl

theorem Tidy.of_stored {t : TypeName} {slot : Nat} (h : Tidy entry e) (hs : Stored e e' t slot)
    (hslot : slot < e.nextLocal) : Tidy entry e' := by
  have hnext := h.next_le
  have hsmall := h.small
  have hmax := hs.maxLocals
  have hpc := hs.pc
  exact ⟨hs.named ▸ h.slots, by rw [hs.named, hs.nextLocal]; exact h.bounds, hs.named ▸ h.scalar,
    hs.nextLocal ▸ h.entry_le, by rw [hs.nextLocal]; omega, by omega⟩

/-- A declaration takes the next slot. -/
theorem Tidy.declare {name : String} {t : TypeName} {k : Kind} (h : Tidy entry e)
    (ht : kindOf? t = some k)
    (hs : Stored { e with
      nextLocal := e.nextLocal + t.slotSize
      named := { name, slot := e.nextLocal, type := t } :: e.named } e' t e.nextLocal) :
    Tidy entry e' := by
  have hsize := (ofKind_of_kindOf? ht).slotSize
  have hnext := h.next_le
  have hsmall := h.small
  have hentry := h.entry_le
  have hmax : e'.maxLocals = max e.maxLocals (e.nextLocal + 1) := hs.maxLocals
  have hpc : e.pc < e'.pc := hs.pc
  have hnextLocal : e'.nextLocal = e.nextLocal + 1 := by rw [hs.nextLocal, hsize]
  refine ⟨?_, ?_, ?_, by omega, by omega, by omega⟩
  · rw [hs.named]
    exact List.pairwise_cons.mpr ⟨fun l hl => (h.bounds l hl).2, h.slots⟩
  · rw [hs.named, hnextLocal]
    intro l hl
    rcases List.mem_cons.mp hl with rfl | hl
    · exact ⟨hentry, Nat.lt_succ_self _⟩
    · exact ⟨(h.bounds l hl).1, Nat.lt_succ_of_lt (h.bounds l hl).2⟩
  · rw [hs.named]
    intro l hl
    rcases List.mem_cons.mp hl with rfl | hl
    · exact Option.isSome_iff_exists.mpr ⟨k, ht⟩
    · exact h.scalar l hl

/-! ## Values -/

variable {args : List Scalar} {env : Bindings} {named : List NamedLocal} {locals : List Value}

theorem name_of_find? {name : String} {l : NamedLocal}
    (h : named.find? (·.name == name) = some l) : l.name = name ∧ l ∈ named := by
  exact ⟨by simpa using List.find?_some h, List.mem_of_find?_eq_some h⟩

/-- The names in scope are in use. -/
theorem Holds.name_mem (h : Holds ctx args env named locals) {name : String} {v : Scalar}
    (hv : env.lookup name = some v) : name ∈ named.map (·.name) := by
  obtain ⟨l, hl, _⟩ := h.vars name v hv
  obtain ⟨rfl, hmem⟩ := name_of_find? hl
  exact List.mem_map_of_mem hmem

/-- Local variables of inner blocks do not matter after them. -/
theorem Holds.grow (h : Holds ctx args env named locals) {new : List NamedLocal}
    (hnew : ∀ l ∈ new, l.name ∉ named.map (·.name)) :
    Holds ctx args env (new ++ named) locals where
  args := h.args
  vars := by
    intro name v hv
    obtain ⟨l, hl, hkind, hvalue⟩ := h.vars name v hv
    refine ⟨l, ?_, hkind, hvalue⟩
    have hnone : new.find? (·.name == name) = none := by
      rw [List.find?_eq_none]
      intro l' hl' hname
      have hname : l'.name = name := by simpa using hname
      exact hnew l' hl' (hname ▸ h.name_mem hv)
    rw [List.find?_append, hnone, Option.none_or, hl]
  length := h.length

/-- A new local variable holds its value. -/
theorem Holds.declare (h : Holds ctx args env named locals) {l : NamedLocal} {v : Scalar}
    (hkind : kindOf? l.type = some v.kind) (hslots : ∀ l' ∈ named, l'.slot < l.slot)
    (hargs : ctx.receiverSlots + args.length ≤ l.slot) (hlt : l.slot < locals.length) :
    Holds ctx args ((l.name, v) :: env) (l :: named) (locals.set l.slot v.encode) where
  args := by
    intro position w hw
    have hposition := (List.getElem?_eq_some_iff.mp hw).1
    rw [List.getElem?_set_ne (by omega)]
    exact h.args position w hw
  vars := by
    intro name w hw
    rw [List.lookup_cons] at hw
    by_cases hname : l.name = name
    · have hsame : (name == l.name) = true := by simp [hname]
      rw [hsame] at hw
      obtain rfl := Option.some.inj hw
      exact ⟨l, by simp [hname], hkind, List.getElem?_set_self hlt⟩
    · have hother : (name == l.name) = false := beq_false_of_ne (Ne.symm hname)
      rw [hother] at hw
      obtain ⟨l', hl', hkind', hvalue⟩ := h.vars name w hw
      have hslot := hslots l' (name_of_find? hl').2
      refine ⟨l', by simpa [hname] using hl', hkind', ?_⟩
      rw [List.getElem?_set_ne (by omega)]
      exact hvalue
  length := by
    rw [List.length_set]
    exact h.length

theorem lookup_assign_self {name : String} {v w : Scalar} (h : env.lookup name = some w) :
    (env.assign name v).lookup name = some v := by
  induction env with
  | nil => cases h
  | cons entry env ih =>
    obtain ⟨first, old⟩ := entry
    unfold Bindings.assign
    by_cases hname : first = name
    · simp [hname]
    · have hother : (name == first) = false := beq_false_of_ne (Ne.symm hname)
      rw [List.lookup_cons, hother] at h
      simp only [hname, if_false, List.lookup_cons, hother]
      exact ih h

theorem lookup_assign_of_ne {name other : String} {v : Scalar} (h : other ≠ name) :
    (env.assign name v).lookup other = env.lookup other := by
  induction env with
  | nil => rfl
  | cons entry env ih =>
    obtain ⟨first, old⟩ := entry
    unfold Bindings.assign
    by_cases hname : first = name
    · have hother : (other == name) = false := beq_false_of_ne h
      simp [hname, List.lookup_cons, hother]
    · simp only [hname, if_false, List.lookup_cons]
      rw [ih]

/-- A local variable that is assigned holds its new value, and the others hold theirs. -/
theorem Holds.assign (h : Holds ctx args env named locals) {name : String} {l : NamedLocal}
    {v w : Scalar} (hl : named.find? (·.name == name) = some l) (hw : env.lookup name = some w)
    (hkind : v.kind = w.kind) (hslots : named.Pairwise fun a b => b.slot < a.slot)
    (hargs : ctx.receiverSlots + args.length ≤ l.slot) (hlt : l.slot < locals.length) :
    Holds ctx args (env.assign name v) named (locals.set l.slot v.encode) where
  args := by
    intro position a ha
    have hposition := (List.getElem?_eq_some_iff.mp ha).1
    rw [List.getElem?_set_ne (by omega)]
    exact h.args position a ha
  vars := by
    intro other a ha
    by_cases hname : other = name
    · subst hname
      rw [lookup_assign_self hw] at ha
      obtain rfl := Option.some.inj ha
      obtain ⟨l', hl', hkind', _⟩ := h.vars other w hw
      obtain rfl := Option.some.inj (hl.symm.trans hl')
      exact ⟨l, hl, hkind ▸ hkind', List.getElem?_set_self hlt⟩
    · rw [lookup_assign_of_ne hname] at ha
      obtain ⟨l', hl', hkind', hvalue⟩ := h.vars other a ha
      obtain ⟨hname₁, hmem₁⟩ := name_of_find? hl
      obtain ⟨hname₂, hmem₂⟩ := name_of_find? hl'
      have hne : l ≠ l' := fun heq => hname (by rw [← hname₂, ← heq, hname₁])
      have hnodup : (named.map (·.slot)).Nodup :=
        List.pairwise_map.mpr (hslots.imp fun hlt => Nat.ne_of_gt hlt)
      have hslot : l.slot ≠ l'.slot := fun heq =>
        hne (List.inj_on_of_nodup_map hnodup hmem₁ hmem₂ heq)
      refine ⟨l', hl', hkind', ?_⟩
      rw [List.getElem?_set_ne hslot]
      exact hvalue
  length := by
    rw [List.length_set]
    exact h.length

end ClassSynth.Machine
