import ClassSynth.Proofs.Verifier.Expressions

/-!
# Scopes and slots

Between statements the stack is empty, every variable in scope holds a value of its type, and local
variables lie one after the other behind the parameters, so that no value reaches into the slots of
another (`Rests`). Declaring a variable, assigning to one and leaving a block keep this.
-/

namespace ClassSynth

open Emit Emitter VerificationType

/-! ## Slots -/

namespace SlotState

variable {locals new : List VerificationType} {slot j : Nat} {u : VerificationType}

theorem length_filled (locals : List VerificationType) (slot : Nat) :
    slot ≤ (locals ++ List.replicate (slot - locals.length) VerificationType.top).length := by
  rw [List.length_append, List.length_replicate]
  omega

theorem getElem?_filled (h : (locals ++ List.replicate (slot - locals.length) .top)[j]? = some u) :
    u = .top ∨ locals[j]? = some u := by
  rcases Nat.lt_or_ge j locals.length with hj | hj
  · rw [List.getElem?_append_left hj] at h
    exact .inr h
  · rw [List.getElem?_append_right hj] at h
    exact .inl (List.eq_of_mem_replicate (List.mem_of_getElem? h))

theorem getElem?_store_self (locals : List VerificationType) (slot : Nat)
    (hj : j < new.length) : (store locals slot new)[slot + j]? = new[j]? := by
  have htake : ((locals ++ List.replicate (slot - locals.length) VerificationType.top).take
      slot).length = slot := by
    rw [List.length_take, Nat.min_eq_left (length_filled locals slot)]
  rw [store, List.append_assoc,
    List.getElem?_append_right (by rw [htake]; exact Nat.le_add_right _ _), htake,
    Nat.add_sub_cancel_left, List.getElem?_append_left hj]

/-- Outside of the slots that are written, local variables stay. -/
theorem getElem?_store_of_apart (h : locals[j]? = some u)
    (hj : j < slot ∨ slot + new.length ≤ j) : (store locals slot new)[j]? = some u := by
  have hlt := (List.getElem?_eq_some_iff.mp h).1
  have hfilled : (locals ++ List.replicate (slot - locals.length) .top)[j]? = some u := by
    rw [List.getElem?_append_left hlt, h]
  have hlength := length_filled locals slot
  have htake : ((locals ++ List.replicate (slot - locals.length) VerificationType.top).take
      slot).length = slot := by
    rw [List.length_take, Nat.min_eq_left hlength]
  rw [store]
  rcases hj with hj | hj
  · rw [List.append_assoc, List.getElem?_append_left (by rw [htake]; exact hj),
      List.getElem?_take_of_lt hj, hfilled]
  · rw [List.getElem?_append_right (by rw [List.length_append, htake]; exact hj),
      List.length_append, htake, List.getElem?_drop, Nat.add_sub_cancel' hj, hfilled]

/-- What stands in a slot after others were written. -/
theorem of_getElem?_store (h : (store locals slot new)[j]? = some u) :
    u = .top ∨ (locals[j]? = some u ∧ (j < slot ∨ slot + new.length ≤ j)) ∨
      ∃ k, j = slot + k ∧ new[k]? = some u := by
  have htake : ((locals ++ List.replicate (slot - locals.length) VerificationType.top).take
      slot).length = slot := by
    rw [List.length_take, Nat.min_eq_left (length_filled locals slot)]
  rcases Nat.lt_or_ge j slot with hj | hj
  · rw [store, List.append_assoc, List.getElem?_append_left (by rw [htake]; exact hj),
      List.getElem?_take_of_lt hj] at h
    exact (getElem?_filled h).imp_right fun h => .inl ⟨h, .inl hj⟩
  · obtain ⟨k, rfl⟩ := Nat.exists_eq_add_of_le hj
    rcases Nat.lt_or_ge k new.length with hk | hk
    · rw [getElem?_store_self locals slot hk] at h
      exact .inr (.inr ⟨k, rfl, h⟩)
    · have hle : slot + new.length ≤ slot + k := Nat.add_le_add_left hk slot
      rw [store, List.getElem?_append_right (by rw [List.length_append, htake]; exact hle),
        List.length_append, htake, List.getElem?_drop, Nat.add_sub_cancel' hle] at h
      exact (getElem?_filled h).imp_right fun h => .inl ⟨h, .inr hle⟩

end SlotState

/-- The slots of the receiver and the parameters. -/
def MethodContext.entrySize (ctx : MethodContext) : Nat :=
  ctx.receiverSlots + totalSlots ctx.params

theorem totalSlots_take_add (ts : List TypeName) {k : Nat} {t : TypeName} (h : ts[k]? = some t) :
    totalSlots (ts.take k) + t.slotSize ≤ totalSlots ts := by
  induction ts generalizing k with
  | nil => cases h
  | cons u ts ih =>
    cases k with
    | zero =>
      obtain rfl := Option.some.inj h
      simp [totalSlots]
    | succ k =>
      have hrest := ih (k := k) h
      simp only [totalSlots, List.take_succ_cons, List.map_cons, List.foldr_cons] at hrest ⊢
      omega

namespace MethodContext

variable {ctx : MethodContext} {index slot : Nat} {t : TypeName}

theorem of_paramSlot? (h : ctx.paramSlot? index = some (slot, t)) :
    ∃ k, ctx.params[k]? = some t ∧ slot = ctx.receiverSlots + totalSlots (ctx.params.take k) := by
  cases index with
  | zero => cases h
  | succ k =>
    obtain ⟨u, hu, heq⟩ := Option.map_eq_some_iff.mp h
    obtain ⟨rfl, rfl⟩ := Prod.mk.inj heq
    exact ⟨k, hu, rfl⟩

/-- Parameters lie before all local variables. -/
theorem paramSlot?_le (h : ctx.paramSlot? index = some (slot, t)) :
    slot + t.slotSize ≤ ctx.entrySize := by
  obtain ⟨k, hk, rfl⟩ := of_paramSlot? h
  have hle := totalSlots_take_add ctx.params hk
  rw [entrySize]
  omega

theorem entrySize_pos (h : ctx.isStatic = false) : 0 < ctx.entrySize := by
  rw [entrySize, receiverSlots, if_neg (by simp [h])]
  omega

end MethodContext

theorem TypeName.slotSize_pos {p : Precision} {t : TypeName} (h : p.inhabits t = true) :
    0 < t.slotSize := by
  rw [slotSize, if_neg (by simp [Precision.isVoid_of_inhabits h])]
  split_ifs <;> decide

/-! ## Between statements -/

/-- Variables that lie one after the other lie apart. -/
theorem NamedLocal.apart {named : List NamedLocal}
    (h : named.Pairwise fun later earlier => earlier.slot + earlier.type.slotSize ≤ later.slot)
    {l m : NamedLocal} (hl : l ∈ named) (hm : m ∈ named) :
    l = m ∨ l.slot + l.type.slotSize ≤ m.slot ∨ m.slot + m.type.slotSize ≤ l.slot := by
  by_cases hlm : l = m
  · exact .inl hlm
  have hsymm : Std.Symm fun l m : NamedLocal =>
      l.slot + l.type.slotSize ≤ m.slot ∨ m.slot + m.type.slotSize ≤ l.slot := ⟨fun _ _ => Or.symm⟩
  have hpairs : named.Pairwise fun l m =>
      l.slot + l.type.slotSize ≤ m.slot ∨ m.slot + m.type.slotSize ≤ l.slot := h.imp .inr
  exact .inr (hpairs.forall hl hm hlm)

namespace Emitter

/-- Local variables lie one after the other behind the parameters, and wide values end before the
next variable starts. -/
structure Laid (ctx : MethodContext) (e : Emitter) : Prop where
  order : e.named.Pairwise fun later earlier => earlier.slot + earlier.type.slotSize ≤ later.slot
  within : ∀ l ∈ e.named, ctx.entrySize ≤ l.slot ∧ l.slot + l.type.slotSize ≤ e.nextLocal ∧
    0 < l.type.slotSize
  entry : ctx.entrySize ≤ e.nextLocal
  wide : ∀ (j : Nat) (u : VerificationType), e.slots.locals[j]? = some u → u.isWide = true →
    j + 2 ≤ e.nextLocal ∧ ∀ l ∈ e.named, l.slot ≠ j + 1

/-- The state between statements. -/
structure Rests (p : Precision) (ctx : MethodContext) (scope : TypeScope) (e : Emitter) : Prop
    extends Ready p ctx true scope e, Laid ctx e where
  stack : e.slots.stack = []
  /-- A constructor was called on the receiver. -/
  constructed : p = .kind → .uninitializedThis ∉ e.slots.locals

variable {p : Precision} {ctx : MethodContext} {usable : Bool} {scope : TypeScope}
  {e e' e₁ e₂ : Emitter} {type : TypeName} {slot : Nat} {vt : VerificationType}

theorem Laid.apart (h : Laid ctx e) {l m : NamedLocal} (hl : l ∈ e.named) (hm : m ∈ e.named) :
    l = m ∨ l.slot + l.type.slotSize ≤ m.slot ∨ m.slot + m.type.slotSize ≤ l.slot :=
  NamedLocal.apart h.order hl hm

theorem forall₂_imp_mem {α β : Type} {R S : α → β → Prop} {as : List α} {bs : List β}
    (h : List.Forall₂ R as bs) (himp : ∀ a, ∀ b ∈ bs, R a b → S a b) : List.Forall₂ S as bs :=
  List.forall₂_iff_zip.mpr ⟨h.length_eq, fun hab =>
    himp _ _ (List.of_mem_zip hab).2 (List.forall₂_zip h hab)⟩

/-- Code that leaves the local variables as they are and the stack empty. -/
theorem Rests.quiet (h : Rests p ctx scope e) (hsame : SameLocals e e')
    (hpool : e.pool.Grows e'.pool) (hslots : e'.slots = ⟨e.slots.locals, []⟩) :
    Rests p ctx scope e' := by
  have hlocals : e'.slots.locals = e.slots.locals := by rw [hslots]
  have hholds : ∀ type slot, HoldsType p e type slot → HoldsType p e' type slot :=
    fun type slot htype => htype.mono (Nat.le_of_eq hsame.maxLocals.symm) hpool
      fun _ => by rw [hlocals]
  exact
    { named := hsame.named ▸ h.named.imp fun v l hv =>
        ⟨hv.1, fun type htype => ⟨(hv.2 type htype).1, hholds _ _ (hv.2 type htype).2⟩⟩
      params := fun index slot type hparam => hholds _ _ (h.params index slot type hparam)
      receiver := by rw [hlocals, hsame.maxLocals]; exact h.receiver
      usable := by rw [hlocals]; exact h.usable
      built := by rw [hlocals]; exact h.built
      fresh := fun offset hmem => by rw [hslots] at hmem; cases hmem
      order := hsame.named ▸ h.order
      within := by rw [hsame.named, hsame.nextLocal]; exact h.within
      entry := by rw [hsame.nextLocal]; exact h.entry
      wide := by rw [hlocals, hsame.named, hsame.nextLocal]; exact h.wide
      stack := by rw [hslots]
      constructed := by rw [hlocals]; exact h.constructed }

/-! ### Stores -/

/-- A variable of a type got a value, in a slot behind the parameters. -/
structure Stored (e e' : Emitter) (type : TypeName) (slot : Nat) (vt : VerificationType) :
    Prop where
  represents : Represents e'.pool type vt
  pool : e.pool.Grows e'.pool
  slots : e'.slots = ⟨SlotState.store e.slots.locals slot vt.slots, []⟩
  maxLocals : e'.maxLocals = max e.maxLocals (slot + type.slotSize)

theorem Stored.length_slots (h : Stored e e' type slot vt) (htype : p.inhabits type = true) :
    vt.slots.length = type.slotSize := by
  have hvoid := Precision.isVoid_of_inhabits htype
  rw [VerificationType.length_slots, isWide_of_kind? h.represents.kind?,
    ← ValueKind.slots_ofType hvoid, ValueKind.slots]

/-- The variable has the value. -/
theorem Stored.holds_self (h : Stored e e' type slot vt) (htype : p.inhabits type = true) :
    HoldsType p e' type slot where
  inhabits := htype
  bound := by rw [h.maxLocals]; exact Nat.le_max_right _ _
  value := fun _ => by
    have hpos : 0 < vt.slots.length := h.length_slots htype ▸ TypeName.slotSize_pos htype
    have hhead : vt.slots[0]? = some vt := by
      rw [VerificationType.slots]
      split_ifs <;> rfl
    have hself := SlotState.getElem?_store_self e.slots.locals slot hpos
    exact ⟨vt, h.represents, by rw [h.slots]; exact hself.trans hhead⟩

/-- Variables in other slots keep their values. -/
theorem Stored.holds {other : TypeName} {slot' : Nat} (h : Stored e e' type slot vt)
    (htype : p.inhabits type = true) (hother : HoldsType p e other slot')
    (hapart : slot' + other.slotSize ≤ slot ∨ slot + type.slotSize ≤ slot') :
    HoldsType p e' other slot' where
  inhabits := hother.inhabits
  bound := Nat.le_trans hother.bound (by rw [h.maxLocals]; exact Nat.le_max_left _ _)
  value := fun hp => by
    obtain ⟨old, hold, hget⟩ := hother.value hp
    have hpos := TypeName.slotSize_pos hother.inhabits
    refine ⟨old, hold.grows h.pool, ?_⟩
    rw [h.slots]
    refine SlotState.getElem?_store_of_apart hget ?_
    rw [h.length_slots htype]
    omega

/-- What stands in a slot after a store: something forgotten, something old, or a part of the value.
-/
theorem Stored.of_getElem? (h : Stored e e' type slot vt) (htype : p.inhabits type = true) {j : Nat}
    {u : VerificationType} (hj : e'.slots.locals[j]? = some u) :
    u = .top ∨ e.slots.locals[j]? = some u ∧ (j < slot ∨ slot + type.slotSize ≤ j) ∨
      j = slot ∧ u = vt := by
  rw [h.slots] at hj
  rcases SlotState.of_getElem?_store hj with htop | ⟨hold, hapart⟩ | ⟨k, rfl, hk⟩
  · exact .inl htop
  · rw [h.length_slots htype] at hapart
    exact .inr (.inl ⟨hold, hapart⟩)
  · rw [VerificationType.slots] at hk
    split_ifs at hk
    · cases k with
      | zero => exact .inr (.inr ⟨rfl, (Option.some.inj hk).symm⟩)
      | succ k => exact .inl (List.mem_singleton.mp (List.mem_of_getElem? (i := k) hk))
    · cases k with
      | zero => exact .inr (.inr ⟨rfl, (Option.some.inj hk).symm⟩)
      | succ k => cases hk

theorem Stored.wide_lt (h : Stored e e' type slot vt) (htype : p.inhabits type = true)
    (hwide : vt.isWide = true) : type.slotSize = 2 := by
  rw [← h.length_slots htype, VerificationType.length_slots, if_pos hwide]

/-- A store into a slot behind the parameters leaves the receiver, the parameters and objects alone.
-/
theorem Stored.rests_of {scope' : TypeScope} (h : Stored e e' type slot vt)
    (hrests : Rests p ctx scope e) (htype : p.inhabits type = true) (hslot : ctx.entrySize ≤ slot)
    (hnamed : List.Forall₂ (fun v l => v.1 = l.name ∧
      ∀ t, v.2 = some t → l.type = t ∧ HoldsType p e' t l.slot) scope' e'.named)
    (hlaid : Laid ctx e') : Rests p ctx scope' e' := by
  have hkind := h.represents.kind?
  have hfirst : ctx.isStatic = false → e'.slots.locals[0]? = some .top ∨
      e'.slots.locals[0]? = none ∨ e'.slots.locals[0]? = e.slots.locals[0]? := by
    intro hstatic
    have hpos := ctx.entrySize_pos hstatic
    cases hget : e'.slots.locals[0]? with
    | none => exact .inr (.inl rfl)
    | some u =>
      rcases h.of_getElem? htype hget with rfl | ⟨hold, _⟩ | ⟨hzero, _⟩
      · exact .inl rfl
      · exact .inr (.inr hold.symm)
      · omega
  have hmem : ∀ u ∈ e'.slots.locals, u = .top ∨ u ∈ e.slots.locals ∨ u = vt := by
    intro u hu
    obtain ⟨j, hj⟩ := List.mem_iff_getElem?.mp hu
    rcases h.of_getElem? htype hj with htop | ⟨hold, _⟩ | ⟨_, hvt⟩
    · exact .inl htop
    · exact .inr (.inl (List.mem_of_getElem? hold))
    · exact .inr (.inr hvt)
  refine
    { named := hnamed
      params := fun index slot' type' hparam => h.holds htype
        (hrests.params index slot' type' hparam)
        (.inl (Nat.le_trans (MethodContext.paramSlot?_le hparam) hslot))
      receiver := fun hstatic => ?_
      usable := fun hstatic hp husable => ?_
      built := fun offset hraw => ?_
      fresh := fun offset hraw => by rw [h.slots] at hraw; cases hraw
      toLaid := hlaid
      stack := by rw [h.slots]
      constructed := fun hp hraw => ?_ }
  · obtain ⟨hpos, hwide⟩ := hrests.receiver hstatic
    refine ⟨Nat.lt_of_lt_of_le hpos (by rw [h.maxLocals]; exact Nat.le_max_left _ _), ?_⟩
    rw [List.headD_eq_head?_getD, List.head?_eq_getElem?] at hwide ⊢
    rcases hfirst hstatic with htop | hnone | hsame
    · rw [htop]
      rfl
    · rw [hnone]
      rfl
    · rw [hsame, hwide]
  · obtain ⟨index, hindex⟩ := hrests.usable hstatic hp husable
    have hpos := ctx.entrySize_pos hstatic
    exact ⟨index, by rw [h.slots]; exact SlotState.getElem?_store_of_apart hindex (.inl (by omega))⟩
  · rcases hmem _ hraw with htop | hold | hvt
    · cases htop
    · exact hrests.built offset hold
    · rw [← hvt] at hkind
      cases hkind
  · rcases hmem _ hraw with htop | hold | hvt
    · cases htop
    · exact hrests.constructed hp hold
    · rw [← hvt] at hkind
      cases hkind

/-- A variable is declared with a value. -/
theorem Stored.declared {name : String} (h : Stored e e' type e.nextLocal vt)
    (hrests : Rests p ctx scope e) (htype : p.inhabits type = true)
    (hnamed : e'.named = { name, slot := e.nextLocal, type } :: e.named)
    (hnext : e'.nextLocal = e.nextLocal + type.slotSize) :
    Rests p ctx ((name, some type) :: scope) e' := by
  have hpos := TypeName.slotSize_pos htype
  refine h.rests_of hrests htype hrests.entry ?_ ?_
  · rw [hnamed]
    refine .cons ⟨rfl, fun t ht => ?_⟩ (forall₂_imp_mem hrests.named fun v l hl hv =>
      ⟨hv.1, fun t ht => ⟨(hv.2 t ht).1, ?_⟩⟩)
    · obtain rfl := Option.some.inj ht
      exact ⟨rfl, h.holds_self htype⟩
    · obtain ⟨rfl, hholds⟩ := hv.2 t ht
      exact h.holds htype hholds (.inl (hrests.within l hl).2.1)
  · refine
      { order := hnamed ▸ List.pairwise_cons.mpr
          ⟨fun l hl => (hrests.within l hl).2.1, hrests.order⟩
        within := fun l hl => ?_
        entry := by rw [hnext]; exact Nat.le_trans hrests.entry (Nat.le_add_right _ _)
        wide := fun j u hj hwide => ?_ }
    · rw [hnamed] at hl
      rw [hnext]
      rcases List.mem_cons.mp hl with rfl | hl
      · exact ⟨hrests.entry, Nat.le_refl _, hpos⟩
      · obtain ⟨hentry, hbound, hsize⟩ := hrests.within l hl
        exact ⟨hentry, Nat.le_trans hbound (Nat.le_add_right _ _), hsize⟩
    · rw [hnamed, hnext]
      rcases h.of_getElem? htype hj with rfl | ⟨hold, _⟩ | ⟨rfl, rfl⟩
      · cases hwide
      · obtain ⟨hlt, hapart⟩ := hrests.wide j u hold hwide
        refine ⟨by omega, fun l hl => ?_⟩
        rcases List.mem_cons.mp hl with rfl | hl
        · change e.nextLocal ≠ j + 1
          omega
        · exact hapart l hl
      · have hsize := h.wide_lt htype hwide
        refine ⟨by omega, fun l hl => ?_⟩
        rcases List.mem_cons.mp hl with rfl | hl
        · change e.nextLocal ≠ e.nextLocal + 1
          omega
        · have hbound := (hrests.within l hl).2
          omega

/-- A variable is assigned to. -/
theorem Stored.assigned {l : NamedLocal} (h : Stored e e' l.type l.slot vt)
    (hrests : Rests p ctx scope e) (hl : l ∈ e.named) (htype : p.inhabits l.type = true)
    (hnamed : e'.named = e.named) (hnext : e'.nextLocal = e.nextLocal) :
    Rests p ctx scope e' := by
  have hbound := hrests.within l hl
  refine h.rests_of hrests htype hbound.1 ?_ ?_
  · rw [hnamed]
    refine forall₂_imp_mem hrests.named fun v m hm hv => ⟨hv.1, fun t ht => ⟨(hv.2 t ht).1, ?_⟩⟩
    obtain ⟨rfl, hholds⟩ := hv.2 t ht
    rcases hrests.apart hm hl with rfl | hapart
    · exact h.holds_self htype
    · exact h.holds htype hholds hapart
  · refine
      { order := hnamed ▸ hrests.order
        within := by rw [hnamed, hnext]; exact hrests.within
        entry := by rw [hnext]; exact hrests.entry
        wide := fun j u hj hwide => ?_ }
    rw [hnamed, hnext]
    rcases h.of_getElem? htype hj with rfl | ⟨hold, _⟩ | ⟨rfl, rfl⟩
    · cases hwide
    · exact hrests.wide j u hold hwide
    · have hsize := h.wide_lt htype hwide
      refine ⟨by omega, fun m hm => ?_⟩
      have hpos := (hrests.within m hm).2.2
      rcases hrests.apart hm hl with rfl | hapart
      · omega
      · omega

/-! ### Blocks -/

/-- More local variables were declared. -/
structure Extends (e e' : Emitter) : Prop where
  named : ∃ new, e'.named = new ++ e.named ∧ ∀ l ∈ new, e.nextLocal ≤ l.slot
  nextLocal : e.nextLocal ≤ e'.nextLocal

theorem Extends.of_same (hnamed : e'.named = e.named) (hnext : e'.nextLocal = e.nextLocal) :
    Extends e e' :=
  ⟨⟨[], by rw [hnamed, List.nil_append], nofun⟩, Nat.le_of_eq hnext.symm⟩

theorem Extends.trans (h : Extends e e₁) (h' : Extends e₁ e') : Extends e e' := by
  obtain ⟨new, hnew, hslots⟩ := h.named
  obtain ⟨new', hnew', hslots'⟩ := h'.named
  refine ⟨⟨new' ++ new, by rw [hnew', hnew, List.append_assoc], fun l hl => ?_⟩,
    Nat.le_trans h.nextLocal h'.nextLocal⟩
  rcases List.mem_append.mp hl with hl | hl
  · exact Nat.le_trans h.nextLocal (hslots' l hl)
  · exact hslots l hl

/-- Behind a block, local variables hold what they held both before it and at its end, or less. -/
structure Meets (e₁ e₂ e' : Emitter) : Prop where
  same : SameLocals e₂ e'
  pool : e'.pool = e₂.pool
  stack : e'.slots.stack = []
  kept : ∀ (j : Nat) (u : VerificationType), e₁.slots.locals[j]? = some u →
    e₂.slots.locals[j]? = some u → e'.slots.locals[j]? = some u
  source : ∀ (j : Nat) (u : VerificationType), e'.slots.locals[j]? = some u →
    u = .top ∨ e₁.slots.locals[j]? = some u ∨ e₂.slots.locals[j]? = some u

theorem Meets.mem (h : Meets e₁ e₂ e') {u : VerificationType} (hu : u ∈ e'.slots.locals) :
    u = .top ∨ u ∈ e₁.slots.locals ∨ u ∈ e₂.slots.locals := by
  obtain ⟨j, hj⟩ := List.mem_iff_getElem?.mp hu
  exact (h.source j u hj).imp_right (Or.imp List.mem_of_getElem? List.mem_of_getElem?)

/-- A variable that held a value of its type before the block and at its end holds one behind it. -/
theorem Meets.holds (h : Meets e₁ e₂ e') (hpool : e₁.pool.Grows e₂.pool)
    (h₁ : HoldsType p e₁ type slot) (h₂ : HoldsType p e₂ type slot) : HoldsType p e' type slot where
  inhabits := h₂.inhabits
  bound := by rw [h.same.maxLocals]; exact h₂.bound
  value := fun hp => by
    obtain ⟨old, hold, hget₁⟩ := h₁.value hp
    obtain ⟨vt, hvt, hget₂⟩ := h₂.value hp
    obtain rfl := (hold.grows hpool).eq hvt
    exact ⟨old, by rw [h.pool]; exact hvt, h.kept slot old hget₁ hget₂⟩

/-- The variables of the block are out of scope behind it, where kinds are compared. -/
theorem Meets.named {outer inner : TypeScope} (h : Meets e₁ e₂ e') (h₁ : Rests p ctx outer e₁)
    (h₂ : Rests p ctx inner e₂) (hextends : Extends e₁ e₂) (hpool : e₁.pool.Grows e₂.pool)
    (hscope : outer <:+ inner) :
    List.Forall₂ (fun v l => v.1 = l.name ∧
      ∀ t, v.2 = some t → l.type = t ∧ HoldsType p e' t l.slot) (outer.leave p inner) e'.named := by
  rw [h.same.named]
  cases p with
  | width =>
    refine h₂.named.imp fun v l hv => ⟨hv.1, fun t ht => ⟨(hv.2 t ht).1, ?_⟩⟩
    exact (hv.2 t ht).2.mono (Nat.le_of_eq h.same.maxLocals.symm)
      (h.pool ▸ ConstantPool.Grows.refl _) nofun
  | kind =>
    obtain ⟨front, rfl⟩ := hscope
    obtain ⟨new, hnew, _⟩ := hextends.named
    have hnamed₂ := h₂.named
    have hlength := h₁.named.length_eq
    have hlength₂ := hnamed₂.length_eq
    rw [hnew, List.length_append, List.length_append] at hlength₂
    have hfront : front.length = new.length := by omega
    have hall := List.forall₂_take front.length hnamed₂
    have hrest := List.forall₂_drop front.length hnamed₂
    rw [hnew, List.take_left, hfront, List.take_left] at hall
    rw [hnew, List.drop_left, hfront, List.drop_left] at hrest
    have hleave : TypeScope.leave .kind outer (front ++ outer)
        = front.map (fun v => (v.1, none)) ++ outer := by
      rw [TypeScope.leave, List.length_append, Nat.add_sub_cancel, List.take_left]
    rw [hleave, hnew]
    refine List.rel_append (List.forall₂_map_left_iff.mpr (hall.imp fun v l hv => ⟨hv.1, nofun⟩)) ?_
    exact h₁.named.mp (fun v l hv₁ hv₂ => ⟨hv₁.1, fun t ht => ⟨(hv₁.2 t ht).1,
      h.holds hpool (hv₁.2 t ht).2 (hv₂.2 t ht).2⟩⟩) hrest

/-- Behind a block the emitter rests in the scope around it. -/
theorem Meets.rests {outer inner : TypeScope} (h : Meets e₁ e₂ e') (h₁ : Rests p ctx outer e₁)
    (h₂ : Rests p ctx inner e₂) (hextends : Extends e₁ e₂) (hpool : e₁.pool.Grows e₂.pool)
    (hscope : outer <:+ inner) (hreceiver : p = .kind → ctx.isStatic = false →
      e₂.slots.locals[0]? = e₁.slots.locals[0]?) : Rests p ctx (outer.leave p inner) e' := by
  refine
    { named := h.named h₁ h₂ hextends hpool hscope
      params := fun index slot type hparam =>
        h.holds hpool (h₁.params index slot type hparam) (h₂.params index slot type hparam)
      receiver := fun hstatic => ?_
      usable := fun hstatic hp husable => ?_
      built := fun offset hraw => ?_
      fresh := fun offset hraw => by rw [h.stack] at hraw; cases hraw
      order := h.same.named ▸ h₂.order
      within := by rw [h.same.named, h.same.nextLocal]; exact h₂.within
      entry := by rw [h.same.nextLocal]; exact h₂.entry
      wide := fun j u hj hwide => ?_
      stack := h.stack
      constructed := fun hp hraw => ?_ }
  · obtain ⟨hpos, hwide₂⟩ := h₂.receiver hstatic
    have hwide₁ := (h₁.receiver hstatic).2
    refine ⟨by rw [h.same.maxLocals]; exact hpos, ?_⟩
    rw [List.headD_eq_head?_getD, List.head?_eq_getElem?] at hwide₁ hwide₂ ⊢
    cases hget : e'.slots.locals[0]? with
    | none => rfl
    | some u =>
      rcases h.source 0 u hget with rfl | hold | hold
      · rfl
      · rwa [hold] at hwide₁
      · rwa [hold] at hwide₂
  · obtain ⟨index, hindex⟩ := h₁.usable hstatic hp husable
    exact ⟨index, h.kept 0 _ hindex ((hreceiver hp hstatic).trans hindex)⟩
  · rcases h.mem hraw with htop | hold | hold
    · cases htop
    · exact h₁.built offset hold
    · exact h₂.built offset hold
  · rw [h.same.named, h.same.nextLocal]
    rcases h.source j u hj with rfl | hold | hold
    · cases hwide
    · obtain ⟨hlt, hapart⟩ := h₁.wide j u hold hwide
      obtain ⟨new, hnew, hslots⟩ := hextends.named
      refine ⟨Nat.le_trans hlt hextends.nextLocal, fun l hl => ?_⟩
      rw [hnew] at hl
      rcases List.mem_append.mp hl with hl | hl
      · have hle := hslots l hl
        omega
      · exact hapart l hl
    · exact h₂.wide j u hold hwide
  · rcases h.mem hraw with htop | hold | hold
    · cases htop
    · exact h₁.constructed hp hold
    · exact h₂.constructed hp hold

/-! ### Constructors -/

theorem getElem?_replaceAll {s : SlotState} {old new u : VerificationType} {j : Nat}
    (h : (s.replaceAll old new).locals[j]? = some u) :
    s.locals[j]? = some u ∧ u ≠ old ∨ s.locals[j]? = some old ∧ u = new := by
  rw [SlotState.replaceAll, List.getElem?_map] at h
  obtain ⟨v, hv, rfl⟩ := Option.map_eq_some_iff.mp h
  split_ifs with hold
  · exact .inr ⟨hold ▸ hv, rfl⟩
  · exact .inl ⟨hv, hold⟩

theorem getElem?_replaceAll_of_ne {s : SlotState} {old new u : VerificationType} {j : Nat}
    (h : s.locals[j]? = some u) (hu : u ≠ old) : (s.replaceAll old new).locals[j]? = some u := by
  rw [SlotState.replaceAll, List.getElem?_map, h, Option.map_some, if_neg hu]

/-- After the call of an inherited constructor the receiver may be used. -/
theorem rests_constructed {index : UInt16} (hready : Ready p ctx usable scope e)
    (hlaid : Laid ctx e) (hreceiver : p = .kind → e.slots.locals[0]? = some .uninitializedThis)
    (hsame : SameLocals e e') (hpool : e.pool.Grows e'.pool)
    (hslots : e'.slots
      = SlotState.replaceAll ⟨e.slots.locals, []⟩ .uninitializedThis (.object index)) :
    Rests p ctx scope e' := by
  have hsource : ∀ (j : Nat) (u : VerificationType), e'.slots.locals[j]? = some u →
      e.slots.locals[j]? = some u ∧ u ≠ .uninitializedThis ∨ u = .object index := by
    intro j u hj
    rw [hslots] at hj
    exact (getElem?_replaceAll hj).imp_right And.right
  have hholds : ∀ type slot, HoldsType p e type slot → HoldsType p e' type slot := by
    refine fun type slot htype => ⟨htype.inhabits,
      by rw [hsame.maxLocals]; exact htype.bound, fun hp => ?_⟩
    obtain ⟨vt, hvt, hget⟩ := htype.value hp
    refine ⟨vt, hvt.grows hpool, ?_⟩
    rw [hslots]
    refine getElem?_replaceAll_of_ne hget ?_
    rintro rfl
    cases hvt.kind?
  have hstack : e'.slots.stack = [] := by rw [hslots]; rfl
  refine
    { named := hsame.named ▸ hready.named.imp fun v l hv =>
        ⟨hv.1, fun type htype => ⟨(hv.2 type htype).1, hholds _ _ (hv.2 type htype).2⟩⟩
      params := fun index slot type hparam => hholds _ _ (hready.params index slot type hparam)
      receiver := fun hstatic => ?_
      usable := fun hstatic hp _ => ⟨index, ?_⟩
      built := fun offset hraw => ?_
      fresh := fun offset hraw => by rw [hstack] at hraw; cases hraw
      order := hsame.named ▸ hlaid.order
      within := by rw [hsame.named, hsame.nextLocal]; exact hlaid.within
      entry := by rw [hsame.nextLocal]; exact hlaid.entry
      wide := fun j u hj hwide => ?_
      stack := hstack
      constructed := fun _ hraw => ?_ }
  · obtain ⟨hpos, hwide⟩ := hready.receiver hstatic
    refine ⟨by rw [hsame.maxLocals]; exact hpos, ?_⟩
    rw [List.headD_eq_head?_getD, List.head?_eq_getElem?] at hwide ⊢
    cases hget : e'.slots.locals[0]? with
    | none => rfl
    | some u =>
      rcases hsource 0 u hget with ⟨hold, _⟩ | rfl
      · rwa [hold] at hwide
      · rfl
  · rw [hslots, SlotState.replaceAll, List.getElem?_map, hreceiver hp, Option.map_some, if_pos rfl]
  · obtain ⟨j, hj⟩ := List.mem_iff_getElem?.mp hraw
    rcases hsource j _ hj with ⟨hold, _⟩ | hobject
    · exact hready.built offset (List.mem_of_getElem? hold)
    · cases hobject
  · rw [hsame.named, hsame.nextLocal]
    rcases hsource j u hj with ⟨hold, _⟩ | rfl
    · exact hlaid.wide j u hold hwide
    · cases hwide
  · obtain ⟨j, hj⟩ := List.mem_iff_getElem?.mp hraw
    rcases hsource j _ hj with ⟨_, hne⟩ | hobject
    · exact hne rfl
    · cases hobject

end Emitter

end ClassSynth
