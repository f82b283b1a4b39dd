import Mathlib.Data.List.DropRight
import ClassSynth.Proofs.Verifier.Scopes

/-!
# Halves of wide values

Frames list a wide value once, while it fills two slots. Turning slots into frames skips the second
slot unseen, so it loses nothing only where this slot holds `top` (`Paired`). Then the slots are
those of a list of values (`paired_iff`): expanding a stack again gives its slots back, and
expanding locals gives them up to `top` at the end, which no frame lists (`Whole.expands`).

What keeps both slots together: on the stack it is known how many slots each value takes (`Sized`),
so that whole values are taken off it; merging and replacing put something alike into each slot
(`Alike`). Local variables lie apart (`Allotted`), and none of them starts in the second slot of a
wide value (`Clear`), so that stores overwrite whole values.
-/

namespace ClassSynth

namespace VerificationType

variable {slots slots' : List VerificationType} {ts : List VerificationType}

/-- Every wide value has `top` in its second slot. -/
def Paired (slots : List VerificationType) : Prop :=
  ∀ (j : Nat) (t : VerificationType), slots[j]? = some t → t.isWide = true →
    slots[j + 1]? = some .top

theorem paired_nil : Paired [] :=
  fun _ _ h => nomatch h

theorem paired_cons_of_narrow {t : VerificationType} (ht : t.isWide = false) :
    Paired (t :: slots) ↔ Paired slots := by
  refine ⟨fun h j u hj => h (j + 1) u hj, fun h j u hj hwide => ?_⟩
  cases j with
  | zero =>
    obtain rfl := Option.some.inj hj
    rw [ht] at hwide
    cases hwide
  | succ j => exact h j u hj hwide

theorem paired_cons_of_wide {t : VerificationType} (ht : t.isWide = true) :
    Paired (t :: slots) ↔ ∃ rest, slots = .top :: rest ∧ Paired rest := by
  constructor
  · intro h
    cases slots with
    | nil => exact nomatch h 0 t rfl ht
    | cons u rest =>
      obtain rfl : u = .top := Option.some.inj (h 0 t rfl ht)
      exact ⟨rest, rfl, fun j v hj => h (j + 2) v hj⟩
  · rintro ⟨rest, rfl, h⟩ j u hj hwide
    match j with
    | 0 => rfl
    | 1 =>
      obtain rfl := Option.some.inj hj
      cases hwide
    | j + 2 => exact h j u hj hwide

theorem paired_flat (ts : List VerificationType) : Paired (flat ts) := by
  induction ts with
  | nil => exact paired_nil
  | cons t ts ih =>
    rw [flat_cons, slots]
    by_cases ht : t.isWide = true
    · rw [if_pos ht]
      exact (paired_cons_of_wide ht).mpr ⟨_, rfl, ih⟩
    · rw [if_neg ht]
      exact (paired_cons_of_narrow (Bool.eq_false_iff.mpr ht)).mpr ih

/-- The values in the slots take the slots again. -/
theorem Paired.flat_ofSlots (h : Paired slots) : flat (ofSlots slots) = slots := by
  induction slots using ofSlots.induct with
  | case1 => rfl
  | case2 t =>
    have ht : t.isWide = false := Bool.eq_false_iff.mpr fun ht =>
      nomatch (paired_cons_of_wide ht).mp h
    rw [ofSlots, flat_cons, VerificationType.slots, if_neg (by simp [ht])]
    rfl
  | case3 t u rest ht ih =>
    obtain ⟨_, htop, hrest⟩ := (paired_cons_of_wide ht).mp h
    obtain ⟨rfl, rfl⟩ := List.cons.inj htop
    rw [ofSlots, if_pos ht, flat_cons, VerificationType.slots, if_pos ht, ih hrest]
    rfl
  | case4 t u rest ht ih =>
    rw [ofSlots, if_neg ht, flat_cons, VerificationType.slots, if_neg ht,
      ih ((paired_cons_of_narrow (Bool.eq_false_iff.mpr ht)).mp h)]
    rfl

/-- Slots are paired if and only if they are those of a list of values. -/
theorem paired_iff : Paired slots ↔ ∃ ts, slots = flat ts :=
  ⟨fun h => ⟨_, h.flat_ofSlots.symm⟩, fun ⟨ts, h⟩ => h ▸ paired_flat ts⟩

/-! ## Frames -/

/-- What is dropped at the end of the locals is `top`. -/
theorem exists_trimTop (ts : List VerificationType) :
    ∃ n, trimTop ts ++ List.replicate n .top = ts := by
  let isTop : VerificationType → Bool := (· == top)
  have hdropped : ts.rtakeWhile isTop
      = List.replicate (ts.rtakeWhile isTop).length .top := by
    refine List.eq_replicate_length.mpr fun t ht => ?_
    have htop : isTop t = true := List.mem_rtakeWhile_imp ht
    exact beq_iff_eq.mp htop
  refine ⟨(ts.rtakeWhile isTop).length, ?_⟩
  rw [← hdropped]
  exact List.rdropWhile_append_rtakeWhile

/-- Values at the end of the locals are not dropped. -/
theorem trimTop_of_top_notMem (h : top ∉ ts) : trimTop ts = ts := by
  obtain ⟨n, hn⟩ := exists_trimTop ts
  cases n with
  | zero => rwa [List.replicate_zero, List.append_nil] at hn
  | succ n =>
    refine absurd ?_ h
    rw [← hn, List.replicate_succ]
    exact List.mem_append_right _ List.mem_cons_self

theorem flat_replicate_top (n : Nat) : flat (List.replicate n .top) = List.replicate n .top := by
  induction n with
  | zero => rfl
  | succ n ih =>
    rw [List.replicate_succ, flat_cons, ih]
    rfl

/-- Locals are lost from a frame only where `top` stands at their end. -/
theorem Paired.exists_localsOfSlots (h : Paired slots) :
    ∃ n, flat (localsOfSlots slots) ++ List.replicate n .top = slots := by
  obtain ⟨n, hn⟩ := exists_trimTop (ofSlots slots)
  refine ⟨n, ?_⟩
  rw [localsOfSlots, ← flat_replicate_top, ← flat_append, hn, h.flat_ofSlots]

/-- Locals that are whole values are listed in a frame as they are. -/
theorem localsOfSlots_flat (h : top ∉ ts) : localsOfSlots (flat ts) = ts := by
  rw [localsOfSlots, ofSlots_flat, trimTop_of_top_notMem h]

end VerificationType

open VerificationType in
theorem Represents.isWide {pool : ConstantPool} {t : TypeName} {vt : VerificationType}
    (h : Represents pool t vt) : vt.isWide = t.isWide := by
  rw [isWide_of_kind? h.kind?, ValueKind.ofType, TypeName.isWide]
  cases t.primitive? with
  | none => rfl
  | some p => cases p <;> rfl

namespace SlotState

open VerificationType

/-- Every wide value has both its slots. -/
structure Whole (s : SlotState) : Prop where
  locals : Paired s.locals
  stack : Paired s.stack

/-- The frame of the state gives its slots back, up to `top` at the end of the locals. -/
def Expands (s : SlotState) : Prop :=
  flat (ofSlots s.stack) = s.stack ∧
    ∃ n, flat (localsOfSlots s.locals) ++ List.replicate n .top = s.locals

theorem Whole.expands {s : SlotState} (h : s.Whole) : s.Expands :=
  ⟨h.stack.flat_ofSlots, h.locals.exists_localsOfSlots⟩

end SlotState

open Emit Emitter VerificationType

/-! ## Stacks -/

/-- The slots hold values that take the given numbers of slots; what takes none is not there. -/
def Sized (sizes : List Nat) (slots : List VerificationType) : Prop :=
  ∃ ts, slots = flat ts ∧ ts.map (·.slots.length) = sizes.filter (· != 0)

namespace Sized

variable {sizes us : List Nat} {slots : List VerificationType} {n : Nat} {t : VerificationType}

theorem nil : Sized [] [] := ⟨[], rfl, rfl⟩

theorem paired (h : Sized sizes slots) : Paired slots := by
  obtain ⟨ts, rfl, _⟩ := h
  exact paired_flat ts

/-- Values without slots make no difference. -/
theorem append_zero : Sized (sizes ++ [0]) slots ↔ Sized sizes slots := by
  rw [Sized, Sized, List.filter_append]
  simp

theorem slots_length_pos (t : VerificationType) : t.slots.length ≠ 0 := by
  rw [length_slots]
  split_ifs <;> decide

theorem push (h : Sized sizes slots) (t : VerificationType) :
    Sized (sizes ++ [t.slots.length]) (slots ++ t.slots) := by
  obtain ⟨ts, rfl, hts⟩ := h
  refine ⟨ts ++ [t], by simp, ?_⟩
  rw [List.map_append, hts, List.filter_append]
  simp [slots_length_pos t]

theorem sum_filter (us : List Nat) : (us.filter (· != 0)).sum = us.sum := by
  induction us with
  | nil => rfl
  | cons u us ih =>
    by_cases hu : u = 0
    · simp [hu, ih]
    · simp [hu, ih]

/-- What is taken off a stack are whole values. -/
theorem pop (h : Sized (sizes ++ us) slots) :
    us.sum ≤ slots.length ∧ Sized sizes (slots.take (slots.length - us.sum)) := by
  obtain ⟨ts, rfl, hts⟩ := h
  rw [List.filter_append, List.map_eq_append_iff] at hts
  obtain ⟨base, top, rfl, hbase, htop⟩ := hts
  have hlength : (flat top).length = us.sum := by
    rw [← sum_filter, ← htop, flat, List.length_flatMap]
  rw [flat_append, List.length_append, hlength, Nat.add_sub_cancel, List.take_left]
  exact ⟨Nat.le_add_left _ _, base, rfl, hbase⟩

/-- The second type can stand in the place of the first one. -/
def Alike (t u : VerificationType) : Prop :=
  u.isWide = t.isWide ∧ (t = .top → u = .top)

theorem Alike.refl (t : VerificationType) : Alike t t :=
  ⟨rfl, id⟩

/-- Values are kept apart as they were, where each slot is replaced by something alike. -/
theorem of_alike {slots' : List VerificationType} (h : Sized sizes slots)
    (halike : List.Forall₂ Alike slots slots') : Sized sizes slots' := by
  obtain ⟨ts, rfl, hts⟩ := h
  suffices hflat : ∃ us, slots' = flat us ∧
      us.map (·.slots.length) = ts.map (·.slots.length) by
    obtain ⟨us, hus, hsizes⟩ := hflat
    exact ⟨us, hus, hsizes.trans hts⟩
  clear hts
  induction ts generalizing slots' with
  | nil =>
    cases halike
    exact ⟨[], rfl, rfl⟩
  | cons t ts ih =>
    rw [flat_cons, VerificationType.slots] at halike
    by_cases ht : t.isWide = true
    · rw [if_pos ht] at halike
      obtain ⟨u, _, hu, hsecond, rfl⟩ := List.forall₂_cons_left_iff.mp halike
      obtain ⟨v, rest, hv, hrest, rfl⟩ := List.forall₂_cons_left_iff.mp hsecond
      obtain ⟨us, rfl, hus⟩ := ih hrest
      obtain rfl := hv.2 rfl
      have hwide : u.isWide = true := hu.1.trans ht
      refine ⟨u :: us, by rw [flat_cons, VerificationType.slots, if_pos hwide]; rfl, ?_⟩
      rw [List.map_cons, List.map_cons, hus, length_slots, length_slots, hu.1]
    · rw [if_neg ht] at halike
      obtain ⟨u, rest, hu, hrest, rfl⟩ := List.forall₂_cons_left_iff.mp halike
      obtain ⟨us, rfl, hus⟩ := ih hrest
      have hnarrow : ¬ u.isWide = true := hu.1 ▸ ht
      refine ⟨u :: us, by rw [flat_cons, VerificationType.slots, if_neg hnarrow]; rfl, ?_⟩
      rw [List.map_cons, List.map_cons, hus, length_slots, length_slots, hu.1]

end Sized

/-! ## Merges and replacements -/

open Sized

theorem alike_of_mergeEntry {a b c : VerificationType} (h : SlotState.mergeEntry a b = .ok c) :
    Alike a c := by
  unfold SlotState.mergeEntry at h
  split_ifs at h with hab
  · obtain rfl := Except.ok.inj h
    exact .refl a
  · split at h
    · obtain rfl := Except.ok.inj h
      exact ⟨rfl, nofun⟩
    · obtain rfl := Except.ok.inj h
      exact .refl _
    · cases h

theorem alike_of_mergeStacks {as bs cs : List VerificationType} (hlength : as.length = bs.length)
    (h : SlotState.mergeStacks as bs = .ok cs) : List.Forall₂ Alike as cs := by
  induction as generalizing bs cs with
  | nil =>
    obtain rfl := List.length_eq_zero_iff.mp hlength.symm
    obtain rfl := Except.ok.inj h
    exact .nil
  | cons a as ih =>
    cases bs with
    | nil => cases hlength
    | cons b bs =>
      rw [SlotState.mergeStacks] at h
      cases hentry : SlotState.mergeEntry a b with
      | error cause =>
        rw [hentry] at h
        cases h
      | ok c =>
        cases hrest : SlotState.mergeStacks as bs with
        | error cause =>
          rw [hentry, hrest] at h
          cases h
        | ok rest =>
          rw [hentry, hrest] at h
          obtain rfl := Except.ok.inj h
          exact .cons (alike_of_mergeEntry hentry) (ih (Nat.succ.inj hlength) hrest)

theorem of_merge {a b c : SlotState} (h : a.merge b = .ok c) :
    List.Forall₂ Alike a.stack c.stack ∧
      c.locals = List.zipWith SlotState.mergeLocal a.locals b.locals := by
  unfold SlotState.merge at h
  split_ifs at h with hlength
  cases hstack : SlotState.mergeStacks a.stack b.stack with
  | error cause =>
    rw [hstack] at h
    cases h
  | ok stack =>
    rw [hstack] at h
    obtain rfl := Except.ok.inj h
    exact ⟨alike_of_mergeStacks (not_not.mp hlength) hstack, rfl⟩

/-- Where two states agree on a wide value, they agree on both its slots. -/
theorem paired_mergeLocals {as bs : List VerificationType} (ha : Paired as) (hb : Paired bs) :
    Paired (List.zipWith SlotState.mergeLocal as bs) := by
  intro j t hj hwide
  rcases SlotState.getElem?_mergeLocals hj with rfl | ⟨hat, hbt⟩
  · cases hwide
  · exact List.getElem?_zipWith_eq_some.mpr
      ⟨.top, .top, ha j t hat hwide, hb j t hbt hwide, if_pos rfl⟩

theorem alike_replace {old new : VerificationType} (hold : old.isWide = false) (htop : old ≠ .top)
    (hnew : new.isWide = false) (slots : List VerificationType) :
    List.Forall₂ Alike slots (slots.map fun t => if t = old then new else t) := by
  rw [List.forall₂_map_right_iff]
  refine List.forall₂_same.mpr fun t _ => ?_
  split_ifs with ht
  · subst ht
    exact ⟨hnew.trans hold.symm, fun h => absurd h htop⟩
  · exact .refl t

theorem paired_of_alike {slots slots' : List VerificationType} (h : Paired slots)
    (halike : List.Forall₂ Alike slots slots') : Paired slots' := by
  obtain ⟨ts, hts⟩ := paired_iff.mp h
  have hsized : Sized (ts.map (·.slots.length)) slots := by
    refine ⟨ts, hts, ?_⟩
    rw [List.filter_eq_self.mpr]
    intro n hn
    obtain ⟨t, _, rfl⟩ := List.mem_map.mp hn
    simpa using slots_length_pos t
  exact (hsized.of_alike halike).paired

/-! ## Local variables -/

/-- The slots of the named local variables lie behind the parameters and apart from each other. -/
structure Allotted (ctx : MethodContext) (vars : List NamedLocal) (next : Nat) : Prop where
  order : vars.Pairwise fun later earlier => earlier.slot + earlier.type.slotSize ≤ later.slot
  within : ∀ l ∈ vars, ctx.receiverSlots ≤ l.slot ∧ l.slot + l.type.slotSize ≤ next ∧
    l.type.isVoid = false
  entry : ctx.receiverSlots ≤ next

/-- Wide values are whole, end before the next variable and leave the slots alone where variables
start. The receiver is not wide. -/
structure Clear (ctx : MethodContext) (vars : List NamedLocal) (next : Nat)
    (locals : List VerificationType) : Prop where
  paired : Paired locals
  wide : ∀ (j : Nat) (u : VerificationType), locals[j]? = some u → u.isWide = true →
    j + 2 ≤ next ∧ ∀ l ∈ vars, l.slot ≠ j + 1
  receiver : ctx.isStatic = false → ∀ u, locals[0]? = some u → u.isWide = false

section

variable {ctx : MethodContext} {vars : List NamedLocal} {next : Nat}
  {locals : List VerificationType}

/-- A new variable takes the next slots. -/
theorem Allotted.declare (h : Allotted ctx vars next) (name : String) {t : TypeName}
    (ht : t.isVoid = false) :
    Allotted ctx ({ name, slot := next, type := t } :: vars) (next + t.slotSize) where
  order := List.pairwise_cons.mpr ⟨fun l hl => (h.within l hl).2.1, h.order⟩
  within := fun l hl => by
    rcases List.mem_cons.mp hl with rfl | hl
    · exact ⟨h.entry, Nat.le_refl _, ht⟩
    · obtain ⟨hfrom, hto, hvoid⟩ := h.within l hl
      exact ⟨hfrom, Nat.le_add_right_of_le hto, hvoid⟩
  entry := Nat.le_add_right_of_le h.entry

theorem Clear.declare (h : Clear ctx vars next locals) (name : String) (t : TypeName) :
    Clear ctx ({ name, slot := next, type := t } :: vars) (next + t.slotSize) locals where
  paired := h.paired
  wide := fun j u hj hwide => by
    obtain ⟨hto, hvars⟩ := h.wide j u hj hwide
    refine ⟨Nat.le_add_right_of_le hto, fun l hl => ?_⟩
    rcases List.mem_cons.mp hl with rfl | hl
    · exact fun heq => by simp only at heq; omega
    · exact hvars l hl
  receiver := h.receiver

theorem Clear.merge {locals' : List VerificationType} (h : Clear ctx vars next locals)
    (h' : Clear ctx vars next locals') :
    Clear ctx vars next (List.zipWith SlotState.mergeLocal locals locals') where
  paired := paired_mergeLocals h.paired h'.paired
  wide := fun j u hj hwide => by
    rcases SlotState.getElem?_mergeLocals hj with rfl | ⟨hget, _⟩
    · cases hwide
    · exact h.wide j u hget hwide
  receiver := fun hstatic u hu => by
    rcases SlotState.getElem?_mergeLocals hu with rfl | ⟨hget, _⟩
    · rfl
    · exact h.receiver hstatic u hget

theorem Clear.of_alike {locals' : List VerificationType} (h : Clear ctx vars next locals)
    (halike : List.Forall₂ Alike locals locals') : Clear ctx vars next locals' := by
  have hget : ∀ (j : Nat) (u : VerificationType), locals'[j]? = some u →
      ∃ t, locals[j]? = some t ∧ u.isWide = t.isWide := by
    intro j u hu
    obtain ⟨hlt, rfl⟩ := List.getElem?_eq_some_iff.mp hu
    have hlt' : j < locals.length := halike.length_eq ▸ hlt
    exact ⟨locals[j], List.getElem?_eq_getElem hlt', (halike.get hlt' hlt).1⟩
  refine ⟨paired_of_alike h.paired halike, fun j u hu hwide => ?_, fun hstatic u hu => ?_⟩
  · obtain ⟨t, ht, heq⟩ := hget j u hu
    exact h.wide j t ht (heq ▸ hwide)
  · obtain ⟨t, ht, heq⟩ := hget 0 u hu
    rw [heq]
    exact h.receiver hstatic t ht

/-- Only the first slot of a value is wide. -/
theorem of_getElem?_slots {vt u : VerificationType} {k : Nat} (hk : vt.slots[k]? = some u)
    (hwide : u.isWide = true) : k = 0 ∧ u = vt := by
  rw [VerificationType.slots] at hk
  split_ifs at hk with hvt
  · cases k with
    | zero => exact ⟨rfl, (Option.some.inj hk).symm⟩
    | succ k =>
      obtain rfl : u = .top := List.mem_singleton.mp (List.mem_of_getElem? (i := k) hk)
      cases hwide
  · cases k with
    | zero => exact ⟨rfl, (Option.some.inj hk).symm⟩
    | succ k => cases hk

/-- A variable may get a value of its type: the slots of others and the second slots of wide values
stay apart from it. -/
theorem Clear.store (h : Clear ctx vars next locals) (hvars : Allotted ctx vars next)
    {l : NamedLocal} (hl : l ∈ vars) {vt : VerificationType}
    (hsize : vt.slots.length = l.type.slotSize) :
    Clear ctx vars next (SlotState.store locals l.slot vt.slots) := by
  obtain ⟨hfrom, hto, _⟩ := hvars.within l hl
  have hparts : ∀ (k : Nat) (u : VerificationType), vt.slots[k]? = some u → u.isWide = true →
      k = 0 ∧ u = vt ∧ l.type.slotSize = 2 := by
    intro k u hk hwide
    obtain ⟨rfl, rfl⟩ := of_getElem?_slots hk hwide
    exact ⟨rfl, rfl, hsize.symm.trans ((length_slots u).trans (if_pos hwide))⟩
  refine ⟨fun j u hj hwide => ?_, fun j u hj hwide => ?_, fun hstatic u hu => ?_⟩
  · rcases SlotState.of_getElem?_store hj with rfl | ⟨hold, hapart⟩ | ⟨k, rfl, hk⟩
    · cases hwide
    · have hnext := h.paired j u hold hwide
      refine SlotState.getElem?_store_of_apart hnext ?_
      have hne := (h.wide j u hold hwide).2 l hl
      omega
    · obtain ⟨rfl, rfl, hsize'⟩ := hparts k u hk hwide
      have hsecond : 1 < u.slots.length := by omega
      rw [Nat.add_zero, SlotState.getElem?_store_self locals l.slot hsecond,
        VerificationType.slots, if_pos hwide]
      rfl
  · rcases SlotState.of_getElem?_store hj with rfl | ⟨hold, _⟩ | ⟨k, rfl, hk⟩
    · cases hwide
    · exact h.wide j u hold hwide
    · obtain ⟨rfl, rfl, hsize'⟩ := hparts k u hk hwide
      refine ⟨by omega, fun m hm heq => ?_⟩
      rcases NamedLocal.apart hvars.order hl hm with rfl | hle | hle
      · omega
      · omega
      · omega
  · have hone : ctx.receiverSlots = 1 := if_neg (by simp [hstatic])
    rcases SlotState.of_getElem?_store hu with rfl | ⟨hold, _⟩ | ⟨k, hk, _⟩
    · rfl
    · exact h.receiver hstatic u hold
    · omega

end

end ClassSynth
