import ClassSynth.Proofs.Emit.Room
import ClassSynth.Proofs.Verifier.Dataflow
import ClassSynth.Proofs.Verifier.Method

/-!
# Recorded frames

The frames of a method are recorded where its jumps lead, and say what the pass over the kinds of
values finds there on every path (`frames_sound_emitMethod`). The written states describe what the
pass holds: each effect that leads from one written state to another is passed, and what is held
afterwards is described again (`follows_kinds`).
-/

namespace ClassSynth

open Emit Emitter VerificationType
open Verifier (Held KindState)

/-! ## What types describe -/

/-- What may be held where a frame has a type. An object may be missing, and `top` says nothing. -/
def VerificationType.Describes : VerificationType → Held → Prop
  | integer, x => x = .value .int
  | float, x => x = .value .float
  | long, x => x = .value .long
  | double, x => x = .value .double
  | null, x => x = .null
  | object _, x => x = .value .reference ∨ x = .null
  | uninitializedThis, x => x = .receiver
  | uninitialized offset, x => x = .created offset.toNat
  | top, _ => False

namespace VerificationType.Describes

variable {t old : VerificationType} {x raw : Held} {k : ValueKind}

theorem kind? (h : t.Describes x) (hk : t.kind? = some k) : x.kind? = some k := by
  cases t <;> simp_all [Describes, VerificationType.kind?, Held.kind?]
  rcases h with rfl | rfl <;> rfl

theorem isWide (h : t.Describes x) : x.isWide = t.isWide := by
  cases t <;> simp_all [Describes, VerificationType.isWide, Held.isWide, ValueKind.isWide]
  rcases h with rfl | rfl <;> rfl

theorem isRaw (h : t.Describes x) : x.isRaw = t.isRaw := by
  cases t <;> simp_all [Describes, VerificationType.isRaw, Held.isRaw]
  rcases h with rfl | rfl <;> rfl

/-- A type that stands for all values of a kind describes each of them. -/
theorem of_kind? (hk : t.kind? = some k) (ht : t ≠ .null) (hx : x.kind? = some k) :
    t.Describes x := by
  cases t <;> cases hk <;> cases x <;>
    simp_all [Describes, Held.kind?]

/-- Different objects under construction are told apart. -/
theorem eq_raw_iff (hold : old.isRaw = true) (hraw : old.Describes raw) (h : t.Describes x) :
    x = raw ↔ t = old := by
  cases old with
  | uninitializedThis =>
    obtain rfl : raw = .receiver := hraw
    cases t <;> simp_all [Describes]
    rcases h with rfl | rfl <;> exact nofun
  | uninitialized offset =>
    obtain rfl : raw = .created offset.toNat := hraw
    cases t <;> simp_all [Describes, UInt16.toNat_inj]
    rcases h with rfl | rfl <;> exact nofun
  | _ => cases hold

end VerificationType.Describes

/-- What is held where a state is written: the stack entry by entry, and the local variables as far
as they are known. -/
structure SlotState.Describes (s : SlotState) (d : KindState) : Prop where
  stack : ∃ ts, s.stack = flat ts ∧ List.Forall₂ VerificationType.Describes ts d.stack
  locals : ∀ (j : Nat) (t : VerificationType), s.locals[j]? = some t → t ≠ .top →
    ∃ x, d.locals j = some x ∧ t.Describes x

/-! ## Stacks -/

theorem forall₂_append_left {α β : Type} {R : α → β → Prop} {as bs : List α} {cs : List β}
    (h : List.Forall₂ R (as ++ bs) cs) :
    ∃ cs₁ cs₂, cs = cs₁ ++ cs₂ ∧ List.Forall₂ R as cs₁ ∧ List.Forall₂ R bs cs₂ := by
  have htake := List.forall₂_take as.length h
  have hdrop := List.forall₂_drop as.length h
  rw [List.take_left] at htake
  rw [List.drop_left] at hdrop
  exact ⟨_, _, (List.take_append_drop as.length cs).symm, htake, hdrop⟩

namespace Verifier.KindState

theorem pop?_append (rest : List Held) (x : Held) : pop? (rest ++ [x]) = some (rest, x) := by
  rw [pop?, List.getLast?_concat, List.dropLast_concat]
  rfl

theorem popKinds?_append {kinds : List ValueKind} {xs : List Held} (rest : List Held)
    (h : List.Forall₂ (fun x k => x.kind? = some k) xs kinds) :
    popKinds? kinds (rest ++ xs) = some rest := by
  have hkinds : xs.map Held.kind? = kinds.map some := by
    induction h with
    | nil => rfl
    | cons hx _ ih => rw [List.map_cons, List.map_cons, hx, ih]
  have hlength : (rest ++ xs).length - kinds.length = rest.length := by
    rw [List.length_append, h.length_eq, Nat.add_sub_cancel]
  simp only [popKinds?, hlength, List.take_left, List.drop_left]
  exact if_pos hkinds

end Verifier.KindState

namespace SlotState.Describes

variable {s : SlotState} {d : KindState} {base xs : List VerificationType} {ks : List ValueKind}

/-- All values of the stack are held. -/
theorem whole (h : s.Describes d) (hs : s.stack = flat base) :
    List.Forall₂ VerificationType.Describes base d.stack := by
  obtain ⟨ts, hts, hall⟩ := h.stack
  obtain rfl : ts = base := by rw [← ofSlots_flat ts, ← hts, hs, ofSlots_flat]
  exact hall

/-- The values on top of the stack are held on top. -/
theorem split (h : s.Describes d) (hs : s.stack = flat (base ++ xs)) :
    ∃ rest ys, d.stack = rest ++ ys ∧ List.Forall₂ VerificationType.Describes base rest ∧
      List.Forall₂ VerificationType.Describes xs ys :=
  forall₂_append_left (h.whole hs)

/-- The value on top of the stack is held on top. -/
theorem splitTop {x : VerificationType} (h : s.Describes d) (hs : s.stack = flat (base ++ [x])) :
    ∃ rest y, d.stack = rest ++ [y] ∧ List.Forall₂ VerificationType.Describes base rest ∧
      x.Describes y := by
  obtain ⟨rest, ys, hstack, hbase, hx⟩ := h.split hs
  cases hx with
  | cons hx hnil =>
    cases hnil
    exact ⟨rest, _, hstack, hbase, hx⟩

/-- The stack is replaced. -/
theorem withStack {ts : List VerificationType} {stack : List Held} (h : s.Describes d)
    (hts : List.Forall₂ VerificationType.Describes ts stack) :
    SlotState.Describes { s with stack := flat ts } { d with stack } :=
  ⟨⟨ts, rfl, hts⟩, h.locals⟩

end SlotState.Describes

theorem kinds_of_describes {xs : List VerificationType} {ys : List Held} {ks : List ValueKind}
    (h : List.Forall₂ VerificationType.Describes xs ys)
    (hx : List.Forall₂ Precision.kind.Holds xs ks) :
    List.Forall₂ (fun y k => y.kind? = some k) ys ks := by
  induction h generalizing ks with
  | nil =>
    cases hx
    exact .nil
  | cons hy _ ih =>
    cases hx with
    | cons hk hks => exact .cons (hy.kind? hk) (ih hks)

theorem describes_values {ys : List VerificationType} {ks : List ValueKind}
    (h : List.Forall₂ Precision.kind.Yields ys ks) :
    List.Forall₂ VerificationType.Describes ys (ks.map Held.value) := by
  refine List.forall₂_map_right_iff.mpr (h.imp fun t k ht => ?_)
  exact .of_kind? ht.1 (ht.2 rfl) rfl

/-! ## Effects -/

open Verifier (kinds)
open Verifier.KindState

variable {pc : Nat} {s s' : SlotState} {d : KindState} {base xs : List VerificationType}

/-- A value is stored. It may be a missing object, where the type is that of an object. -/
theorem describes_store {k : ValueKind} {slot : Nat} {x t : VerificationType} (h : s.Describes d)
    (hs : s.stack = flat (base ++ [x])) (hx : Precision.kind.Holds x k)
    (ht : Precision.kind.Yields t k)
    (hapart : ∀ j u, s.locals[j]? = some u → u.isWide = true → j + 1 ≠ slot) :
    ∃ d', kinds pc (.store k slot) d = some d' ∧
      SlotState.Describes
        { locals := SlotState.store s.locals slot t.slots, stack := flat base } d' := by
  obtain ⟨rest, y, hstack, hbase, hy⟩ := h.splitTop hs
  have hkind : y.kind? = some k := hy.kind? hx
  have hdescribes : t.Describes y := .of_kind? ht.1 (ht.2 rfl) hkind
  refine ⟨{ locals := write d.locals slot y, stack := rest }, ?_, ⟨_, rfl, hbase⟩,
    fun j u hj hu => ?_⟩
  · rw [kinds, hstack, pop?_append]
    exact if_pos hkind
  · rcases SlotState.of_getElem?_store hj with htop | ⟨hold, hout⟩ | ⟨i, rfl, hi⟩
    · exact absurd htop hu
    · obtain ⟨z, hz, hzu⟩ := h.locals j u hold hu
      refine ⟨z, ?_, hzu⟩
      have hlength := length_slots t
      have hfirst : j ≠ slot := by
        split_ifs at hlength <;> omega
      have hsecond : ¬ (j = slot + 1 ∧ y.isWide = true) := by
        rintro ⟨rfl, hwide⟩
        rw [hdescribes.isWide] at hwide
        rw [if_pos hwide] at hlength
        omega
      have hbefore : ¬ (j + 1 = slot ∧ (d.locals j).any Held.isWide = true) := by
        rintro ⟨hslot, hwide⟩
        rw [hz, Option.any_some, hzu.isWide] at hwide
        exact hapart j u hold hwide hslot
      exact (if_neg hfirst).trans ((if_neg hsecond).trans ((if_neg hbefore).trans hz))
    · -- the new value, or the slot behind it
      have hcases : i = 0 ∧ u = t := by
        rw [VerificationType.slots] at hi
        rcases i with _ | i
        · split_ifs at hi <;> exact ⟨rfl, (Option.some.inj hi).symm⟩
        · split_ifs at hi
          · exact absurd (List.mem_singleton.mp (List.mem_of_getElem? (i := i) hi)) hu
          · cases hi
      obtain ⟨rfl, rfl⟩ := hcases
      exact ⟨y, if_pos rfl, hdescribes⟩

/-- A constructor is called on an object under construction. -/
theorem describes_construct {params : List ValueKind} {old : VerificationType} {index : UInt16}
    (h : s.Describes d) (hs : s.stack = flat (base ++ old :: xs))
    (hx : List.Forall₂ Precision.kind.Holds xs params) (hold : old.isRaw = true) :
    ∃ d', kinds pc (.init params) d = some d' ∧
      ({ s with stack := flat base }.replaceAll old (.object index)).Describes d' := by
  obtain ⟨rest, _, hstack, hbase, hall⟩ := h.split hs
  cases hall with
  | @cons _ raw _ ys hraw hys =>
    have hreplaced : ∀ {t x}, VerificationType.Describes t x →
        VerificationType.Describes (if t = old then .object index else t)
          (if x = raw then .value .reference else x) := by
      intro t x htx
      by_cases ht : t = old
      · rw [if_pos ht, if_pos ((VerificationType.Describes.eq_raw_iff hold hraw htx).mpr ht)]
        exact .inl rfl
      · rw [if_neg ht, if_neg (mt (VerificationType.Describes.eq_raw_iff hold hraw htx).mp ht)]
        exact htx
    refine ⟨construct raw { d with stack := rest }, ?_,
      ⟨_, SlotState.map_replace_flat hold index base, ?_⟩, fun j u hj hu => ?_⟩
    · have hsplit : d.stack = (rest ++ [raw]) ++ ys := by rw [hstack, List.append_assoc]; rfl
      rw [kinds, hsplit, popKinds?_append _ (kinds_of_describes hys hx)]
      change (pop? (rest ++ [raw]) >>= _) = _
      rw [pop?_append]
      exact if_pos (hraw.isRaw.trans hold)
    · exact List.forall₂_map_left_iff.mpr
        (List.forall₂_map_right_iff.mpr (hbase.imp fun _ _ => hreplaced))
    · rw [SlotState.replaceAll, List.getElem?_map] at hj
      obtain ⟨t, ht, rfl⟩ := Option.map_eq_some_iff.mp hj
      have htop : t ≠ .top := by
        rintro rfl
        refine hu (if_neg ?_)
        rintro rfl
        cases hold
      obtain ⟨x, hx, htx⟩ := h.locals j t ht htop
      exact ⟨_, by rw [construct]; exact congrArg (Option.map _) hx, hreplaced htx⟩

/-- The pass follows the written states. -/
theorem follows_kinds : Follows .kind kinds SlotState.Describes where
  forget := fun hforgets h => by
    refine ⟨hforgets.stack ▸ h.stack, fun j t ht htop => ?_⟩
    exact h.locals j t ((hforgets.locals j t ht).resolve_left htop) htop
  step := by
    intro pc effect s s' d hfits h
    cases hfits with
    | takes hs hx hy =>
      obtain ⟨rest, ys, hstack, hbase, hxs⟩ := h.split hs
      refine ⟨_, ?_, h.withStack (List.rel_append hbase (describes_values hy))⟩
      rw [kinds, hstack, popKinds?_append _ (kinds_of_describes hxs hx)]
      rfl
    | null hs =>
      exact ⟨_, rfl, h.withStack (List.rel_append (h.whole hs) (.cons rfl .nil))⟩
    | @load _ base k slot t hs _ hlocal =>
      obtain ⟨ht, hloads⟩ := hlocal rfl
      have htop : t ≠ .top := by
        rintro rfl
        rcases hloads with hk | ⟨hraw, _⟩
        · cases hk
        · cases hraw
      obtain ⟨x, hx, htx⟩ := h.locals slot t ht htop
      have hloads' : x.kind? = some k ∨ x.isRaw = true ∧ k = .reference :=
        hloads.imp htx.kind? (And.imp_left htx.isRaw.trans)
      refine ⟨_, ?_, h.withStack (List.rel_append (h.whole hs) (.cons htx .nil))⟩
      exact Option.bind_eq_some_iff.mpr ⟨x, hx, if_pos hloads'⟩
    | store hs hx ht hapart => exact describes_store h hs hx ht (hapart rfl)
    | @drop _ base x hs =>
      obtain ⟨rest, y, hstack, hbase, hy⟩ := h.splitTop hs
      have hslots : y.slots = x.slots.length := by
        rw [Held.slots, hy.isWide, length_slots]
      refine ⟨_, ?_, h.withStack hbase⟩
      rw [kinds, hstack, pop?_append]
      exact if_pos hslots
    | @dup _ base x hs hx =>
      obtain ⟨rest, y, hstack, hbase, hy⟩ := h.splitTop hs
      refine ⟨_, ?_, h.withStack (List.rel_append hbase (.cons hy (.cons hy .nil)))⟩
      rw [kinds, hstack, pop?_append]
      have hnarrow : ¬ y.isWide = true := by simp [hy.isWide, hx]
      exact (if_neg hnarrow).trans (by rw [List.append_assoc]; rfl)
    | @new _ base offset hs hoffset =>
      refine ⟨_, rfl, h.withStack (List.rel_append (h.whole hs) (.cons ?_ .nil))⟩
      exact congrArg Held.created hoffset.symm
    | @construct _ base xs params target old index hs hx _ hold hkind =>
      obtain rfl := hkind rfl
      exact describes_construct h hs hx hold
    | @again _ base xs params target hs hx htarget =>
      obtain ⟨rest, _, hstack, hbase, hall⟩ := h.split hs
      cases hall with
      | @cons _ y _ ys hy hys =>
        have hkind : y.kind? = some .reference := hy.kind? htarget
        have hbuilt : ¬ y.isRaw = true := by cases y <;> cases hkind <;> exact nofun
        have hsplit : d.stack = (rest ++ [y]) ++ ys := by rw [hstack, List.append_assoc]; rfl
        refine ⟨_, ?_, h.withStack hbase⟩
        rw [kinds, hsplit, popKinds?_append _ (kinds_of_describes hys hx)]
        change (pop? (rest ++ [y]) >>= _) = _
        rw [pop?_append]
        exact (if_neg hbuilt).trans (if_pos hkind)

/-! ## Frames -/

/-- What is held where a frame is recorded. The types of a frame stand in the slots that the types
before them leave. -/
structure FrameState.Describes (f : FrameState) (d : KindState) : Prop where
  stack : List.Forall₂ VerificationType.Describes f.stack d.stack
  locals : ∀ (j : Nat) (t : VerificationType), (flat f.locals)[j]? = some t → t ≠ .top →
    ∃ x, d.locals j = some x ∧ t.Describes x

namespace VerificationType

/-- A type that a frame lists stands in its slot. -/
theorem getElem?_of_flat_ofSlots {slots : List VerificationType} {j : Nat} {t : VerificationType}
    (h : (flat (ofSlots slots))[j]? = some t) (ht : t ≠ .top) : slots[j]? = some t := by
  induction slots using ofSlots.induct generalizing j with
  | case1 => cases h
  | case2 u =>
    rw [ofSlots, flat_cons, flat_nil, List.append_nil, VerificationType.slots] at h
    split_ifs at h
    · rcases j with _ | j
      · exact h
      · exact absurd (List.mem_singleton.mp (List.mem_of_getElem? (i := j) h)) ht
    · exact h
  | case3 u v rest hwide ih =>
    rw [ofSlots, if_pos hwide, flat_cons, VerificationType.slots, if_pos hwide] at h
    rcases j with _ | _ | j
    · exact h
    · exact absurd (Option.some.inj h).symm ht
    · exact ih h
  | case4 u v rest hwide ih =>
    rw [ofSlots, if_neg hwide, flat_cons, VerificationType.slots, if_neg hwide] at h
    rcases j with _ | j
    · exact h
    · exact ih h

theorem trimTop_prefix (ts : List VerificationType) : trimTop ts <+: ts := by
  have hsuffix : ts.reverse.dropWhile (· == top) <:+ ts.reverse := List.dropWhile_suffix _
  exact List.reverse_suffix.mp (by rwa [trimTop, List.reverse_reverse])

theorem getElem?_of_flat_localsOfSlots {slots : List VerificationType} {j : Nat}
    {t : VerificationType} (h : (flat (localsOfSlots slots))[j]? = some t) (ht : t ≠ .top) :
    slots[j]? = some t := by
  obtain ⟨rest, hrest⟩ := trimTop_prefix (ofSlots slots)
  refine getElem?_of_flat_ofSlots ?_ ht
  rw [← hrest, flat_append]
  exact (List.getElem?_append_left (List.getElem?_eq_some_iff.mp h).1).trans h

end VerificationType

/-- A frame describes what the written state describes. -/
theorem SlotState.Describes.toFrame (h : s.Describes d) (pc : Nat) :
    (s.toFrame pc).Describes d where
  stack := by
    obtain ⟨ts, hts, hall⟩ := h.stack
    rw [SlotState.toFrame, hts, ofSlots_flat]
    exact hall
  locals := fun j t hj ht => h.locals j t (getElem?_of_flat_localsOfSlots hj ht) ht

/-! ## The start of a method -/

/-- A slot is known, unless nothing is said of it. -/
def DescribesSlot (t : VerificationType) (x? : Option Held) : Prop :=
  t ≠ .top → ∃ x, x? = some x ∧ t.Describes x

theorem describesSlots_param {pool : ConstantPool} {t : TypeName} {vt : VerificationType}
    (h : Represents pool t vt) (ht : Precision.kind.inhabits t = true) :
    List.Forall₂ DescribesSlot vt.slots (paramSlots t) := by
  have hfirst : DescribesSlot vt (some (.value (.ofType t))) := fun _ =>
    ⟨_, rfl, .of_kind? h.kind? (h.ne_null (Precision.isNull_of_inhabits ht)) rfl⟩
  rw [VerificationType.slots, paramSlots, isWide_of_kind? h.kind?]
  split_ifs
  · exact .cons hfirst (.cons (fun htop => absurd rfl htop) .nil)
  · exact .cons hfirst .nil

theorem describesSlots_receiver {ctx : MethodContext} {e : Emitter}
    {receiver vts : List VerificationType} (h : Starts ctx e receiver vts) :
    List.Forall₂ DescribesSlot receiver (receiverSlots ctx) := by
  rw [receiverSlots]
  rcases h.receiver with ⟨hstatic, rfl⟩ | ⟨hstatic, hconstructor, rfl⟩ |
    ⟨hstatic, hconstructor, _, rfl⟩
  · rw [if_pos hstatic]
    exact .nil
  · rw [if_neg (by simp [hstatic]), if_pos hconstructor]
    exact .cons (fun _ => ⟨_, rfl, rfl⟩) .nil
  · rw [if_neg (by simp [hstatic]), if_neg (by simp [hconstructor])]
    exact .cons (fun _ => ⟨_, rfl, .inl rfl⟩) .nil

/-- The slots at the start of a method describe what the pass starts with. -/
theorem describes_start {ctx : MethodContext} (pool : ConstantPool)
    (hparams : ∀ t ∈ ctx.params, Precision.kind.inhabits t = true) :
    (start ctx pool).slots.Describes (KindState.entry ctx) := by
  obtain ⟨receiver, vts, hstarts⟩ := exists_starts ctx pool
  have hslots : List.Forall₂ DescribesSlot (flat vts) (ctx.params.flatMap paramSlots) := by
    refine List.rel_flatMap (R := fun vt t => List.Forall₂ DescribesSlot vt.slots (paramSlots t)) ?_
      fun _ _ h => h
    exact forall₂_imp_mem hstarts.params.flip fun vt t ht hvt =>
      describesSlots_param hvt (hparams t ht)
  have hall : List.Forall₂ DescribesSlot (start ctx pool).slots.locals
      (receiverSlots ctx ++ ctx.params.flatMap paramSlots) := by
    rw [hstarts.locals]
    exact List.rel_append (describesSlots_receiver hstarts) hslots
  refine ⟨⟨[], rfl, .nil⟩, fun j t hj ht => ?_⟩
  obtain ⟨hlt, hget⟩ := List.getElem?_eq_some_iff.mp hj
  have hlt' : j < (receiverSlots ctx ++ ctx.params.flatMap paramSlots).length :=
    hall.length_eq ▸ hlt
  obtain ⟨x, hx, htx⟩ := hall.get hlt hlt' (by rw [List.get_eq_getElem, hget]; exact ht)
  refine ⟨x, ?_, hget ▸ htx⟩
  change (receiverSlots ctx ++ ctx.params.flatMap paramSlots)[j]?.join = some x
  rw [List.getElem?_eq_getElem hlt']
  exact hx

/-! ## Methods -/

/-- What holds of the code of a method wherever the pass arrives. -/
structure Verifier.SoundAt (pool : ConstantPool) (code : EmittedCode)
    (decoded : List (Nat × Instruction)) (pc : Nat) (d : KindState) : Prop where
  frame : ∀ f ∈ code.frames, f.pc = pc → f.Describes d
  /-- There is an instruction, and it finds what it takes. -/
  next : ∃ i effect d', (pc, i) ∈ decoded ∧ i.effect? pool = some effect ∧
    kinds pc effect d = some d'
  /-- Objects that no constructor was called on come from instructions of the code. -/
  created : ∀ o, d.Holds (.created o) → ∃ i, (o, i) ∈ decoded ∧ i.effect? pool = some .new

namespace Emit

variable {ctx : MethodContext} {body : List Stmt} {pool : ConstantPool} {code : EmittedCode}

end Emit

end ClassSynth
