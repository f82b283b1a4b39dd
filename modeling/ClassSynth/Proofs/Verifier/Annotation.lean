import ClassSynth.Proofs.Emit.Onward
import ClassSynth.Proofs.Instruction.Layout
import ClassSynth.Proofs.Verifier.Moves

/-!
# Annotated code

While code is emitted, the state of the slots in front of each instruction is written down, as far
as control reaches it. `Annotated` says that these states account for each other: an instruction
leads from its state to the next and to the labels it jumps to, a placed label has the state that
the jumps to it carry, and a frame is the state at its offset. Every move keeps annotated code
annotated (`Annotated.move`).

Whatever follows the effects of finished code along its paths is then described by the written
states (`Annotated.of_arrives`).
-/

namespace ClassSynth

/-! ## Effects leave whole values -/

namespace SlotState

open VerificationType

/-- Objects under construction fill one slot each, as the objects do that take their place. -/
theorem map_replace_flat {old : VerificationType} (hold : old.isRaw = true) (index : UInt16)
    (ts : List VerificationType) :
    (flat ts).map (fun t => if t = old then .object index else t)
      = flat (ts.map fun t => if t = old then .object index else t) := by
  rw [flat, flat, List.map_flatMap, List.flatMap_map]
  refine List.flatMap_congr fun t _ => ?_
  have htop : ¬ VerificationType.top = old := by
    rintro rfl
    cases hold
  by_cases ht : t = old
  · have hwide : t.isWide = false := isWide_of_isRaw (ht ▸ hold)
    rw [slots, if_neg (by simp [hwide]), if_pos ht, List.map_cons, if_pos ht]
    rfl
  · rw [if_neg ht, slots]
    split_ifs <;> simp [ht, htop]

/-- Replacing objects under construction keeps values whole. -/
theorem valued_replaceAll {s : SlotState} (hs : s.Valued) {old : VerificationType}
    (hold : old.isRaw = true) (index : UInt16) : (s.replaceAll old (.object index)).Valued := by
  obtain ⟨ts, hts⟩ := hs
  refine ⟨ts.map fun t => if t = old then .object index else t, ?_⟩
  rw [← map_replace_flat hold, ← hts]
  rfl

end SlotState

theorem Fits.valued {p : Precision} {pc : Nat} {effect : Effect} {s s' : SlotState}
    (h : Fits p pc effect s s') : s'.Valued := by
  cases h with
  | construct _ _ _ hold => exact SlotState.valued_replaceAll ⟨_, rfl⟩ hold _
  | _ => exact ⟨_, rfl⟩

namespace Emitter

open Emit

/-- The state in front of the next instruction, if control reaches it. -/
def now? (e : Emitter) : Option SlotState :=
  if e.reachable then some e.slots else none

/-- The states in front of all instructions and behind the last. -/
def trail (e : Emitter) (states : List (Option SlotState)) : List (Option SlotState) :=
  states ++ [e.now?]

/-- A state goes on into the state at a position, which may have forgotten local variables. -/
def Leads (trail : List (Option SlotState)) (position : Nat) (s : SlotState) : Prop :=
  ∃ t, trail[position]? = some (some t) ∧ s.Forgets t

/-- The state in front of an instruction leads to all states behind it. -/
structure Accounts (p : Precision) (e : Emitter) (trail : List (Option SlotState)) (k : Nat)
    (i : Instruction) (s : SlotState) (effect : Effect) (s' : SlotState) : Prop where
  means : e.Means i effect
  fits : Fits p (Instruction.offsetIn e.code.toList k) effect s s'
  locals : effect.localsEnd ≤ e.maxLocals
  next : i.isUnconditionalExit = false → Leads trail (k + 1) s'
  labels : ∀ l ∈ i.labels, ∃ t, (e.info l).state? = some t ∧ s'.Forgets t

/-- The states account for the code that is there. -/
structure Annotated (p : Precision) (entry : SlotState) (e : Emitter)
    (states : List (Option SlotState)) : Prop where
  ordered : e.Ordered
  length : states.length = e.code.size
  start : Leads (e.trail states) 0 entry
  flow : ∀ k i s, e.code.toList[k]? = some i → states[k]? = some (some s) →
    ∃ effect s', Accounts p e (e.trail states) k i s effect s'
  bounds : ∀ s, some s ∈ e.trail states → s.Valued ∧ s.stack.length ≤ e.maxStack
  current : e.slots.stack.length ≤ e.maxStack
  jumped : ∀ l t, (e.info l).state? = some t → t.Valued ∧ t.stack.length ≤ e.maxStack ∧
    ∃ i ∈ e.code.toList, l ∈ i.labels
  placed : ∀ l spot t, (e.info l).placement? = some spot → (e.info l).state? = some t →
    Leads (e.trail states) spot.position t ∧
      ∃ f ∈ e.frames, f.1 = Instruction.offsetIn e.code.toList spot.position
  frames : ∀ f ∈ e.frames, ∃ l spot, (e.info l).placement? = some spot ∧
    (e.info l).state? ≠ none ∧ f.1 = Instruction.offsetIn e.code.toList spot.position ∧
    (e.trail states)[spot.position]? = some (some f.2)

variable {p : Precision} {entry : SlotState} {e e' : Emitter} {states : List (Option SlotState)}

theorem Accounts.mono {trail trail' : List (Option SlotState)} {k : Nat} {i : Instruction}
    {s s' : SlotState} {effect : Effect} (h : Accounts p e trail k i s effect s')
    (hpool : e.pool.Grows e'.pool) (hlocals : e.maxLocals ≤ e'.maxLocals)
    (hoffset : Instruction.offsetIn e'.code.toList k = Instruction.offsetIn e.code.toList k)
    (htrail : ∀ j t, Leads trail j t → Leads trail' j t)
    (hstate : ∀ l t, (e.info l).state? = some t → (e'.info l).state? = some t) :
    Accounts p e' trail' k i s effect s' where
  means := h.means.grows hpool
  fits := hoffset ▸ h.fits
  locals := Nat.le_trans h.locals hlocals
  next := fun hexit => htrail _ _ (h.next hexit)
  labels := fun l hl => by
    obtain ⟨t, ht, hforgets⟩ := h.labels l hl
    exact ⟨t, hstate l t ht, hforgets⟩

namespace Annotated

theorem offset_size (h : Annotated p entry e states) :
    Instruction.offsetIn e.code.toList e.code.size = e.pc := by
  rw [← Array.length_toList, Instruction.offsetIn_length, h.ordered.pc]

theorem getElem?_trail_size (h : Annotated p entry e states) :
    (e.trail states)[e.code.size]? = some e.now? := by
  rw [trail, ← h.length, List.getElem?_concat_length]

theorem lt_of_mem_trail (h : Annotated p entry e states) {k : Nat} {x : Option SlotState}
    (hk : (e.trail states)[k]? = some x) : k ≤ e.code.size := by
  have hlt := (List.getElem?_eq_some_iff.mp hk).1
  rw [trail, List.length_append, h.length, List.length_singleton] at hlt
  exact Nat.le_of_lt_succ hlt

/-- Changes that touch neither code nor slots. -/
theorem quiet (h : Annotated p entry e states) (hordered : e'.Ordered) (hcode : e'.code = e.code)
    (hslots : e'.slots = e.slots) (hreachable : e'.reachable = e.reachable)
    (hframes : e'.frames = e.frames) (hmaxStack : e'.maxStack = e.maxStack)
    (hpool : e.pool.Grows e'.pool) (hlocals : e.maxLocals ≤ e'.maxLocals)
    (hstate : ∀ l, (e'.info l).state? = (e.info l).state?)
    (hplacement : ∀ l, (e.info l).state? ≠ none →
      (e'.info l).placement? = (e.info l).placement?) :
    Annotated p entry e' states := by
  have htrail : e'.trail states = e.trail states := by
    rw [trail, trail, now?, now?, hslots, hreachable]
  refine
    { ordered := hordered
      length := by rw [h.length, hcode]
      start := htrail ▸ h.start
      flow := fun k i s hi hs => ?_
      bounds := by rw [htrail, hmaxStack]; exact h.bounds
      current := by rw [hslots, hmaxStack]; exact h.current
      jumped := fun l t ht => by rw [hmaxStack, hcode]; exact h.jumped l t (hstate l ▸ ht)
      placed := fun l spot t hspot ht => ?_
      frames := fun f hf => ?_ }
  · rw [hcode] at hi
    obtain ⟨effect, s', haccounts⟩ := h.flow k i s hi hs
    exact ⟨effect, s', htrail ▸ haccounts.mono hpool hlocals (by rw [hcode]) (fun _ _ hl => hl)
      fun l t ht => (hstate l).trans ht⟩
  · rw [hstate] at ht
    rw [hplacement l (by rw [ht]; exact Option.some_ne_none _)] at hspot
    rw [htrail, hframes, hcode]
    exact h.placed l spot t hspot ht
  · rw [hframes] at hf
    obtain ⟨l, spot, hspot, hjumped, hframe⟩ := h.frames f hf
    refine ⟨l, spot, (hplacement l hjumped).trans hspot, (hstate l).symm ▸ hjumped, ?_⟩
    rw [htrail, hcode]
    exact hframe

/-- An instruction is appended, and perhaps a label gets its first jump. -/
theorem append (h : Annotated p entry e states) {i : Instruction} {effect : Effect}
    (hordered : e'.Ordered) (hcode : e'.code = e.code.push i) (hframes : e'.frames = e.frames)
    (hmaxStack : e.maxStack ≤ e'.maxStack) (hpool : e'.pool = e.pool)
    (hlocals : e.maxLocals ≤ e'.maxLocals)
    (hplacement : ∀ l, (e'.info l).placement? = (e.info l).placement?)
    (hstate : ∀ l t, (e.info l).state? = some t → (e'.info l).state? = some t)
    (hjump : ∀ l t, (e'.info l).state? = some t → (e.info l).state? = some t ∨
      t = e'.slots ∧ l ∈ i.labels ∧ (e.info l).placement? = none)
    (hlabels : ∀ l ∈ i.labels, (e'.info l).state? = some e'.slots) (hmeans : e.Means i effect)
    (hfits : Fits p e.pc effect e.slots e'.slots) (hend : effect.localsEnd ≤ e'.maxLocals)
    (hheight : e'.slots.stack.length ≤ e'.maxStack)
    (hreachable : e'.reachable = (e.reachable && !i.isUnconditionalExit)) :
    Annotated p entry e' (states ++ [e.now?]) := by
  have htrail : e'.trail (states ++ [e.now?]) = e.trail states ++ [e'.now?] := rfl
  have hlength : (e.trail states).length = e'.code.size := by
    rw [trail, List.length_append, h.length, hcode, Array.size_push]
    rfl
  have hkept : ∀ (k : Nat) (x : Option SlotState), (e.trail states)[k]? = some x →
      (e'.trail (states ++ [e.now?]))[k]? = some x := by
    intro k x hx
    rw [htrail, List.getElem?_append_left (List.getElem?_eq_some_iff.mp hx).1, hx]
  have hleads : ∀ k s, Leads (e.trail states) k s → Leads (e'.trail (states ++ [e.now?])) k s :=
    fun k s ⟨t, ht, hforgets⟩ => ⟨t, hkept k _ ht, hforgets⟩
  have hoffset : ∀ k, k ≤ e.code.size →
      Instruction.offsetIn e'.code.toList k = Instruction.offsetIn e.code.toList k := by
    intro k hk
    rw [hcode, Array.toList_push, Instruction.offsetIn_append (by simpa using hk)]
  refine
    { ordered := hordered
      length := hlength
      start := hleads _ _ h.start
      flow := fun k j s hj hs => ?_
      bounds := fun s hs => ?_
      current := hheight
      jumped := fun l t ht => ?_
      placed := fun l spot t hspot ht => ?_
      frames := fun f hf => ?_ }
  · rw [hcode, Array.toList_push] at hj
    rcases Nat.lt_or_ge k e.code.size with hk | hk
    · rw [List.getElem?_append_left (by simpa using hk)] at hj
      rw [List.getElem?_append_left (by rw [h.length]; exact hk)] at hs
      obtain ⟨effect, s', haccounts⟩ := h.flow k j s hj hs
      exact ⟨effect, s', haccounts.mono (hpool ▸ ConstantPool.Grows.refl _) hlocals
        (hoffset k (Nat.le_of_lt hk)) hleads hstate⟩
    · -- the new instruction
      have hk : k = e.code.size := by
        have hlt := (List.getElem?_eq_some_iff.mp hs).1
        rw [List.length_append, h.length, List.length_singleton] at hlt
        omega
      subst hk
      rw [← Array.length_toList, List.getElem?_concat_length] at hj
      obtain rfl := Option.some.inj hj
      rw [← h.length, List.getElem?_concat_length] at hs
      have hnow := Option.some.inj hs
      rw [now?] at hnow
      split_ifs at hnow with hreached
      obtain rfl := Option.some.inj hnow
      refine ⟨effect, e'.slots, ?_⟩
      refine
        { means := hmeans.grows (hpool ▸ ConstantPool.Grows.refl _)
          fits := by rw [hoffset _ (Nat.le_refl _), h.offset_size]; exact hfits
          locals := hend
          next := fun hexit => ⟨e'.slots, ?_, .refl _⟩
          labels := fun l hl => ⟨e'.slots, hlabels l hl, .refl _⟩ }
      have hsize : e.code.size + 1 = (e.trail states).length := by
        rw [hlength, hcode, Array.size_push]
      rw [htrail, hsize, List.getElem?_concat_length, now?, hreachable, hreached, hexit]
      rfl
  · rw [htrail, List.mem_append, List.mem_singleton] at hs
    rcases hs with hs | hs
    · exact ⟨(h.bounds s hs).1, Nat.le_trans (h.bounds s hs).2 hmaxStack⟩
    · rw [now?] at hs
      split_ifs at hs
      obtain rfl := Option.some.inj hs
      exact ⟨hfits.valued, hheight⟩
  · rcases hjump l t ht with hold | ⟨rfl, hl, _⟩
    · obtain ⟨hvalued, hbound, j, hj, hl⟩ := h.jumped l t hold
      refine ⟨hvalued, Nat.le_trans hbound hmaxStack, j, ?_, hl⟩
      rw [hcode, Array.toList_push]
      exact List.mem_append_left _ hj
    · refine ⟨hfits.valued, hheight, i, ?_, hl⟩
      rw [hcode, Array.toList_push]
      exact List.mem_append_right _ (List.mem_singleton_self i)
  · rw [hplacement] at hspot
    rcases hjump l t ht with hold | ⟨_, _, hnone⟩
    · obtain ⟨hspotLeads, f, hf, hpc⟩ := h.placed l spot t hspot hold
      obtain ⟨_, hget, _⟩ := hspotLeads
      exact ⟨hleads _ _ (h.placed l spot t hspot hold).1, f, hframes ▸ hf,
        by rw [hpc, hoffset _ (h.lt_of_mem_trail hget)]⟩
    · rw [hnone] at hspot
      cases hspot
  · rw [hframes] at hf
    obtain ⟨l, spot, hspot, hjumped, hpc, hget⟩ := h.frames f hf
    refine ⟨l, spot, (hplacement l).trans hspot, ?_,
      by rw [hpc, hoffset _ (h.lt_of_mem_trail hget)], hkept _ _ hget⟩
    obtain ⟨t, ht⟩ := Option.ne_none_iff_exists'.mp hjumped
    rw [hstate l t ht]
    exact Option.some_ne_none _

/-- A frame that stands at its offset after a record is the new one, or stands before it. -/
theorem mem_recordFrame {frames : List (Nat × SlotState)} {pc : Nat} {s : SlotState}
    (hpairs : frames.Pairwise fun a b => b.1 < a.1) (hle : ∀ f ∈ frames, f.1 ≤ pc)
    {f : Nat × SlotState} (hf : f ∈ recordFrame frames pc s) :
    f = (pc, s) ∨ f ∈ frames ∧ f.1 < pc := by
  unfold recordFrame at hf
  split at hf
  · next last old rest =>
    have hrest := (List.pairwise_cons.mp hpairs).1
    have hlast := hle (last, old) List.mem_cons_self
    split_ifs at hf with hsame
    · rcases List.mem_cons.mp hf with rfl | hf
      · exact .inl rfl
      · exact .inr ⟨List.mem_cons_of_mem _ hf, hsame ▸ hrest f hf⟩
    · rcases List.mem_cons.mp hf with rfl | hf
      · exact .inl rfl
      · refine .inr ⟨hf, ?_⟩
        rcases List.mem_cons.mp hf with rfl | hf
        · exact Nat.lt_of_le_of_ne hlast hsame
        · exact Nat.lt_of_lt_of_le (hrest f hf) hlast
  · exact .inl (List.mem_singleton.mp hf)

/-- A label that is jumped to is placed. -/
theorem join (h : Annotated p entry e states) {l : Label} {jumped s : SlotState}
    (hnew : (e.info l).placement? = none) (hjump : (e.info l).state? = some jumped)
    (hjumped : jumped.Forgets s) (hreached : e.reachable = true → e.slots.Forgets s) :
    Annotated p entry (joinAt e l s) states := by
  have hl : l < e.labels.size := by
    apply lt_size_of_state
    rw [hjump]
    exact Option.some_ne_none _
  have hstate : ∀ m, ((joinAt e l s).info m).state? = (e.info m).state? := state_placed e l
  have hself : ((joinAt e l s).info l).placement? = some ⟨e.pc, e.code.size⟩ :=
    placement_placed hl
  have hother : ∀ m, l ≠ m → ((joinAt e l s).info m).placement? = (e.info m).placement? :=
    fun m hlm => congrArg LabelInfo.placement? (info_placed_of_ne hlm)
  have htrail : (joinAt e l s).trail states = states ++ [some s] := rfl
  have hhere : ((joinAt e l s).trail states)[e.code.size]? = some (some s) := by
    rw [htrail, ← h.length, List.getElem?_concat_length]
  have hbefore : ∀ k, k < e.code.size →
      ((joinAt e l s).trail states)[k]? = (e.trail states)[k]? := by
    intro k hk
    rw [htrail, trail, List.getElem?_append_left (h.length ▸ hk),
      List.getElem?_append_left (h.length ▸ hk)]
  have hleads : ∀ k t, Leads (e.trail states) k t → Leads ((joinAt e l s).trail states) k t := by
    rintro k t ⟨u, hu, hforgets⟩
    rcases Nat.lt_or_eq_of_le (h.lt_of_mem_trail hu) with hk | rfl
    · exact ⟨u, (hbefore k hk).trans hu, hforgets⟩
    · rw [h.getElem?_trail_size] at hu
      have hnow := Option.some.inj hu
      rw [now?] at hnow
      split_ifs at hnow with hreachable
      obtain rfl := Option.some.inj hnow
      exact ⟨s, hhere, hforgets.trans (hreached hreachable)⟩
  obtain ⟨hvalued, hbound, _⟩ := h.jumped l jumped hjump
  have hheight : s.stack.length ≤ e.maxStack := hjumped.stack ▸ hbound
  refine
    { ordered := Ordered.joinAt h.ordered s (by rw [hjump]; exact Option.some_ne_none _)
      length := h.length
      start := hleads _ _ h.start
      flow := fun k i t hi ht => ?_
      bounds := fun t ht => ?_
      current := hheight
      jumped := fun m t ht => h.jumped m t (hstate m ▸ ht)
      placed := fun m spot t hspot ht => ?_
      frames := fun f hf => ?_ }
  · obtain ⟨effect, s', haccounts⟩ := h.flow k i t hi ht
    exact ⟨effect, s', haccounts.mono (ConstantPool.Grows.refl _) (Nat.le_refl _) rfl hleads
      fun m t ht => (hstate m).trans ht⟩
  · rw [htrail, List.mem_append, List.mem_singleton] at ht
    rcases ht with ht | ht
    · exact h.bounds t (List.mem_append_left _ ht)
    · obtain rfl := Option.some.inj ht
      exact ⟨hjumped.valued hvalued, hheight⟩
  · rw [hstate] at ht
    by_cases hlm : l = m
    · subst hlm
      rw [hself] at hspot
      obtain rfl := Option.some.inj hspot
      rw [hjump] at ht
      obtain rfl := Option.some.inj ht
      refine ⟨⟨s, hhere, hjumped⟩, ?_⟩
      obtain ⟨f, hf, hpc⟩ := Sealed.recorded_self e.frames e.pc s
      exact ⟨f, hf, hpc.trans h.offset_size.symm⟩
    · rw [hother m hlm] at hspot
      obtain ⟨hspotLeads, hframe⟩ := h.placed m spot t hspot ht
      exact ⟨hleads _ _ hspotLeads, Sealed.recorded hframe⟩
  · have hbounds : ∀ f ∈ e.frames, f.1 ≤ e.pc := fun f hf => (h.ordered.bounds f hf).2
    rcases mem_recordFrame h.ordered.frames hbounds hf with rfl | ⟨hf, hlt⟩
    · exact ⟨l, _, hself, by rw [hstate, hjump]; exact Option.some_ne_none _, h.offset_size.symm,
        hhere⟩
    · obtain ⟨m, spot, hspot, hmjumped, hpc, hget⟩ := h.frames f hf
      -- the label of an old frame is not the one that is placed
      have hlm : l ≠ m := by
        rintro rfl
        rw [hnew] at hspot
        cases hspot
      have hk : spot.position < e.code.size := by
        refine Nat.lt_of_le_of_ne (h.lt_of_mem_trail hget) fun hsame => ?_
        rw [hpc, hsame, h.offset_size] at hlt
        exact Nat.lt_irrefl _ hlt
      exact ⟨m, spot, (hother m hlm).trans hspot, by rw [hstate]; exact hmjumped, hpc,
        (hbefore _ hk).trans hget⟩

/-- A branch takes its operands and pushes nothing. -/
theorem height_le_of_takes {pc : Nat} {pops : List ValueKind} {s s' : SlotState}
    (h : Fits p pc (.takes pops []) s s') : s'.stack.length ≤ s.stack.length := by
  cases h with
  | takes hs _ hy =>
    cases hy
    simp [hs]

/-- Every move keeps annotated code annotated. -/
theorem move (h : Annotated p entry e states) (hmove : Move p e e') :
    ∃ states', Annotated p entry e' states' := by
  have hordered := Ordered.steps hmove.steps h.ordered
  cases hmove with
  | constants pool hpool =>
    exact ⟨states, h.quiet hordered rfl rfl rfl rfl rfl hpool (Nat.le_refl _) (fun _ => rfl)
      fun _ _ => rfl⟩
  | named nextLocal named =>
    exact ⟨states, h.quiet hordered rfl rfl rfl rfl rfl (ConstantPool.Grows.refl _) (Nat.le_refl _)
      (fun _ => rfl) fun _ _ => rfl⟩
  | newLabel =>
    exact ⟨states, h.quiet hordered rfl rfl rfl rfl rfl (ConstantPool.Grows.refl _) (Nat.le_refl _)
      (fun l => by rw [info_push]) fun l _ => by rw [info_push]⟩
  | place l hnew hstate =>
    refine ⟨states, h.quiet hordered rfl rfl rfl rfl rfl (ConstantPool.Grows.refl _) (Nat.le_refl _)
      (state_placed e l) fun m hm => ?_⟩
    have hlm : l ≠ m := fun hlm => hm (hlm ▸ hstate)
    rw [info_placed_of_ne hlm]
  | join l jumped s hnew hstate hjumped hreached =>
    exact ⟨states, h.join hnew hstate hjumped hreached⟩
  | act i effect s maxStack maxLocals reachable hplain hmeans hfits hheight hstack hend hlocals
      hreachable =>
    have hcurrent := h.current
    refine ⟨_, h.append (i := i) hordered rfl rfl hstack rfl hlocals (fun _ => rfl)
      (fun _ _ ht => ht) (fun _ _ ht => .inl ht) ?_ hmeans hfits hend ?_ hreachable⟩
    · intro l hl
      rw [hplain.labels] at hl
      cases hl
    · change s.stack.length ≤ maxStack
      omega
  | jump opcode l pops s hopcode hexit heffect hfits hl hnew hstate =>
    have hlow := Nat.le_trans (height_le_of_takes hfits) h.current
    have hself := state_jumpTo { e with slots := s } opcode s hl
    have hother : ∀ m, l ≠ m →
        ((jumpTo { e with slots := s } opcode l s).info m).state? = (e.info m).state? := by
      intro m hlm
      rw [info, jumpTo, getD_setIfInBounds, if_neg (fun h' => hlm h'.1), info]
    refine ⟨_, h.append (i := ⟨opcode, .branch l⟩) hordered rfl rfl
      (Nat.le_refl _) rfl (Nat.le_refl _) (placement_jumpTo { e with slots := s } opcode l s)
      ?_ ?_ ?_ (fun r _ _ => heffect) hfits (Nat.zero_le _) hlow (by rw [hexit]; rfl)⟩
    · intro m t ht
      by_cases hlm : l = m
      · subst hlm
        rcases hstate with hnone | hsome
        · rw [hnone] at ht
          cases ht
        · exact hself.trans (hsome.symm.trans ht)
      · exact (hother m hlm).trans ht
    · intro m t ht
      by_cases hlm : l = m
      · subst hlm
        exact .inr ⟨Option.some.inj (ht.symm.trans hself), List.mem_singleton_self l, hnew⟩
      · exact .inl ((hother m hlm).symm.trans ht)
    · intro m hm
      obtain rfl := List.mem_singleton.mp hm
      exact hself

/-- All moves together keep annotated code annotated. -/
theorem moves (h : Annotated p entry e states) (hmoves : Moves p e e') :
    ∃ states', Annotated p entry e' states' :=
  hmoves.invariant (P := fun e => ∃ states, Annotated p entry e states)
    (fun _ _ hmove ⟨_, h⟩ => h.move hmove) ⟨states, h⟩

theorem ofStart (p : Precision) (ctx : MethodContext) (pool : ConstantPool) :
    Annotated p (Emit.start ctx pool).slots (Emit.start ctx pool) [] where
  ordered := .start ctx pool
  length := rfl
  start := ⟨_, rfl, .refl _⟩
  flow := fun _ _ _ hi => by cases hi
  bounds := fun s hs => by
    obtain rfl := Option.some.inj (List.mem_singleton.mp hs)
    exact ⟨⟨[], rfl⟩, Nat.zero_le _⟩
  current := Nat.zero_le _
  jumped := fun _ _ ht => by cases ht
  placed := fun _ _ _ hspot _ => by cases hspot
  frames := fun _ hf => nomatch hf

end Annotated

/-! ## Paths -/

/-- The offset that a label of finished code stands for. -/
def targetOf (f : Emitter) (l : Label) : Nat :=
  Instruction.offsetIn f.code.toList (resolveLabel f.labels l)

/-- The instructions of finished code at their offsets, with offsets for labels. -/
def listing (f : Emitter) : List (Nat × Instruction) :=
  f.code.toList.mapIdx fun k i => (Instruction.offsetIn f.code.toList k, i.mapLabels f.targetOf)

theorem placed_resolvedCode (f : Emitter) : Instruction.placed (resolvedCode f) = f.listing := by
  rw [Instruction.placed_eq_mapIdx, resolvedCode, Instruction.offsetIn_mapLabels, listing]
  refine List.ext_getElem? fun k => ?_
  rw [List.getElem?_mapIdx, List.getElem?_map, List.getElem?_mapIdx, Option.map_map]
  refine congrArg (Option.map · _) (funext fun i => ?_)
  rw [Function.comp_apply, Instruction.mapLabels_mapLabels]
  rfl

variable {f : Emitter}

theorem mem_listing {pc : Nat} {j : Instruction} (h : (pc, j) ∈ f.listing) :
    ∃ k i, f.code.toList[k]? = some i ∧ pc = Instruction.offsetIn f.code.toList k ∧
      j = i.mapLabels f.targetOf := by
  obtain ⟨k, hk⟩ := List.mem_iff_getElem?.mp h
  rw [listing, List.getElem?_mapIdx] at hk
  obtain ⟨i, hi, heq⟩ := Option.map_eq_some_iff.mp hk
  obtain ⟨rfl, rfl⟩ := Prod.mk.inj heq
  exact ⟨k, i, hi, rfl, rfl⟩

theorem mem_listing_of_getElem? {k : Nat} {i : Instruction} (h : f.code.toList[k]? = some i) :
    (Instruction.offsetIn f.code.toList k, i.mapLabels f.targetOf) ∈ f.listing := by
  refine List.mem_of_getElem? (i := k) ?_
  rw [listing, List.getElem?_mapIdx, h]
  rfl

theorem offset_inj {k m : Nat} (hk : k < f.code.size) (hm : m < f.code.size)
    (h : Instruction.offsetIn f.code.toList k = Instruction.offsetIn f.code.toList m) : k = m := by
  have hlt : ∀ {a b : Nat}, a < f.code.size → b < f.code.size → a < b →
      Instruction.offsetIn f.code.toList a < Instruction.offsetIn f.code.toList b :=
    fun _ hb hab => Instruction.offsetIn_lt hab (by rw [Array.length_toList]; exact Nat.le_of_lt hb)
  rcases Nat.lt_trichotomy k m with hlt' | heq | hlt'
  · exact absurd h (Nat.ne_of_lt (hlt hk hm hlt'))
  · exact heq
  · exact absurd h.symm (Nat.ne_of_lt (hlt hm hk hlt'))

namespace Annotated

variable {σ : Type} {transfer : Nat → Effect → σ → Option σ} {stands : SlotState → σ → Prop}

/-- A state that the written state at a position stands for. -/
structure At (states : List (Option SlotState)) (stands : SlotState → σ → Prop) (f : Emitter)
    (pc : Nat) (d : σ) (k : Nat) (i : Instruction) (s : SlotState) : Prop where
  instruction : f.code.toList[k]? = some i
  offset : pc = Instruction.offsetIn f.code.toList k
  state : states[k]? = some (some s)
  stands : stands s d

/-- Where control goes on, there is an instruction. -/
theorem exists_at (h : Annotated p entry f states) (hreachable : f.reachable = false)
    (hforget : ∀ s t d, s.Forgets t → stands s d → stands t d) {k : Nat} {s : SlotState} {d : σ}
    (hleads : Leads (f.trail states) k s) (hs : stands s d) :
    ∃ i t, At states stands f (Instruction.offsetIn f.code.toList k) d k i t := by
  obtain ⟨t, ht, hforgets⟩ := hleads
  have hk : k < f.code.size := by
    refine Nat.lt_of_le_of_ne (h.lt_of_mem_trail ht) ?_
    rintro rfl
    rw [h.getElem?_trail_size, now?, hreachable] at ht
    cases ht
  rw [trail, List.getElem?_append_left (h.length ▸ hk)] at ht
  exact ⟨_, t, List.getElem?_eq_getElem (by simpa using hk), rfl, ht, hforget _ _ _ hforgets hs⟩

/-- Along the paths through finished code, the written states stand for what the effects lead to. -/
theorem of_arrives (h : Annotated p entry f states) (hreachable : f.reachable = false)
    (hlabels : ∀ info ∈ f.labels.toList, checkLabel info = .ok ()) (hpool : f.pool.Indexable)
    (hforget : ∀ s t d, s.Forgets t → stands s d → stands t d)
    (hstep : ∀ pc effect s s' d d', Fits p pc effect s s' → stands s d →
      transfer pc effect d = some d' → stands s' d')
    {start : σ} (hstart : stands entry start) {pc : Nat} {d : σ}
    (harrives : Verifier.Arrives f.pool f.listing transfer start pc d) :
    ∃ k i s, At states stands f pc d k i s := by
  induction harrives with
  | entry =>
    obtain ⟨i, t, hat⟩ := h.exists_at hreachable hforget h.start hstart
    rw [Instruction.offsetIn_zero] at hat
    exact ⟨0, i, t, hat⟩
  | @step pc pc' j effect d d' _ hj heffect hd hnext ih =>
    obtain ⟨k, i, s, hat⟩ := ih
    obtain ⟨k', i', hi', hoffset, rfl⟩ := mem_listing hj
    have hk := (List.getElem?_eq_some_iff.mp hat.instruction).1
    have hk' := (List.getElem?_eq_some_iff.mp hi').1
    rw [Array.length_toList] at hk hk'
    obtain rfl : k = k' := offset_inj hk hk' (hat.offset.symm.trans hoffset)
    obtain rfl : i = i' := Option.some.inj (hat.instruction.symm.trans hi')
    obtain ⟨effect', s', haccounts⟩ := h.flow k i s hat.instruction hat.state
    rw [Instruction.effect?_mapLabels] at heffect
    obtain rfl : effect' = effect := Option.some.inj
      ((haccounts.means _ (ConstantPool.Grows.refl _) hpool).symm.trans heffect)
    have hs' := hstep _ _ _ _ _ _ haccounts.fits hat.stands (hat.offset ▸ hd)
    rw [Verifier.next, List.mem_append] at hnext
    rcases hnext with hlabel | hnext
    · -- a jump to a label
      rw [Instruction.labels_mapLabels] at hlabel
      obtain ⟨l, hl, rfl⟩ := List.mem_map.mp hlabel
      obtain ⟨t, ht, hforgets⟩ := haccounts.labels l hl
      obtain ⟨_, spot, hspot, hresolve⟩ :=
        h.ordered.resolveLabel_of_finish hlabels (List.mem_of_getElem? hat.instruction) hl
      obtain ⟨⟨u, hu, hforgets'⟩, _⟩ := h.placed l spot t hspot ht
      obtain ⟨i'', t'', hat''⟩ := h.exists_at hreachable hforget
        ⟨u, hu, hforgets.trans hforgets'⟩ hs'
      rw [targetOf, hresolve]
      exact ⟨_, i'', t'', hat''⟩
    · -- the instruction behind
      rw [Instruction.isUnconditionalExit_mapLabels, Instruction.sizeAt_mapLabels] at hnext
      split_ifs at hnext with hexit
      · cases hnext
      · obtain rfl := List.mem_singleton.mp hnext
        obtain ⟨i'', t'', hat''⟩ := h.exists_at hreachable hforget
          (haccounts.next (Bool.eq_false_iff.mpr hexit)) hs'
        have hbehind : Instruction.offsetIn f.code.toList (k + 1) = pc + i.sizeAt pc := by
          rw [hoffset]
          exact Instruction.getD_layoutFrom_succ hat.instruction
        exact ⟨_, i'', t'', hbehind ▸ hat''⟩

end Annotated

end Emitter

end ClassSynth
