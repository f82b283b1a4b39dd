import ClassSynth.Frame.State
import ClassSynth.Proofs.Bytes.Reading

/-!
# Tables of frames

A stack map table is written as differences and read back as states. With strictly increasing
offsets below `2 ^ 16` and lists that can be counted in two bytes, nothing is lost
(`ofDeltas_parseTable`).
-/

namespace ClassSynth

/-! ## Bytes -/

theorem VerificationType.reads (t : VerificationType) :
    VerificationType.read.Reads t.toBytes t := by
  cases t with
  | object classIndex =>
    exact (Reader.reads_u8 7).bind (Reader.reads_u16 classIndex).map
  | uninitialized offset =>
    exact (Reader.reads_u8 8).bind (Reader.reads_u16 offset).map
  | _ => exact fun _ _ => rfl

theorem VerificationType.gives_read : VerificationType.read.Gives fun _ => True := by
  refine Reader.Gives.u8.bind fun tag _ => ?_
  split
  all_goals first
    | exact .pure trivial
    | exact Reader.Gives.u16.bind fun _ _ => .pure trivial
    | exact .fail

namespace DeltaFrame

/-- The difference can be written: few locals come or go, and lists can be counted in two bytes. -/
def Fits : DeltaFrame → Prop
  | .chop _ count => 1 ≤ count.toNat ∧ count.toNat ≤ 3
  | .append _ added => 1 ≤ added.length ∧ added.length ≤ 3
  | .full _ locals stack => locals.length < 65536 ∧ stack.length < 65536
  | _ => True

theorem reads_counted {types : List VerificationType} (h : types.length < 65536) :
    (Reader.counted VerificationType.read).Reads
      (Bytes.counted VerificationType.toBytes types) types :=
  Reader.reads_counted (fun t _ => t.reads) h

theorem toUInt16_toUInt8 {d : UInt16} (h : d ≤ 63) : d.toUInt8.toUInt16 = d := by
  have hd : d.toNat ≤ 63 := UInt16.le_iff_toNat_le.mp h
  apply UInt16.toNat_inj.mp
  rw [UInt8.toNat_toUInt16, UInt16.toNat_toUInt8]
  omega

theorem toUInt8_le {d : UInt16} (h : d ≤ 63) : d.toUInt8 ≤ 63 := by
  have hd : d.toNat ≤ 63 := UInt16.le_iff_toNat_le.mp h
  rw [UInt8.le_iff_toNat_le, UInt16.toNat_toUInt8]
  exact Nat.le_trans (Nat.mod_le _ _) hd

theorem reads_same (d : UInt16) : read.Reads (same d).toBytes (same d) := by
  simp only [toBytes]
  split_ifs with hd
  · refine (Reader.reads_u8 d.toUInt8).bind (q := []) ?_
    rw [if_pos (toUInt8_le hd), toUInt16_toUInt8 hd]
    exact Reader.Reads.pure _
  · exact (Reader.reads_u8 251).bind ((Reader.reads_u16 d).map)

theorem reads_sameOneItem (d : UInt16) (item : VerificationType) :
    read.Reads (sameOneItem d item).toBytes (sameOneItem d item) := by
  simp only [toBytes]
  split_ifs with hd
  · refine (Reader.reads_u8 (64 + d.toUInt8)).bind ?_
    have hd' : d.toUInt8.toNat ≤ 63 := UInt8.le_iff_toNat_le.mp (toUInt8_le hd)
    have htag : (64 + d.toUInt8).toNat = 64 + d.toUInt8.toNat := by
      rw [UInt8.toNat_add]
      exact Nat.mod_eq_of_lt (Nat.lt_of_le_of_lt (Nat.add_le_add_left hd' 64) (by decide))
    have hhigh : ¬ 64 + d.toUInt8 ≤ 63 := by
      rw [UInt8.le_iff_toNat_le, htag]
      exact Nat.not_le_of_lt (Nat.lt_of_lt_of_le (by decide) (Nat.le_add_right 64 _))
    have hlow : 64 + d.toUInt8 ≤ 127 := by
      rw [UInt8.le_iff_toNat_le, htag]
      exact Nat.add_le_add_left hd' 64
    have hsub : 64 + d.toUInt8 - 64 = d.toUInt8 := by
      rw [UInt8.add_comm, UInt8.add_sub_cancel]
    rw [if_neg hhigh, if_pos hlow, hsub, toUInt16_toUInt8 hd]
    exact item.reads.map
  · refine (Reader.reads_u8 247).bind ?_
    exact (Reader.reads_u16 d).bind item.reads.map

theorem reads_chop (d : UInt16) :
    ∀ count : UInt8, (1 ≤ count.toNat ∧ count.toNat ≤ 3) →
      read.Reads (chop d count).toBytes (chop d count) := by
  intro count hcount
  have hcases : count = 1 ∨ count = 2 ∨ count = 3 := by
    rw [← UInt8.toNat_inj, ← UInt8.toNat_inj, ← UInt8.toNat_inj]
    simp
    omega
  rcases hcases with rfl | rfl | rfl
  · exact (Reader.reads_u8 250).bind ((Reader.reads_u16 d).map (g := (chop · 1)))
  · exact (Reader.reads_u8 249).bind ((Reader.reads_u16 d).map (g := (chop · 2)))
  · exact (Reader.reads_u8 248).bind ((Reader.reads_u16 d).map (g := (chop · 3)))

theorem reads_append (d : UInt16) {added : List VerificationType}
    (h : 1 ≤ added.length ∧ added.length ≤ 3) :
    read.Reads (append d added).toBytes (append d added) := by
  have hadded : (Reader.many added.length VerificationType.read).Reads
      (added.flatMap VerificationType.toBytes) added := by
    rw [List.flatMap_def]
    exact Reader.reads_many (Reader.forall₂_map_self fun t _ => t.reads)
  have hread := (Reader.reads_u16 d).bind (f := fun d => Reader.many added.length
    VerificationType.read >>= fun added => pure (append d added)) hadded.map
  have hcases : added.length = 1 ∨ added.length = 2 ∨ added.length = 3 := by omega
  simp only [toBytes]
  rcases hcases with hlen | hlen | hlen <;> rw [hlen] at hread ⊢
  · exact (Reader.reads_u8 252).bind hread
  · exact (Reader.reads_u8 253).bind hread
  · exact (Reader.reads_u8 254).bind hread

theorem reads_full (d : UInt16) {locals stack : List VerificationType}
    (hlocals : locals.length < 65536) (hstack : stack.length < 65536) :
    read.Reads (full d locals stack).toBytes (full d locals stack) := by
  simp only [toBytes]
  rw [List.append_assoc]
  refine (Reader.reads_u8 255).bind ?_
  refine (Reader.reads_u16 d).bind ?_
  exact (reads_counted hlocals).bind (reads_counted hstack).map

/-- A difference that fits is read as it was written. -/
theorem reads {f : DeltaFrame} (h : f.Fits) : read.Reads f.toBytes f := by
  cases f with
  | same d => exact reads_same d
  | sameOneItem d item => exact reads_sameOneItem d item
  | chop d count => exact reads_chop d count h
  | append d added => exact reads_append d h
  | full d locals stack => exact reads_full d h.1 h.2

/-- The frames that drop locals have the three tags below 251. -/
theorem fits_chop {tag : UInt8} (d : UInt16) (hlow : 247 < tag.toNat) (hhigh : tag.toNat ≤ 250) :
    Fits (chop d (251 - tag)) := by
  have hcount : (251 - tag).toNat = 251 - tag.toNat := by
    rw [UInt8.toNat_sub]
    change (2 ^ 8 - tag.toNat + 251) % 2 ^ 8 = _
    omega
  exact ⟨by omega, by omega⟩

/-- The frames that add locals have the three tags above 251. -/
theorem fits_append {tag : UInt8} {added : List VerificationType} (d : UInt16)
    (hlow : 251 < tag.toNat) (hhigh : tag.toNat ≤ 254) (hadded : added.length = (tag - 251).toNat) :
    Fits (append d added) := by
  have hcount : (tag - 251).toNat = tag.toNat - 251 := by
    rw [UInt8.toNat_sub]
    change (2 ^ 8 - 251 + tag.toNat) % 2 ^ 8 = _
    omega
  exact ⟨by omega, by omega⟩

/-- A frame that is read can be written. -/
theorem gives_read : read.Gives Fits := by
  refine Reader.Gives.u8.bind fun tag _ => ?_
  split_ifs with hsame hone hinvalid hone' hchop hsame' happend
  · exact .pure trivial
  · exact VerificationType.gives_read.bind fun _ _ => .pure trivial
  · exact .fail
  all_goals refine Reader.Gives.u16.bind fun d _ => ?_
  · exact VerificationType.gives_read.bind fun _ _ => .pure trivial
  · have hge : ¬ tag.toNat < 247 := fun h => hinvalid (UInt8.lt_iff_toNat_lt.mpr h)
    have hne : tag.toNat ≠ 247 := fun h => hone' (beq_iff_eq.mpr (UInt8.toNat_inj.mp h))
    exact .pure (fits_chop d (by omega) (UInt8.le_iff_toNat_le.mp hchop))
  · exact .pure trivial
  · have hgt : ¬ tag.toNat ≤ 250 := fun h => hchop (UInt8.le_iff_toNat_le.mpr h)
    have hne : tag.toNat ≠ 251 := fun h => hsame' (beq_iff_eq.mpr (UInt8.toNat_inj.mp h))
    exact (VerificationType.gives_read.many _).bind fun added hadded =>
      .pure (fits_append d (by omega) (UInt8.le_iff_toNat_le.mp happend) hadded.1)
  · exact VerificationType.gives_read.counted.bind fun _ hlocals =>
      VerificationType.gives_read.counted.bind fun _ hstack => .pure ⟨hlocals.1, hstack.1⟩

/-- A stack map table lists fewer than `2 ^ 16` frames. -/
theorem length_of_parseTable {info : Bytes} {frames : List DeltaFrame}
    (h : parseTable info = .ok frames) : frames.length < 65536 :=
  (gives_read.counted.run h).1

theorem parseTable_tableBytes {frames : List DeltaFrame} (hfits : ∀ f ∈ frames, f.Fits)
    (hlen : frames.length < 65536) : parseTable (tableBytes frames) = .ok frames := by
  have hreads := Reader.reads_counted (fun f hf => reads (hfits f hf)) hlen
  simpa [parseTable, tableBytes] using hreads.run []

/-- A table that was read is read again from what is written of it. -/
theorem parseTable_of_parseTable {info : Bytes} {frames : List DeltaFrame}
    (h : parseTable info = .ok frames) : parseTable (tableBytes frames) = .ok frames := by
  obtain ⟨hlen, hfits⟩ := gives_read.counted.run h
  exact parseTable_tableBytes hfits hlen

end DeltaFrame

/-! ## States -/

namespace FrameState

/-- A frame lists locals and stack entries that can be counted in two bytes. -/
def Small (s : FrameState) : Prop :=
  s.locals.length < 65536 ∧ s.stack.length < 65536

/-- The offset stands after an earlier one, close enough for a difference in two bytes. -/
def Follows (previousPc? : Option Nat) (pc : Nat) : Prop :=
  pc < 65536 ∧ ∀ previous, previousPc? = some previous → previous < pc

theorem nextPc_deltaFrom {previousPc? : Option Nat} {pc : Nat} (h : Follows previousPc? pc) :
    nextPc previousPc? (deltaFrom previousPc? pc) = pc := by
  cases previousPc? with
  | none =>
    have hpc := h.1
    simp only [nextPc, deltaFrom, Nat.toUInt16_eq, UInt16.toNat_ofNat']
    omega
  | some previous =>
    have hpc := h.1
    have hprevious := h.2 previous rfl
    have hmod : ((pc : Int) - previous - 1).emod 65536 = pc - previous - 1 :=
      Int.emod_eq_of_lt (by omega) (by omega)
    simp only [nextPc, deltaFrom, hmod, Nat.toUInt16_eq, UInt16.toNat_ofNat']
    omega

@[simp] theorem delta_toDelta (previousPc? : Option Nat) (previous : List VerificationType)
    (s : FrameState) : (toDelta previousPc? previous s).delta = deltaFrom previousPc? s.pc := by
  unfold toDelta
  simp only
  split
  · split_ifs <;> rfl
  · split_ifs <;> rfl
  · rfl

theorem fits_toDelta {previousPc? : Option Nat} {previous : List VerificationType}
    {s : FrameState} (h : s.Small) : (toDelta previousPc? previous s).Fits := by
  obtain ⟨hlocals, hstack⟩ := h
  unfold toDelta
  simp only
  split
  · split_ifs with hsame hgrown hshrunk
    · trivial
    · simp only [DeltaFrame.Fits, List.length_drop]
      omega
    · simp only [DeltaFrame.Fits, Nat.toUInt8_eq, UInt8.toNat_ofNat']
      omega
    · exact ⟨hlocals, by decide⟩
  · split_ifs
    · trivial
    · exact ⟨hlocals, by simp⟩
  · exact ⟨hlocals, hstack⟩

/-- The difference to a state leads to it. -/
theorem apply_toDelta {previousPc? : Option Nat} {s : FrameState} (previous : List VerificationType)
    (h : Follows previousPc? s.pc) :
    apply previousPc? previous (toDelta previousPc? previous s) = s := by
  have hpc : nextPc previousPc? (toDelta previousPc? previous s).delta = s.pc := by
    rw [delta_toDelta, nextPc_deltaFrom h]
  obtain ⟨pc, locals, stack⟩ := s
  rw [apply, hpc, FrameState.mk.injEq]
  refine ⟨rfl, ?_⟩
  unfold toDelta
  simp only
  split
  · next hstack =>
    split_ifs with hsame hgrown hshrunk
    · exact ⟨hsame.symm, rfl⟩
    · obtain ⟨added, rfl⟩ := List.isPrefixOf_iff_prefix.mp hgrown.2.2
      exact ⟨by simp [nextLocals], rfl⟩
    · obtain ⟨dropped, rfl⟩ := List.isPrefixOf_iff_prefix.mp hshrunk.2.2
      have hcount : ((locals ++ dropped).length - locals.length).toUInt8.toNat
          = dropped.length := by
        simp only [List.length_append, Nat.toUInt8_eq, UInt8.toNat_ofNat'] at hshrunk ⊢
        omega
      refine ⟨?_, rfl⟩
      simp only [nextLocals]
      rw [hcount, List.length_append, Nat.add_sub_cancel]
      exact List.take_left
    · exact ⟨rfl, rfl⟩
  · split_ifs with hsame
    · exact ⟨hsame.symm, rfl⟩
    · exact ⟨rfl, rfl⟩
  · exact ⟨rfl, rfl⟩

theorem toDeltasAux_eq (done : List DeltaFrame) (previousPc? : Option Nat)
    (previous : List VerificationType) (states : List FrameState) :
    toDeltasAux done previousPc? previous states
      = done.reverse ++ toDeltasAux [] previousPc? previous states := by
  induction states generalizing done previousPc? previous with
  | nil => simp [toDeltasAux]
  | cons s states ih =>
    rw [toDeltasAux, ih, toDeltasAux, ih [_]]
    simp

theorem ofDeltasAux_toDeltasAux {previousPc? : Option Nat} {states : List FrameState}
    (previous : List VerificationType)
    (h : ∀ s ∈ states, Follows previousPc? s.pc) (hpairs : states.Pairwise (·.pc < ·.pc))
    (done : List FrameState) :
    ofDeltasAux done previousPc? previous (toDeltasAux [] previousPc? previous states)
      = done.reverse ++ states := by
  induction states generalizing previousPc? previous done with
  | nil => simp [toDeltasAux, ofDeltasAux]
  | cons s states ih =>
    obtain ⟨hs, hpairs⟩ := List.pairwise_cons.mp hpairs
    have hnext : ∀ t ∈ states, Follows (some s.pc) t.pc := by
      intro t ht
      refine ⟨(h t (List.mem_cons_of_mem _ ht)).1, ?_⟩
      intro previous hprevious
      obtain rfl := Option.some.inj hprevious
      exact hs t ht
    rw [toDeltasAux, toDeltasAux_eq, List.reverse_singleton, List.singleton_append, ofDeltasAux,
      apply_toDelta previous (h s List.mem_cons_self)]
    rw [ih s.locals hnext hpairs, List.reverse_cons, List.append_assoc, List.singleton_append]

/-- The differences between states lead through these states. -/
theorem ofDeltas_toDeltas {states : List FrameState} (entry : List VerificationType)
    (hsmall : ∀ s ∈ states, s.pc < 65536) (hpairs : states.Pairwise (·.pc < ·.pc)) :
    ofDeltas (toDeltas states entry) entry = states := by
  have hfollows : ∀ s ∈ states, Follows none s.pc := by
    intro s hs
    exact ⟨hsmall s hs, fun _ hprevious => nomatch hprevious⟩
  exact ofDeltasAux_toDeltasAux entry hfollows hpairs []

theorem length_toDeltas (states : List FrameState) (entry : List VerificationType) :
    (toDeltas states entry).length = states.length := by
  have haux : ∀ (previousPc? : Option Nat) (previous : List VerificationType),
      (toDeltasAux [] previousPc? previous states).length = states.length := by
    induction states with
    | nil => simp [toDeltasAux]
    | cons s states ih =>
      intro previousPc? previous
      rw [toDeltasAux, toDeltasAux_eq, List.length_append, ih, List.length_reverse,
        List.length_singleton, List.length_cons, Nat.add_comm]
  exact haux none entry

/-- Small states have differences that can be written. -/
theorem fits_toDeltas {states : List FrameState} (entry : List VerificationType)
    (hsmall : ∀ s ∈ states, s.Small) : ∀ f ∈ toDeltas states entry, f.Fits := by
  have haux : ∀ (previousPc? : Option Nat) (previous : List VerificationType),
      ∀ f ∈ toDeltasAux [] previousPc? previous states, f.Fits := by
    induction states with
    | nil => simp [toDeltasAux]
    | cons s states ih =>
      intro previousPc? previous
      obtain ⟨hs, hsmall⟩ := List.forall_mem_cons.mp hsmall
      rw [toDeltasAux, toDeltasAux_eq, List.reverse_singleton, List.singleton_append]
      exact List.forall_mem_cons.mpr ⟨fits_toDelta hs, ih hsmall (some s.pc) s.locals⟩
  exact haux none entry

/-- A written table of states is read as these states. -/
theorem ofDeltas_parseTable {states : List FrameState} (entry : List VerificationType)
    (hlen : states.length < 65536) (hpcs : ∀ s ∈ states, s.pc < 65536)
    (hpairs : states.Pairwise (·.pc < ·.pc)) (hfits : ∀ f ∈ toDeltas states entry, f.Fits) :
    (DeltaFrame.parseTable (tableBytes states entry)).map (ofDeltas · entry) = .ok states := by
  have hcount : (toDeltas states entry).length < 65536 := by
    rwa [length_toDeltas]
  rw [tableBytes, DeltaFrame.parseTable_tableBytes hfits hcount, Except.map]
  exact congrArg Except.ok (ofDeltas_toDeltas entry hpcs hpairs)

theorem ofDeltasAux_pairwise (previousPc? : Option Nat) (previous : List VerificationType)
    (frames : List DeltaFrame) (done : List FrameState) :
    ∃ states, ofDeltasAux done previousPc? previous frames = done.reverse ++ states ∧
      states.length = frames.length ∧ states.Pairwise (·.pc < ·.pc) ∧
      ∀ s ∈ states, ∀ pc, previousPc? = some pc → pc < s.pc := by
  induction frames generalizing previousPc? previous done with
  | nil => exact ⟨[], by simp [ofDeltasAux], rfl, List.Pairwise.nil, by simp⟩
  | cons f frames ih =>
    obtain ⟨states, hstates, hlen, hpairs, hfirst⟩ := ih
      (some (apply previousPc? previous f).pc) (apply previousPc? previous f).locals
      (apply previousPc? previous f :: done)
    have hnext : ∀ pc, previousPc? = some pc → pc < (apply previousPc? previous f).pc := by
      rintro pc rfl
      simp only [apply, nextPc]
      omega
    refine ⟨apply previousPc? previous f :: states, ?_, by simp [hlen], ?_, ?_⟩
    · rw [ofDeltasAux, hstates, List.reverse_cons, List.append_assoc, List.singleton_append]
    · exact List.pairwise_cons.mpr ⟨fun s hs => hfirst s hs _ rfl, hpairs⟩
    · refine List.forall_mem_cons.mpr ⟨hnext, fun s hs pc hpc => ?_⟩
      exact Nat.lt_trans (hnext pc hpc) (hfirst s hs _ rfl)

/-- The states of a table stand at strictly increasing offsets. -/
theorem ofDeltas_pairwise (frames : List DeltaFrame) (entry : List VerificationType) :
    (ofDeltas frames entry).Pairwise (·.pc < ·.pc) := by
  obtain ⟨states, hstates, _, hpairs, _⟩ := ofDeltasAux_pairwise none entry frames []
  rw [ofDeltas, hstates]
  exact hpairs

theorem length_ofDeltas (frames : List DeltaFrame) (entry : List VerificationType) :
    (ofDeltas frames entry).length = frames.length := by
  obtain ⟨states, hstates, hlen, _, _⟩ := ofDeltasAux_pairwise none entry frames []
  rw [ofDeltas, hstates]
  exact hlen

/-- Small states at increasing offsets are read back from the bytes of their table, and every table
that is read is read again from what is written of it. -/
theorem tables_of_frames :
    (∀ (entry : List VerificationType) (states : List FrameState), states.length < 65536 →
      (∀ s ∈ states, s.pc < 65536 ∧ s.Small) → states.Pairwise (·.pc < ·.pc) →
      ∃ frames, DeltaFrame.parseTable (tableBytes states entry) = .ok frames ∧
        ofDeltas frames entry = states) ∧
    ∀ (info : Bytes) (frames : List DeltaFrame), DeltaFrame.parseTable info = .ok frames →
      DeltaFrame.parseTable (DeltaFrame.tableBytes frames) = .ok frames := by
  refine ⟨fun entry states hlen hsmall hpairs => ?_,
    fun info frames h => DeltaFrame.parseTable_of_parseTable h⟩
  have hfits := fits_toDeltas entry fun s hs => (hsmall s hs).2
  have hcount : (toDeltas states entry).length < 65536 := by rwa [length_toDeltas]
  exact ⟨_, DeltaFrame.parseTable_tableBytes hfits hcount,
    ofDeltas_toDeltas entry (fun s hs => (hsmall s hs).1) hpairs⟩

/-- A frame in the wide form for a small difference is written in the short form, and stays the
same. -/
theorem tables_of_frames_short :
    (∃ frames, DeltaFrame.parseTable
        (tableBytes [⟨5, [.integer], []⟩, ⟨70, [.integer, .long], []⟩] [.integer]) = .ok frames ∧
      ofDeltas frames [.integer] = [⟨5, [.integer], []⟩, ⟨70, [.integer, .long], []⟩]) ∧
    DeltaFrame.parseTable [0, 1, 251, 0, 5] = .ok [.same 5] ∧
    DeltaFrame.tableBytes [.same 5] = [0, 1, 5] ∧
    DeltaFrame.parseTable [0, 1, 5] = .ok [.same 5] :=
  ⟨tables_of_frames.1 _ _ (by decide) (by unfold Small; decide) (by decide), rfl, rfl,
    tables_of_frames.2 [0, 1, 251, 0, 5] [.same 5] rfl⟩

end FrameState

end ClassSynth
