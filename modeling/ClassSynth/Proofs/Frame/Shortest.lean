import ClassSynth.Proofs.Frame.RoundTrip

/-!
# Shortest frames

Several frames can lead from one state to the next: locals that stay the same can also be listed in
full, a chop may ask for more locals than there are, and a small difference may be written in the
wide form. Among all of them the frame that is written is a shortest one (`toDeltas_shortest`), so
no table for the same states is shorter (`length_tableBytes_le`).

The argument has two parts. What a reader took for a frame is never shorter than what is written for
it (`DeltaFrame.takes_read`), and each frame that leads to a state is compared with the one chosen
for it (`length_toDelta_le`). The offset needs no comparison: a state determines the difference that
leads to it (`deltaFrom_nextPc`).
-/

namespace ClassSynth

/-! ## Lengths -/

/-- Values that are each written in no more bytes than were taken for them. -/
theorem Reader.Takes.many_length_le {α : Type} {r : Reader α} {write : α → Bytes}
    (hr : r.Takes fun a bytes => (write a).length ≤ bytes.length) (n : Nat) :
    (Reader.many n r).Takes fun items bytes => (items.flatMap write).length ≤ bytes.length := by
  have haux : ∀ (n : Nat) (done : List α), (Reader.manyAux r done n).Takes fun items bytes =>
      ∃ tail, items = done.reverse ++ tail ∧ (tail.flatMap write).length ≤ bytes.length := by
    intro n
    induction n with
    | zero => exact fun done => .pure ⟨[], by simp⟩
    | succ n ih =>
      refine fun done => hr.bind fun a p hp => (ih (a :: done)).mono ?_
      rintro items bytes ⟨tail, rfl, hlen⟩
      refine ⟨a :: tail, by simp, ?_⟩
      simp only [List.flatMap_cons, List.length_append]
      omega
  refine (haux n []).mono ?_
  rintro items bytes ⟨tail, rfl, hlen⟩
  simpa using hlen

theorem VerificationType.takes_read : VerificationType.read.Takes fun t bytes =>
    bytes = t.toBytes := by
  refine Reader.Takes.u8.bind fun tag p hp => ?_
  subst hp
  split
  all_goals first
    | exact .pure rfl
    | exact Reader.Takes.u16.map fun _ _ h => by rw [h]; rfl
    | exact .fail

namespace DeltaFrame

/-- The frame can be read from a piece of `n` bytes. -/
def IsReadFrom (f : DeltaFrame) (n : Nat) : Prop :=
  ∃ c c', read c = .ok (f, c') ∧ c'.offset = c.offset + n

theorem length_same_le (d : UInt16) : (same d).toBytes.length ≤ 3 := by
  simp only [toBytes]
  split <;> simp

theorem length_sameOneItem_le (d : UInt16) (item : VerificationType) :
    (sameOneItem d item).toBytes.length ≤ 3 + item.toBytes.length := by
  simp only [toBytes]
  split
  all_goals
    simp only [List.length_cons, List.length_append, List.length_nil, Reader.length_ofU16]
    omega

@[simp] theorem length_chop (d : UInt16) (count : UInt8) : (chop d count).toBytes.length = 3 := rfl

@[simp] theorem length_append (d : UInt16) (added : List VerificationType) :
    (append d added).toBytes.length = 3 + (added.flatMap VerificationType.toBytes).length := by
  simp [toBytes]
  omega

@[simp] theorem length_full (d : UInt16) (locals stack : List VerificationType) :
    (full d locals stack).toBytes.length = 7 + (locals.flatMap VerificationType.toBytes).length
      + (stack.flatMap VerificationType.toBytes).length := by
  simp [toBytes, Bytes.counted, Bytes.ofCount]
  omega

/-- A frame is written in at most the bytes it was read from. Two frames have a short and a wide
form, and only the wide form of a small difference is longer than what is written. -/
theorem takes_read : read.Takes fun f bytes => f.toBytes.length ≤ bytes.length := by
  refine Reader.Takes.u8.bind fun tag p hp => ?_
  subst hp
  split_ifs with hsame hone hinvalid hone' hchop hsame' happend
  · refine .pure ?_
    have hle : tag.toUInt16 ≤ 63 := by
      rw [UInt16.le_iff_toNat_le, UInt8.toNat_toUInt16]
      exact UInt8.le_iff_toNat_le.mp hsame
    simp [toBytes, hle]
  · refine VerificationType.takes_read.map ?_
    rintro item bytes rfl
    have hle : (tag - 64).toUInt16 ≤ 63 := by
      rw [UInt8.le_iff_toNat_le] at hsame hone
      rw [UInt16.le_iff_toNat_le, UInt8.toNat_toUInt16, UInt8.toNat_sub]
      change (2 ^ 8 - 64 + tag.toNat) % 2 ^ 8 ≤ 63
      change ¬ tag.toNat ≤ 63 at hsame
      change tag.toNat ≤ 127 at hone
      omega
    rw [toBytes, if_pos hle]
    simp
  · exact .fail
  all_goals
    refine Reader.Takes.u16.bind fun d q hq => ?_
    subst hq
  · refine VerificationType.takes_read.map ?_
    rintro item bytes rfl
    have hle := length_sameOneItem_le d item
    simp
    omega
  · exact .pure (by simp)
  · exact .pure (by simpa using length_same_le d)
  · refine (VerificationType.takes_read.many _).map ?_
    rintro added bytes ⟨rfl, -⟩
    simp
    omega
  · refine VerificationType.takes_read.counted.bind fun locals p hp =>
      VerificationType.takes_read.counted.map ?_
    rintro stack bytes ⟨rfl, -⟩
    rw [hp.1]
    simp [Bytes.counted, Bytes.ofCount]
    omega

theorem length_le_of_isReadFrom {f : DeltaFrame} {n : Nat} (h : f.IsReadFrom n) :
    f.toBytes.length ≤ n := by
  obtain ⟨c, c', hread, hn⟩ := h
  obtain ⟨bytes, hle, -, hoffset⟩ := takes_read c f c' hread
  omega

theorem fits_of_isReadFrom {f : DeltaFrame} {n : Nat} (h : f.IsReadFrom n) : f.Fits := by
  obtain ⟨c, c', hread, -⟩ := h
  exact (gives_read c f c' hread).1

theorem length_le_of_parseTable {info : Bytes} {frames : List DeltaFrame}
    (h : parseTable info = .ok frames) :
    2 + (frames.flatMap toBytes).length ≤ info.length := by
  have htakes : (Reader.counted read).Takes fun frames bytes =>
      2 + (frames.flatMap toBytes).length ≤ bytes.length := by
    refine Reader.Takes.u16.bind fun n p hp => (takes_read.many_length_le n.toNat).mono ?_
    intro frames bytes hle
    rw [hp, List.length_append, Reader.length_ofU16]
    omega
  unfold parseTable Reader.run at h
  cases hc : Reader.counted read ⟨0, info⟩ with
  | error e =>
    rw [hc] at h
    cases h
  | ok p =>
    rw [hc] at h
    obtain rfl := Except.ok.inj h
    obtain ⟨bytes, hle, hinfo, -⟩ := htakes _ p.1 p.2 hc
    show 2 + (p.1.flatMap toBytes).length ≤ info.length
    rw [show info = bytes ++ p.2.rest from hinfo, List.length_append]
    omega

/-- A frame that fits can be read from what is written for it. -/
theorem isReadFrom_of_fits {f : DeltaFrame} (h : f.Fits) : f.IsReadFrom f.toBytes.length :=
  ⟨⟨0, f.toBytes ++ []⟩, ⟨0 + f.toBytes.length, []⟩, reads h 0 [], rfl⟩

end DeltaFrame

namespace FrameState

/-! ## One frame -/

/-- The offset of a state determines the difference that leads to it. -/
@[simp] theorem deltaFrom_nextPc (previousPc? : Option Nat) (d : UInt16) :
    deltaFrom previousPc? (nextPc previousPc? d) = d := by
  have hd : d.toNat < 65536 := d.toNat_lt
  apply UInt16.toNat_inj.mp
  cases previousPc? with
  | none => simp [deltaFrom, nextPc]
  | some pc =>
    have hdiff : ((pc + d.toNat + 1 : Nat) : Int) - pc - 1 = d.toNat := by omega
    have hmod : (d.toNat : Int).emod 65536 = d.toNat := Int.emod_eq_of_lt (by omega) (by omega)
    simp only [deltaFrom, nextPc, hdiff, hmod, Int.toNat_natCast, Nat.toUInt16_eq,
      UInt16.toNat_ofNat']
    omega

section Choice

variable (previousPc? : Option Nat) (pc : Nat) (locals : List VerificationType)

theorem toDelta_same :
    toDelta previousPc? locals ⟨pc, locals, []⟩ = .same (deltaFrom previousPc? pc) := by
  simp [toDelta]

theorem toDelta_sameOneItem (item : VerificationType) :
    toDelta previousPc? locals ⟨pc, locals, [item]⟩
      = .sameOneItem (deltaFrom previousPc? pc) item := by
  simp [toDelta]

theorem toDelta_append {added : List VerificationType} (h : 1 ≤ added.length ∧ added.length ≤ 3) :
    toDelta previousPc? locals ⟨pc, locals ++ added, []⟩
      = .append (deltaFrom previousPc? pc) added := by
  have hne : added ≠ [] := List.ne_nil_of_length_pos h.1
  have hprefix : locals.isPrefixOf (locals ++ added) :=
    List.isPrefixOf_iff_prefix.mpr (List.prefix_append _ _)
  have hpos : 0 < added.length := h.1
  simp [toDelta, hne, hpos, h.2, hprefix]

theorem toDelta_chop {dropped : List VerificationType}
    (h : 1 ≤ dropped.length ∧ dropped.length ≤ 3) :
    toDelta previousPc? (locals ++ dropped) ⟨pc, locals, []⟩
      = .chop (deltaFrom previousPc? pc) dropped.length.toUInt8 := by
  have hne : dropped ≠ [] := List.ne_nil_of_length_pos h.1
  have hprefix : locals.isPrefixOf (locals ++ dropped) :=
    List.isPrefixOf_iff_prefix.mpr (List.prefix_append _ _)
  have hpos : 0 < dropped.length := h.1
  have hgrown : locals.length - (locals.length + dropped.length) = 0 := by omega
  simp [toDelta, hne, hpos, h.2, hprefix, hgrown]

end Choice

/-- A chop leaves the locals before the dropped ones; where it asks for more than there are, it
drops all of them. -/
theorem exists_dropped (previous : List VerificationType) {d : UInt16} {count : UInt8}
    (h : (DeltaFrame.chop d count).Fits) :
    ∃ dropped, previous = nextLocals previous (.chop d count) ++ dropped ∧
      dropped.length ≤ 3 := by
  refine ⟨previous.drop (previous.length - count.toNat), ?_, ?_⟩
  · rw [nextLocals, List.take_append_drop]
  · have hcount := h.2
    rw [List.length_drop]
    omega

/-- No frame that is chosen is longer than the full one. -/
theorem length_toDelta_le_full (previousPc? : Option Nat) (previous : List VerificationType)
    (s : FrameState) (d : UInt16) :
    (toDelta previousPc? previous s).toBytes.length
      ≤ (DeltaFrame.full d s.locals s.stack).toBytes.length := by
  obtain ⟨pc, locals, stack⟩ := s
  unfold toDelta
  simp only [DeltaFrame.length_full]
  split
  · split_ifs with hsame hgrown hshrunk
    · have hle := DeltaFrame.length_same_le (deltaFrom previousPc? pc)
      omega
    · obtain ⟨added, rfl⟩ := List.isPrefixOf_iff_prefix.mp hgrown.2.2
      simp
      omega
    · simp
      omega
    · simp
  · next item =>
    split_ifs with hsame
    · have hle := DeltaFrame.length_sameOneItem_le (deltaFrom previousPc? pc) item
      simp
      omega
    · simp
  · simp

/-- **The chosen frame is a shortest one.** A frame that fits leads to some state. The frame chosen
for that state fits as well, and it is written in no more bytes. -/
theorem toDelta_apply_shortest (previousPc? : Option Nat) (previous : List VerificationType)
    {g : DeltaFrame} (hg : g.Fits) :
    (toDelta previousPc? previous (apply previousPc? previous g)).Fits ∧
      (toDelta previousPc? previous (apply previousPc? previous g)).toBytes.length
        ≤ g.toBytes.length := by
  cases g with
  | same d =>
    simp only [apply, nextLocals, nextStack, DeltaFrame.delta, toDelta_same, deltaFrom_nextPc]
    exact ⟨trivial, le_rfl⟩
  | sameOneItem d item =>
    simp only [apply, nextLocals, nextStack, DeltaFrame.delta, toDelta_sameOneItem,
      deltaFrom_nextPc]
    exact ⟨trivial, le_rfl⟩
  | append d added =>
    simp only [apply, nextLocals, nextStack, DeltaFrame.delta, toDelta_append _ _ _ hg,
      deltaFrom_nextPc]
    exact ⟨hg, le_rfl⟩
  | chop d count =>
    obtain ⟨dropped, hprevious, hlen⟩ := exists_dropped previous hg
    simp only [apply, nextStack, DeltaFrame.delta]
    generalize nextLocals previous (.chop d count) = locals at hprevious
    subst hprevious
    -- a chop that drops nothing is no shorter than repeating the locals
    by_cases hnone : dropped = []
    · subst hnone
      rw [List.append_nil, toDelta_same, deltaFrom_nextPc]
      exact ⟨trivial, DeltaFrame.length_same_le d⟩
    · have hpos : 1 ≤ dropped.length := List.length_pos_of_ne_nil hnone
      rw [toDelta_chop _ _ _ ⟨hpos, hlen⟩]
      refine ⟨?_, le_rfl⟩
      simp only [DeltaFrame.Fits, Nat.toUInt8_eq, UInt8.toNat_ofNat']
      omega
  | full d locals stack =>
    exact ⟨fits_toDelta hg, length_toDelta_le_full previousPc? previous _ d⟩

/-! ## Tables -/

theorem ofDeltasAux_eq (done : List FrameState) (previousPc? : Option Nat)
    (previous : List VerificationType) (frames : List DeltaFrame) :
    ofDeltasAux done previousPc? previous frames
      = done.reverse ++ ofDeltasAux [] previousPc? previous frames := by
  induction frames generalizing done previousPc? previous with
  | nil => simp [ofDeltasAux]
  | cons f frames ih =>
    rw [ofDeltasAux, ih, ofDeltasAux, ih [_]]
    simp

theorem ofDeltasAux_cons (previousPc? : Option Nat) (previous : List VerificationType)
    (f : DeltaFrame) (frames : List DeltaFrame) :
    ofDeltasAux [] previousPc? previous (f :: frames)
      = apply previousPc? previous f ::
        ofDeltasAux [] (some (apply previousPc? previous f).pc)
          (apply previousPc? previous f).locals frames := by
  rw [ofDeltasAux, ofDeltasAux_eq]
  simp

theorem toDeltasAux_cons (previousPc? : Option Nat) (previous : List VerificationType)
    (s : FrameState) (states : List FrameState) :
    toDeltasAux [] previousPc? previous (s :: states)
      = toDelta previousPc? previous s :: toDeltasAux [] (some s.pc) s.locals states := by
  rw [toDeltasAux, toDeltasAux_eq]
  simp

/-- The offset and the locals that the frame after some states is a difference to. -/
def reached (previousPc? : Option Nat) (previous : List VerificationType) :
    List FrameState → Option Nat × List VerificationType
  | [] => (previousPc?, previous)
  | s :: states => reached (some s.pc) s.locals states

theorem toDeltasAux_append (previousPc? : Option Nat) (previous : List VerificationType)
    (before after : List FrameState) :
    toDeltasAux [] previousPc? previous (before ++ after)
      = toDeltasAux [] previousPc? previous before ++
        toDeltasAux [] (reached previousPc? previous before).1
          (reached previousPc? previous before).2 after := by
  induction before generalizing previousPc? previous with
  | nil => rfl
  | cons s before ih =>
    rw [List.cons_append, toDeltasAux_cons, ih, toDeltasAux_cons]
    rfl

theorem ofDeltasAux_append (previousPc? : Option Nat) (previous : List VerificationType)
    {before : List DeltaFrame} {states : List FrameState} (after : List DeltaFrame)
    (h : ofDeltasAux [] previousPc? previous before = states) :
    ofDeltasAux [] previousPc? previous (before ++ after)
      = states ++ ofDeltasAux [] (reached previousPc? previous states).1
          (reached previousPc? previous states).2 after := by
  induction before generalizing previousPc? previous states with
  | nil =>
    subst h
    rfl
  | cons f before ih =>
    rw [ofDeltasAux_cons] at h
    subst h
    rw [List.cons_append, ofDeltasAux_cons, ih _ _ rfl]
    rfl

/-- **Every frame of a table is a shortest one.** The states before it and its own state are read
back from the table up to it. Any other frame in its place that the reader can give and that leads
to the same state is written in no fewer bytes, and was read from no fewer; and then the frame of
the table can be read as well. -/
theorem toDeltas_shortest {entry : List VerificationType} {states : List FrameState}
    (hpcs : ∀ s ∈ states, s.pc < 65536) (hpairs : states.Pairwise (·.pc < ·.pc))
    {done rest : List DeltaFrame} {f : DeltaFrame}
    (hsplit : toDeltas states entry = done ++ f :: rest) :
    ∃ before s after, states = before ++ s :: after ∧
      ofDeltas done entry = before ∧ ofDeltas (done ++ [f]) entry = before ++ [s] ∧
      ∀ g n, g.IsReadFrom n → ofDeltas (done ++ [g]) entry = before ++ [s] →
        f.toBytes.length ≤ g.toBytes.length ∧ g.toBytes.length ≤ n ∧
          f.IsReadFrom f.toBytes.length := by
  have hdone : done.length < states.length := by
    rw [← length_toDeltas states entry, hsplit, List.length_append, List.length_cons]
    omega
  obtain ⟨before, s, after, hstates, hlen⟩ :
      ∃ before s after, states = before ++ s :: after ∧ before.length = done.length := by
    refine ⟨states.take done.length, states[done.length], states.drop (done.length + 1), ?_, ?_⟩
    · rw [← List.drop_eq_getElem_cons, List.take_append_drop]
    · rw [List.length_take]
      omega
  subst hstates
  -- the frames before this one are those of the states before its state
  have hframes : toDeltas before entry = done ∧
      toDelta (reached none entry before).1 (reached none entry before).2 s = f := by
    rw [toDeltas, toDeltasAux_append, toDeltasAux_cons] at hsplit
    obtain ⟨hdone, hf⟩ := List.append_inj hsplit
      ((length_toDeltas before entry).trans hlen)
    exact ⟨hdone, (List.cons.inj hf).1⟩
  obtain ⟨rfl, rfl⟩ := hframes
  have hbefore : ofDeltas (toDeltas before entry) entry = before :=
    ofDeltas_toDeltas entry (fun t ht => hpcs t (by simp [ht])) (List.pairwise_append.mp hpairs).1
  have hnext : ∀ g, ofDeltas (toDeltas before entry ++ [g]) entry
      = before ++ [apply (reached none entry before).1 (reached none entry before).2 g] :=
    fun g => ofDeltasAux_append none entry [g] hbefore
  refine ⟨before, s, after, rfl, hbefore, ?_, fun g n hg hstate => ?_⟩
  · have hfirst : (before ++ [s]).Sublist (before ++ s :: after) := by simp
    have hread : ofDeltas (toDeltas (before ++ [s]) entry) entry = before ++ [s] :=
      ofDeltas_toDeltas entry (fun t ht => hpcs t (hfirst.subset ht)) (hpairs.sublist hfirst)
    rwa [toDeltas, toDeltasAux_append] at hread
  · rw [hnext, List.append_cancel_left_eq, List.singleton_inj] at hstate
    obtain ⟨hfits, hle⟩ := toDelta_apply_shortest (reached none entry before).1
      (reached none entry before).2 (DeltaFrame.fits_of_isReadFrom hg)
    rw [hstate] at hfits hle
    exact ⟨hle, DeltaFrame.length_le_of_isReadFrom hg, DeltaFrame.isReadFrom_of_fits hfits⟩

/-- A chop below zero locals and a full frame lead to the same state as a chop of the one local there
is, and they are written in no fewer bytes. -/
theorem toDeltas_shortest_chop :
    ofDeltas [.chop 70 3] [.integer] = [⟨70, [], []⟩] ∧
      ofDeltas [.full 70 [] []] [.integer] = [⟨70, [], []⟩] ∧
      (DeltaFrame.chop 70 1).toBytes.length ≤ (DeltaFrame.chop 70 3).toBytes.length ∧
      (DeltaFrame.chop 70 1).toBytes.length ≤ (DeltaFrame.full 70 [] []).toBytes.length := by
  have hread : ∀ g, g.Fits → ofDeltas [g] [.integer] = [⟨70, [], []⟩] →
      (DeltaFrame.chop 70 1).toBytes.length ≤ g.toBytes.length := by
    intro g hg hstate
    have hsplit : toDeltas [⟨70, [], []⟩] [.integer] = [] ++ .chop 70 1 :: [] := by decide
    obtain ⟨before, s, after, hstates, hbefore, -, hshortest⟩ :=
      toDeltas_shortest (by simp) (by simp) hsplit
    subst hbefore
    obtain ⟨rfl, -⟩ := List.cons.inj hstates
    exact (hshortest g _ (DeltaFrame.isReadFrom_of_fits hg) hstate).1
  have hchop : (DeltaFrame.chop 70 3).Fits := by unfold DeltaFrame.Fits; decide
  have hfull : (DeltaFrame.full 70 [] []).Fits := by unfold DeltaFrame.Fits; decide
  exact ⟨by decide, by decide, hread _ hchop (by decide), hread _ hfull (by decide)⟩

/-- **No table for the same states is shorter.** A table that is read is written again in no more
bytes. -/
theorem length_tableBytes_le {info : Bytes} {frames : List DeltaFrame}
    (entry : List VerificationType) (h : DeltaFrame.parseTable info = .ok frames) :
    (tableBytes (ofDeltas frames entry) entry).length ≤ info.length := by
  obtain ⟨-, hfits⟩ := DeltaFrame.gives_read.counted.run h
  have hread := DeltaFrame.length_le_of_parseTable h
  have hframes : ∀ (previousPc? : Option Nat) (previous : List VerificationType),
      ((toDeltasAux [] previousPc? previous
        (ofDeltasAux [] previousPc? previous frames)).flatMap DeltaFrame.toBytes).length
        ≤ (frames.flatMap DeltaFrame.toBytes).length := by
    clear hread h
    induction frames with
    | nil => exact fun _ _ => le_rfl
    | cons f frames ih =>
      intro previousPc? previous
      obtain ⟨hf, hfits⟩ := List.forall_mem_cons.mp hfits
      have hle := (toDelta_apply_shortest previousPc? previous hf).2
      have hrest := ih hfits (some (apply previousPc? previous f).pc)
        (apply previousPc? previous f).locals
      rw [ofDeltasAux_cons, toDeltasAux_cons]
      simp only [List.flatMap_cons, List.length_append]
      omega
  have hthis := hframes none entry
  simp only [tableBytes, DeltaFrame.tableBytes, Bytes.counted, Bytes.ofCount, List.length_append,
    Reader.length_ofU16, toDeltas, ofDeltas]
  omega

end FrameState

end ClassSynth
