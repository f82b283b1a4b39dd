import ClassSynth.Bytes.Basic
import Mathlib.Data.List.Forall2
import Mathlib.Tactic.Ring

/-!
# What readers consume

`r.ReadsAt offset bytes a` says that the reader `r`, standing at `offset`, consumes exactly `bytes`
and gives `a`, whatever follows. The statement composes: a sequence of readers consumes the
concatenation. Every writer of numbers and counted lists is matched with its reader here.
-/

namespace ClassSynth

namespace Reader

variable {α β : Type}

/-- At the offset, the reader takes exactly the bytes, whatever follows them. -/
def ReadsAt (r : Reader α) (offset : Nat) (bytes : Bytes) (a : α) : Prop :=
  ∀ rest, r ⟨offset, bytes ++ rest⟩ = .ok (a, ⟨offset + bytes.length, rest⟩)

/-- Wherever the reader stands, it takes exactly the bytes. -/
def Reads (r : Reader α) (bytes : Bytes) (a : α) : Prop :=
  ∀ offset, r.ReadsAt offset bytes a

theorem bind_ok {r : Reader α} {f : α → Reader β} {c c' : Cursor} {a : α}
    (h : r c = .ok (a, c')) : (r >>= f) c = f a c' := by
  show (r c >>= fun p => f p.1 p.2) = _
  rw [h]
  rfl

/-- A sequence of two readers that succeeds. -/
theorem bind_eq_ok {r : Reader α} {f : α → Reader β} {c : Cursor} {p : β × Cursor} :
    (r >>= f) c = .ok p ↔ ∃ a c', r c = .ok (a, c') ∧ f a c' = .ok p := by
  constructor
  · intro h
    change (r c >>= fun q => f q.1 q.2) = _ at h
    cases hr : r c with
    | error e => rw [hr] at h; exact absurd h (by simp [bind, Except.bind])
    | ok q => rw [hr] at h; exact ⟨q.1, q.2, rfl, h⟩
  · rintro ⟨a, c', hr, hf⟩
    rw [bind_ok hr, hf]

@[simp] theorem pure_eq_ok {a : α} {c : Cursor} {p : α × Cursor} :
    (pure a : Reader α) c = .ok p ↔ p = (a, c) := by
  change (Except.ok (a, c) : Except ClassFormatError _) = .ok p ↔ _
  rw [Except.ok.injEq, eq_comm]

namespace ReadsAt

theorem pure (a : α) (offset : Nat) : (Pure.pure a : Reader α).ReadsAt offset [] a :=
  fun _ => rfl

theorem bind {r : Reader α} {f : α → Reader β} {offset : Nat} {p q : Bytes} {a : α} {b : β}
    (hr : r.ReadsAt offset p a) (hf : (f a).ReadsAt (offset + p.length) q b) :
    (r >>= f).ReadsAt offset (p ++ q) b := by
  intro rest
  rw [List.append_assoc, bind_ok (hr (q ++ rest)), hf rest, List.length_append, Nat.add_assoc]

/-- A last step that consumes nothing. -/
theorem map {r : Reader α} {g : α → β} {offset : Nat} {bs : Bytes} {a : α}
    (hr : r.ReadsAt offset bs a) :
    (r >>= fun x => Pure.pure (g x)).ReadsAt offset bs (g a) := by
  intro rest
  rw [bind_ok (hr rest)]
  rfl

end ReadsAt

namespace Reads

theorem pure (a : α) : (Pure.pure a : Reader α).Reads [] a :=
  ReadsAt.pure a

theorem bind {r : Reader α} {f : α → Reader β} {p q : Bytes} {a : α} {b : β}
    (hr : r.Reads p a) (hf : (f a).Reads q b) : (r >>= f).Reads (p ++ q) b :=
  fun offset => (hr offset).bind (hf _)

theorem map {r : Reader α} {g : α → β} {bs : Bytes} {a : α} (hr : r.Reads bs a) :
    (r >>= fun x => Pure.pure (g x)).Reads bs (g a) :=
  fun offset => (hr offset).map

/-- A reader that takes exactly the first bytes ignores the others. -/
theorem run {r : Reader α} {bs : Bytes} {a : α} (hr : r.Reads bs a) (rest : Bytes) :
    r.run (bs ++ rest) = .ok a := by
  rw [Reader.run, hr 0 rest]
  rfl

end Reads

/-! ## Numbers -/

theorem splitFirstAux_append (done : List α) (xs rest : List α) :
    splitFirstAux done xs.length (xs ++ rest) = some (done.reverse ++ xs, rest) := by
  induction xs generalizing done with
  | nil => cases rest <;> simp [splitFirstAux]
  | cons x xs ih => simp [splitFirstAux, ih]

theorem splitFirstAux_eq_some {n : Nat} {done xs first rest : List α}
    (h : splitFirstAux done n xs = some (first, rest)) :
    done.reverse ++ xs = first ++ rest ∧ first.length = done.length + n := by
  induction n generalizing done xs with
  | zero =>
    simp only [splitFirstAux, Option.some.injEq, Prod.mk.injEq] at h
    obtain ⟨rfl, rfl⟩ := h
    exact ⟨rfl, by simp⟩
  | succ n ih =>
    cases xs with
    | nil => cases h
    | cons x xs =>
      rw [splitFirstAux] at h
      obtain ⟨hrest, hlen⟩ := ih h
      refine ⟨by simpa using hrest, ?_⟩
      rw [hlen, List.length_cons]
      omega

theorem reads_take (bytes : Bytes) : (take bytes.length).Reads bytes bytes := by
  intro offset rest
  simp [take, splitFirst?, splitFirstAux_append]

theorem reads_u8 (n : UInt8) : u8.Reads [n] n :=
  fun _ _ => rfl

theorem reads_u16 (n : UInt16) : u16.Reads (Bytes.ofU16 n) n := by
  intro offset rest
  have hn : n.toNat < 65536 := n.toNat_lt
  have hbytes : ((n.toNat / 0x100).toUInt8.toNat * 0x100 + n.toNat.toUInt8.toNat).toUInt16 = n := by
    apply UInt16.toNat_inj.mp
    simp only [Nat.toUInt8_eq, UInt8.toNat_ofNat', Nat.toUInt16_eq, UInt16.toNat_ofNat']
    omega
  simp only [u16, Bytes.ofU16, List.cons_append, List.nil_append, hbytes]
  rfl

theorem reads_u32 (n : UInt32) : u32.Reads (Bytes.ofU32 n) n := by
  intro offset rest
  have hn : n.toNat < 4294967296 := n.toNat_lt
  have hbytes : ((n.toNat / 0x1000000).toUInt8.toNat * 0x1000000
      + (n.toNat / 0x10000).toUInt8.toNat * 0x10000 + (n.toNat / 0x100).toUInt8.toNat * 0x100
      + n.toNat.toUInt8.toNat).toUInt32 = n := by
    apply UInt32.toNat_inj.mp
    simp only [Nat.toUInt8_eq, UInt8.toNat_ofNat', Nat.toUInt32_eq, UInt32.toNat_ofNat']
    omega
  simp only [u32, Bytes.ofU32, List.cons_append, List.nil_append, hbytes]
  rfl

theorem reads_u64 (n : UInt64) : u64.Reads (Bytes.ofU64 n) n := by
  have hn : n.toNat < 18446744073709551616 := n.toNat_lt
  have hhigh : (n.toNat / 0x100000000).toUInt32.toNat = n.toNat / 0x100000000 := by
    rw [Nat.toUInt32_eq, UInt32.toNat_ofNat']
    exact Nat.mod_eq_of_lt (by omega)
  have hlow : n.toNat.toUInt32.toNat = n.toNat % 0x100000000 := by
    rw [Nat.toUInt32_eq, UInt32.toNat_ofNat']
  have hvalue : ((n.toNat / 0x100000000).toUInt32.toNat * 0x100000000
      + n.toNat.toUInt32.toNat).toUInt64 = n := by
    apply UInt64.toNat_inj.mp
    rw [hhigh, hlow, Nat.toUInt64_eq, UInt64.toNat_ofNat']
    omega
  refine (reads_u32 (n.toNat / 0x100000000).toUInt32).bind ?_
  have hread := (reads_u32 n.toNat.toUInt32).map (g := fun low =>
    ((n.toNat / 0x100000000).toUInt32.toNat * 0x100000000 + low.toNat).toUInt64)
  rwa [hvalue] at hread

theorem reads_i16 (n : Int16) : i16.Reads (Bytes.ofI16 n) n := by
  have h := (reads_u16 n.toUInt16).map (g := UInt16.toInt16)
  rwa [Int16.toInt16_toUInt16] at h

theorem reads_i32 (n : Int32) : i32.Reads (Bytes.ofI32 n) n := by
  have h := (reads_u32 n.toUInt32).map (g := UInt32.toInt32)
  rwa [Int32.toInt32_toUInt32] at h

@[simp] theorem length_ofU16 (n : UInt16) : (Bytes.ofU16 n).length = 2 := rfl

@[simp] theorem length_ofU32 (n : UInt32) : (Bytes.ofU32 n).length = 4 := rfl

@[simp] theorem length_ofI16 (n : Int16) : (Bytes.ofI16 n).length = 2 := rfl

@[simp] theorem length_ofI32 (n : Int32) : (Bytes.ofI32 n).length = 4 := rfl

/-! ## Lists -/

theorem reads_manyAux {r : Reader α} {parts : List Bytes} {items : List α}
    (h : List.Forall₂ r.Reads parts items) (done : List α) :
    (manyAux r done items.length).Reads parts.flatten (done.reverse ++ items) := by
  induction h generalizing done with
  | nil => simpa [manyAux] using Reads.pure done.reverse
  | @cons bs a parts items ha _ ih =>
    have htail := ih (a :: done)
    rw [List.reverse_cons, List.append_assoc, List.singleton_append] at htail
    exact ha.bind htail

/-- Values that are read one after the other. -/
theorem reads_many {r : Reader α} {parts : List Bytes} {items : List α}
    (h : List.Forall₂ r.Reads parts items) :
    (many items.length r).Reads parts.flatten items := by
  rw [many]
  simpa using reads_manyAux h []

theorem forall₂_map_self {r : Reader α} {write : α → Bytes} {items : List α}
    (h : ∀ a ∈ items, r.Reads (write a) a) : List.Forall₂ r.Reads (items.map write) items := by
  rw [List.forall₂_map_left_iff, List.forall₂_same]
  exact h

/-- A counted list reads back, as long as its length can be counted in two bytes. -/
theorem reads_counted {r : Reader α} {write : α → Bytes} {items : List α}
    (h : ∀ a ∈ items, r.Reads (write a) a) (hlen : items.length < 65536) :
    (counted r).Reads (Bytes.counted write items) items := by
  have hcount : items.length.toUInt16.toNat = items.length := by
    rw [Nat.toUInt16_eq, UInt16.toNat_ofNat']
    exact Nat.mod_eq_of_lt hlen
  refine (reads_u16 items.length.toUInt16).bind ?_
  rw [hcount, List.flatMap_def]
  exact reads_many (forall₂_map_self h)

/-! ## What readers give -/

/-- Whatever the reader gives satisfies `P`, and what it consumed stood at the front of the
bytes. -/
def Gives (r : Reader α) (P : α → Prop) : Prop :=
  ∀ c a c', r c = .ok (a, c') →
    P a ∧ ∃ bytes, c.rest = bytes ++ c'.rest ∧ c'.offset = c.offset + bytes.length

namespace Gives

variable {r : Reader α} {P : α → Prop}

theorem pure {a : α} (h : P a) : (Pure.pure a : Reader α).Gives P := by
  intro c b c' hb
  obtain ⟨rfl, rfl⟩ := Prod.mk.inj (pure_eq_ok.mp hb)
  exact ⟨h, [], rfl, rfl⟩

theorem bind {f : α → Reader β} {Q : β → Prop} (hr : r.Gives P) (hf : ∀ a, P a → (f a).Gives Q) :
    (r >>= f).Gives Q := by
  intro c b c'' h
  obtain ⟨a, c', ha, hb⟩ := bind_eq_ok.mp h
  obtain ⟨hP, bytes, hrest, hoffset⟩ := hr c a c' ha
  obtain ⟨hQ, more, hrest', hoffset'⟩ := hf a hP c' b c'' hb
  refine ⟨hQ, bytes ++ more, ?_, ?_⟩
  · rw [hrest, hrest', List.append_assoc]
  · rw [hoffset', hoffset, List.length_append, Nat.add_assoc]

theorem mono {Q : α → Prop} (hr : r.Gives P) (h : ∀ a, P a → Q a) : r.Gives Q := by
  intro c a c' ha
  obtain ⟨hP, hbytes⟩ := hr c a c' ha
  exact ⟨h a hP, hbytes⟩

theorem fail {e : ClassFormatError} : (Reader.fail e : Reader α).Gives P := by
  intro c a c' h
  cases h

theorem u8 : Reader.u8.Gives fun _ => True := by
  intro c a c' h
  unfold Reader.u8 at h
  split at h
  · next b rest hrest =>
    obtain ⟨rfl, rfl⟩ := Prod.mk.inj (Except.ok.inj h)
    exact ⟨trivial, [b], hrest, rfl⟩
  · cases h

theorem u16 : Reader.u16.Gives fun _ => True := by
  intro c a c' h
  unfold Reader.u16 at h
  split at h
  · next b d rest hrest =>
    obtain ⟨rfl, rfl⟩ := Prod.mk.inj (Except.ok.inj h)
    exact ⟨trivial, [b, d], hrest, rfl⟩
  · cases h

theorem u32 : Reader.u32.Gives fun _ => True := by
  intro c a c' h
  unfold Reader.u32 at h
  split at h
  · next b d e f rest hrest =>
    obtain ⟨rfl, rfl⟩ := Prod.mk.inj (Except.ok.inj h)
    exact ⟨trivial, [b, d, e, f], hrest, rfl⟩
  · cases h

theorem i16 : Reader.i16.Gives fun _ => True :=
  u16.bind fun _ _ => pure trivial

theorem i32 : Reader.i32.Gives fun _ => True :=
  u32.bind fun _ _ => pure trivial

theorem take (n : Nat) : (Reader.take n).Gives fun bytes => bytes.length = n := by
  intro c a c' h
  unfold Reader.take at h
  split at h
  · next bytes rest hsplit =>
    obtain ⟨rfl, rfl⟩ := Prod.mk.inj (Except.ok.inj h)
    obtain ⟨hrest, hlen⟩ := splitFirstAux_eq_some hsplit
    exact ⟨by simpa using hlen, bytes, by simpa using hrest, by simp_all⟩
  · cases h

theorem many (hr : r.Gives P) (n : Nat) :
    (Reader.many n r).Gives fun items => items.length = n ∧ ∀ a ∈ items, P a := by
  have haux : ∀ (n : Nat) (done : List α), (manyAux r done n).Gives fun items =>
      ∃ tail, items = done.reverse ++ tail ∧ tail.length = n ∧ ∀ a ∈ tail, P a := by
    intro n
    induction n with
    | zero => exact fun done => pure ⟨[], by simp⟩
    | succ n ih =>
      refine fun done => hr.bind fun a ha => (ih (a :: done)).mono ?_
      rintro items ⟨tail, rfl, hlen, htail⟩
      exact ⟨a :: tail, by simp, by simp [hlen], List.forall_mem_cons.mpr ⟨ha, htail⟩⟩
  refine (haux n []).mono ?_
  rintro items ⟨tail, rfl, hlen, htail⟩
  exact ⟨by simpa using hlen, by simpa using htail⟩

theorem counted (hr : r.Gives P) :
    (Reader.counted r).Gives fun items => items.length < 65536 ∧ ∀ a ∈ items, P a :=
  u16.bind fun n _ => (hr.many n.toNat).mono fun _ h => ⟨h.1 ▸ n.toNat_lt, h.2⟩

/-- The result of a run from the start of the bytes. -/
theorem run (hr : r.Gives P) {bytes : Bytes} {a : α} (h : r.run bytes = .ok a) : P a := by
  unfold Reader.run at h
  cases hc : r ⟨0, bytes⟩ with
  | error e => rw [hc] at h; cases h
  | ok p =>
    rw [hc] at h
    obtain rfl := Except.ok.inj h
    exact (hr _ p.1 p.2 hc).1

end Gives

end Reader

end ClassSynth

namespace ClassSynth.Reader

/-! ## What readers took

`r.Takes R` says that whatever the reader gives stands in the relation `R` to the bytes it took from
the front. It is the converse of `Reads`: for a writer `w`, a reader that takes exactly `w a` when
it gives `a` leaves no way to write other bytes than those that were read.
-/

variable {α β : Type}

/-- What the reader gives and the bytes it took are related. -/
def Takes (r : Reader α) (R : α → Bytes → Prop) : Prop :=
  ∀ c a c', r c = .ok (a, c') →
    ∃ bytes, R a bytes ∧ c.rest = bytes ++ c'.rest ∧ c'.offset = c.offset + bytes.length

namespace Takes

variable {r : Reader α} {R : α → Bytes → Prop}

theorem pure {a : α} (h : R a []) : (Pure.pure a : Reader α).Takes R := by
  intro c b c' hb
  obtain ⟨rfl, rfl⟩ := Prod.mk.inj (pure_eq_ok.mp hb)
  exact ⟨[], h, rfl, rfl⟩

theorem bind {f : α → Reader β} {S : β → Bytes → Prop} (hr : r.Takes R)
    (hf : ∀ a p, R a p → (f a).Takes fun b q => S b (p ++ q)) : (r >>= f).Takes S := by
  intro c b c'' h
  obtain ⟨a, c', ha, hb⟩ := bind_eq_ok.mp h
  obtain ⟨p, hp, hrest, hoffset⟩ := hr c a c' ha
  obtain ⟨q, hq, hrest', hoffset'⟩ := hf a p hp c' b c'' hb
  refine ⟨p ++ q, hq, ?_, ?_⟩
  · rw [hrest, hrest', List.append_assoc]
  · rw [hoffset', hoffset, List.length_append, Nat.add_assoc]

/-- A last step that takes nothing. -/
theorem map {g : α → β} {S : β → Bytes → Prop} (hr : r.Takes R)
    (h : ∀ a bytes, R a bytes → S (g a) bytes) : (r >>= fun a => Pure.pure (g a)).Takes S :=
  hr.bind fun a p hp => .pure (by simpa using h a p hp)

theorem mono {S : α → Bytes → Prop} (hr : r.Takes R) (h : ∀ a bytes, R a bytes → S a bytes) :
    r.Takes S := by
  intro c a c' ha
  obtain ⟨bytes, hR, hrest⟩ := hr c a c' ha
  exact ⟨bytes, h a bytes hR, hrest⟩

theorem fail {e : ClassFormatError} : (Reader.fail e : Reader α).Takes R := by
  intro c a c' h
  cases h

/-! ### Numbers -/

theorem u8 : Reader.u8.Takes fun n bytes => bytes = [n] := by
  intro c n c' h
  unfold Reader.u8 at h
  split at h
  · next a rest hrest =>
    obtain ⟨rfl, rfl⟩ := Prod.mk.inj (Except.ok.inj h)
    exact ⟨_, rfl, hrest, rfl⟩
  · cases h

theorem u16 : Reader.u16.Takes fun n bytes => bytes = Bytes.ofU16 n := by
  intro c n c' h
  unfold Reader.u16 at h
  split at h
  · next a b rest hrest =>
    obtain ⟨rfl, rfl⟩ := Prod.mk.inj (Except.ok.inj h)
    have ha : a.toNat < 256 := a.toNat_lt
    have hb : b.toNat < 256 := b.toNat_lt
    have hn : (a.toNat * 0x100 + b.toNat).toUInt16.toNat = a.toNat * 0x100 + b.toNat := by
      rw [Nat.toUInt16_eq, UInt16.toNat_ofNat']
      exact Nat.mod_eq_of_lt (by omega)
    have hhigh : ((a.toNat * 0x100 + b.toNat) / 0x100).toUInt8 = a := by
      apply UInt8.toNat_inj.mp
      simp only [Nat.toUInt8_eq, UInt8.toNat_ofNat']
      omega
    have hlow : (a.toNat * 0x100 + b.toNat).toUInt8 = b := by
      apply UInt8.toNat_inj.mp
      simp only [Nat.toUInt8_eq, UInt8.toNat_ofNat']
      omega
    refine ⟨_, rfl, ?_, rfl⟩
    rw [hrest, Bytes.ofU16, hn, hhigh, hlow]
    rfl
  · cases h

theorem u32 : Reader.u32.Takes fun n bytes => bytes = Bytes.ofU32 n := by
  intro c n c' h
  unfold Reader.u32 at h
  split at h
  · next a b d e rest hrest =>
    obtain ⟨rfl, rfl⟩ := Prod.mk.inj (Except.ok.inj h)
    have ha : a.toNat < 256 := a.toNat_lt
    have hb : b.toNat < 256 := b.toNat_lt
    have hd : d.toNat < 256 := d.toNat_lt
    have he : e.toNat < 256 := e.toNat_lt
    have hn : (a.toNat * 0x1000000 + b.toNat * 0x10000 + d.toNat * 0x100 + e.toNat).toUInt32.toNat
        = a.toNat * 0x1000000 + b.toNat * 0x10000 + d.toNat * 0x100 + e.toNat := by
      rw [Nat.toUInt32_eq, UInt32.toNat_ofNat']
      exact Nat.mod_eq_of_lt (by omega)
    have hdigit : ∀ (k : Nat) (x : UInt8), k % 256 = x.toNat → k.toUInt8 = x := by
      intro k x hk
      apply UInt8.toNat_inj.mp
      rwa [Nat.toUInt8_eq, UInt8.toNat_ofNat']
    refine ⟨_, rfl, ?_, rfl⟩
    rw [hrest, Bytes.ofU32, hn, hdigit _ a (by omega), hdigit _ b (by omega), hdigit _ d (by omega),
      hdigit _ e (by omega)]
    rfl
  · cases h

theorem u64 : Reader.u64.Takes fun n bytes => bytes = Bytes.ofU64 n := by
  refine u32.bind fun high p hp => u32.bind fun low q hq => .pure ?_
  have hhigh : high.toNat < 4294967296 := high.toNat_lt
  have hlow : low.toNat < 4294967296 := low.toNat_lt
  have hn : (high.toNat * 0x100000000 + low.toNat).toUInt64.toNat
      = high.toNat * 0x100000000 + low.toNat := by
    rw [Nat.toUInt64_eq, UInt64.toNat_ofNat']
    exact Nat.mod_eq_of_lt (by omega)
  have hfirst : ((high.toNat * 0x100000000 + low.toNat) / 0x100000000).toUInt32 = high := by
    apply UInt32.toNat_inj.mp
    simp only [Nat.toUInt32_eq, UInt32.toNat_ofNat']
    omega
  have hsecond : (high.toNat * 0x100000000 + low.toNat).toUInt32 = low := by
    apply UInt32.toNat_inj.mp
    simp only [Nat.toUInt32_eq, UInt32.toNat_ofNat']
    omega
  rw [hp, hq, Bytes.ofU64, hn, hfirst, hsecond, List.append_nil]

theorem i32 : Reader.i32.Takes fun n bytes => bytes = Bytes.ofI32 n :=
  u32.map fun n bytes h => by rw [h, Bytes.ofI32, UInt32.toUInt32_toInt32]

theorem take (n : Nat) : (Reader.take n).Takes fun a bytes => bytes = a ∧ a.length = n := by
  intro c a c' h
  unfold Reader.take at h
  split at h
  · next bytes rest hsplit =>
    obtain ⟨rfl, rfl⟩ := Prod.mk.inj (Except.ok.inj h)
    obtain ⟨hrest, hlen⟩ := splitFirstAux_eq_some hsplit
    have hlen : bytes.length = n := by simpa using hlen
    exact ⟨bytes, ⟨rfl, hlen⟩, by simpa using hrest, by rw [hlen]⟩
  · cases h

/-! ### Lists -/

theorem many {write : α → Bytes} (hr : r.Takes fun a bytes => bytes = write a) (n : Nat) :
    (Reader.many n r).Takes fun items bytes => bytes = items.flatMap write ∧ items.length = n := by
  have haux : ∀ (n : Nat) (done : List α), (manyAux r done n).Takes fun items bytes =>
      ∃ tail, items = done.reverse ++ tail ∧ bytes = tail.flatMap write ∧ tail.length = n := by
    intro n
    induction n with
    | zero => exact fun done => pure ⟨[], by simp⟩
    | succ n ih =>
      refine fun done => hr.bind fun a p hp => (ih (a :: done)).mono ?_
      rintro items bytes ⟨tail, rfl, rfl, hlen⟩
      exact ⟨a :: tail, by simp, by rw [hp, List.flatMap_cons], by simp [hlen]⟩
  refine (haux n []).mono ?_
  rintro items bytes ⟨tail, rfl, rfl, hlen⟩
  exact ⟨by simp, by simpa using hlen⟩

theorem counted {write : α → Bytes} (hr : r.Takes fun a bytes => bytes = write a) :
    (Reader.counted r).Takes fun items bytes =>
      bytes = Bytes.counted write items ∧ items.length ≤ 65535 := by
  refine u16.bind fun n p hp => (hr.many n.toNat).mono ?_
  rintro items bytes ⟨rfl, hlen⟩
  refine ⟨?_, hlen ▸ Nat.le_of_lt_succ n.toNat_lt⟩
  rw [Bytes.counted, Bytes.ofCount, hlen, hp]
  simp

end Takes

end ClassSynth.Reader
