import ClassSynth.Proofs.Checked
import ClassSynth.Proofs.Emit.History
import ClassSynth.Proofs.Verifier.Balanced
import ClassSynth.Proofs.Verifier.Moves
import Mathlib.Order.Defs.PartialOrder

/-!
# States that meet at labels

States are ordered by what they leave open: further up, `null` on the stack may have become an
object, and local variables may have been forgotten. In this order the merge of two states is their
least upper bound, and it fails exactly where they have none. Both are one equivalence: the merge
is at most `t` if and only if the two states are (`atMost_merge`). States that are merged one after
the other are then at most `t` if and only if all of them are (`atMost_foldlM`), which does not
mention their order; and an outcome is known by the states that it is at most (`eq_ok_of_atMost`).
So states merge to the same state in every order, or in none (`mergeTo_of_atMost`).

The emitter merges the states that reach a label as it meets them: each jump merges its state into
the one that the label holds, and the place of the label merges this one with what control brings
along. Each of these outcomes is the least upper bound of the states met so far (`atMost_joined`,
`atMost_arriving`), along the whole way through a body (`Reflects`).

Main result: `merged_in_any_order`.
-/

namespace ClassSynth

/-! ## The order of states -/

namespace VerificationType

/-- The type says no more of a stack entry: `null` is an instance of every class. -/
def EntryLE (a b : VerificationType) : Prop :=
  a = b ∨ a = null ∧ ∃ classIndex, b = object classIndex

variable {a b c t : VerificationType} {as bs cs ts : List VerificationType}

theorem EntryLE.refl (a : VerificationType) : EntryLE a a := .inl rfl

theorem EntryLE.trans (h : EntryLE a b) (h' : EntryLE b c) : EntryLE a c := by
  rcases h with rfl | ⟨rfl, i, rfl⟩
  · exact h'
  · rcases h' with rfl | ⟨h, _⟩
    · exact .inr ⟨rfl, i, rfl⟩
    · cases h

theorem EntryLE.antisymm (h : EntryLE a b) (h' : EntryLE b a) : a = b := by
  rcases h with rfl | ⟨rfl, i, rfl⟩
  · rfl
  · rcases h' with h | ⟨h, _⟩
    · exact h.symm
    · cases h

/-- The stack says no more of its entries. -/
abbrev StackLE (as bs : List VerificationType) : Prop := List.Forall₂ EntryLE as bs

theorem stackLE_cons : StackLE (a :: as) (b :: bs) ↔ EntryLE a b ∧ StackLE as bs :=
  List.forall₂_cons

theorem StackLE.refl (as : List VerificationType) : StackLE as as :=
  List.forall₂_same.mpr fun a _ => .refl a

theorem StackLE.trans (h : StackLE as bs) (h' : StackLE bs cs) : StackLE as cs := by
  induction h generalizing cs with
  | nil => exact h'
  | cons hfirst _ ih =>
    cases h' with
    | cons hfirst' hrest' => exact .cons (hfirst.trans hfirst') (ih hrest')

theorem StackLE.antisymm (h : StackLE as bs) (h' : StackLE bs as) : as = bs := by
  induction h with
  | nil => rfl
  | cons hfirst _ ih =>
    cases h' with
    | cons hfirst' hrest' => rw [hfirst.antisymm hfirst', ih hrest']

/-- The local variables hold no more than `top` or what they held, and may be fewer. -/
def LocalsLE (as bs : List VerificationType) : Prop :=
  bs.length ≤ as.length ∧ ∀ (j : Nat) (u : VerificationType), bs[j]? = some u →
    u = .top ∨ as[j]? = some u

theorem LocalsLE.refl (as : List VerificationType) : LocalsLE as as :=
  ⟨Nat.le_refl _, fun _ _ h => .inr h⟩

theorem LocalsLE.trans (h : LocalsLE as bs) (h' : LocalsLE bs cs) : LocalsLE as cs :=
  ⟨Nat.le_trans h'.1 h.1, fun j u hu => (h'.2 j u hu).elim .inl (h.2 j u)⟩

theorem LocalsLE.antisymm (h : LocalsLE as bs) (h' : LocalsLE bs as) : as = bs := by
  have hlength : as.length = bs.length := Nat.le_antisymm h'.1 h.1
  refine List.ext_getElem hlength fun j ha hb => ?_
  rcases h.2 j bs[j] (List.getElem?_eq_getElem hb) with htop | hsame
  · -- the later list holds `top`, so the earlier one can hold nothing else
    rcases h'.2 j as[j] (List.getElem?_eq_getElem ha) with htop' | hsame
    · rw [htop, htop']
    · exact (List.getElem_eq_iff hb).mpr hsame |>.symm
  · exact (List.getElem_eq_iff ha).mpr hsame

end VerificationType

namespace SlotState

open VerificationType

/-- States are ordered by what they leave open. -/
instance : PartialOrder SlotState where
  le s t := StackLE s.stack t.stack ∧ LocalsLE s.locals t.locals
  le_refl s := ⟨.refl s.stack, .refl s.locals⟩
  le_trans _ _ _ h h' := ⟨h.1.trans h'.1, h.2.trans h'.2⟩
  le_antisymm s t h h' := by
    have hstack := h.1.antisymm h'.1
    have hlocals := h.2.antisymm h'.2
    calc s = ⟨s.locals, s.stack⟩ := rfl
      _ = t := by rw [hlocals, hstack]

/-! ## Merging entries, stacks and local variables -/

section

variable {a b t : VerificationType} {as bs ts : List VerificationType}

theorem exists_mergeEntry_le :
    (∃ c, mergeEntry a b = .ok c ∧ EntryLE c t) ↔ EntryLE a t ∧ EntryLE b t := by
  unfold mergeEntry
  split_ifs with hab
  · subst hab
    simp
  · split
    · next i =>
      constructor
      · rintro ⟨_, heq, h⟩
        obtain rfl := Except.ok.inj heq
        exact ⟨EntryLE.trans (.inr ⟨rfl, i, rfl⟩) h, h⟩
      · exact fun h => ⟨_, rfl, h.2⟩
    · next i =>
      constructor
      · rintro ⟨_, heq, h⟩
        obtain rfl := Except.ok.inj heq
        exact ⟨h, EntryLE.trans (.inr ⟨rfl, i, rfl⟩) h⟩
      · exact fun h => ⟨_, rfl, h.1⟩
    · next hright hleft =>
      -- types that are at most a third one are the same, or `null` and an object
      constructor
      · rintro ⟨_, h, _⟩
        cases h
      · rintro ⟨rfl | ⟨rfl, i, rfl⟩, rfl | ⟨rfl, j, h⟩⟩
        · exact absurd rfl hab
        · exact (hleft j h rfl).elim
        · exact (hright i rfl rfl).elim
        · exact absurd rfl hab

theorem exists_mergeStacks_le (hlength : as.length = bs.length) :
    (∃ cs, mergeStacks as bs = .ok cs ∧ StackLE cs ts) ↔ StackLE as ts ∧ StackLE bs ts := by
  induction as generalizing bs ts with
  | nil =>
    obtain rfl := List.length_eq_zero_iff.mp hlength.symm
    simp [mergeStacks]
  | cons a as ih =>
    cases bs with
    | nil => cases hlength
    | cons b bs =>
      simp only [mergeStacks, Checked.bind_eq_ok, Checked.pure_eq_ok]
      cases ts with
      | nil => simp
      | cons t ts =>
        rw [stackLE_cons, stackLE_cons, and_and_and_comm, ← ih (Nat.succ.inj hlength),
          ← exists_mergeEntry_le]
        constructor
        · rintro ⟨_, ⟨c, hc, cs, hcs, rfl⟩, h⟩
          obtain ⟨hfirst, hrest⟩ := stackLE_cons.mp h
          exact ⟨⟨c, hc, hfirst⟩, cs, hcs, hrest⟩
        · rintro ⟨⟨c, hc, hfirst⟩, cs, hcs, hrest⟩
          exact ⟨_, ⟨c, hc, cs, hcs, rfl⟩, .cons hfirst hrest⟩

theorem mergeLocals_le :
    LocalsLE (List.zipWith mergeLocal as bs) ts ↔ LocalsLE as ts ∧ LocalsLE bs ts := by
  unfold LocalsLE
  rw [List.length_zipWith, Nat.le_min]
  constructor
  · rintro ⟨⟨ha, hb⟩, h⟩
    have hboth : ∀ (j : Nat) (u : VerificationType), ts[j]? = some u →
        u = .top ∨ as[j]? = some u ∧ bs[j]? = some u :=
      fun j u hu => (h j u hu).elim .inl getElem?_mergeLocals
    exact ⟨⟨ha, fun j u hu => (hboth j u hu).imp_right And.left⟩,
      hb, fun j u hu => (hboth j u hu).imp_right And.right⟩
  · rintro ⟨⟨ha, hleft⟩, hb, hright⟩
    refine ⟨⟨ha, hb⟩, fun j u hu => ?_⟩
    rcases hleft j u hu with htop | haj
    · exact .inl htop
    · refine (hright j u hu).imp_right fun hbj => ?_
      exact List.getElem?_zipWith_eq_some.mpr ⟨u, u, haj, hbj, if_pos rfl⟩

end

/-! ## Merging states -/

variable {a b c s t : SlotState} {x y : Except CodeGenError SlotState}

/-- There is an outcome, and it is at most the state. -/
def AtMost (x : Except CodeGenError SlotState) (t : SlotState) : Prop :=
  ∃ s, x = .ok s ∧ s ≤ t

@[simp] theorem atMost_ok : AtMost (.ok s) t ↔ s ≤ t := by
  simp [AtMost]

/-- An outcome is known by the states that it is at most. -/
theorem eq_ok_of_atMost (h : ∀ t, AtMost x t ↔ AtMost y t) : x = .ok s ↔ y = .ok s := by
  have himp : ∀ {x y : Except CodeGenError SlotState}, (∀ t, AtMost x t ↔ AtMost y t) →
      x = .ok s → y = .ok s := by
    rintro _ y h rfl
    obtain ⟨u, rfl, hle⟩ := (h s).mp ⟨s, rfl, le_refl s⟩
    have hge : s ≤ u := atMost_ok.mp ((h u).mpr ⟨u, rfl, le_refl u⟩)
    rw [le_antisymm hle hge]
  exact ⟨himp h, himp fun t => (h t).symm⟩

/-- Outcomes that are at most the same states agree, apart from the texts of their errors. -/
theorem toOption_eq_of_atMost (h : ∀ t, AtMost x t ↔ AtMost y t) : x.toOption = y.toOption := by
  have heq : ∀ s, x = .ok s ↔ y = .ok s := fun s => eq_ok_of_atMost h
  cases x with
  | ok s => rw [(heq s).mp rfl]
  | error cause =>
    cases y with
    | ok s => cases (heq s).mpr rfl
    | error cause' => rfl

/-- The merge of two states is their least upper bound. -/
@[simp] theorem atMost_merge : AtMost (a.merge b) t ↔ a ≤ t ∧ b ≤ t := by
  change _ ↔ (StackLE a.stack t.stack ∧ LocalsLE a.locals t.locals) ∧
    (StackLE b.stack t.stack ∧ LocalsLE b.locals t.locals)
  unfold merge AtMost
  split_ifs with hlength
  · refine ⟨fun ⟨_, h, _⟩ => (nomatch h), fun ⟨ha, hb⟩ => absurd ?_ hlength⟩
    rw [ha.1.length_eq, hb.1.length_eq]
  · rw [and_and_and_comm, ← exists_mergeStacks_le (not_not.mp hlength), ← mergeLocals_le]
    simp only [Checked.bind_eq_ok, Checked.pure_eq_ok]
    constructor
    · rintro ⟨_, ⟨stack, hstack, rfl⟩, hle⟩
      exact ⟨⟨stack, hstack, hle.1⟩, hle.2⟩
    · rintro ⟨⟨stack, hstack, hle⟩, hlocals⟩
      exact ⟨_, ⟨stack, hstack, rfl⟩, hle, hlocals⟩

@[simp] theorem atMost_bind_merge_left : AtMost (x >>= (·.merge b)) t ↔ AtMost x t ∧ b ≤ t := by
  cases x with
  | error cause => simp [AtMost, bind, Except.bind]
  | ok a => exact atMost_merge.trans (and_congr_left' atMost_ok.symm)

@[simp] theorem atMost_bind_merge_right : AtMost (x >>= a.merge) t ↔ a ≤ t ∧ AtMost x t := by
  cases x with
  | error cause => simp [AtMost, bind, Except.bind]
  | ok b => exact atMost_merge.trans (and_congr_right' atMost_ok.symm)

theorem toOption_merge_comm (a b : SlotState) : (a.merge b).toOption = (b.merge a).toOption :=
  toOption_eq_of_atMost fun _ => by rw [atMost_merge, atMost_merge, and_comm]

theorem toOption_merge_assoc (a b c : SlotState) :
    (a.merge b >>= (·.merge c)).toOption = (b.merge c >>= a.merge).toOption :=
  toOption_eq_of_atMost fun _ => by
    rw [atMost_bind_merge_left, atMost_bind_merge_right, atMost_merge, atMost_merge, and_assoc]

/-- States that are merged one after the other make the least upper bound of all of them. -/
theorem atMost_foldlM {ss : List SlotState} :
    AtMost (ss.foldlM merge s) t ↔ ∀ u ∈ s :: ss, u ≤ t := by
  induction ss using List.reverseRecOn with
  | nil => simp [pure, Except.pure]
  | append_singleton ss u ih =>
    rw [List.foldlM_append]
    have hlast : (fun v => [u].foldlM merge v) = fun v => merge v u := by
      funext v
      simp
    rw [hlast, atMost_bind_merge_left, ih, ← List.cons_append]
    simp only [List.forall_mem_append, List.forall_mem_singleton]

/-- In every order the states merge to what the outcome holds of, and fail if there is none. -/
def MergeTo (ss : List SlotState) (outcome : SlotState → Prop) : Prop :=
  ∀ (first : SlotState) (rest : List SlotState), (first :: rest).Perm ss →
    ∀ s, outcome s ↔ rest.foldlM merge first = .ok s

/-- The least upper bound of states is what they merge to. -/
theorem mergeTo_of_atMost {ss : List SlotState} {outcome : SlotState → Prop}
    (houtcome : ∀ s, outcome s ↔ x = .ok s) (hx : ∀ t, AtMost x t ↔ ∀ u ∈ ss, u ≤ t) :
    MergeTo ss outcome := by
  refine fun first rest hperm s => (houtcome s).trans (eq_ok_of_atMost fun t => ?_)
  rw [hx, atMost_foldlM]
  exact forall_congr' fun u => by rw [hperm.mem_iff]

end SlotState

/-! ## States that are handed to labels -/

/-- The state that control brings along to the next instruction, if it reaches it. -/
def Emitter.falling (e : Emitter) : List SlotState :=
  if e.reachable then [e.slots] else []

namespace Emit

open Emitter SlotState

variable {ctx : MethodContext} {e e' : Emitter} {l : Label}

/-- The state that a visit hands to the label by a jump. -/
def Visit.handed? (l : Label) (v : Visit) : Option SlotState :=
  match v.step with
  | .jump _ m slots => if m = l then v.emitter.slots.pop? slots else none
  | .place _ => none

/-- The states that jumps hand to the label, in the order of the jumps. -/
def handedTo (l : Label) (visits : List Visit) : List SlotState :=
  visits.filterMap (Visit.handed? l)

/-- The state is the least upper bound of the others; there is none before there are others. -/
def Joint (ss : List SlotState) : Option SlotState → Prop
  | none => ss = []
  | some s => ss ≠ [] ∧ ∀ t, s ≤ t ↔ ∀ u ∈ ss, u ≤ t

/-- What a jump leaves at its label. -/
theorem atMost_joined {info : LabelInfo} {s u : SlotState} {ss : List SlotState}
    (h : Joint ss info.state?) : AtMost (joined info s) u ↔ ∀ w ∈ ss ++ [s], w ≤ u := by
  rw [List.forall_mem_append, List.forall_mem_singleton]
  unfold joined
  cases hstate : info.state? with
  | none =>
    obtain rfl : ss = [] := by rwa [hstate] at h
    simp
  | some jumped =>
    rw [hstate] at h
    rw [atMost_merge, h.2]

/-- What is known behind the place of a label. -/
theorem atMost_arriving {jumped u : SlotState} {ss : List SlotState} (h : Joint ss (some jumped)) :
    AtMost (arriving e jumped) u ↔ ∀ w ∈ ss ++ e.falling, w ≤ u := by
  rw [List.forall_mem_append, ← h.2]
  unfold arriving falling
  split_ifs
  · rw [atMost_merge, List.forall_mem_singleton, and_comm]
  · simp

/-- A state that is known by what it is at most. -/
theorem Joint.of_eq_ok {ss : List SlotState} {s : SlotState} {x : Except CodeGenError SlotState}
    (hne : ss ≠ []) (hx : ∀ u, AtMost x u ↔ ∀ w ∈ ss, w ≤ u) (h : x = .ok s) :
    Joint ss (some s) :=
  ⟨hne, fun t => by rw [← hx, h, atMost_ok]⟩

/-! ## Along the way through a body -/

/-- The frame was recorded at a label that is jumped to, and sums up the states that met there. -/
structure RecordedAt (before : List Visit) (v : Visit) (l : Label) (f : Nat × SlotState) :
    Prop where
  step : v.step = .place l
  pc : v.emitter.pc = f.1
  jumps : handedTo l before ≠ []
  joint : Joint (handedTo l before ++ v.emitter.falling) (some f.2)

/-- The emitter after the visits. -/
structure Reflects (past : List Visit) (e : Emitter) : Prop where
  states : ∀ l, Joint (handedTo l past) (e.info l).state?
  placed : ∀ v ∈ past, ∀ l, v.step = .place l → (e.info l).placement? ≠ none
  frames : ∀ f ∈ e.frames, ∃ before v after l, past = before ++ v :: after ∧
    RecordedAt before v l f

namespace Reflects

variable {past : List Visit}

theorem start (ctx : MethodContext) (pool : ConstantPool) : Reflects [] (start ctx pool) where
  states := fun _ => rfl
  placed := nofun
  frames := nofun

theorem untouched (h : Reflects past e) (huntouched : e.Untouched e') : Reflects past e' where
  states := fun l => huntouched.info l ▸ h.states l
  placed := fun v hv l hl => huntouched.info l ▸ h.placed v hv l hl
  frames := huntouched.frames ▸ h.frames

/-- Frames stay recorded. -/
theorem recorded (h : Reflects past e) (v : Visit) : ∀ f ∈ e.frames, ∃ before w after l,
    past ++ [v] = before ++ w :: after ∧ RecordedAt before w l f := by
  intro f hf
  obtain ⟨before, w, after, l, rfl, hrecorded⟩ := h.frames f hf
  exact ⟨before, w, after ++ [v], l, by simp, hrecorded⟩

theorem handedTo_jump (past : List Visit) {opcode : UInt8} {l m : Label} {slots : Nat}
    {s : SlotState} (hs : e.slots.pop? slots = some s) :
    handedTo m (past ++ [⟨e, .jump opcode l slots⟩])
      = handedTo m past ++ if l = m then [s] else [] := by
  rw [handedTo, List.filterMap_append, ← handedTo]
  congr 1
  by_cases hlm : l = m
  · simp [Visit.handed?, hlm, hs]
  · simp [Visit.handed?, hlm]

theorem handedTo_place (past : List Visit) (l m : Label) :
    handedTo m (past ++ [⟨e, .place l⟩]) = handedTo m past := by
  rw [handedTo, List.filterMap_append, ← handedTo]
  simp [Visit.handed?]

theorem jump (h : Reflects past e) {opcode : UInt8} {slots : Nat} (hl : e.Pending l)
    (hruns : Runs (branch opcode l slots) ctx e () e') :
    Reflects (past ++ [⟨e, .jump opcode l slots⟩]) e' := by
  obtain ⟨s, joint, hs, hjoint, rfl⟩ := runs_branch.mp hruns
  refine ⟨fun m => ?_, fun v hv m hm => ?_, h.recorded _⟩
  · rw [handedTo_jump past hs]
    by_cases hlm : l = m
    · subst hlm
      rw [if_pos rfl, state_jumpTo { e with slots := s } opcode joint hl.known]
      exact .of_eq_ok (by simp) (fun u => atMost_joined (h.states l)) hjoint
    · rw [if_neg hlm, List.append_nil, info, jumpTo, getD_setIfInBounds, if_neg fun h => hlm h.1]
      exact h.states m
  · rw [placement_jumpTo]
    rcases List.mem_append.mp hv with hv | hv
    · exact h.placed v hv m hm
    · obtain rfl := List.mem_singleton.mp hv
      cases hm

theorem place (h : Reflects past e) (hl : e.Pending l) (hruns : Runs (Emit.place l) ctx e () e') :
    Reflects (past ++ [⟨e, .place l⟩]) e' := by
  have hplaced : Reflects (past ++ [⟨e, .place l⟩]) (Emit.placed e l) := by
    refine ⟨fun m => ?_, fun v hv m hm => ?_, h.recorded _⟩
    · rw [handedTo_place, state_placed]
      exact h.states m
    · by_cases hlm : l = m
      · rw [← hlm, placement_placed hl.known]
        exact Option.some_ne_none _
      · rw [info_placed_of_ne hlm]
        rcases List.mem_append.mp hv with hv | hv
        · exact h.placed v hv m hm
        · obtain rfl := List.mem_singleton.mp hv
          exact absurd (LabelStep.place.inj hm) hlm
  rcases runs_place.mp hruns with ⟨_, rfl⟩ | ⟨jumped, s, hstate, harriving, rfl⟩
  · exact hplaced
  · have hjumped : Joint (handedTo l past) (some jumped) := hstate ▸ h.states l
    refine { hplaced with frames := fun f hf => ?_ }
    rcases mem_recordFrame hf with rfl | hold
    · exact ⟨past, ⟨e, .place l⟩, [], l, rfl, rfl, rfl, hjumped.1,
        .of_eq_ok (by simp [hjumped.1]) (fun u => atMost_arriving hjumped) harriving⟩
    · exact h.recorded _ f hold

/-- Each visit of a label that stands nowhere yet is followed. -/
theorem visit {v : Visit} (h : Reflects past v.emitter) (hv : v.Timely)
    (hruns : Runs v.step.emit ctx v.emitter () e') : Reflects (past ++ [v]) e' := by
  obtain ⟨e, step⟩ := v
  cases step with
  | jump opcode l slots => exact h.jump hv hruns
  | place l => exact h.place hv hruns

end Reflects

/-- The emitter follows the visits on the way through a step. -/
theorem History.reflects {α : Type} {x : Emit α} {visits past : List Visit}
    (h : History ctx x e visits) (he : Reflects past e) :
    (∀ before v after, visits = before ++ v :: after → Reflects (past ++ before) v.emitter) ∧
      ∀ a e', Runs x ctx e a e' → Reflects (past ++ visits) e' :=
  h.invariant (fun _ _ _ huntouched hpast => hpast.untouched huntouched)
    (fun _ _ _ htimely hpast hruns => hpast.visit htimely hruns) he

/-! ## The order of the states -/

/-- What a visit makes of the states at its label does not depend on their order. -/
structure OrderFree (ctx : MethodContext) (before : List Visit) (v : Visit) (after : List Visit) :
    Prop where
  /-- A jump leaves at its label what the states of all jumps so far merge to. -/
  jump : ∀ opcode l slots s, v.step = .jump opcode l slots → v.emitter.slots.pop? slots = some s →
    MergeTo (handedTo l before ++ [s]) fun joint =>
      ∃ e', Runs (branch opcode l slots) ctx v.emitter () e' ∧ (e'.info l).state? = some joint
  /-- Control goes on from a label, with a frame, in what the states of the jumps and the state
  before the label merge to. -/
  place : ∀ l, v.step = .place l → handedTo l before ≠ [] →
    MergeTo (handedTo l before ++ v.emitter.falling) fun s =>
      ∃ e', Runs (Emit.place l) ctx v.emitter () e' ∧ e'.slots = s ∧
        e'.frames = recordFrame v.emitter.frames v.emitter.pc s
  /-- All jumps to a label come before its place. -/
  last : ∀ l, v.step = .place l → ∀ w ∈ after, w.step.label ≠ l

/-- The frame stands where a label is placed that is jumped to. It is what the states of the jumps
and the state before the label merge to in every order. -/
def Merged (visits : List Visit) (f : FrameState) : Prop :=
  ∃ before v after l s, visits = before ++ v :: after ∧ v.step = .place l ∧
    handedTo l before ≠ [] ∧ f = s.toFrame v.emitter.pc ∧
    MergeTo (handedTo l before ++ v.emitter.falling) (s = ·)

theorem Joint.mergeTo {ss : List SlotState} {s : SlotState} (h : Joint ss (some s)) :
    MergeTo ss (s = ·) :=
  mergeTo_of_atMost (fun _ => (Except.ok.injEq _ _).symm.to_iff) fun t => by rw [atMost_ok, h.2]

section

variable {before after visits : List Visit} {v : Visit}

theorem mergeTo_branch {opcode : UInt8} {slots : Nat} {s : SlotState} (h : Reflects before e)
    (hl : e.Pending l) (hs : e.slots.pop? slots = some s) :
    MergeTo (handedTo l before ++ [s]) fun joint =>
      ∃ e', Runs (branch opcode l slots) ctx e () e' ∧ (e'.info l).state? = some joint := by
  refine mergeTo_of_atMost (fun joint => ?_) fun t => atMost_joined (h.states l)
  constructor
  · rintro ⟨e', hruns, hstate⟩
    obtain ⟨s', joint', hs', hjoint, rfl⟩ := runs_branch.mp hruns
    rw [state_jumpTo { e with slots := s' } opcode joint' hl.known] at hstate
    rwa [← Option.some.inj hstate, ← Option.some.inj (hs'.symm.trans hs)]
  · exact fun hjoint => ⟨_, runs_branch.mpr ⟨s, joint, hs, hjoint, rfl⟩,
      state_jumpTo { e with slots := s } opcode joint hl.known⟩

theorem mergeTo_place (h : Reflects before e) (hjumps : handedTo l before ≠ []) :
    MergeTo (handedTo l before ++ e.falling) fun s =>
      ∃ e', Runs (Emit.place l) ctx e () e' ∧ e'.slots = s ∧
        e'.frames = recordFrame e.frames e.pc s := by
  obtain ⟨jumped, hstate⟩ : ∃ jumped, (e.info l).state? = some jumped := by
    refine Option.ne_none_iff_exists'.mp fun hnone => hjumps ?_
    have hjoint := h.states l
    rwa [hnone] at hjoint
  refine mergeTo_of_atMost (x := arriving e jumped) (fun s => ?_) fun t =>
    atMost_arriving (hstate ▸ h.states l)
  constructor
  · rintro ⟨e', hruns, rfl, _⟩
    rcases runs_place.mp hruns with ⟨hnone, _⟩ | ⟨jumped', s, hstate', harriving, rfl⟩
    · exact absurd (hstate.symm.trans hnone) (Option.some_ne_none jumped)
    · rwa [Option.some.inj (hstate.symm.trans hstate')]
  · exact fun harriving =>
      ⟨_, runs_place.mpr (.inr ⟨jumped, s, hstate, harriving, rfl⟩), rfl, rfl⟩

/-- A label that stands somewhere is not visited again. -/
theorem label_ne_of_placed {w : Visit} (h : Reflects before w.emitter) (hw : w.Timely)
    (hv : v ∈ before) (hplace : v.step = .place l) : w.step.label ≠ l := by
  rintro rfl
  exact h.placed v hv _ hplace hw.unplaced

theorem History.orderFree {α : Type} {x : Emit α} (h : History ctx x e visits)
    (he : Reflects [] e) (hvisits : visits = before ++ v :: after) :
    OrderFree ctx before v after := by
  have hreflects := (h.reflects he).1
  refine ⟨fun opcode l slots s hstep hs => ?_, fun l _ hjumps => ?_, fun l hstep w hw => ?_⟩
  · have hl : v.emitter.Pending v.step.label := h.timely v (by simp [hvisits])
    rw [hstep] at hl
    exact mergeTo_branch (hreflects before v after hvisits) hl hs
  · exact mergeTo_place (hreflects before v after hvisits) hjumps
  · obtain ⟨mid, rest, rfl⟩ := List.append_of_mem hw
    have hlater := hreflects (before ++ v :: mid) w rest (by simp [hvisits])
    exact label_ne_of_placed hlater (h.timely w (by simp [hvisits])) (by simp) hstep

end

/-! ## Frames -/

section

variable {body : List Stmt} {pool : ConstantPool} {visits : List Visit} {code : EmittedCode}

theorem Reflects.merged (h : Reflects visits e) {f : Nat × SlotState} (hf : f ∈ e.frames) :
    Merged visits (f.2.toFrame f.1) := by
  obtain ⟨before, v, after, l, hvisits, hrecorded⟩ := h.frames f hf
  exact ⟨before, v, after, l, f.2, hvisits, hrecorded.step, hrecorded.jumps, by rw [hrecorded.pc],
    hrecorded.joint.mergeTo⟩

theorem mem_frames_of_finish (h : finish e = .ok code) {f : FrameState} (hf : f ∈ code.frames) :
    ∃ g ∈ e.frames, f = g.2.toFrame g.1 := by
  obtain ⟨_, _, bytes, _, rfl⟩ := of_finish h
  obtain ⟨g, hg, rfl⟩ := List.mem_map.mp hf
  exact ⟨g, List.mem_reverse.mp hg, rfl⟩

theorem merged_of_emitMethod (hvisits : History ctx (stmts body) (start ctx pool) visits)
    (h : (emitMethod ctx body pool).1 = .ok code) : ∀ f ∈ code.frames, Merged visits f := by
  intro f hf
  obtain ⟨e, hruns, hfinish, _⟩ := of_runWith h
  obtain ⟨_, e₁, hbody, hend⟩ := runs_bind.mp hruns
  have hreflects : Reflects visits e₁ := (hvisits.reflects (.start ctx pool)).2 _ _ hbody
  have hframes : e.frames = e₁.frames := by
    rcases runs_endMethod hend with ⟨_, rfl⟩ | ⟨_, _, rfl⟩ <;> rfl
  obtain ⟨g, hg, rfl⟩ := mem_frames_of_finish hfinish hf
  exact hreflects.merged (hframes ▸ hg)

/-- What control from elsewhere finds behind a fragment whose end it does not reach. -/
def beyond (ctx : MethodContext) (pool : ConstantPool) (code : EmittedCode) : FrameState :=
  SlotState.toFrame { locals := (start ctx pool).entry, stack := [] } code.code.length

theorem mem_frames_of_fragmentEnd (hsteps : Steps true 0 (start ctx pool) e)
    (h : finish (fragmentEnd e) = .ok code) {f : FrameState} (hf : f ∈ code.frames) :
    (∃ g ∈ e.frames, f = g.2.toFrame g.1) ∨ f = beyond ctx pool code := by
  have hordered := ((Ordered.start ctx pool).steps hsteps).fragmentEnd
  obtain ⟨g, hg, rfl⟩ := mem_frames_of_finish h hf
  obtain ⟨_, _, bytes, hbytes, rfl⟩ := of_finish h
  have hlength : bytes.length = (fragmentEnd e).pc := hordered.length_of_encode hbytes
  unfold fragmentEnd at hg hlength
  split_ifs at hg hlength
  · exact .inl ⟨g, hg, rfl⟩
  · rcases mem_recordFrame hg with rfl | hg
    · right
      rw [beyond, hlength, ← hsteps.entry]
    · exact .inl ⟨g, hg, rfl⟩

theorem merged_of_emitFragment (hvisits : History ctx (stmts body) (start ctx pool) visits)
    (h : (emitFragment ctx body pool).1 = .ok code) :
    ∀ f ∈ code.frames, Merged visits f ∨ f = beyond ctx pool code := by
  intro f hf
  obtain ⟨e, hbody, hfinish, _⟩ := runs_of_emitFragment h
  have hreflects : Reflects visits e := (hvisits.reflects (.start ctx pool)).2 _ _ hbody
  have hsteps := advances_stmts body 0 ctx _ _ e (Nat.zero_le _) hbody
  refine (mem_frames_of_fragmentEnd hsteps hfinish hf).imp_left ?_
  rintro ⟨g, hg, rfl⟩
  exact hreflects.merged hg

end

/-- **Order of arrival.** Merging states is idempotent, commutative and associative, errors
included. So it makes no difference in which order a body jumps to a label and reaches it: every
jump, every place of a label and every frame has the outcome that merging the same states in any
order has. The one other frame stands behind a fragment whose end is not reached. -/
theorem merged_in_any_order :
    (∀ a : SlotState, a.merge a = .ok a) ∧
    (∀ a b : SlotState, (a.merge b).toOption = (b.merge a).toOption) ∧
    (∀ a b c : SlotState,
      (a.merge b >>= (·.merge c)).toOption = (b.merge c >>= a.merge).toOption) ∧
    ∀ (ctx : MethodContext) (body : List Stmt) (pool : ConstantPool),
      (∃ visits, History ctx (stmts body) (start ctx pool) visits) ∧
      ∀ visits, History ctx (stmts body) (start ctx pool) visits →
        (∀ before v after, visits = before ++ v :: after → OrderFree ctx before v after) ∧
        (∀ code, (emitMethod ctx body pool).1 = .ok code →
          ∀ f ∈ code.frames, Merged visits f) ∧
        ∀ code, (emitFragment ctx body pool).1 = .ok code →
          ∀ f ∈ code.frames, Merged visits f ∨ f = beyond ctx pool code := by
  refine ⟨merge_self, toOption_merge_comm, toOption_merge_assoc, fun ctx body pool => ?_⟩
  refine ⟨exists_history_stmts ctx body _, fun visits hvisits => ⟨?_, ?_, ?_⟩⟩
  · exact fun _ _ _ => hvisits.orderFree (.start ctx pool)
  · exact fun _ => merged_of_emitMethod hvisits
  · exact fun _ => merged_of_emitFragment hvisits

/-- A static method of two conditions. -/
def gate : MethodContext :=
  { className := ⟨"Gate"⟩, params := [⟨"boolean"⟩, ⟨"boolean"⟩], ret := ⟨"void"⟩
    isStatic := true }

/-- Either condition jumps behind the variable, and control gets there past it too. -/
def gateBody : List Stmt :=
  [.ifThen (.and [.param 1, .param 2]) [.declareLocal "passed" ⟨"int"⟩ (.int 1)]]

/-- The frame of three states that meet: the variable is there in one of them only. -/
theorem merged_in_any_order_gate :
    ∃ visits code, History gate (stmts gateBody) (start gate .empty) visits ∧
      (emitMethod gate gateBody .empty).1 = .ok code ∧
      code.frames = [⟨10, [.integer, .integer], []⟩] ∧ ∀ f ∈ code.frames, Merged visits f := by
  obtain ⟨⟨visits, hvisits⟩, hmerged⟩ := merged_in_any_order.2.2.2 gate gateBody .empty
  have hcode : (emitMethod gate gateBody .empty).1 = .ok
      { code := [26, 153, 0, 9, 27, 153, 0, 5, 4, 61, 177], maxStack := 1, maxLocals := 3
        frames := [⟨10, [.integer, .integer], []⟩] } := by decide +kernel
  exact ⟨visits, _, hvisits, hcode, rfl, (hmerged visits hvisits).2.1 _ hcode⟩

end Emit

end ClassSynth
