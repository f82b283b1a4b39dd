import ClassSynth.Proofs.Emit.Run
import ClassSynth.Proofs.Emit.Steps

/-!
# Room for local variables

A store beyond slot 255 takes four bytes, twice as many as a value has slots. The code of a method
has at most 65535 bytes, so a method that starts with few slots never runs out of numbers for its
local variables (`maxLocals_lt`).
-/

namespace ClassSynth

open Emit

theorem TypeName.slotSize_le (t : TypeName) : t.slotSize ≤ 2 := by
  rw [slotSize]
  split_ifs <;> decide

theorem VerificationType.length_slots_le (t : VerificationType) : t.slots.length ≤ 2 := by
  rw [slots]
  split_ifs <;> simp

namespace Emitter

/-- Slots beyond the first 257 are paid for by code. -/
structure Roomy (e : Emitter) : Prop where
  named : ∀ l ∈ e.named, l.slot ≤ e.nextLocal
  next : 2 * e.nextLocal ≤ 514 + e.pc
  max : 2 * e.maxLocals ≤ 514 + e.pc

variable {e e' : Emitter}

/-- Code that declares and assigns no local variables. -/
theorem Roomy.of_steps {floor : Nat} (h : e.Roomy) (hto : Steps false floor e e') : e'.Roomy := by
  obtain ⟨hnamed, hnext, hmax⟩ := hto.sameLocals
  have hpc := hto.pc_le
  have hroom := h.next
  have hroom' := h.max
  exact ⟨by rw [hnamed, hnext]; exact h.named, by omega, by omega⟩

end Emitter

namespace Emit

open Emitter

variable {ctx : MethodContext} {e e' : Emitter} {u : Unit}

/-- An instruction for a slot beyond the first 256 takes four bytes. -/
theorem sizeAt_slotForm {opcode0 opcode : UInt8} {slot : Nat} (h : 255 < slot) (pc : Nat) :
    (slotForm opcode0 opcode slot).sizeAt pc = 4 := by
  rw [slotForm, if_neg (by omega), decide_eq_true h]
  rfl

/-- A store pays for its slots. -/
theorem roomy_store {t : TypeName} {slot : Nat} (hrun : Runs (store t slot) ctx e u e')
    (hnamed : ∀ l ∈ e.named, l.slot ≤ e.nextLocal)
    (hnext : 2 * e.nextLocal ≤ 514 + e.pc ∨ e.nextLocal ≤ slot + 2)
    (hslot : 2 * slot ≤ 514 + e.pc) (hmax : 2 * e.maxLocals ≤ 514 + e.pc) : e'.Roomy := by
  unfold store at hrun
  rw [runs_pop_bind] at hrun
  obtain ⟨s, _, hrun⟩ := hrun
  obtain ⟨_, e₁, hinstruction, hrun⟩ := runs_bind.mp hrun
  obtain rfl := runs_slotInstruction.mp hinstruction
  rw [runs_addConstants_bind, runs_setLocal] at hrun
  have hlength := ((verificationType t).run e.pool).1.length_slots_le
  have hnamed' : e'.named = e.named := by rw [hrun]; rfl
  have hnext' : e'.nextLocal = e.nextLocal := by rw [hrun]; rfl
  have hmax' : e'.maxLocals
      = max e.maxLocals (slot + ((verificationType t).run e.pool).1.slots.length) := by
    rw [hrun]
    rfl
  have hpc' : e'.pc = e.pc + (storeForm (ValueKind.ofType t) slot).sizeAt e.pc := by rw [hrun]; rfl
  have hpaid : 2 * slot + 4 ≤ 514 + e'.pc := by
    rcases Nat.lt_or_ge 255 slot with hfar | hnear
    · rw [hpc', storeForm, sizeAt_slotForm hfar]
      omega
    · omega
  exact ⟨by rw [hnamed', hnext']; exact hnamed, by omega, by omega⟩

theorem roomy_declare {name : String} {type : TypeName} {value : Expr}
    (hrun : Runs (stmt (.declareLocal name type value)) ctx e u e') (h : e.Roomy) : e'.Roomy := by
  rw [stmt] at hrun
  obtain ⟨_, e₁, hvalue, hrun⟩ := runs_bind.mp hrun
  rw [runs_declare_bind] at hrun
  have h₁ : e₁.Roomy :=
    h.of_steps (advances_expr value _ .value trivial ctx e _ e₁ (Nat.zero_le _) hvalue)
  have hsize := type.slotSize_le
  refine roomy_store hrun (fun l hl => ?_) (.inr (Nat.add_le_add_left hsize _)) h₁.next h₁.max
  rcases List.mem_cons.mp hl with rfl | hl
  · exact Nat.le_add_right _ _
  · exact Nat.le_trans (h₁.named l hl) (Nat.le_add_right _ _)

theorem roomy_assign {name : String} {value : Expr}
    (hrun : Runs (stmt (.setLocal name value)) ctx e u e') (h : e.Roomy) : e'.Roomy := by
  rw [stmt] at hrun
  obtain ⟨l, e₀, hfind, hrun⟩ := runs_bind.mp hrun
  obtain ⟨hl, hsame⟩ := runs_findLocal.mp hfind
  rw [hsame] at hrun
  obtain ⟨_, e₁, hvalue, hrun⟩ := runs_bind.mp hrun
  have hto : Steps false 0 e e₁ :=
    advances_expr value _ .value trivial ctx e _ e₁ (Nat.zero_le _) hvalue
  have h₁ : e₁.Roomy := h.of_steps hto
  have hslot : l.slot ≤ e₁.nextLocal := by
    rw [hto.sameLocals.nextLocal]
    exact h.named l (List.mem_of_find?_eq_some hl)
  have hnext := h₁.next
  exact roomy_store hrun h₁.named (.inl h₁.next) (by omega) h₁.max

mutual

theorem roomy_stmt : (s : Stmt) → {e e' : Emitter} → {u : Unit} → Runs (stmt s) ctx e u e' →
    e.Roomy → e'.Roomy
  | .declareLocal _ _ _, _, _, _, hrun, h => roomy_declare hrun h
  | .setLocal _ _, _, _, _, hrun, h => roomy_assign hrun h
  | .ifThen cond body, e, e', u, hrun, h => by
    rw [stmt, runs_newLabel_bind] at hrun
    obtain ⟨_, e₁, hcond, hrun⟩ := runs_bind.mp hrun
    obtain ⟨_, e₂, hbody, hplace⟩ := runs_bind.mp hrun
    have hlabel : Steps false 0 e { e with labels := e.labels.push {} } := .single (.newLabel e)
    have hcond' : Steps false (e.labels.size + 1) { e with labels := e.labels.push {} } e₁ :=
      advances_expr cond _ (.jumpIfFalse e.labels.size) (Nat.lt_succ_self _) ctx _ _ e₁ (by simp)
        hcond
    have hbody' : Steps true (e.labels.size + 1) e₁ e₂ := advances_stmts body _ ctx _ _ e₂
      (Nat.le_trans (by simp) hcond'.size_labels_le) hbody
    have hlast : Steps false 0 e₂ e' :=
      steps_placeNew ((hcond'.mono nofun (Nat.le_refl _)).trans hbody') hplace (Nat.zero_le _)
    exact (roomy_stmts body hbody ((h.of_steps hlabel).of_steps hcond')).of_steps hlast
  | .setField target field value, e, e', u, hrun, h =>
    h.of_steps (advances_setField target field value 0 ctx e u e' (Nat.zero_le _) hrun)
  | .expr value, e, e', u, hrun, h =>
    h.of_steps (advances_exprStmt value 0 ctx e u e' (Nat.zero_le _) hrun)
  | .ret value?, e, e', u, hrun, h =>
    h.of_steps (advances_retStmt value? 0 ctx e u e' (Nat.zero_le _) hrun)
  | .throw value, e, e', u, hrun, h =>
    h.of_steps (advances_throw value 0 ctx e u e' (Nat.zero_le _) hrun)
  | .superInit owner params args, e, e', u, hrun, h =>
    h.of_steps (advances_superInit owner params args 0 ctx e u e' (Nat.zero_le _) hrun)

theorem roomy_stmts : (ss : List Stmt) → {e e' : Emitter} → {u : Unit} →
    Runs (stmts ss) ctx e u e' → e.Roomy → e'.Roomy
  | [], _, _, _, hrun, h => by
    rw [stmts] at hrun
    obtain ⟨_, rfl⟩ := runs_pure.mp hrun
    exact h
  | s :: ss, e, e', u, hrun, h => by
    rw [stmts] at hrun
    obtain ⟨_, e₁, hcheck, hrun⟩ := runs_bind.mp hrun
    obtain ⟨_, e₂, hstmt, hstmts⟩ := runs_bind.mp hrun
    rw [checkReachable, runs_get_bind, runs_check] at hcheck
    rw [hcheck.2] at hstmt
    exact roomy_stmts ss hstmts (roomy_stmt s hstmt h)

end

/-- A method that starts with at most 255 slots has local variables within 16 bits. -/
theorem maxLocals_lt {body : List Stmt} {pool : ConstantPool} {f : Emitter}
    (hentry : (start ctx pool).entry.length ≤ 255)
    (hrun : Runs (do stmts body; endMethod) ctx (start ctx pool) () f) (hpc : f.pc ≤ 65535) :
    f.maxLocals < 65536 := by
  obtain ⟨_, e, hstmts, hend⟩ := runs_bind.mp hrun
  have hmax : (start ctx pool).maxLocals = (start ctx pool).entry.length := rfl
  have hnext := nextLocal_start (Nat.le_trans hentry (by decide : 255 ≤ 65535))
  have hstart : (start ctx pool).Roomy := ⟨nofun, by omega, by omega⟩
  have hroomy := roomy_stmts body hstmts hstart
  have hlast : e.pc ≤ f.pc ∧ f.maxLocals = e.maxLocals := by
    rcases runs_endMethod hend with ⟨_, rfl⟩ | ⟨_, _, rfl⟩
    · exact ⟨Nat.le_refl _, rfl⟩
    · exact ⟨Nat.le_add_right _ _, rfl⟩
  have hroom := hroomy.max
  omega

end Emit

end ClassSynth
