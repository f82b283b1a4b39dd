import ClassSynth.Proofs.Acceptance.Method
import ClassSynth.Proofs.Binding.Soundness

/-!
# Bound templates are emitted

A template that stands for an expression stands for one that can be a statement of a method of its
scope: the emitter accepts the method, as long as its code is not too long, and nothing is left on
the stack (`Scope.bind_sound`).
-/

namespace ClassSynth

/-- A body in which the expression is a statement. Where the method returns a value, an exception
comes in its place. -/
def MethodContext.bodyOf (ctx : MethodContext) (x : Expr) : List Stmt :=
  .expr x :: if ctx.ret.isVoid then [] else [.throw .null]

namespace Emit

open Emitter

variable {ctx : MethodContext} {scope : TypeScope} {e : Emitter} {pool : ConstantPool} {x : Expr}
  {t : TypeName} {k : Nat}

/-- An expression as a statement needs no labels and leaves the stack as it is. -/
theorem completes_exprStmt (ht : x.valueType? ctx.className ctx.params = some t)
    (hx : x.slots? ctx scope = some t.slotSize) (n : Nat) :
    Completes ctx scope (stmt (.expr x)) ⟨n, 0⟩ ⟨n, 0⟩ := by
  intro base e he
  obtain ⟨_, e₁, hrun₁, he₁, hstraight₁⟩ := completes_expr x hx n base e he
  obtain ⟨_, e₂, hrun₂, he₂, hstraight₂⟩ := ((completes_dropValue t).under n) base e₁ he₁
  rw [stmt]
  exact ⟨(), e₂, runs_bind.mpr ⟨_, e₁, hrun₁, runs_bind.mpr ⟨t, e₁, runs_typeOf.mpr ⟨ht, rfl⟩,
    hrun₂⟩⟩, he₂, hstraight₁.trans hstraight₂⟩

/-- A well-typed expression is a statement that is lowered. -/
theorem slotted_bodyOf (ht : x.valueType? ctx.className ctx.params = some t)
    (hx : x.slots? ctx [] = some t.slotSize) : Slotted false ctx (ctx.bodyOf x) := by
  have hstmt : Stmt.scopeAfter? false ctx [] (.expr x) = some [] := by
    rw [Stmt.scopeAfter?, ht, Option.any_some, Expr.yields_of_slots? hx, beq_self_eq_true]
    rfl
  unfold MethodContext.bodyOf
  cases hvoid : ctx.ret.isVoid with
  | true =>
    exact ⟨by simp [Stmt.scopeAfterAll?, hstmt], .inl hvoid⟩
  | false =>
    refine ⟨?_, .inr rfl⟩
    have hthrow : Stmt.scopeAfter? false ctx [] (.throw .null) = some [] := rfl
    simp [Stmt.scopeAfterAll?, hstmt, hthrow, Stmt.exits]

theorem eq_of_checkReachable {s : Stmt} {e' : Emitter}
    (h : Runs (checkReachable s) ctx e () e') : e' = e := by
  rw [checkReachable, runs_get_bind] at h
  exact (runs_check.mp h).2

/-- Lowering such a method makes no labels. -/
theorem labels_bodyOf (ht : x.valueType? ctx.className ctx.params = some t)
    (hx : x.slots? ctx [] = some t.slotSize)
    (hrun : Runs (do stmts (ctx.bodyOf x); endMethod) ctx (start ctx pool) () e) :
    e.labels = #[] := by
  obtain ⟨_, e₃, hstmts, hend⟩ := runs_bind.mp hrun
  rw [MethodContext.bodyOf, stmts] at hstmts
  obtain ⟨_, e₁, hcheck, hstmts⟩ := runs_bind.mp hstmts
  obtain rfl := eq_of_checkReachable hcheck
  obtain ⟨_, e₂, hexpr, hrest⟩ := runs_bind.mp hstmts
  have hfirst : e₂.labels = #[] := by
    have hlevel : Level ctx false [] (start ctx pool) := level_start nofun
    obtain ⟨_, e', hrun', -, hstraight⟩ := completes_exprStmt ht hx 0 0 _ hlevel.toPoised
    obtain rfl : e' = e₂ := congrArg Prod.snd (hrun'.symm.trans hexpr)
    exact hstraight.labels
  have hsecond : e₃.labels = e₂.labels := by
    split_ifs at hrest
    · rw [stmts] at hrest
      rw [(runs_pure.mp hrest).2]
    · simp only [stmts, stmt, expr, settle, bind_pure_comp, id_map', bind_assoc, map_bind,
        runs_bind, runs_instruction, runs_push, runs_pop, runs_endOfFlow, ↓existsAndEq, and_true,
        exists_const, exists_eq_left] at hrest
      obtain ⟨_, e', hcheck', s, -, rfl⟩ := hrest
      rw [← eq_of_checkReachable hcheck']
      rfl
  have hlast : e.labels = e₃.labels := by
    rcases runs_endMethod hend with ⟨_, hfinal⟩ | ⟨_, _, hfinal⟩ <;> rw [hfinal]
    rfl
  rw [hlast, hsecond, hfirst]

end Emit

namespace Scope

/-- A class that extends nothing, with the native method `int put(int)`. -/
def boxImpl : ClassUnit where
  name := ⟨"demo.Box"⟩
  file := {
    major := 52, flags := 0x21, thisClass := 2, superClass := 0
    pool := .pushAll .empty [.utf8 "demo/Box", .classRef 1, .utf8 "put", .utf8 "(I)I"]
    methods := [{ flags := 0x101, name := 3, descriptor := 4 }] }

/-- The scope of a method of the class with a parameter of type `byte`. -/
def boxScope : Scope where
  thisClass := ⟨"demo.Box"⟩
  current := some boxImpl
  params := [.ofPrimitive .byte]

/-- The method `void store(byte)`. -/
def boxMethod : MethodContext where
  className := ⟨"demo.Box"⟩
  params := [.ofPrimitive .byte]
  ret := .void

/-- The call `put($1)`. -/
def putCall : Expr :=
  .invokeVirtual .this
    { owner := ⟨"demo.Box"⟩, name := "put", params := [.int], ret := .int } [.param 1]

end Scope

end ClassSynth
