import ClassSynth.Proofs.Acceptance.Method
import ClassSynth.Proofs.ClassUnit.Operations
import ClassSynth.Proofs.Patch.Entering
import ClassSynth.Proofs.Synthesis.Checks

/-!
# Guarded methods

Guards of parameters, inserted before the body of a method, do what they are for
(`guarded_insertBefore`). If no guarded argument is `null`, the method gets to the first instruction
of its old code, as it was called. Else it throws the exception of the first guarded parameter that
is `null`, with the message of the guard.

Constants are numbered with 16 bits, and their number is not checked when one is added: beyond
65535 constants the instructions of the guards refer to other ones. The theorem has this as a
hypothesis.
-/

namespace ClassSynth

open Emit Emitter Synthesis ClassUnit Thrower
open Instruction (offsetIn)

namespace Thrower

/-- No exception range covers the instructions of a prologue. -/
theorem isCovered_prologue {withFrames : Bool} {prologue old new : CodeReading}
    {edited : IndexedBody} (h : PrologueEdit withFrames prologue old new edited) {k : Nat}
    (hk : k < prologue.code.length) : isCovered new.handlers (offsetIn edited.code k) = false := by
  refine List.any_eq_false.mpr fun n hn => ?_
  obtain ⟨hlength, hget⟩ := List.forall₂_iff_get.mp h.handlers_new
  obtain ⟨j, hj, rfl⟩ := List.getElem_of_mem hn
  have hnot := (hget j (hlength ▸ hj) hj).prologue _ (List.getElem_mem hk)
  rw [Prologued.shifted, h.prologueClosed.position_fst hk, h.offset_new] at hnot
  simpa [Covers] using hnot

/-- The argument for a parameter is `null`. Parameters are counted from one on. -/
def IsNull (args : List Argument) (index : Nat) : Prop :=
  args[index - 1]? = some (.reference none)

/-- Code that is entered in a state guards parameters: it goes on at an offset, or throws the
exception of the first guarded parameter that is `null`. -/
structure Guards (classes : ClassPool) (guarded : List (Nat × NonNullDirective))
    (code : CodeAttribute) (pool : ConstantPool) (args : List Argument) (s : State) (next : Nat) :
    Prop where
  passes : (∀ g ∈ guarded, ¬ IsNull args g.1) → Reaches code pool s { s with pc := next }
  throws : ∀ g ∈ guarded, IsNull args g.1 →
    (∀ g' ∈ guarded, g'.1 < g.1 → ¬ IsNull args g'.1) →
    ∃ exception, classes.lookup g.2.exception = .ok (some exception) ∧
      ThrowsNew code pool s exception.name.internalName (formatMessage g.2.message g.1)

variable {ctx : MethodContext} {gs : List CustomGuard} {args : List Argument} {s : State}

/-- The reference that a check loads is the argument of its guard. -/
theorem exists_checked (hs : Starts ctx args s) {g : CustomGuard} {t : TypeName}
    (hslot : ctx.paramSlot? g.index = some ((g.check ctx).slot, t)) (ht : t.isReference = true) :
    (g.check ctx).slot ≤ 65535 ∧
      (IsNull args g.index → s.locals[(g.check ctx).slot]? = some (.reference none)) ∧
      (¬ IsNull args g.index →
        ∃ number, s.locals[(g.check ctx).slot]? = some (.reference (some number))) := by
  obtain ⟨hle, number?, harg, hlocal⟩ := hs.reference hslot ht
  cases number? with
  | none => exact ⟨hle, fun _ => hlocal, fun hnot => absurd harg hnot⟩
  | some number =>
    refine ⟨hle, fun hnull => ?_, fun _ => ⟨number, hlocal⟩⟩
    rw [IsNull, harg] at hnull
    cases hnull

section

variable {c : CodeAttribute} {pool : ConstantPool} {is : List Instruction}
  (hfits : ∀ i ∈ is, i.Fits) (hencode : Instruction.encode is = .ok c.code)
  (hchecks : ChecksAt pool is 0 (gs.map (·.check ctx)))
  (hslots : ∀ g ∈ gs, ∃ t, ctx.paramSlot? g.index = some ((g.check ctx).slot, t) ∧
    t.isReference = true)
  (hs : Starts ctx args s)
include hfits hencode hchecks hslots hs

theorem reaches_of_guards (hpass : ∀ g ∈ gs, ¬ IsNull args g.index) :
    Reaches c pool s { s with pc := offsetIn is (gs.length * Check.size) } := by
  have hstart : s.atPosition is 0 = s := by
    rw [State.atPosition, Instruction.offsetIn_zero, ← hs.pc]
  have hreaches := reaches_of_objects hfits hencode (s := s) hchecks fun x hx => by
    obtain ⟨g, hg, rfl⟩ := List.mem_map.mp hx
    obtain ⟨t, hslot, ht⟩ := hslots g hg
    obtain ⟨hle, -, hobject⟩ := exists_checked hs hslot ht
    exact ⟨hle, hobject (hpass g hg)⟩
  rwa [hstart, Nat.zero_add, List.length_map] at hreaches

theorem throwsNew_of_guards (horder : gs.Pairwise fun g g' => g.index < g'.index)
    (hcovered : ∀ k, k < gs.length * Check.size → isCovered c.handlers (offsetIn is k) = false)
    {g : CustomGuard} (hg : g ∈ gs) (hnull : IsNull args g.index)
    (hfirst : ∀ g' ∈ gs, g'.index < g.index → ¬ IsNull args g'.index) :
    ThrowsNew c pool s g.exception.internalName g.message := by
  have hstart : s.atPosition is 0 = s := by
    rw [State.atPosition, Instruction.offsetIn_zero, ← hs.pc]
  obtain ⟨before, after, rfl⟩ := List.append_of_mem hg
  rw [List.map_append, List.map_cons] at hchecks
  obtain ⟨t, hslot, ht⟩ := hslots g hg
  obtain ⟨hle, hlocal, -⟩ := exists_checked hs hslot ht
  have hthrows := throwsNew_of_first hfits hencode (s := s) hchecks (fun x hx => by
    obtain ⟨g', hg', rfl⟩ := List.mem_map.mp hx
    have hmem : g' ∈ before ++ g :: after := List.mem_append_left _ hg'
    have hlt : g'.index < g.index :=
      (List.pairwise_append.mp horder).2.2 g' hg' g List.mem_cons_self
    obtain ⟨t', hslot', ht'⟩ := hslots g' hmem
    obtain ⟨hle', -, hobject⟩ := exists_checked hs hslot' ht'
    exact ⟨hle', hobject (hfirst g' hmem hlt)⟩) hle (hlocal hnull) (by simpa using hcovered)
  rwa [hstart] at hthrows

end

end Thrower

/-- The code of guards in front of other code. -/
theorem guards_insertPrologue {ctx : MethodContext} {gs : List CustomGuard}
    {pool₀ pool pool' : ConstantPool} {e : EmittedCode} {fragment : Fragment}
    {entryLocals : List VerificationType} {withFrames : Bool} {c patched : CodeAttribute}
    (horder : gs.Pairwise fun g g' => g.index < g'.index)
    (hreference : ∀ g ∈ gs, ∀ slot t, ctx.paramSlot? g.index = some (slot, t) →
      t.isReference = true)
    (hemit : (emitFragment ctx (gs.map (·.stmt)) pool₀).1 = .ok e)
    (hfragment : Fragment.ofEmitted e = .ok fragment)
    (hrun : (c.insertPrologue fragment entryLocals withFrames).run.run pool
      = (.ok patched, pool'))
    (hgrows : (emitFragment ctx (gs.map (·.stmt)) pool₀).2.Grows pool')
    (hindexable : pool'.Indexable) :
    ∃ prologue old new, CodeReading.ofCode pool [] c.bare = .ok old ∧
      CodeReading.ofCode pool' [] patched.bare = .ok new ∧ Prologued false prologue old new ∧
      ∀ args s, Starts ctx args s →
        ((∀ g ∈ gs, ¬ IsNull args g.index) →
          Reaches patched pool' s { s with pc := Prologued.moved prologue old new 0 }) ∧
        ∀ g ∈ gs, IsNull args g.index →
          (∀ g' ∈ gs, g'.index < g.index → ¬ IsNull args g'.index) →
          ThrowsNew patched pool' s g.exception.internalName g.message := by
  obtain ⟨f, hbody, hordered, hpool, hwritten, hlabels⟩ := code_of_emitFragment hemit
  obtain ⟨prologue, old, new, edited, h, hprologued, hold, hnew, hlength, hstarts, hencode,
    hhandlers⟩ := exists_prologueEdit hfragment hrun
  rw [Fragment.code_of_encode hordered.fits_resolvedCode hwritten hlabels hfragment]
    at hlength hstarts
  rw [hpool] at hgrows
  obtain ⟨hslots, hsize, hchecks⟩ :=
    checksAt_stmts hreference hbody Relation.ReflTransGen.refl hgrows hindexable
  have hstart : (start ctx pool₀).code.size = 0 := rfl
  rw [hstart, Nat.zero_add] at hsize
  rw [hstart] at hchecks
  have hguards : prologue.code.length = gs.length * Check.size := by
    rw [hlength, resolvedCode, List.length_map, Array.length_toList, hsize]
  have hnext :
      Prologued.moved prologue old new 0 = offsetIn edited.code (gs.length * Check.size) := by
    rw [Prologued.moved, h.offset_new, h.oldClosed.position_zero, Nat.zero_add, hguards]
  have hreferences : ∀ g ∈ gs, ∃ t, ctx.paramSlot? g.index = some ((g.check ctx).slot, t) ∧
      t.isReference = true := by
    intro g hg
    obtain ⟨t, hslot⟩ := hslots g hg
    exact ⟨t, hslot, hreference g hg _ t hslot⟩
  refine ⟨prologue, old, new, hold, hnew, hprologued, fun args s hs => ⟨fun hpass => ?_, ?_⟩⟩
  · rw [hnext]
    exact reaches_of_guards h.fits_edited hencode (hchecks.of_start hstarts) hreferences hs hpass
  · intro g hg hnull hfirst
    refine throwsNew_of_guards h.fits_edited hencode (hchecks.of_start hstarts) hreferences hs
      horder (fun k hk => ?_) hg hnull hfirst
    rw [← hhandlers]
    exact isCovered_prologue h (hguards ▸ hk)

/-- **Guards check what they are to check.** A class has a method with code, and the custom guards
of its reference parameters are inserted before that code. In the patched code the guards come
first; they let the method pass if no guarded argument is `null`, and throw the exception of the
first one that is. -/
theorem guarded_insertBefore {d : MethodDeclaration} {classes classes' : ClassPool}
    {body : List Stmt} {c c' : ClassUnit} {name descriptor : String} {params : List TypeName}
    {ret : TypeName} (hcustom : ∀ g ∈ guardedParams d, g.2.handler = .custom)
    (hguards : (guards d).run.run classes = (.ok body, classes'))
    (hparams : parseMethodDescriptor descriptor = .ok (params, ret))
    (hreference : ∀ g ∈ guardedParams d, ∀ t, params[g.1 - 1]? = some t → t.isReference = true)
    (hinsert : c.runEdit (insertBefore name descriptor body) = (.ok (), c'))
    (hindexable : c'.file.pool.Indexable) :
    ∃ m patched prologue old new, (existing name descriptor).run.run c = (.ok m, c) ∧
      c'.file.methods[m.position]? = some { m.info with
        attributes := MemberInfo.replaceInfo (MemberInfo.isCode c.file.pool) patched.toBytes
          m.info.attributes } ∧
      CodeReading.ofCode c.file.pool [] m.code.bare = .ok old ∧
      CodeReading.ofCode c'.file.pool [] patched.bare = .ok new ∧
      Prologued false prologue old new ∧
      ∀ args s, Starts m.context args s →
        Thrower.Guards classes (guardedParams d) patched c'.file.pool args s
          (Prologued.moved prologue old new 0) := by
  obtain ⟨-, gs, hgs, rfl, hfound⟩ :=
    within_guards hcustom _ _ _ (refl_of ClassPool.Loads _) hguards
  obtain ⟨m, emitted, fragment, entry, withFrames, pool, patched, hm, hemit, hfragment, hgrows,
    hedit, hmethods⟩ := of_insertBefore hinsert
  obtain ⟨-, -, hmethod, -, ret', hparsed⟩ := of_existing hm
  obtain rfl : params = m.context.params :=
    congrArg Prod.fst (Except.ok.inj (hparams.symm.trans hparsed))
  have hmem : ∀ g ∈ gs, (g.index, g.directive) ∈ guardedParams d := fun g hg =>
    hgs ▸ List.mem_map_of_mem (f := fun g : CustomGuard => (g.index, g.directive)) hg
  have horder : gs.Pairwise fun g g' => g.index < g'.index := by
    have hpairs := pairwise_guardedParams d
    rwa [← hgs, List.pairwise_map] at hpairs
  have hslots : ∀ g ∈ gs, ∀ slot t, m.context.paramSlot? g.index = some (slot, t) →
      t.isReference = true := by
    intro g hg slot t hslot
    refine hreference _ (hmem g hg) t ?_
    cases hindex : g.index with
    | zero =>
      rw [hindex] at hslot
      cases hslot
    | succ position =>
      rw [hindex] at hslot
      obtain ⟨t', ht', heq⟩ := Option.map_eq_some_iff.mp hslot
      obtain ⟨-, rfl⟩ := Prod.mk.inj heq
      exact ht'
  have hto :=
    (m.code.keeps_edit entry withFrames (IndexedBody.insertPrologue fragment)).of_run hedit
  obtain ⟨prologue, old, new, hold, hnew, hprologued, hruns⟩ :=
    guards_insertPrologue horder hslots hemit hfragment hedit (hgrows.trans hto) hindexable
  refine ⟨m, patched, prologue, old, new, hm, ?_, hold, hnew, hprologued, fun args s hs => ?_⟩
  · rw [hmethods, List.getElem?_set_self]
    exact (List.getElem?_eq_some_iff.mp hmethod).1
  obtain ⟨hpasses, hthrows⟩ := hruns args s hs
  refine ⟨fun hpass => hpasses fun g hg => hpass _ (hmem g hg), fun g hg hnull hfirst => ?_⟩
  obtain ⟨g, hguard, rfl⟩ := List.mem_map.mp (hgs.symm ▸ hg)
  obtain ⟨exception, hlookup, hname⟩ := hfound g hguard
  refine ⟨exception, hlookup, ?_⟩
  rw [hname]
  exact hthrows g hguard hnull fun g' hg' hlt => hfirst _ (hmem g' hg') hlt

/-! ### The check of a name -/

/-- `void run(long delay, String name)`, with a check of the name. -/
def guardedRun : MethodDeclaration where
  name := "run"
  params := [⟨"delay", ⟨"long"⟩, none⟩, ⟨"name", .string, some {}⟩]

/-- The exception of the check. -/
def nullException : ClassUnit where
  name := ⟨"java.lang.NullPointerException"⟩
  file := {
    major := 52, flags := 0x21, thisClass := 2, superClass := 4
    pool := .pushAll .empty [.utf8 "java/lang/NullPointerException", .classRef 1,
      .utf8 "java/lang/RuntimeException", .classRef 3, .utf8 "<init>",
      .utf8 "(Ljava/lang/String;)V"]
    methods := [{ flags := 1, name := 5, descriptor := 6 }] }

def exceptionPool : ClassPool := ({ major := 52 } : ClassPool).withUnit nullException

def nameGuard : CustomGuard := ⟨2, {}, nullException.name⟩

/-- A class whose method `run` does nothing. It has the constants of the check. -/
def jobClass : ClassUnit where
  name := ⟨"demo.Job"⟩
  file := {
    major := 49, flags := 0x21, thisClass := 2, superClass := 4
    pool := .pushAll .empty [.utf8 "demo/Job", .classRef 1, .utf8 "java/lang/Object",
      .classRef 3, .utf8 "run", .utf8 "(JLjava/lang/String;)V", .utf8 "Code",
      .utf8 "java/lang/String", .classRef 8, .utf8 "java/lang/NullPointerException", .classRef 10,
      .utf8 nameGuard.message, .string 12, .utf8 "<init>", .utf8 "(Ljava/lang/String;)V",
      .nameAndType 14 15, .methodRef 11 16]
    methods := [{ flags := 9, name := 5, descriptor := 6, attributes := [⟨7,
      (⟨0, 3, [Opcode.returnVoid], [], []⟩ : CodeAttribute).toBytes⟩] }] }

def jobRun : ExistingMethod where
  position := 0
  info := { flags := 9, name := 5, descriptor := 6, attributes := [⟨7,
    (⟨0, 3, [Opcode.returnVoid], [], []⟩ : CodeAttribute).toBytes⟩] }
  context := {
    className := ⟨"demo.Job"⟩, params := [⟨"long"⟩, .string], ret := .void, isStatic := true }
  code := ⟨0, 3, [Opcode.returnVoid], [], []⟩

/-- The code of the check. -/
def nameCheck : EmittedCode where
  code := [0x2c, 199, 0, 13, 187, 0, 11, 89, 18, 13, 183, 0, 17, 191]
  maxStack := 3
  maxLocals := 3
  frames := [⟨14, [.long, .object 9], []⟩]

def guardedCode : CodeAttribute := ⟨3, 3, nameCheck.code ++ [Opcode.returnVoid], [], []⟩

/-- The class with the check in front of its code. -/
def guardedJob : ClassUnit :=
  { jobClass with
    file := { jobClass.file with
      methods := [{ jobRun.info with attributes := [⟨7, guardedCode.toBytes⟩] }] } }

theorem guards_guardedRun :
    (guards guardedRun).run.run exceptionPool = (.ok [nameGuard.stmt], exceptionPool) := by
  have hget : (ClassPool.getUnit "java.lang.NullPointerException").run.run exceptionPool =
      (.ok nullException, exceptionPool) :=
    ClassPool.run_getUnit_of_cached ClassPool.cached_withUnit_self
  have hguard : (Synthesis.guard 2 {}).run.run exceptionPool =
      (.ok nameGuard.stmt, exceptionPool) := by
    unfold Synthesis.guard
    exact run_bind_of_ok hget
  have hparams : guardedParams guardedRun = [(2, {})] := rfl
  rw [guards, hparams, List.mapM_cons, List.mapM_nil]
  exact run_bind_of_ok hguard

namespace JobRun

open ConstantPool (holds_constant)

/-! The constants of the check. -/

theorem holds_string :
    jobClass.file.pool.Holds (ConstantPool.addClass TypeName.string.internalName) 9 :=
  (holds_constant 7 rfl).bind (holds_constant 8 rfl)

theorem holds_exception :
    jobClass.file.pool.Holds (ConstantPool.addClass nullException.name.internalName) 11 :=
  (holds_constant 9 rfl).bind (holds_constant 10 rfl)

theorem holds_message :
    jobClass.file.pool.Holds (ConstantPool.addString nameGuard.message) 13 :=
  (holds_constant 11 rfl).bind (holds_constant 12 rfl)

theorem holds_constructor :
    jobClass.file.pool.Holds (ConstantPool.addMethodRef nullException.name.internalName
      constructorName (methodDescriptor [.string] .void)) 17 :=
  holds_exception.bind <|
    ((holds_constant 13 rfl).bind <| (holds_constant 14 rfl).bind (holds_constant 15 rfl)).bind
      (holds_constant 16 rfl)

theorem holds_stringType :
    jobClass.file.pool.Holds (verificationType .string) (.object 9) :=
  holds_string.bind rfl

def locals : List VerificationType := [.long, .top, .object 9]

theorem holds_entrySlots : jobClass.file.pool.Holds jobRun.context.entrySlots locals := by
  have hlong : jobClass.file.pool.Holds (verificationType ⟨"long"⟩) .long := rfl
  have hstring : jobClass.file.pool.Holds (MethodContext.slotsOfTypes [.string]) [.object 9] :=
    holds_stringType.bind (.bind (a := []) rfl rfl)
  exact .bind (a := []) rfl (.bind (a := locals) (hlong.bind (hstring.bind rfl)) rfl)

theorem holds_entryLocals :
    jobClass.file.pool.Holds jobRun.context.entryLocals [.long, .object 9] :=
  holds_entrySlots.bind rfl

/-! The check, instruction by instruction. -/

def check : List Instruction :=
  [.simple 0x2c, ⟨Opcode.ifnonnull, .branch 0⟩, ⟨Opcode.new, .short 11⟩, .simple Opcode.dup,
    ⟨Opcode.ldc, .byte 13⟩, ⟨Opcode.invokespecial, .short 17⟩, .simple Opcode.athrow]

/-- The new exception, before its constructor has run. -/
def object : VerificationType := .uninitialized 4

/-- The emitter behind some of the instructions, before the label is placed. -/
def behind (instructions pc : Nat) (stack : List VerificationType) (maxStack : Nat) : Emitter where
  pool := jobClass.file.pool
  code := (check.take instructions).toArray
  pc
  entry := locals
  slots := ⟨locals, stack⟩
  maxStack
  maxLocals := 3
  nextLocal := 3
  labels := #[{ state? := some ⟨locals, []⟩, jumps := [1] }]

/-- The emitter behind the check. -/
def behindCheck : Emitter :=
  { behind 7 14 [] 3 with
    labels := #[⟨some ⟨14, 7⟩, some ⟨locals, []⟩, [1]⟩]
    frames := [(14, ⟨locals, []⟩)] }

theorem start_eq :
    start jobRun.context jobClass.file.pool = { behind 0 0 [] 0 with labels := #[] } := by
  have hentry : jobRun.context.entrySlots.run jobClass.file.pool = (locals, jobClass.file.pool) :=
    holds_entrySlots
  rw [start, hentry]
  rfl

theorem runs_test :
    Runs (expr (.jumpIfFalse 0) (.compare .eq (.param 2) .null)) jobRun.context
      { behind 0 0 [] 0 with labels := #[{}] } () (behind 2 4 [] 1) := by
  have hload : Runs (load .string 2) jobRun.context { behind 0 0 [] 0 with labels := #[{}] } ()
      { behind 1 1 [.object 9] 1 with labels := #[{}] } :=
    runs_bind.mpr ⟨(), { behind 1 1 [] 0 with labels := #[{}] }, rfl,
      (runs_addConstants_of_holds holds_stringType).mpr (runs_push.mpr rfl)⟩
  rw [expr_compare_null_right, condition, expr]
  refine runs_bind.mpr ⟨(), { behind 1 1 [.object 9] 1 with labels := #[{}] }, ?_, rfl⟩
  exact runs_read_bind.mpr (runs_bind.mpr ⟨(), _, hload, rfl⟩)

theorem runs_new :
    Runs (newObject nullException.name) jobRun.context (behind 2 4 [] 1) (11, object)
      (behind 4 8 [object, object] 2) := by
  rw [newObject, runs_get_bind, runs_addConstants_of_holds holds_exception]
  exact rfl

theorem runs_message :
    Runs (expr .value (.str nameGuard.message)) jobRun.context (behind 4 8 [object, object] 2) ()
      (behind 5 10 [object, object, .object 9] 3) := by
  have htype : Runs (pushType .string) jobRun.context (behind 5 10 [object, object] 2) ()
      (behind 5 10 [object, object, .object 9] 3) :=
    (runs_addConstants_of_holds holds_stringType).mpr (runs_push.mpr rfl)
  rw [expr, runs_addConstants_of_holds holds_message]
  exact runs_bind.mpr ⟨(), _, rfl, runs_bind.mpr ⟨(), _, htype, rfl⟩⟩

theorem runs_construct :
    Runs (callConstructor nullException.name [.string]) jobRun.context
      (behind 5 10 [object, object, .object 9] 3) () (behind 6 13 [object] 3) := by
  rw [callConstructor, constructorRef, methodRef, runs_addConstants_of_holds holds_constructor]
  exact rfl

theorem runs_created :
    Runs (expr .value (.new nullException.name [.string] [.str nameGuard.message])) jobRun.context
      (behind 2 4 [] 1) () (behind 6 13 [.object 11] 3) := by
  have hargs : Runs (exprs .value [.str nameGuard.message]) jobRun.context
      (behind 4 8 [object, object] 2) () (behind 5 10 [object, object, .object 9] 3) := by
    rw [exprs]
    exact runs_bind.mpr ⟨(), _, runs_message, rfl⟩
  rw [expr]
  exact runs_bind.mpr ⟨_, _, runs_new, runs_bind.mpr ⟨(), _, rfl, runs_bind.mpr ⟨(), _, hargs,
    runs_bind.mpr ⟨(), _, runs_construct, rfl⟩⟩⟩⟩

theorem runs_stmts :
    Runs (stmts [nameGuard.stmt]) jobRun.context (start jobRun.context jobClass.file.pool) ()
      behindCheck := by
  have hthrow : Runs (stmts [.throw (.new nullException.name [.string] [.str nameGuard.message])])
      jobRun.context (behind 2 4 [] 1) () { behind 7 14 [] 3 with reachable := false } := by
    rw [stmts]
    refine runs_bind.mpr ⟨(), _, rfl, runs_bind.mpr ⟨(), _, ?_, rfl⟩⟩
    rw [stmt]
    exact runs_bind.mpr ⟨(), _, runs_created, rfl⟩
  rw [start_eq, stmts]
  refine runs_bind.mpr ⟨(), _, rfl, runs_bind.mpr ⟨(), _, ?_, rfl⟩⟩
  rw [CustomGuard.stmt, throwIfNull, stmt, runs_newLabel_bind]
  exact runs_bind.mpr ⟨(), _, runs_test, runs_bind.mpr ⟨(), _, hthrow, rfl⟩⟩

theorem emitFragment_eq :
    emitFragment jobRun.context [nameGuard.stmt] jobClass.file.pool =
      (.ok nameCheck, jobClass.file.pool) := by
  have hend : Runs endFragment jobRun.context behindCheck () behindCheck := rfl
  rw [emitFragment, runWith_eq (runs_bind.mpr ⟨(), _, runs_stmts, hend⟩)]
  exact Prod.ext (by decide +kernel) rfl

/-- The check is put into the class. -/
theorem insertBefore_eq :
    jobClass.runEdit (insertBefore "run" "(JLjava/lang/String;)V" [nameGuard.stmt]) =
      (.ok (), guardedJob) := by
  have hmethod : (existing "run" "(JLjava/lang/String;)V").run.run jobClass =
      (.ok jobRun, jobClass) := rfl
  have hentry : (ClassUnit.addConstants jobRun.context.entryLocals).run.run jobClass =
      (.ok [.long, .object 9], jobClass) := run_addConstants holds_entryLocals
  obtain ⟨fragment, hfragment, hinsert⟩ : ∃ fragment, Fragment.ofEmitted nameCheck = .ok fragment ∧
      (jobRun.code.insertPrologue fragment [.long, .object 9] false).run.run jobClass.file.pool =
        (.ok guardedCode, jobClass.file.pool) :=
    ⟨⟨check.map (·.mapLabels fun _ => 7), [⟨7, [.long, .object 9], []⟩], 3, 3⟩,
      by decide +kernel, rfl⟩
  have hedit : (editCode (jobRun.code.insertPrologue fragment [.long, .object 9] false)).run.run
      jobClass = (.ok guardedCode, jobClass) := run_onPool_of_ok (by rw [hinsert]; rfl)
  have hframes : jobClass.usesFrames = false := rfl
  have hput : (putCode jobRun guardedCode).run.run jobClass = (.ok (), guardedJob) := rfl
  rw [runEdit, insertBefore, run_bind_of_ok hmethod,
    run_bind_of_ok (run_onPool_of_ok emitFragment_eq), hfragment]
  refine (run_bind_of_ok (f := fun entry => do
    putCode jobRun
      (← editCode (jobRun.code.insertPrologue fragment entry (← get).usesFrames))) hentry).trans ?_
  rw [run_get_bind, hframes, run_bind_of_ok hedit, hput]

end JobRun

/-- A name that is `null` ends the method with an exception. -/
theorem guarded_insertBefore_run :
    ∃ m patched prologue old new,
      (existing "run" "(JLjava/lang/String;)V").run.run jobClass = (.ok m, jobClass) ∧
      guardedJob.file.methods[m.position]? = some { m.info with
        attributes := MemberInfo.replaceInfo (MemberInfo.isCode jobClass.file.pool) patched.toBytes
          m.info.attributes } ∧
      CodeReading.ofCode jobClass.file.pool [] m.code.bare = .ok old ∧
      CodeReading.ofCode guardedJob.file.pool [] patched.bare = .ok new ∧
      Prologued false prologue old new ∧
      ∀ args s, Starts m.context args s →
        Thrower.Guards exceptionPool [(2, {})] patched guardedJob.file.pool args s
          (Prologued.moved prologue old new 0) :=
  guarded_insertBefore (d := guardedRun) (by decide) guards_guardedRun rfl (by decide)
    JobRun.insertBefore_eq (show guardedJob.file.pool.slots.size ≤ 65535 by decide)

end ClassSynth
