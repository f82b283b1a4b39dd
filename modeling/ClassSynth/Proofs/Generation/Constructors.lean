import ClassSynth.Proofs.Generation.Factories
import ClassSynth.Proofs.Generation.Members
import ClassSynth.Proofs.Repeats
import ClassSynth.Proofs.Synthesis.Construction

/-!
# Constructors that a type asks for

For each kind a type asks for, one constructor is planned for each inherited one that counts. What
the signature passes on and what the members are assigned stand in the code of the class that gets
the constructor.

Main result: `TypeDeclaration.constructors_of_directive`.
-/

namespace ClassSynth

/-! ## Kinds -/

theorem ConstructorDirective.distinctKinds_eq (d : ConstructorDirective) :
    d.distinctKinds = d.kinds.eraseDups := by
  rw [List.eraseDups, ← foldl_eraseDupsBy, distinctKinds]
  refine congrArg (List.foldl · [] d.kinds) ?_
  funext done k
  rw [appendNew, List.contains_eq_any_beq]

namespace ConstructorKind

/-- The members that a constructor of the kind takes, where each member has a value. -/
def taken (members : List Member) : ConstructorKind → List Member
  | noArgs => []
  | requiredArgs => members.filter (! ·.isOptional)
  | allArgs => members

/-- Does the kind call a constructor like the given one? Without arguments it is one of the fewest
parameters, otherwise one of the most. -/
def prefers (candidates : List ConstructorDeclaration) (c : ConstructorDeclaration) :
    ConstructorKind → Bool
  | noArgs => candidates.all fun other => c.params.length ≤ other.params.length
  | _ => candidates.all fun other => other.params.length ≤ c.params.length

theorem select_eq_taken {members : List Member} (h : ∀ m ∈ members, m.isVoid = false)
    (k : ConstructorKind) : k.select members = k.taken members := by
  cases k with
  | noArgs => rfl
  | requiredArgs => exact List.filter_congr fun m hm => by rw [h m hm]; simp
  | allArgs => exact List.filter_eq_self.mpr fun m hm => by rw [h m hm]; rfl

theorem beq_chosenArity? {candidates : List ConstructorDeclaration} {c : ConstructorDeclaration}
    (hc : c ∈ candidates) (k : ConstructorKind) :
    (some c.params.length == chosenArity? (k = .noArgs) candidates) = k.prefers candidates c := by
  rw [Bool.eq_iff_iff, beq_iff_eq, eq_comm]
  cases k <;>
    simp [chosenArity?, prefers, List.min?_eq_some_iff, List.max?_eq_some_iff] <;>
    exact fun _ => ⟨c, hc, rfl⟩

theorem exists_chosenArity? {candidates : List ConstructorDeclaration} (h : candidates ≠ [])
    (fewest : Bool) : ∃ c ∈ candidates, chosenArity? fewest candidates = some c.params.length := by
  have hmem : ∀ {arity}, chosenArity? fewest candidates = some arity →
      arity ∈ candidates.map fun c => c.params.length := by
    intro arity harity
    cases fewest with
    | true => exact List.min?_mem harity
    | false => exact List.max?_mem harity
  cases harity : chosenArity? fewest candidates with
  | none => cases fewest <;> simp [chosenArity?, h] at harity
  | some arity =>
    obtain ⟨c, hc, rfl⟩ := List.mem_map.mp (hmem harity)
    exact ⟨c, hc, rfl⟩

end ConstructorKind

namespace TypeDeclaration

/-- The parameters of the inherited constructors that a constructor of the kind calls: of those of
the preferred number of parameters, the first one of each descriptor. -/
def inheritedParams (d : TypeDeclaration) (k : ConstructorKind) : List (List Parameter) :=
  if d.isInterface then [[]]
  else
    ((d.effectiveConstructors.filter (k.prefers d.effectiveConstructors)).eraseDupsBy
      fun c other => c.descriptor == other.descriptor).map (·.params)

theorem superParamLists_eq (d : TypeDeclaration) (k : ConstructorKind) :
    d.superParamLists k = d.inheritedParams k := by
  have hchosen : chosenOverloads (k = .noArgs) d.effectiveConstructors =
      (d.effectiveConstructors.filter (k.prefers d.effectiveConstructors)).eraseDupsBy
        fun c other => c.descriptor == other.descriptor := by
    rw [← foldl_eraseDupsBy, chosenOverloads,
      List.filter_congr fun c hc => ConstructorKind.beq_chosenArity? hc k]
    refine congrArg (List.foldl · [] _) ?_
    funext done c
    simp only [addOverload, BEq.comm]
  unfold superParamLists inheritedParams
  by_cases hinterface : d.isInterface
  · simp [hinterface, effectiveConstructors, chosenOverloads]
  · have hsome : d.effectiveConstructors ≠ [] := by
      unfold effectiveConstructors
      split_ifs <;> simp_all
    obtain ⟨c, hc, harity⟩ := ConstructorKind.exists_chosenArity? hsome (k = .noArgs)
    have hprefers : c ∈ d.effectiveConstructors.filter (k.prefers d.effectiveConstructors) := by
      rw [List.mem_filter, ← ConstructorKind.beq_chosenArity? hc, harity]
      exact ⟨hc, beq_self_eq_true _⟩
    rw [hchosen, if_neg hinterface]
    cases hfilter : d.effectiveConstructors.filter (k.prefers d.effectiveConstructors) with
    | nil =>
      rw [hfilter] at hprefers
      cases hprefers
    | cons first rest => rw [List.eraseDupsBy_cons]

/-- The plans of the constructors that a directive asks for: for each kind, in the order in which the
kinds are first named, one for each inherited constructor that counts. -/
def constructorPlans (d : TypeDeclaration) (directive : ConstructorDirective)
    (members : List Member) : List ConstructorPlan :=
  directive.kinds.eraseDups.flatMap fun k =>
    (d.inheritedParams k).map fun superParams => { members := k.taken members, superParams }

theorem constructorActions_eq {d : TypeDeclaration} {directive : ConstructorDirective}
    {members : List Member} (hdirective : d.directives.constructor = some directive)
    (hvoid : ∀ m ∈ members, m.isVoid = false) :
    d.constructorActions members =
      (d.constructorPlans directive members).map (.constructor · d.factoryBinding?) := by
  unfold constructorActions constructorPlans
  simp [hdirective, directive.distinctKinds_eq, ConstructorKind.select_eq_taken hvoid,
    superParamLists_eq, List.map_flatMap, Function.comp_def]

end TypeDeclaration

/-- An accessor has a value. -/
theorem Session.HasAccessor.isVoid {s : Session} {fluent : Bool} {d : TypeDeclaration} {m : Member}
    (h : s.HasAccessor fluent d m.accessor m.field) : m.isVoid = false := by
  have hfield := h.field
  unfold MethodDeclaration.accessorField? at hfield
  split at hfield
  · split_ifs at hfield with hvoid
    exact Bool.eq_false_iff.mpr hvoid
  · cases hfield

/-! ## Constructors of a class -/

namespace ConstructorPlan

variable {plan : ConstructorPlan} {c c' : ClassUnit} {superclass : TypeName}

/-- The last method of the class is the constructor: a public one with the parameters of the
signature, whose code calls the constructor of the superclass and assigns the fields. All positions
and slots fit in two bytes. -/
def BuiltBy (plan : ConstructorPlan) (superclass : TypeName) (c c' : ClassUnit) : Prop :=
  ∃ m code is, c'.file.methods = c.file.methods ++ [m] ∧ m.flags = AccessFlags.isPublic ∧
    c'.file.methodKey m = .ok (constructorName, methodDescriptor plan.signature.params .void) ∧
    m.HasCode c'.file.pool code ∧ Instruction.encode is = .ok code.code ∧
    plan.Constructs c'.file.pool c.name superclass is ∧
    plan.signature.params.length ≤ 65535 ∧ 1 + totalSlots plan.signature.params ≤ 65535

theorem builtBy_of_addMethod
    (h : c.runEdit (ClassUnit.addMethod AccessFlags.isPublic constructorName plan.signature.params
      .void (plan.body c.name superclass)) = (.ok (), c')) (hindexable : c'.file.pool.Indexable) :
    plan.BuiltBy superclass c c' := by
  obtain ⟨emitted, m, hemit, hgrows, -, hmethods, hparts⟩ := ClassUnit.code_of_addMethod h
  obtain ⟨hflags, hkey, attributes, hcode⟩ := hparts hindexable
  obtain ⟨is, hencode, hconstructs⟩ := constructs_of_emitMethod plan hemit
  have hbuilt := hconstructs c'.file.pool hgrows hindexable
  have ⟨_, _, his, _, hfields⟩ := hbuilt
  have hroom := room_of_encode hfields.length_eq (his ▸ hencode)
  exact ⟨m, _, is, hmethods, hflags, hkey, hcode, hencode, hbuilt, hroom⟩

/-- A constructor that a class does not have is built by the action for it, before its factory is
bound. -/
theorem built_of_apply {factory : Option FactoryBinding} {s s' : Session}
    (hclass : s.currentClass? = some c) (hnew : c.hasConstructor plan.signature.params = false)
    (happly : s.run (Action.constructor plan factory).apply = (.ok (), s')) :
    ∃ superclass? c₁, c.superclass? = .ok superclass? ∧
      (c₁.file.pool.Indexable → plan.BuiltBy (superclass?.getD .object) c c₁) ∧
      (factory = none ∧ s' = { s with currentClass? := some c₁ } ∨
        ∃ f, factory = some f ∧ ({ s with currentClass? := some c₁ } : Session).run
          (Action.addFactory (f.planFor plan.signature.params)) = (.ok (), s')) := by
  obtain ⟨c', hclass', hcase⟩ := Action.of_addConstructor happly
  obtain rfl := Option.some.inj (hclass.symm.trans hclass')
  obtain ⟨hthere, -⟩ | ⟨-, superclass?, c₁, hsuper, hedit, hfactory⟩ := hcase
  · cases hnew.symm.trans hthere
  · refine ⟨superclass?, c₁, hsuper, builtBy_of_addMethod hedit, hfactory.imp_right ?_⟩
    rintro ⟨f, _, hf, hrun⟩
    exact ⟨f, hf, hrun⟩

end ConstructorPlan

namespace TypeDeclaration

end TypeDeclaration

/-! ### A shared parameter and an added one -/

namespace Account

open ConstantPool (addClass addMethodRef addFieldRef holds_constant)
open Emit TypeDeclaration

/-- A class whose longest constructor takes a number and the age that an accessor returns. -/
def declaration : TypeDeclaration where
  qualifiedName := "demo.Account"
  kind := .classKind
  isAbstract := true
  methods := [ageAccessor]
  constructors := [
    { params := [{ name := "age", type := .int }] },
    { params := [{ name := "number", type := ⟨"long"⟩ }, { name := "age", type := .int }] }]
  directives := { generate := some {}, constructor := some { kinds := [.allArgs, .allArgs] } }

def plan : ConstructorPlan where
  members := [.ofAccessor "age" ageAccessor]
  superParams := [{ name := "number", type := ⟨"long"⟩ }, { name := "age", type := .int }]

def queue : ActionQueue :=
  [.field "age" .int, .accessor (.ofAccessor "age" ageAccessor), .constructor plan none]

/-- The constants of the constructor. -/
def constants : List Constant :=
  [.utf8 "demo/AccountImpl", .classRef 1, .utf8 "demo/Account", .classRef 3, .utf8 "<init>",
    .utf8 "(JI)V", .nameAndType 5 6, .methodRef 4 7, .utf8 "age", .utf8 "I", .nameAndType 9 10,
    .fieldRef 2 11, .utf8 "(IJ)V", .utf8 "Code"]

/-- The class before the constructor is added. -/
def bare : ClassUnit where
  name := ⟨"demo.AccountImpl"⟩
  file := {
    major := 52, flags := 0x21, thisClass := 2, superClass := 4
    pool := .pushAll .empty constants }

theorem holds_class : bare.file.pool.Holds (addClass bare.name.internalName) 2 :=
  (holds_constant 0 rfl).bind (holds_constant 1 rfl)

theorem holds_inherited : bare.file.pool.Holds
    (addMethodRef "demo/Account" constructorName (methodDescriptor [⟨"long"⟩, .int] .void)) 8 :=
  ((holds_constant 2 rfl).bind (holds_constant 3 rfl)).bind <|
    ((holds_constant 4 rfl).bind ((holds_constant 5 rfl).bind (holds_constant 6 rfl))).bind
      (holds_constant 7 rfl)

theorem holds_field : bare.file.pool.Holds
    (addFieldRef bare.name.internalName "age" TypeName.int.descriptor) 12 :=
  holds_class.bind <|
    ((holds_constant 8 rfl).bind ((holds_constant 9 rfl).bind (holds_constant 10 rfl))).bind
      (holds_constant 11 rfl)

/-- The number takes two slots, so the code loads it from slot two and the age from slot one. -/
def code : EmittedCode :=
  ⟨[0x2a, 0x20, 0x1b, 183, 0, 8, 0x2a, 0x1b, 181, 0, 12, 177], 4, 4, []⟩

/-- The emitter behind the arguments. -/
def loaded : Emitter where
  pool := bare.file.pool
  code := #[.simple 0x2a, .simple 0x20, .simple 0x1b]
  pc := 3
  entry := [.uninitializedThis, .integer, .long, .top]
  slots := ⟨[.uninitializedThis, .integer, .long, .top], [.uninitializedThis, .long, .top, .integer]⟩
  maxStack := 4
  maxLocals := 4
  nextLocal := 4

/-- The emitter behind the call. -/
def constructed : Emitter :=
  { loaded with
    code := loaded.code.push ⟨Opcode.invokespecial, .short 8⟩
    pc := 6
    slots := ⟨[.object 2, .integer, .long, .top], []⟩ }

/-- The emitter behind the assignment. -/
def assigned : Emitter :=
  { constructed with
    code := constructed.code ++
      #[.simple 0x2a, .simple 0x1b, ⟨Opcode.putfield, .short 12⟩]
    pc := 11 }

theorem runs_superInit :
    Runs (stmt (.superInit ⟨"demo.Account"⟩ [⟨"long"⟩, .int] [.param 2, .param 1]))
      (plan.context bare.name) (start (plan.context bare.name) bare.file.pool) () constructed := by
  have hcall : Runs (callConstructor ⟨"demo.Account"⟩ [⟨"long"⟩, .int]) (plan.context bare.name)
      loaded ()
      { constructed with slots := ⟨[.uninitializedThis, .integer, .long, .top], []⟩ } := by
    rw [callConstructor, constructorRef, methodRef]
    exact (runs_addConstants_of_holds holds_inherited).mpr rfl
  rw [stmt]
  refine runs_bind.mpr ⟨(), _, rfl, runs_bind.mpr ⟨(), _, rfl, runs_bind.mpr ⟨(), loaded, rfl,
    runs_bind.mpr ⟨(), _, hcall, runs_read_bind.mpr ?_⟩⟩⟩⟩
  exact (runs_addConstants_of_holds holds_class).mpr rfl

theorem runs_setField :
    Runs (stmt (.setField .this ⟨bare.name, "age", .int⟩ (.param 1))) (plan.context bare.name)
      constructed () assigned := by
  rw [stmt]
  refine runs_bind.mpr ⟨(), _, rfl, runs_bind.mpr ⟨(), _, rfl, ?_⟩⟩
  exact (runs_addConstants_of_holds holds_field).mpr rfl

/-- The emitter behind the constructor. -/
def returned : Emitter :=
  { assigned with
    code := assigned.code.push (.simple 177)
    pc := 12
    reachable := false }

theorem emitMethod_constructor :
    emitMethod (plan.context bare.name) (plan.body bare.name ⟨"demo.Account"⟩) bare.file.pool =
      (.ok code, bare.file.pool) := by
  have hstmts : Runs (stmts [
      .superInit ⟨"demo.Account"⟩ [⟨"long"⟩, .int] [.param 2, .param 1],
      .setField .this ⟨bare.name, "age", .int⟩ (.param 1), .ret none])
      (plan.context bare.name) (start (plan.context bare.name) bare.file.pool) () returned := by
    rw [stmts, stmts]
    exact runs_bind.mpr ⟨(), _, rfl, runs_bind.mpr ⟨(), _, runs_superInit, runs_bind.mpr
      ⟨(), _, rfl, runs_bind.mpr ⟨(), _, runs_setField, rfl⟩⟩⟩⟩
  have hruns : Runs (do stmts (plan.body bare.name ⟨"demo.Account"⟩); endMethod)
      (plan.context bare.name) (start (plan.context bare.name) bare.file.pool) () returned :=
    runs_bind.mpr ⟨(), _, hstmts, rfl⟩
  rw [emitMethod, runWith_eq hruns]
  exact Prod.ext (by decide +kernel) rfl

def constructorInfo : MemberInfo where
  flags := 1
  name := 5
  descriptor := 13
  attributes := [⟨14, (⟨4, 4, code.code, [], []⟩ : CodeAttribute).toBytes⟩]

/-- The class behind the constructor. -/
def built : ClassUnit :=
  { bare with file := { bare.file with methods := [constructorInfo] } }

theorem addMethod_constructor :
    bare.runEdit (ClassUnit.addMethod 1 constructorName plan.signature.params .void
      (plan.body bare.name ⟨"demo.Account"⟩)) = (.ok (), built) := by
  have hnew : bare.hasMethod constructorName
      (methodDescriptor plan.signature.params .void) = false := rfl
  have hadd := ClassUnit.run_addMethod hnew emitMethod_constructor (by rfl)
    (holds_constant 4 rfl) (holds_constant 12 rfl) (holds_constant 13 rfl)
  exact hadd

def session : Session := { startOf [declaration] with currentClass? := some bare }

theorem run_addConstructor :
    (Action.addConstructor plan none).run.run session =
      (.ok (), { session with currentClass? := some built }) := by
  have hclass : session.currentClass? = some bare := rfl
  have hnew : bare.hasConstructor plan.signature.params = false := rfl
  have hsuper : bare.superclass? = .ok (some ⟨"demo.Account"⟩) := rfl
  rw [Action.run_addConstructor hclass hnew hsuper addMethod_constructor]
  rfl

end Account

end ClassSynth
