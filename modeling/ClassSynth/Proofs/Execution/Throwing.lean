import ClassSynth.ClassFile.Attribute
import ClassSynth.Emit.Context
import ClassSynth.Proofs.Acceptance.Expressions
import ClassSynth.Proofs.Execution.Operations
import ClassSynth.Proofs.Instruction.Layout

/-!
# A machine for code that throws

The machine knows the instructions that test references and throw new exceptions: loads of
references, jumps on `null`, string constants, `new`, `dup`, calls of constructors and `athrow`. Any
other instruction stops it without a result.

Objects are numbered in the order in which they come to exist, and each call is recorded with its
receiver and its arguments. No instruction of the machine writes to a field, to an array or to a
local variable, so a run that leaves objects and calls as they were has no effect at all. An
exception ends the method if no exception range covers the instruction that throws it.

Main definitions:

* `Thrower.Starts`: a method is about to run with given arguments, each in its slots.
* `Thrower.Reaches`: the machine gets from one state to another.
* `Thrower.ThrowsNew`: the method ends with a new exception that was made with a message.
-/

namespace ClassSynth.Thrower

/-! ## States -/

/-- What a local variable or an entry of the operand stack holds. -/
inductive Value
  /-- The object of a number, or `null`. -/
  | reference (number? : Option Nat)
  /-- A number of 32 bits, or one half of a longer number. -/
  | bits (value : UInt32)
  deriving DecidableEq, Repr

/-- An object that a reference may lead to. -/
inductive Object
  /-- One that existed before the method ran. -/
  | given
  /-- The object of a string constant. -/
  | text (value : String)
  /-- One that the method made. -/
  | made (className : String)
  deriving DecidableEq, Repr

/-- A call that the method made. -/
structure Call where
  method : ConstantPool.MemberRef
  receiver : Nat
  args : List Value
  deriving DecidableEq, Repr

/-- The state of a method that runs. The top of the stack comes first. -/
structure State where
  pc : Nat
  locals : List Value
  stack : List Value
  objects : List Object
  calls : List Call
  deriving DecidableEq, Repr

/-- What a step leads to. -/
inductive Outcome
  | running (s : State)
  /-- The method ends with an exception, the object of a number. -/
  | thrown (number : Nat)
  deriving DecidableEq, Repr

/-! ## Instructions -/

/-- What an instruction does. -/
inductive Operation
  /-- Pushes the string at an index of the constant pool. -/
  | text (index : UInt16)
  /-- Loads a reference from a slot. -/
  | load (slot : Nat)
  /-- Jumps if the test of a reference against `null` holds. -/
  | jumpNull (op : CompareOp) (target : Label)
  /-- Makes an object of the class at an index of the constant pool. -/
  | new (index : UInt16)
  | dup
  /-- Calls the constructor at an index of the constant pool. -/
  | construct (index : UInt16)
  | throw
  deriving DecidableEq, Repr

/-- The operation that the machine for scalar code has for an instruction, as far as it is about
references. -/
def ofScalar? : Machine.Operation → Option Operation
  | .constant index => some (.text index)
  | .load .reference slot => some (.load slot)
  | .jumpZero op .reference target => some (.jumpNull op target)
  | _ => none

/-- The operation of an instruction, if the machine knows it. -/
def operation? (i : Instruction) : Option Operation :=
  match i.operand with
  | .empty =>
    if i.opcode = Opcode.dup then some .dup
    else if i.opcode = Opcode.athrow then some .throw
    else (Machine.operation? i).bind ofScalar?
  | .short index =>
    if i.opcode = Opcode.new then some (.new index)
    else if i.opcode = Opcode.invokespecial then some (.construct index)
    else (Machine.operation? i).bind ofScalar?
  | _ => (Machine.operation? i).bind ofScalar?

/-! ## Steps -/

/-- Does an exception range cover the instruction at an offset? -/
def isCovered (handlers : List ExceptionEntry) (pc : Nat) : Bool :=
  handlers.any fun h => h.start.toNat ≤ pc && pc < h.stop.toNat

/-- The state after a new object, to which the top of the stack refers. -/
def State.withNew (s : State) (next : Nat) (object : Object) : State :=
  { s with
    pc := next
    stack := .reference (some s.objects.length) :: s.stack
    objects := s.objects ++ [object] }

/-- Calls a constructor on an object that the method has made of its class. -/
def State.construct? (s : State) (next : Nat) (method : ConstantPool.MemberRef)
    (params : List TypeName) : Option State :=
  match s.stack.drop (totalSlots params) with
  | .reference (some number) :: stack =>
    if method.name = constructorName ∧ s.objects[number]? = some (.made method.owner) then
      let args := (s.stack.take (totalSlots params)).reverse
      some { s with pc := next, stack, calls := s.calls ++ [⟨method, number, args⟩] }
    else none
  | _ => none

/-- What an operation does to a state; `next` is the offset of the instruction after it. -/
def Operation.apply (handlers : List ExceptionEntry) (pool : ConstantPool) (next : Nat)
    (s : State) : Operation → Option Outcome
  | text index =>
    match pool.get? index with
    | some (.string u) =>
      (pool.utf8 u).toOption.map fun value => .running (s.withNew next (.text value))
    | _ => none
  | load slot =>
    match s.locals[slot]? with
    | some (.reference number?) =>
      some (.running { s with pc := next, stack := .reference number? :: s.stack })
    | _ => none
  | jumpNull op target =>
    match s.stack with
    | .reference number? :: stack =>
      some (.running { s with pc := if op.holds number?.isNone then target else next, stack })
    | _ => none
  | new index =>
    (pool.className index).toOption.map fun name => .running (s.withNew next (.made name))
  | dup =>
    match s.stack with
    | v :: stack => some (.running { s with pc := next, stack := v :: v :: stack })
    | [] => none
  | construct index => do
    let method ← (pool.memberRef index).toOption
    let (params, _) ← (parseMethodDescriptor method.descriptor).toOption
    return .running (← s.construct? next method params)
  | throw =>
    match s.stack with
    | .reference (some number) :: _ =>
      if isCovered handlers s.pc then none else some (.thrown number)
    | _ => none

/-- One step: the instruction at the program counter is read and carried out. -/
def step (c : CodeAttribute) (pool : ConstantPool) (s : State) : Option Outcome :=
  match Instruction.read ⟨s.pc, c.code.drop s.pc⟩ with
  | .ok (i, rest) => (operation? i.2).bind (·.apply c.handlers pool rest.offset s)
  | .error _ => none

/-- The machine gets from one state to another. -/
abbrev Reaches (c : CodeAttribute) (pool : ConstantPool) : State → State → Prop :=
  Relation.ReflTransGen fun s s' => step c pool s = some (.running s')

/-- The constructor of a class that takes a message. -/
def messageConstructor (className : String) : ConstantPool.MemberRef where
  owner := className
  name := constructorName
  descriptor := methodDescriptor [.string] .void
  onInterface := false

/-- The method ends with a new exception of a class. Its constructor was called with the message,
and nothing else was called. -/
def ThrowsNew (c : CodeAttribute) (pool : ConstantPool) (s : State)
    (className message : String) : Prop :=
  ∃ s', Reaches c pool s s' ∧ step c pool s' = some (.thrown s.objects.length) ∧
    s'.objects = s.objects ++ [.made className, .text message] ∧
    s'.calls = s.calls ++ [{
      method := messageConstructor className
      receiver := s.objects.length
      args := [.reference (some (s.objects.length + 1))] }]

/-- A run up to the exception may start before it, as long as it has no effect. -/
theorem ThrowsNew.of_reaches {c : CodeAttribute} {pool : ConstantPool} {s s' : State}
    {className message : String} (h : ThrowsNew c pool s' className message)
    (hreaches : Reaches c pool s s') (hobjects : s'.objects = s.objects)
    (hcalls : s'.calls = s.calls) : ThrowsNew c pool s className message := by
  obtain ⟨last, hlast, hthrown, hnew, hcalled⟩ := h
  rw [hobjects] at hthrown hnew hcalled
  rw [hcalls] at hcalled
  exact ⟨last, hreaches.trans hlast, hthrown, hnew, hcalled⟩

/-! ## Arguments -/

/-- An argument of a call. -/
inductive Argument
  /-- The object of a number, or `null`. -/
  | reference (number? : Option Nat)
  /-- A number of 32 bits. -/
  | single (value : UInt32)
  /-- A number of 64 bits. -/
  | double (high low : UInt32)
  deriving DecidableEq, Repr

namespace Argument

/-- The slots that the argument takes. -/
def slots : Argument → List Value
  | reference number? => [.reference number?]
  | single value => [.bits value]
  | double high low => [.bits high, .bits low]

/-- Is the argument a value of the type? -/
def IsOf (t : TypeName) : Argument → Prop
  | reference _ => t.isReference = true
  | single _ => t.isReference = false ∧ t.slotSize = 1
  | double _ _ => t.slotSize = 2

end Argument

/-- A method is about to run: the receiver and the arguments stand in the first local variables, one
after the other. -/
structure Starts (ctx : MethodContext) (args : List Argument) (s : State) : Prop where
  pc : s.pc = 0
  stack : s.stack = []
  typed : List.Forall₂ Argument.IsOf ctx.params args
  locals : ∃ receiver more, s.locals =
    (if ctx.isStatic then [] else [.reference (some receiver)]) ++
      args.flatMap Argument.slots ++ more
  size : s.locals.length ≤ 65535

variable {ctx : MethodContext} {args : List Argument} {s : State}

theorem Argument.IsOf.length_slots {t : TypeName} {a : Argument} (h : a.IsOf t) :
    a.slots.length = t.slotSize := by
  cases a with
  | reference number? => exact (TypeName.slotSize_of_isReference h).symm
  | single value => exact h.2.symm
  | double high low => exact h.symm

theorem Argument.IsOf.exists_reference {t : TypeName} {a : Argument} (h : a.IsOf t)
    (ht : t.isReference = true) : ∃ number?, a = .reference number? := by
  cases a with
  | reference number? => exact ⟨number?, rfl⟩
  | single value => exact absurd (ht.symm.trans h.1) (by decide)
  | double high low =>
    have hsize : t.slotSize = 2 := h
    rw [TypeName.slotSize_of_isReference ht] at hsize
    exact absurd hsize (by decide)

/-- The argument for a parameter of a reference type is a reference, in the slot after those of the
arguments before it. -/
theorem exists_reference {params : List TypeName} (h : List.Forall₂ Argument.IsOf params args)
    {position : Nat} {t : TypeName} (ht : params[position]? = some t)
    (href : t.isReference = true) : ∃ number?, args[position]? = some (.reference number?) ∧
      (args.flatMap Argument.slots)[totalSlots (params.take position)]?
        = some (.reference number?) := by
  induction h generalizing position with
  | nil => cases ht
  | @cons t' a params args ha _ ih =>
    cases position with
    | zero =>
      obtain rfl : t' = t := by simpa using ht
      obtain ⟨number?, rfl⟩ := ha.exists_reference href
      exact ⟨number?, rfl, rfl⟩
    | succ position =>
      obtain ⟨number?, harg, hslot⟩ := ih (by simpa using ht)
      have hsize : totalSlots ((t' :: params).take (position + 1))
          = a.slots.length + totalSlots (params.take position) := by
        rw [ha.length_slots]
        rfl
      refine ⟨number?, by simpa using harg, ?_⟩
      rw [hsize, List.flatMap_cons, List.getElem?_append_right (Nat.le_add_right _ _),
        Nat.add_sub_cancel_left, hslot]

/-- A parameter that takes a reference has it in its slot. -/
theorem Starts.reference (h : Starts ctx args s) {index slot : Nat} {t : TypeName}
    (hslot : ctx.paramSlot? index = some (slot, t)) (ht : t.isReference = true) :
    slot ≤ 65535 ∧ ∃ number?, args[index - 1]? = some (.reference number?) ∧
      s.locals[slot]? = some (.reference number?) := by
  obtain ⟨receiver, more, hlocals⟩ := h.locals
  have hreceiver : (if ctx.isStatic then [] else [Value.reference (some receiver)]).length
      = ctx.receiverSlots := by
    rw [MethodContext.receiverSlots]
    split_ifs <;> rfl
  cases index with
  | zero => cases hslot
  | succ position =>
    obtain ⟨t', ht', heq⟩ := Option.map_eq_some_iff.mp hslot
    obtain ⟨rfl, rfl⟩ := Prod.mk.inj heq
    obtain ⟨number?, harg, hfound⟩ := exists_reference h.typed ht' ht
    have hlocal : s.locals[ctx.receiverSlots + totalSlots (ctx.params.take position)]?
        = some (.reference number?) := by
      rw [hlocals, List.append_assoc,
        List.getElem?_append_right (by rw [hreceiver]; exact Nat.le_add_right _ _), hreceiver,
        Nat.add_sub_cancel_left,
        List.getElem?_append_left (List.getElem?_eq_some_iff.mp hfound).1, hfound]
    have hlt := (List.getElem?_eq_some_iff.mp hlocal).1
    exact ⟨Nat.le_of_lt (Nat.lt_of_lt_of_le hlt h.size), number?, harg, hlocal⟩

/-! ## Instructions by position -/

/-- The machine in front of the instruction at a position of the code. -/
def State.atPosition (s : State) (is : List Instruction) (position : Nat) : State :=
  { s with pc := Instruction.offsetIn is position }

theorem operation?_of_scalar {i : Instruction} {op : Machine.Operation} {op' : Operation}
    (hi : Machine.operation? i = some op) (hop : ofScalar? op = some op') :
    operation? i = some op' := by
  have hscalar : (Machine.operation? i).bind ofScalar? = some op' := by
    rw [hi, Option.bind_some, hop]
  obtain ⟨opcode, operand⟩ := i
  -- an opcode that the machine has an operation of its own for has none for numbers
  cases operand with
  | empty =>
    simp only [operation?]
    split_ifs with hdup hthrow
    · rw [hdup] at hi
      cases hi
    · rw [hthrow] at hi
      cases hi
    · exact hscalar
  | short index =>
    simp only [operation?]
    split_ifs with hnew hspecial
    · rw [hnew] at hi
      cases hi
    · rw [hspecial] at hi
      cases hi
    · exact hscalar
  | _ => exact hscalar

/-- The instruction at a position is carried out. -/
theorem step_of_getElem? {c : CodeAttribute} {pool : ConstantPool} {is : List Instruction}
    (hfits : ∀ i ∈ is, i.Fits) (hencode : Instruction.encode is = .ok c.code) {position : Nat}
    {i : Instruction} (hi : is[position]? = some i) (op : Operation)
    (hop : operation? (i.mapLabels (Instruction.offsetIn is)) = some op) :
    step c pool (s.atPosition is position)
      = op.apply c.handlers pool (Instruction.offsetIn is (position + 1))
          (s.atPosition is position) := by
  have hread := Instruction.read_of_encode hfits hencode hi
  simp only [step, State.atPosition, hread, hop, Option.bind_some]

end ClassSynth.Thrower
