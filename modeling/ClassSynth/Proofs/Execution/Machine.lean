import ClassSynth.Body.Basic
import ClassSynth.ConstantPool.Basic
import ClassSynth.Emit.Context
import ClassSynth.Instruction.Code
import Mathlib.Logic.Relation

/-!
# A machine for scalar code

The machine reads one instruction at a time from the bytes of a method and changes its local
variables and its operand stack. It knows the instructions on numbers of 32 bits and on references
that compare or move them; any other instruction, a value of the wrong kind, a slot out of range or
a missing operand stops it without a result.

`run` is the machine with a bound on its steps, and `Returns` says that it ends with a result; it
has at most one (`Returns.unique`). `returns_of_reaches` puts single steps before a run.
-/

namespace ClassSynth

/-- Does the test hold of two values, given whether they are the same? -/
def CompareOp.holds : CompareOp → Bool → Bool
  | eq, same => same
  | ne, same => !same

/-- The operation on numbers of 32 bits; an overflow wraps around. -/
def ArithOp.apply : ArithOp → Int32 → Int32 → Int32
  | add, a, b => a + b
  | mul, a, b => a * b

namespace Machine

/-- A value in a local variable or on the operand stack. -/
inductive Value
  | int (n : Int32)
  /-- A reference to an object, or `null`. -/
  | ref (object? : Option Nat)
  deriving DecidableEq, Repr

namespace Value

/-- The kind that loads, stores and returns tell apart. -/
def kind : Value → ValueKind
  | int _ => .int
  | ref _ => .reference

/-- Zero or `null`. -/
def isZero : Value → Bool
  | int n => n == 0
  | ref object? => object?.isNone

end Value

/-- The state of a method that runs. The top of the stack comes first. -/
structure State where
  pc : Nat
  locals : List Value
  stack : List Value
  deriving DecidableEq, Repr

/-- What a step leads to. -/
inductive Outcome
  | running (s : State)
  /-- The method ends, with a value unless it is `void`. -/
  | returned (value? : Option Value)
  deriving DecidableEq, Repr

/-- What an instruction does. -/
inductive Operation
  | push (v : Value)
  /-- Pushes the number at an index of the constant pool. -/
  | constant (index : UInt16)
  | load (kind : ValueKind) (slot : Nat)
  | store (kind : ValueKind) (slot : Nat)
  | pop
  | arith (op : ArithOp)
  | jump (target : Label)
  /-- Jumps if the test of a value against zero or `null` holds. -/
  | jumpZero (op : CompareOp) (kind : ValueKind) (target : Label)
  /-- Jumps if the test of two values holds. -/
  | jumpSame (op : CompareOp) (kind : ValueKind) (target : Label)
  | ret (kind? : Option ValueKind)
  deriving DecidableEq, Repr

/-! ## Decoding -/

/-- The operation of an opcode without an operand. -/
def plainOperation? (opcode : UInt8) : Option Operation :=
  if opcode = Opcode.aconstNull then some (.push (.ref none))
  else if Opcode.inRange (Opcode.iconst0 - 1) (Opcode.iconst0 + 5) opcode then
    some (.push (.int (opcode.toInt8.toInt32 - Opcode.iconst0.toInt8.toInt32)))
  else if Opcode.inRange Opcode.iload0 (Opcode.iload0 + 3) opcode then
    some (.load .int (opcode - Opcode.iload0).toNat)
  else if Opcode.inRange Opcode.aload0 (Opcode.aload0 + 3) opcode then
    some (.load .reference (opcode - Opcode.aload0).toNat)
  else if Opcode.inRange Opcode.istore0 (Opcode.istore0 + 3) opcode then
    some (.store .int (opcode - Opcode.istore0).toNat)
  else if Opcode.inRange Opcode.astore0 (Opcode.astore0 + 3) opcode then
    some (.store .reference (opcode - Opcode.astore0).toNat)
  else if opcode = Opcode.pop then some .pop
  else if opcode = Opcode.iadd then some (.arith .add)
  else if opcode = Opcode.imul then some (.arith .mul)
  else if opcode = Opcode.ireturn then some (.ret (some .int))
  else if opcode = Opcode.areturn then some (.ret (some .reference))
  else if opcode = Opcode.returnVoid then some (.ret none)
  else none

/-- The operation of an opcode with an explicit slot. -/
def slotOperation? (opcode : UInt8) (slot : Nat) : Option Operation :=
  if opcode = Opcode.iload then some (.load .int slot)
  else if opcode = Opcode.aload then some (.load .reference slot)
  else if opcode = Opcode.istore then some (.store .int slot)
  else if opcode = Opcode.astore then some (.store .reference slot)
  else none

/-- The operation of an opcode with a jump target. -/
def branchOperation? (opcode : UInt8) (target : Label) : Option Operation :=
  if opcode = Opcode.goto then some (.jump target)
  else if opcode = Opcode.ifeq then some (.jumpZero .eq .int target)
  else if opcode = Opcode.ifne then some (.jumpZero .ne .int target)
  else if opcode = Opcode.ifnull then some (.jumpZero .eq .reference target)
  else if opcode = Opcode.ifnonnull then some (.jumpZero .ne .reference target)
  else if opcode = Opcode.ifIcmpeq then some (.jumpSame .eq .int target)
  else if opcode = Opcode.ifIcmpne then some (.jumpSame .ne .int target)
  else if opcode = Opcode.ifAcmpeq then some (.jumpSame .eq .reference target)
  else if opcode = Opcode.ifAcmpne then some (.jumpSame .ne .reference target)
  else none

/-- The operation of an instruction, if the machine knows it. -/
def operation? (i : Instruction) : Option Operation :=
  match i.operand with
  | .empty => plainOperation? i.opcode
  | .byte value =>
    if i.opcode = Opcode.bipush then some (.push (.int value.toInt8.toInt32))
    else if i.opcode = Opcode.ldc then some (.constant value.toUInt16)
    else none
  | .short value =>
    if i.opcode = Opcode.sipush then some (.push (.int value.toInt16.toInt32))
    else if i.opcode = Opcode.ldcWide then some (.constant value)
    else none
  | .slot index _ => slotOperation? i.opcode index.toNat
  | .branch target => branchOperation? i.opcode target
  | _ => none

/-! ## Steps -/

/-- What an operation does to a state; `next` is the offset of the instruction after it. -/
def Operation.apply (pool : ConstantPool) (next : Nat) (s : State) : Operation → Option Outcome
  | push v => some (.running { s with pc := next, stack := v :: s.stack })
  | constant index =>
    match pool.get? index with
    | some (.integer n) => some (.running { s with pc := next, stack := .int n :: s.stack })
    | _ => none
  | load kind slot =>
    match s.locals[slot]? with
    | some v =>
      if v.kind = kind then some (.running { s with pc := next, stack := v :: s.stack }) else none
    | none => none
  | store kind slot =>
    match s.stack with
    | v :: stack =>
      if v.kind = kind ∧ slot < s.locals.length then
        some (.running { pc := next, locals := s.locals.set slot v, stack })
      else none
    | [] => none
  | pop =>
    match s.stack with
    | _ :: stack => some (.running { s with pc := next, stack })
    | [] => none
  | arith op =>
    match s.stack with
    | .int b :: .int a :: stack =>
      some (.running { s with pc := next, stack := .int (op.apply a b) :: stack })
    | _ => none
  | jump target => some (.running { s with pc := target })
  | jumpZero op kind target =>
    match s.stack with
    | v :: stack =>
      if v.kind = kind then
        some (.running { s with pc := if op.holds v.isZero then target else next, stack })
      else none
    | [] => none
  | jumpSame op kind target =>
    match s.stack with
    | b :: a :: stack =>
      if a.kind = kind ∧ b.kind = kind then
        some (.running { s with pc := if op.holds (a == b) then target else next, stack })
      else none
    | _ => none
  | ret none => some (.returned none)
  | ret (some kind) =>
    match s.stack with
    | v :: _ => if v.kind = kind then some (.returned (some v)) else none
    | [] => none

/-- One step: the instruction at the program counter is read and carried out. -/
def step (code : Bytes) (pool : ConstantPool) (s : State) : Option Outcome :=
  match Instruction.read ⟨s.pc, code.drop s.pc⟩ with
  | .ok (i, rest) => (operation? i.2).bind (·.apply pool rest.offset s)
  | .error _ => none

/-- Runs until the method returns, for a bounded number of steps. -/
def run (code : Bytes) (pool : ConstantPool) : Nat → State → Option (Option Value)
  | 0, _ => none
  | fuel + 1, s =>
    match step code pool s with
    | some (.running s) => run code pool fuel s
    | some (.returned value?) => some value?
    | none => none

/-- The machine returns with a result, given enough steps. -/
def Returns (code : Bytes) (pool : ConstantPool) (s : State) (value? : Option Value) : Prop :=
  ∃ fuel, ∀ n, fuel ≤ n → run code pool n s = some value?

/-- The machine gets from one state to another. -/
abbrev Reaches (code : Bytes) (pool : ConstantPool) : State → State → Prop :=
  Relation.ReflTransGen fun s s' => step code pool s = some (.running s')

variable {code : Bytes} {pool : ConstantPool} {s s' : State} {value? : Option Value}

theorem returns_of_step (h : step code pool s = some (.returned value?)) :
    Returns code pool s value? := by
  refine ⟨1, fun n hn => ?_⟩
  obtain ⟨n, rfl⟩ : ∃ m, n = m + 1 := ⟨n - 1, by omega⟩
  simp only [run, h]

/-- What a state returns, a state before it returns. -/
theorem returns_of_reaches (h : Reaches code pool s s') (hs' : Returns code pool s' value?) :
    Returns code pool s value? := by
  induction h using Relation.ReflTransGen.head_induction_on with
  | refl => exact hs'
  | head hstep _ ih =>
    obtain ⟨fuel, hrun⟩ := ih
    refine ⟨fuel + 1, fun n hn => ?_⟩
    obtain ⟨n, rfl⟩ : ∃ m, n = m + 1 := ⟨n - 1, by omega⟩
    simp only [run, hstep]
    exact hrun n (Nat.le_of_succ_le_succ hn)

/-- A method returns at most one result. -/
theorem Returns.unique {other? : Option Value} (h : Returns code pool s value?)
    (h' : Returns code pool s other?) : value? = other? := by
  obtain ⟨fuel, hrun⟩ := h
  obtain ⟨fuel', hrun'⟩ := h'
  have hsame := (hrun (max fuel fuel') (Nat.le_max_left _ _)).symm.trans
    (hrun' (max fuel fuel') (Nat.le_max_right _ _))
  exact Option.some.inj hsame

end Machine

end ClassSynth
