import ClassSynth.Proofs.Execution.Throwing

/-!
# Code that checks references

A check is seven instructions: it loads a reference, jumps behind itself unless the reference is
`null`, and throws a new exception otherwise. `CheckAt` says that a check stands at a position,
`ChecksAt` that several follow each other; a run gets through them if no checked reference is
`null`, and else ends with the exception of the first one that is.
-/

namespace ClassSynth.Thrower

open Emit (loadForm constantForm)
open Instruction (offsetIn)

/-- What a check looks at, and what it throws. -/
structure Check where
  slot : Nat
  className : String
  message : String
  deriving DecidableEq, Repr

/-- The number of instructions of a check. -/
def Check.size : Nat := 7

/-- The instructions of a check stand at a position. -/
structure CheckAt (pool : ConstantPool) (is : List Instruction) (position : Nat) (x : Check) :
    Prop where
  load : is[position]? = some (loadForm .reference x.slot)
  jump : is[position + 1]? = some ⟨Opcode.ifnonnull, .branch (position + Check.size)⟩
  new : ∃ index, is[position + 2]? = some ⟨Opcode.new, .short index⟩ ∧
    pool.className index = .ok x.className
  dup : is[position + 3]? = some ⟨Opcode.dup, .empty⟩
  text : ∃ index u, is[position + 4]? = some (constantForm index) ∧
    pool.get? index = some (.string u) ∧ pool.utf8 u = .ok x.message
  construct : ∃ index, is[position + 5]? = some ⟨Opcode.invokespecial, .short index⟩ ∧
    pool.memberRef index = .ok (messageConstructor x.className)
  throw : is[position + 6]? = some ⟨Opcode.athrow, .empty⟩

/-- Checks follow each other from a position on. -/
def ChecksAt (pool : ConstantPool) (is : List Instruction) : Nat → List Check → Prop
  | _, [] => True
  | position, x :: checks =>
    CheckAt pool is position x ∧ ChecksAt pool is (position + Check.size) checks

/-- A check stays where it is if code follows. -/
theorem CheckAt.of_start {pool : ConstantPool} {is is' : List Instruction} {position : Nat}
    {x : Check} (h : CheckAt pool is position x) (hstarts : is <+: is') :
    CheckAt pool is' position x := by
  have hstay : ∀ {k : Nat} {i : Instruction}, is[k]? = some i → is'[k]? = some i := by
    intro k i hi
    obtain ⟨more, rfl⟩ := hstarts
    rw [List.getElem?_append_left (List.getElem?_eq_some_iff.mp hi).1, hi]
  obtain ⟨new, hnew, hclass⟩ := h.new
  obtain ⟨text, u, htext, hstring⟩ := h.text
  obtain ⟨construct, hconstruct, hmember⟩ := h.construct
  exact {
    load := hstay h.load
    jump := hstay h.jump
    new := ⟨new, hstay hnew, hclass⟩
    dup := hstay h.dup
    text := ⟨text, u, hstay htext, hstring⟩
    construct := ⟨construct, hstay hconstruct, hmember⟩
    throw := hstay h.throw }

theorem ChecksAt.of_start {pool : ConstantPool} {is is' : List Instruction} {position : Nat}
    {checks : List Check} (h : ChecksAt pool is position checks) (hstarts : is <+: is') :
    ChecksAt pool is' position checks := by
  induction checks generalizing position with
  | nil => trivial
  | cons x checks ih => exact ⟨h.1.of_start hstarts, ih h.2⟩

theorem parse_messageDescriptor :
    parseMethodDescriptor (methodDescriptor [.string] .void) = .ok ([.string], .void) := by
  decide

theorem apply_construct {handlers : List ExceptionEntry} {pool : ConstantPool} {index : UInt16}
    {next : Nat} {s : State} {method : ConstantPool.MemberRef} {params : List TypeName}
    {ret : TypeName} (hmethod : pool.memberRef index = .ok method)
    (hparams : parseMethodDescriptor method.descriptor = .ok (params, ret)) :
    (Operation.construct index).apply handlers pool next s
      = (s.construct? next method params).map .running := by
  simp only [Operation.apply, hmethod, Except.toOption, Option.bind_eq_bind, Option.bind_some,
    hparams]
  cases s.construct? next method params <;> rfl

variable {c : CodeAttribute} {pool : ConstantPool} {is : List Instruction} {s : State}
  (hfits : ∀ i ∈ is, i.Fits) (hencode : Instruction.encode is = .ok c.code)
include hfits hencode

/-- The test of a check loads the reference and jumps behind the check unless it is `null`. -/
theorem reaches_test {position : Nat} {x : Check} (h : CheckAt pool is position x)
    {number? : Option Nat} (hslot : x.slot ≤ 65535)
    (hlocal : s.locals[x.slot]? = some (.reference number?)) :
    Reaches c pool (s.atPosition is position)
      (s.atPosition is (if number?.isNone then position + 2 else position + Check.size)) := by
  have hload : step c pool (s.atPosition is position) = some (.running
      { s.atPosition is (position + 1) with stack := .reference number? :: s.stack }) := by
    refine (step_of_getElem? hfits hencode h.load (.load x.slot) ?_).trans ?_
    · rw [(Emit.plain_loadForm _ _).mapLabels]
      exact operation?_of_scalar (Machine.operation?_loadForm (.inr rfl) hslot) rfl
    · simp only [Operation.apply, State.atPosition, hlocal]
  have hjump : step c pool
      { s.atPosition is (position + 1) with stack := .reference number? :: s.stack }
      = some (.running
        (s.atPosition is (if number?.isNone then position + 2 else position + Check.size))) := by
    refine (step_of_getElem? (s := { s with stack := .reference number? :: s.stack }) hfits hencode
      h.jump (.jumpNull .ne (offsetIn is (position + Check.size))) rfl).trans ?_
    cases number? <;> rfl
  exact .head hload (.single hjump)

/-- A check lets a reference to an object pass. -/
theorem reaches_of_object {position : Nat} {x : Check} (h : CheckAt pool is position x)
    {number : Nat} (hslot : x.slot ≤ 65535)
    (hlocal : s.locals[x.slot]? = some (.reference (some number))) :
    Reaches c pool (s.atPosition is position) (s.atPosition is (position + Check.size)) :=
  reaches_test hfits hencode h hslot hlocal

/-- A check throws its exception if the reference is `null`. -/
theorem throwsNew_of_null {position : Nat} {x : Check} (h : CheckAt pool is position x)
    (hslot : x.slot ≤ 65535) (hlocal : s.locals[x.slot]? = some (.reference none))
    (hcovered : isCovered c.handlers (offsetIn is (position + 6)) = false) :
    ThrowsNew c pool (s.atPosition is position) x.className x.message := by
  obtain ⟨classIndex, hnew, hclass⟩ := h.new
  obtain ⟨textIndex, u, htext, hstring, hmessage⟩ := h.text
  obtain ⟨methodIndex, hconstruct, hmethod⟩ := h.construct
  -- the states behind `new`, `dup`, the message and the call of the constructor
  let fresh : Value := .reference (some s.objects.length)
  let s₁ : State :=
    { s with stack := fresh :: s.stack, objects := s.objects ++ [.made x.className] }
  let s₂ : State := { s₁ with stack := fresh :: fresh :: s.stack }
  let s₃ : State := { s₂ with
    stack := .reference (some (s.objects.length + 1)) :: s₂.stack
    objects := s.objects ++ [.made x.className, .text x.message] }
  let s₄ : State := { s₃ with
    stack := fresh :: s.stack
    calls := s.calls ++ [⟨messageConstructor x.className, s.objects.length,
      [.reference (some (s.objects.length + 1))]⟩] }
  have hto₁ : step c pool (s.atPosition is (position + 2))
      = some (.running (s₁.atPosition is (position + 3))) := by
    refine (step_of_getElem? hfits hencode hnew (.new classIndex) rfl).trans ?_
    simp only [Operation.apply, hclass]
    rfl
  have hto₂ : step c pool (s₁.atPosition is (position + 3))
      = some (.running (s₂.atPosition is (position + 4))) :=
    step_of_getElem? hfits hencode h.dup .dup rfl
  have hto₃ : step c pool (s₂.atPosition is (position + 4))
      = some (.running (s₃.atPosition is (position + 5))) := by
    refine (step_of_getElem? hfits hencode htext (.text textIndex) ?_).trans ?_
    · rw [(Emit.plain_constantForm _).mapLabels]
      exact operation?_of_scalar (Machine.operation?_constantForm textIndex) rfl
    · simp only [Operation.apply, hstring, hmessage]
      simp [Except.toOption, State.withNew, State.atPosition, s₃, s₂, s₁]
  have hto₄ : step c pool (s₃.atPosition is (position + 5))
      = some (.running (s₄.atPosition is (position + 6))) := by
    refine (step_of_getElem? hfits hencode hconstruct (.construct methodIndex) rfl).trans ?_
    have hobject : (s₃.atPosition is (position + 5)).objects[s.objects.length]?
        = some (.made x.className) := by
      simp [State.atPosition, s₃]
    have hcall : (s₃.atPosition is (position + 5)).construct? (offsetIn is (position + 5 + 1))
        (messageConstructor x.className) [.string] = some (s₄.atPosition is (position + 6)) :=
      if_pos ⟨rfl, hobject⟩
    rw [apply_construct hmethod parse_messageDescriptor, hcall]
    rfl
  have hthrown : step c pool (s₄.atPosition is (position + 6))
      = some (.thrown s.objects.length) := by
    refine (step_of_getElem? hfits hencode h.throw .throw rfl).trans ?_
    simp only [Operation.apply, State.atPosition, hcovered]
    rfl
  refine ⟨s₄.atPosition is (position + 6), ?_, hthrown, rfl, rfl⟩
  exact (reaches_test hfits hencode h hslot hlocal).trans
    (.head hto₁ (.head hto₂ (.head hto₃ (.single hto₄))))

/-! ## Several checks -/

/-- Checks let references to objects pass. -/
theorem reaches_of_objects {checks : List Check} {position : Nat}
    (h : ChecksAt pool is position checks)
    (hobjects : ∀ x ∈ checks, x.slot ≤ 65535 ∧
      ∃ number, s.locals[x.slot]? = some (.reference (some number))) :
    Reaches c pool (s.atPosition is position)
      (s.atPosition is (position + checks.length * Check.size)) := by
  induction checks generalizing position with
  | nil => exact .refl
  | cons x checks ih =>
    obtain ⟨hslot, number, hlocal⟩ := hobjects x List.mem_cons_self
    have hrest := ih h.2 fun y hy => hobjects y (List.mem_cons_of_mem _ hy)
    have hend : position + Check.size + checks.length * Check.size
        = position + (x :: checks).length * Check.size := by
      rw [List.length_cons, Nat.succ_mul]
      omega
    rw [hend] at hrest
    exact (reaches_of_object hfits hencode h.1 hslot hlocal).trans hrest

/-- Checks throw the exception of the first one whose reference is `null`. -/
theorem throwsNew_of_first {before after : List Check} {x : Check} {position : Nat}
    (h : ChecksAt pool is position (before ++ x :: after))
    (hobjects : ∀ y ∈ before, y.slot ≤ 65535 ∧
      ∃ number, s.locals[y.slot]? = some (.reference (some number)))
    (hslot : x.slot ≤ 65535) (hlocal : s.locals[x.slot]? = some (.reference none))
    (hcovered : ∀ k, k < position + (before ++ x :: after).length * Check.size →
      isCovered c.handlers (offsetIn is k) = false) :
    ThrowsNew c pool (s.atPosition is position) x.className x.message := by
  induction before generalizing position with
  | nil =>
    refine throwsNew_of_null hfits hencode h.1 hslot hlocal (hcovered _ ?_)
    rw [List.nil_append, List.length_cons, Nat.succ_mul, Check.size]
    omega
  | cons y before ih =>
    obtain ⟨hslotY, number, hlocalY⟩ := hobjects y List.mem_cons_self
    have hpass := reaches_of_object hfits hencode h.1 hslotY hlocalY
    have hrest := ih h.2 (fun z hz => hobjects z (List.mem_cons_of_mem _ hz)) fun k hk => by
      refine hcovered k ?_
      rw [List.cons_append, List.length_cons, Nat.succ_mul]
      omega
    exact hrest.of_reaches hpass rfl rfl

end ClassSynth.Thrower
