import ClassSynth.Text.Quoted

/-!
# Errors

Every failure is a cause; the wording of all causes is in the `message` functions here.
-/

namespace ClassSynth

/-! ## Class file structures -/

/-- Why a class file structure cannot be read, written or edited. -/
inductive ClassFormatError
  | truncated (offset needed : Nat)
  | badMagic (magic : UInt32)
  | unknownConstantTag (tag : UInt8) (index : UInt16)
  | invalidIndex (index : UInt16)
  | outOfSpace
  | invalidUtf8 (index : UInt16)
  | invalidDescriptor (text : String)
  | unknownOpcode (opcode : UInt8) (pc : Nat)
  | invalidBranchTarget (target : Int)
  | branchTooFar (offset : Int)
  | invalidFrameType (tag : UInt8)
  | invalidVerificationType (tag : UInt8)
  | codeTooLarge (size : Nat)
  deriving DecidableEq, Repr

/-- The wording of a class file error. -/
def ClassFormatError.message : ClassFormatError → String
  | truncated offset needed => s!"Truncated class file: needed {needed} bytes at offset {offset}"
  | badMagic magic => "Bad magic number: 0x" ++ hexPadded 8 magic.toNat
  | unknownConstantTag tag index => s!"Unknown constant pool tag {tag} at index {index}"
  | invalidIndex index => s!"Invalid constant pool index: {index}"
  | outOfSpace => "Constant pool is out of space"
  | invalidUtf8 index => s!"Invalid modified UTF-8 in constant {index}"
  | invalidDescriptor text => "Invalid descriptor: " ++ text
  | unknownOpcode opcode pc => "Unknown opcode 0x" ++ hexPadded 2 opcode.toNat ++ s!" at pc {pc}"
  | invalidBranchTarget target => s!"Branch target {target} is not an instruction boundary"
  | branchTooFar offset => s!"Branch target too far: {offset}"
  | invalidFrameType tag => s!"Invalid stack map frame type {tag}"
  | invalidVerificationType tag => s!"Invalid verification type tag {tag}"
  | codeTooLarge size => s!"Code too large: {size} bytes"

/-! ## Bodies -/

/-- Why a body cannot be turned into code. Types, expressions and statements are given by their
text. -/
inductive CodeGenError
  | missingReturn (type : String)
  | missingReturnValue (type : String)
  | voidReturnsValue
  | unreachableStatement (statement : String)
  | untypedExpression (expression : String)
  | unknownLocal (name : String)
  | unknownParameter (index : Nat)
  | thisInStaticMethod
  | argumentCount (expected found : Nat)
  | missingReceiver (method : String)
  | castToPrimitive (type : String)
  | cannotBox (type : String)
  | cannotUnbox (type : String)
  | stackUnderflow (className : String)
  | stackHeightMismatch
  | stackEntryMismatch (left right : String)
  | branchOutOfRange (offset : Int)
  | codeTooLarge (size : Nat)
  | methodWithoutBody (method : String)
  | replacesVoidReturns (method : String)
  | replacesWideReturns (method : String)
  | cannotConvert (expression source target : String)
  | mutatorReturn (method type owner : String)
  | receiverReturn (method type : String)
  | unexpectedClass (layer found wanted : String)
  deriving DecidableEq, Repr

/-- The wording of a code generation error. -/
def CodeGenError.message : CodeGenError → String
  | missingReturn type => "missing return statement in method returning " ++ type
  | missingReturnValue type => "missing return value of type " ++ type
  | voidReturnsValue => "void method cannot return a value"
  | unreachableStatement statement => "unreachable statement `" ++ statement ++ "`"
  | untypedExpression expression => "cannot type expression `" ++ expression ++ "`"
  | unknownLocal name => "unknown local variable `" ++ name ++ "`"
  | unknownParameter index => s!"parameter ${index} does not exist"
  | thisInStaticMethod => "`this` is not available in a static method"
  | argumentCount expected found => s!"expected {expected} arguments but found {found}"
  | missingReceiver method => "call to " ++ method ++ " needs a receiver"
  | castToPrimitive type => "cannot cast to primitive type " ++ type
  | cannotBox type => "cannot box " ++ type
  | cannotUnbox type => "cannot unbox to " ++ type
  | stackUnderflow className => "operand stack underflow in " ++ className
  | stackHeightMismatch => "inconsistent operand stack height at branch target"
  | stackEntryMismatch left right =>
    "incompatible stack entries " ++ left ++ " and " ++ right ++ " at branch target"
  | branchOutOfRange offset => s!"branch offset {offset} out of range"
  | codeTooLarge size => s!"code too large: {size} bytes"
  | methodWithoutBody method => "method " ++ method ++ " has no body"
  | replacesVoidReturns method => "cannot rewrite returns of void method " ++ method
  | replacesWideReturns method => "cannot rewrite returns of wide-valued method " ++ method
  | cannotConvert expression source target =>
    "cannot convert `" ++ expression ++ "` of type " ++ source ++ " to " ++ target
  | mutatorReturn method type owner =>
    "mutator " ++ method ++ " returns " ++ type ++ ", which " ++ owner ++ " cannot be returned as"
  | receiverReturn method type =>
    method ++ " returns " ++ type ++ ", which the receiver cannot be returned as"
  | unexpectedClass layer found wanted =>
    layer ++ " provided class " ++ found ++ " when asked for " ++ wanted

/-! ## Templates -/

/-- Why a template is refused. -/
inductive TemplateError
  | unexpectedInput (text : String) (offset : Nat)
  | empty
  | endOfTemplate
  | trailing (lexeme : String)
  | expected (what found : String)
  | badParameter (lexeme : String)
  | integerOutOfRange (lexeme : String)
  | emptyName
  | unexpected (lexeme : String)
  | placeholderCount (count : Nat)
  | placeholderOutsideWrap
  | thisInStaticContext
  | parameterCount (count : Nat)
  | allParamsOutsideCall
  | noFieldsIn (field type : String)
  | noMethodsIn (method type : String)
  | noApplicableMethod (owner name : String) (arguments : List String)
  deriving DecidableEq, Repr

/-- The wording of a template error. -/
def TemplateError.message : TemplateError → String
  | unexpectedInput text offset => "unexpected input `" ++ text ++ s!"` at offset {offset}"
  | empty => "empty template"
  | endOfTemplate => "unexpected end of template"
  | trailing lexeme => "unexpected `" ++ lexeme ++ "` after expression"
  | expected what found => "expected " ++ what ++ " but found `" ++ found ++ "`"
  | badParameter lexeme => "bad parameter `" ++ lexeme ++ "`"
  | integerOutOfRange lexeme => "integer `" ++ lexeme ++ "` out of range"
  | emptyName => "empty name"
  | unexpected lexeme => "unexpected `" ++ lexeme ++ "`"
  | placeholderCount count => s!"expected exactly one %s but found {count}"
  | placeholderOutsideWrap => "`%s` is only allowed in wrap templates"
  | thisInStaticContext => "`this` is not available in a static context"
  | parameterCount count => s!"method has only {count} parameters"
  | allParamsOutsideCall => "`$$` is only allowed as a call argument"
  | noFieldsIn field type => "cannot read field `" ++ field ++ "` of " ++ type
  | noMethodsIn method type => "cannot call `" ++ method ++ "` on a value of type " ++ type
  | noApplicableMethod owner name arguments =>
    "no applicable method " ++ owner ++ "." ++ name ++ "(" ++ ", ".intercalate arguments ++ ")"

/-! ## Configuration and internal state -/

/-- A request that contradicts itself or the classes it is applied to. -/
inductive ConfigError
  | incompleteFactory (source : String)
  | instanceFactory (method : String)
  | noInvocations (method : String)
  | chainReturnsNothing (method type : String)
  | noMessageConstructor (exception : String)
  deriving DecidableEq, Repr

/-- The wording of a configuration error. -/
def ConfigError.message : ConfigError → String
  | incompleteFactory source =>
    "factory binding of " ++ source ++ " needs both a location and a method name"
  | instanceFactory method => "existing factory method " ++ method ++ " is not static"
  | noInvocations method => method ++ " returns the last invocation but has no invocations"
  | chainReturnsNothing method type =>
    method ++ " returns " ++ type ++ " but its invocation chain returns nothing"
  | noMessageConstructor exception => exception ++ " has no constructor taking a message"

/-- A state that no complete run reaches. -/
inductive InternalError
  | unplacedLabel
  | mutatorWithoutParameter (method : String)
  | unsetSlot (slot : String)
  | resultIndex (index size : Nat)
  | incompleteResult (part : String)
  deriving DecidableEq, Repr

/-- The wording of an internal error. -/
def InternalError.message : InternalError → String
  | unplacedLabel => "branch to a label that was never placed"
  | mutatorWithoutParameter method => "mutator " ++ method ++ " takes no parameter"
  | unsetSlot slot => "generation session has no " ++ slot
  | resultIndex index size => s!"class result index {index} out of bounds ({size})"
  | incompleteResult part => "class result is missing its " ++ part

/-! ## Model documents -/

/-- Why a text is no model. -/
inductive ModelError
  | malformedText
  | missingField (name : String)
  | repeatedField (name : String)
  | wrongValue (expected : String)
  deriving DecidableEq, Repr

/-- The wording of a model error. -/
def ModelError.message : ModelError → String
  | malformedText => "not a JSON text"
  | missingField name => "missing field `" ++ name ++ "`"
  | repeatedField name => "duplicate field `" ++ name ++ "`"
  | wrongValue expected => "expected " ++ expected

/-! ## All errors -/

/-- Why a generation run fails. -/
inductive Error
  | io (reason : String)
  | classFormat (cause : ClassFormatError)
  | model (cause : ModelError)
  | archive (reason : String)
  | config (cause : ConfigError)
  | invalidLanguageLevel (level : Nat)
  | missingSymbol (name : String)
  | malformedName (name : String)
  | duplicateMember (className name descriptor : String)
  | template (source : String) (cause : TemplateError)
  | codeGen (cause : CodeGenError)
  | compile (reason : String)
  | processor (handler typeName : String)
  | realization (handler : String) (source : Error)
  | internal (cause : InternalError)
  deriving DecidableEq, Repr

namespace Error

/-- The wording of an error. -/
def message : Error → String
  | io reason => "IO error: " ++ reason
  | classFormat cause => "Class format error: " ++ cause.message
  | model cause => "Invalid type model: " ++ cause.message
  | archive reason => "Jar error: " ++ reason
  | config cause => "Configuration error: " ++ cause.message
  | invalidLanguageLevel level => s!"Invalid language level: {level}"
  | missingSymbol name => "Missing symbol: " ++ name
  | malformedName name => "Malformed class name: " ++ name
  | duplicateMember className name descriptor =>
    "Duplicate member " ++ name ++ descriptor ++ " in class " ++ className
  | template source cause => "Template error in `" ++ source ++ "`: " ++ cause.message
  | codeGen cause => "Code generation error: " ++ cause.message
  | compile reason => "Source compilation failed: " ++ reason
  | processor handler typeName =>
    "Handler " ++ handler ++ " was unable to process type " ++ typeName
  | realization handler source =>
    "Unable to finish generation in handler " ++ handler ++ ": " ++ source.message
  | internal cause => "Internal error: " ++ cause.message

/-- The innermost error, found by looking through realization failures. -/
def rootCause : Error → Error
  | realization _ source => source.rootCause
  | other => other

end Error

end ClassSynth
