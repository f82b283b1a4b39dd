import ClassSynth.Json.Value
import ClassSynth.Model.Declaration

/-!
# Declarations as documents

Declarations and directives as JSON documents.
-/

namespace ClassSynth.Document

/-! ## Directives on types -/

instance : InDocument GenerateDirective where
  read v := do
    let fields ← readFields ["target_package", "class_suffix"] v
    let d : GenerateDirective := {}
    return {
      targetPackage := ← fields.optional "target_package" d.targetPackage
      classSuffix := ← fields.optional "class_suffix" d.classSuffix }
  write d := .ofFields [
    field "target_package" d.targetPackage,
    field "class_suffix" d.classSuffix]

/-- The words for the kinds of constructors. -/
def constructorKinds : List (String × ConstructorKind) :=
  [("no_args", .noArgs), ("required_args", .requiredArgs), ("all_args", .allArgs)]

instance : InDocument ConstructorKind where
  read := readWord constructorKinds
  write := writeWord constructorKinds

instance : InDocument ConstructorDirective where
  read v := do
    let fields ← readFields ["kinds"] v
    let d : ConstructorDirective := {}
    return { kinds := ← fields.optional "kinds" d.kinds }
  write d := .ofFields [field "kinds" d.kinds]

instance : InDocument EqualsDirective where
  read v := do
    let fields ← readFields ["call_super", "prevent_nullability_issues"] v
    let d : EqualsDirective := {}
    return {
      callSuper := ← fields.optional "call_super" d.callSuper
      nullSafe := ← fields.optional "prevent_nullability_issues" d.nullSafe }
  write d := .ofFields [
    field "call_super" d.callSuper,
    field "prevent_nullability_issues" d.nullSafe]

instance : InDocument HashCodeDirective where
  read v := do
    let fields ← readFields ["call_super"] v
    return { callSuper := ← fields.optional "call_super" false }
  write d := .ofFields [field "call_super" d.callSuper]

instance : InDocument ToStringDirective where
  read v := do
    let fields ← readFields ["call_super", "use_to_string_helper"] v
    return {
      callSuper := ← fields.optional "call_super" false
      useHelper := ← fields.optional "use_to_string_helper" false }
  write d := .ofFields [
    field "call_super" d.callSuper,
    field "use_to_string_helper" d.useHelper]

instance : InDocument FactoryDirective where
  read v := do
    let fields ← readFields ["location", "method", "override_return"] v
    return {
      location := ← fields.required "location"
      method := ← fields.required "method"
      overrideReturn := ← fields.optional "override_return" true }
  write d := .ofFields [
    field "location" d.location,
    field "method" d.method,
    field "override_return" d.overrideReturn]

instance : InDocument TypeDirectives where
  read v := do
    let fields ← readFields
      ["generate", "constructor", "equals", "hash_code", "to_string", "factory"] v
    return {
      generate := ← fields.optional "generate" none
      constructor := ← fields.optional "constructor" none
      equals := ← fields.optional "equals" none
      hashCode := ← fields.optional "hash_code" none
      toString := ← fields.optional "to_string" none
      factory := ← fields.optional "factory" none }
  write d := .ofFields [
    field "generate" d.generate,
    field "constructor" d.constructor,
    field "equals" d.equals,
    field "hash_code" d.hashCode,
    field "to_string" d.toString,
    field "factory" d.factory]

/-! ## Directives on methods and parameters -/

instance : InDocument WrapDirective where
  read v := do
    let fields ← readFields ["template", "stored_type"] v
    return {
      template := ← fields.required "template"
      storedType := ← fields.required "stored_type" }
  write d := .ofFields [
    field "template" d.template,
    field "stored_type" d.storedType]

/-- The words for what a method of invocations returns. -/
def returnModes : List (String × ReturnMode) :=
  [("none", .nothing), ("self_ref", .receiver), ("method_call", .lastCall)]

instance : InDocument ReturnMode where
  read := readWord returnModes
  write := writeWord returnModes

instance : InDocument InvokeDirective where
  read v := do
    let fields ← readFields ["invocations", "returns"] v
    return {
      invocations := ← fields.optional "invocations" []
      returns := ← fields.optional "returns" .nothing }
  write d := .ofFields [
    field "invocations" d.invocations,
    field "returns" d.returns]

instance : InDocument MethodDirectives where
  read v := do
    let fields ← readFields
      ["exclude", "field_name", "wrap", "invoke", "optional_field", "equals_exclude",
        "hash_code_exclude", "to_string_exclude"] v
    return {
      exclude := ← fields.optional "exclude" false
      fieldName := ← fields.optional "field_name" none
      wrap := ← fields.optional "wrap" none
      invoke := ← fields.optional "invoke" none
      optionalField := ← fields.optional "optional_field" false
      equalsExclude := ← fields.optional "equals_exclude" false
      hashCodeExclude := ← fields.optional "hash_code_exclude" false
      toStringExclude := ← fields.optional "to_string_exclude" false }
  write d := .ofFields [
    field "exclude" d.exclude,
    field "field_name" d.fieldName,
    field "wrap" d.wrap,
    field "invoke" d.invoke,
    field "optional_field" d.optionalField,
    field "equals_exclude" d.equalsExclude,
    field "hash_code_exclude" d.hashCodeExclude,
    field "to_string_exclude" d.toStringExclude]

/-- The words for the ways to check a parameter. -/
def nonNullHandlers : List (String × NonNullHandler) :=
  [("custom", .custom), ("guava_preconditions", .guavaPreconditions),
    ("apache_validate", .apacheValidate)]

instance : InDocument NonNullHandler where
  read := readWord nonNullHandlers
  write := writeWord nonNullHandlers

instance : InDocument NonNullDirective where
  read v := do
    let fields ← readFields ["handler", "message", "exception"] v
    let d : NonNullDirective := {}
    return {
      handler := ← fields.optional "handler" d.handler
      messageText := ← fields.optional "message" d.messageText
      exceptionName := ← fields.optional "exception" d.exceptionName }
  write d := .ofFields [
    field "handler" d.handler,
    field "message" d.messageText,
    field "exception" d.exceptionName]

/-! ## Declarations -/

instance : InDocument Parameter where
  read v := do
    let fields ← readFields ["name", "type", "non_null"] v
    return {
      name := ← fields.required "name"
      type := ← fields.required "type"
      nonNull := ← fields.optional "non_null" none }
  write p := .ofFields [
    field "name" p.name,
    field "type" p.type,
    field "non_null" p.nonNull]

instance : InDocument MethodDeclaration where
  read v := do
    let fields ← readFields
      ["name", "return_type", "params", "is_abstract", "is_static", "directives"] v
    return {
      name := ← fields.required "name"
      returnType := ← fields.optional "return_type" .void
      params := ← fields.optional "params" []
      isAbstract := ← fields.optional "is_abstract" false
      isStatic := ← fields.optional "is_static" false
      directives := ← fields.optional "directives" {} }
  write m := .ofFields [
    field "name" m.name,
    field "return_type" m.returnType,
    field "params" m.params,
    field "is_abstract" m.isAbstract,
    field "is_static" m.isStatic,
    field "directives" m.directives]

instance : InDocument ConstructorDeclaration where
  read v := do
    let fields ← readFields ["params"] v
    return { params := ← fields.optional "params" [] }
  write c := .ofFields [field "params" c.params]

/-- The words for the kinds of types. -/
def typeKinds : List (String × TypeKind) :=
  [("interface", .interfaceKind), ("class", .classKind)]

instance : InDocument TypeKind where
  read := readWord typeKinds
  write := writeWord typeKinds

instance : InDocument TypeDeclaration where
  read v := do
    let fields ← readFields
      ["qualified_name", "kind", "is_abstract", "superclass", "interfaces", "methods",
        "constructors", "directives", "library", "source_file"] v
    return {
      qualifiedName := ← fields.required "qualified_name"
      kind := ← fields.optional "kind" .interfaceKind
      isAbstract := ← fields.optional "is_abstract" false
      superclass := ← fields.optional "superclass" none
      interfaces := ← fields.optional "interfaces" []
      methods := ← fields.optional "methods" []
      constructors := ← fields.optional "constructors" []
      directives := ← fields.optional "directives" {}
      isLibrary := ← fields.optional "library" false
      sourceFile := ← fields.optional "source_file" none }
  write d := .ofFields [
    field "qualified_name" d.qualifiedName,
    field "kind" d.kind,
    field "is_abstract" d.isAbstract,
    field "superclass" d.superclass,
    field "interfaces" d.interfaces,
    field "methods" d.methods,
    field "constructors" d.constructors,
    field "directives" d.directives,
    field "library" d.isLibrary,
    field "source_file" d.sourceFile]

end ClassSynth.Document
