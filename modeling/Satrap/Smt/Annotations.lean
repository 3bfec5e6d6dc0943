/-
# Annotated terms

A command may name its terms: `(! t :named n)`.  `strip_inline_definitions` of `session.rs` takes
the annotations out of a command and lists the labels they define.
-/
import Satrap.Smt.Parse

namespace Satrap.Smt

open CommandM

/-! ### Inline definitions -/

/-- `InlineDefinitionSyntax`. -/
structure InlineDefinitionSyntax where
  name : Text
  expression : SExpr

/-- An error with a message. -/
def refuse {α : Type} (message : String) : Except CommandError α :=
  .error (.message (bytesOf message))

/-- `expect_keyword`. -/
def expectKeyword (e : SExpr) (role : String) : Except CommandError Text :=
  demand (bytesOf s!"{role} must be a keyword") e.keyword

/-- The loop of `annotation_name` over the attributes, with the name found so far. -/
def annotationLoop : List SExpr → Option Text → Except CommandError (Option Text)
  | [], name => .ok name
  | item :: rest, name => do
    let keyword ← expectKeyword item "annotation attribute"
    if keyword = bytesOf ":named" then
      if name.isSome then refuse "annotation contains more than one :named attribute"
      else
        match rest with
        | [] => refuse "annotation attribute `:named` has no value"
        | value :: rest =>
          let label ← expectSymbol value "inline label"
          annotationLoop rest (some label)
    else if keyword = bytesOf ":pattern" then
      match rest with
      | [] => refuse "annotation attribute `:pattern` has no value"
      | value :: rest =>
        let _ ← expectList value "annotation pattern"
        annotationLoop rest name
    else
      match rest with
      | [] => .ok name
      | value :: others =>
        if value.keyword.isNone then annotationLoop others name
        else annotationLoop (value :: others) name

/-- `annotation_name` of an annotated term with its attributes. -/
def annotationName (attributes : List SExpr) : Except CommandError (Option Text) :=
  if attributes.isEmpty then refuse "annotation requires at least one attribute"
  else annotationLoop attributes none

mutual

/-- `collect_inline_label_names`. -/
def collectLabels : SExpr → List Text → Except CommandError (List Text)
  | .atom _, names => .ok names
  | .list [], names => .ok names
  | .list (head :: arguments), names =>
    if head.word = some (bytesOf "!") then
      match arguments with
      | [] => refuse "annotation requires a term"
      | term :: attributes => do
        let names ← collectLabels term names
        let name ← annotationName attributes
        pure (names ++ name.toList)
    else if head.word = some (bytesOf "let") then
      match arguments with
      | [.list bindings, body] => do
        let names ← collectBindingLabels bindings names
        collectLabels body names
      | [_, _] => refuse "let bindings must be a list"
      | _ => .error (.message (arityMessage 2 (bytesOf "let") arguments.length))
    else collectAllLabels arguments names
termination_by structural e => e

/-- `collect_inline_label_names` of all arguments. -/
def collectAllLabels : List SExpr → List Text → Except CommandError (List Text)
  | [], names => .ok names
  | e :: rest, names => do
    let names ← collectLabels e names
    collectAllLabels rest names
termination_by structural e => e

/-- `collect_inline_label_names` of the bindings of a `let`. -/
def collectBindingLabels : List SExpr → List Text → Except CommandError (List Text)
  | [], names => .ok names
  | .list [_, value] :: rest, names => do
    let names ← collectLabels value names
    collectBindingLabels rest names
  | .list pair :: _, _ => .error (.message (arityMessage 2 (bytesOf "let binding") pair.length))
  | .atom _ :: _, _ => refuse "let binding must be a list"
termination_by structural e => e

end

/-- The first label that has occurred before; the second argument is what has been seen. -/
def firstRepeated : List Text → List Text → Option Text
  | [], _ => none
  | label :: rest, seen =>
    if label ∈ seen then some label else firstRepeated rest (label :: seen)

/-- What `strip_inline_term` carries along: the labels passed so far and their definitions. -/
structure Stripping where
  available : List Text
  definitions : List InlineDefinitionSyntax

section Strip

-- The labels of the command.
variable (allNames : List Text)

mutual

/-- `strip_inline_term`; the names of local scopes are one list. -/
def stripTerm : SExpr → List Text → Stripping → Except CommandError (SExpr × Stripping)
  | .atom a, locals, stripping =>
    match (SExpr.atom a).symbol with
    | some symbol =>
      if symbol ∈ allNames ∧ symbol ∉ stripping.available ∧ symbol ∉ locals then
        .error (.message (named "inline label `" symbol "` is used before its definition"))
      else .ok (.atom a, stripping)
    | none => .ok (.atom a, stripping)
  | .list [], _, stripping => .ok (.list [], stripping)
  | .list (head :: arguments), locals, stripping =>
    if head.word = some (bytesOf "!") then
      match arguments with
      | [] => refuse "annotation requires a term"
      | term :: attributes => do
        let (term, stripping) ← stripTerm term locals stripping
        match ← annotationName attributes with
        | none => pure (term, stripping)
        | some name => pure (term,
            ⟨name :: stripping.available, stripping.definitions ++ [⟨name, term⟩]⟩)
    else if head.word = some (bytesOf "let") then
      match arguments with
      | [.list bindings, body] => do
        let (bindings, names, stripping) ← stripBindings bindings locals stripping
        let (body, stripping) ← stripTerm body (names ++ locals) stripping
        pure (.list [head, .list bindings, body], stripping)
      | [_, _] => refuse "let bindings must be a list"
      | _ => .error (.message (arityMessage 2 (bytesOf "let") arguments.length))
    else do
      let (arguments, stripping) ← stripAll arguments locals stripping
      pure (.list (head :: arguments), stripping)
termination_by structural e => e

/-- `strip_inline_term` of all arguments. -/
def stripAll : List SExpr → List Text → Stripping →
    Except CommandError (List SExpr × Stripping)
  | [], _, stripping => .ok ([], stripping)
  | e :: rest, locals, stripping => do
    let (e, stripping) ← stripTerm e locals stripping
    let (rest, stripping) ← stripAll rest locals stripping
    pure (e :: rest, stripping)
termination_by structural e => e

/-- `strip_inline_term` of the bindings of a `let`, with the names they bind. -/
def stripBindings : List SExpr → List Text → Stripping →
    Except CommandError (List SExpr × List Text × Stripping)
  | [], _, stripping => .ok ([], [], stripping)
  | .list [symbol, value] :: rest, locals, stripping => do
    let name ← expectSymbol symbol "let variable"
    let (value, stripping) ← stripTerm value locals stripping
    let (rest, names, stripping) ← stripBindings rest locals stripping
    pure (.list [symbol, value] :: rest, name :: names, stripping)
  | .list pair :: _, _, _ =>
    .error (.message (arityMessage 2 (bytesOf "let binding") pair.length))
  | .atom _ :: _, _, _ => refuse "let binding must be a list"
termination_by structural e => e

end

/-- `strip_inline_term` of the terms of a command, each with its local names. -/
def stripContexts : List (SExpr × List Text) → Stripping →
    Except CommandError (List SExpr × Stripping)
  | [], stripping => .ok ([], stripping)
  | (e, locals) :: rest, stripping => do
    let (e, stripping) ← stripTerm allNames e locals stripping
    let (rest, stripping) ← stripContexts rest stripping
    pure (e :: rest, stripping)

end Strip

/-- The names of the parameters of a `define-fun`. -/
def parameterNames : List SExpr → Except CommandError (List Text)
  | [] => .ok []
  | parameter :: rest => do
    let fields ← expectList parameter "function parameter"
    let (symbol, _) ← expectTwo fields "function parameter"
    let name ← expectSymbol symbol "parameter name"
    let names ← parameterNames rest
    pure (name :: names)

/-- `inline_term_contexts`, with the way back from the stripped terms to the arguments of the
command. -/
def termContexts (command : Text) (arguments : List SExpr) :
    Except CommandError (List (SExpr × List Text) × (List SExpr → List SExpr)) :=
  if command = bytesOf "assert" then
    match arguments with
    | [term] => .ok ([(term, [])], id)
    | _ => .ok ([], fun _ => arguments)
  else if command = bytesOf "define-const" then
    match arguments with
    | [name, sort, term] => .ok ([(term, [])], fun terms => name :: sort :: terms)
    | _ => .ok ([], fun _ => arguments)
  else if command = bytesOf "define-fun" then
    match arguments with
    | [name, parameters, sort, term] => do
      let names ← parameterNames (← expectList parameters "function parameters")
      pure ([(term, names)], fun terms => name :: parameters :: sort :: terms)
    | _ => .ok ([], fun _ => arguments)
  else if command = bytesOf "check-sat-assuming" then
    match arguments with
    | [expressions] => do
      let expressions ← expectList expressions "assumption list"
      pure (expressions.map fun e => (e, []), fun terms => [.list terms])
    | _ => .ok ([], fun _ => arguments)
  else if command = bytesOf "get-value" then
    match arguments with
    | [expressions] => do
      let expressions ← expectList expressions "get-value term list"
      pure (expressions.map fun e => (e, []), fun terms => [.list terms])
    | _ => .ok ([], fun _ => arguments)
  else .ok ([], fun _ => arguments)

/-- A command without its annotations. -/
structure Stripped where
  command : SExpr
  definitions : List InlineDefinitionSyntax
  assertionLabel : Option Text

/-- The label of the asserted term itself. -/
def assertionLabel (command : Text) (arguments : List SExpr) :
    Except CommandError (Option Text) :=
  match arguments with
  | [.list (head :: _ :: attributes)] =>
    if command = bytesOf "assert" ∧ head.word = some (bytesOf "!") then annotationName attributes
    else .ok none
  | _ => .ok none

/-- `strip_inline_definitions`. -/
def stripInlineDefinitions : SExpr → Except CommandError Stripped
  | .list (head :: arguments) =>
    match head.word with
    | none => .ok ⟨.list (head :: arguments), [], none⟩
    | some name => do
      let (contexts, rebuild) ← termContexts name arguments
      if contexts.isEmpty then pure ⟨.list (head :: arguments), [], none⟩
      else
        let labels ← collectAllLabels (contexts.map Prod.fst) []
        match firstRepeated labels [] with
        | some label =>
          .error (.message (named "inline label `" label "` is repeated in the command"))
        | none =>
          let label ← assertionLabel name arguments
          let (terms, stripping) ← stripContexts labels contexts ⟨[], []⟩
          pure ⟨.list (head :: rebuild terms), stripping.definitions, label⟩
  | command => .ok ⟨command, [], none⟩

end Satrap.Smt
