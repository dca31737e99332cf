import SwaggerTypes.Document.Mismatch
import SwaggerTypes.Document.Pointer
/-!
What ends a conversion, and what it goes on after with a warning.
-/
namespace SwaggerTypes

inductive Unresolved where
  | pointer (fault : Pointer.Fault)
  /-- Following references came back to a pointer, or went on for too long. -/
  | loop (pointer : String)
  | outsideDefinitions
  | noDefinition (name : String)
  /-- A definition has no node at these segments. -/
  | noNode (segments : List String)
  | parameterLoop
  | noParameter

def Unresolved.message : Unresolved → String
  | pointer fault => fault.message
  | loop text => "reference loop through `" ++ text ++ "`"
  | outsideDefinitions => "pointer does not start at a schema definition"
  | noDefinition name => "no definition named `" ++ name ++ "`"
  | noNode segments => "no schema node at `" ++ Text.join "/" segments ++ "`"
  | parameterLoop => "parameter reference loop"
  | noParameter => "no reusable parameter with this name"

inductive Malformation where
  | rootNotMap
  | misplaced (place : String) (m : Misplaced)
  | parameterWithoutName (place : String)
  | parameterWithoutIn (name place : String)
  | duplicateParameter (name place : String)
  | noPaths

def Malformation.message : Malformation → String
  | rootNotMap => "the document root must be a mapping"
  | misplaced place m => m.message place
  | parameterWithoutName place => "parameter without `name` at " ++ place
  | parameterWithoutIn name place => "parameter `" ++ name ++ "` without `in` at " ++ place
  | duplicateParameter name place => "duplicate parameter `" ++ name ++ "` at " ++ place
  | noPaths => "`withQuery` requires a document with `paths`"

inductive Fault where
  | resolution (pointer : String) (reason : Unresolved)
  | malformed (cause : Malformation)
  | invalidNamespace (name : String)
  /-- The text is no document at all. -/
  | unreadable
  /-- More references are open at once than the model has targets, which no model brings about. -/
  | exhausted

def Fault.message : Fault → String
  | resolution pointer reason =>
    "cannot resolve reference `" ++ pointer ++ "`: " ++ reason.message
  | malformed cause => "malformed document: " ++ cause.message
  | invalidNamespace name => "invalid namespace `" ++ name ++ "`"
  | unreadable => "failed to parse input:"
  | exhausted => "too many open references"

abbrev Outcome := Except Fault

inductive WarningKind where
  | unsupportedConstruct
  | duplicateName
  | circularAlias
deriving DecidableEq

def WarningKind.label : WarningKind → String
  | unsupportedConstruct => "unsupported construct"
  | duplicateName => "duplicate name"
  | circularAlias => "circular alias"

/-- Something that could not be expressed as written; `pointer` tells where. -/
structure Warning where
  kind : WarningKind
  pointer : String
  message : String
deriving DecidableEq

def Warning.text (w : Warning) : String :=
  w.kind.label ++ " at " ++ w.pointer ++ ": " ++ w.message

end SwaggerTypes
