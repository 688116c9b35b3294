import RelSchema.Error.Chain
import RelSchema.Text.Quoted

/-!
# Outlines of errors

An outline shows an error with its parts, one to a line and indented by four spaces a level, each
with a comma behind it.
-/

namespace RelSchema

/-- Text on one line, or parts between an opening and a closing, each with a label. -/
inductive Outline where
  | line (text : String)
  | block (opening closing : String) (parts : List (String × Outline))

namespace Outline

private def indented (text : String) : String :=
  "    " ++ text

/-- Puts the label before the first line and a comma behind the last. -/
def labelled (label : String) : List String → List String
  | [] => []
  | [text] => [label ++ text ++ ","]
  | text :: rest => (label ++ text) :: rest.dropLast ++ (rest.getLast?.map (· ++ ",")).toList

mutual

def lines : Outline → List String
  | .line text => [text]
  | .block opening closing [] => [opening ++ closing]
  | .block opening closing (part :: parts) =>
      opening :: partLines (part :: parts) ++ [closing]

def partLines : List (String × Outline) → List String
  | [] => []
  | (label, part) :: parts =>
      (labelled label part.lines).map indented ++ partLines parts

end

def text (o : Outline) : String :=
  "\n".intercalate o.lines

def quoted (value : String) : Outline :=
  .line (Text.quote value)

/-- Parts under the names of fields. -/
def record (name : String) (parts : List (String × Outline)) : Outline :=
  .block (name ++ " \x7b") "\x7d" (parts.map fun (label, part) => (label ++ ": ", part))

def tuple (name : String) (parts : List Outline) : Outline :=
  .block (name ++ "(") ")" (parts.map fun part => ("", part))

def list (parts : List Outline) : Outline :=
  .block "[" "]" (parts.map fun part => ("", part))

def optional : Option Outline → Outline
  | none => .line "None"
  | some part => tuple "Some" [part]

/-- An external error under its contexts, of which the last one given comes first. -/
def external (text : String) : (contexts : List String) → Outline
  | [] => quoted text
  | context :: earlier =>
      record "Error"
        [("context", .line (Text.quoteProse context)), ("source", external text earlier)]

end Outline

open Outline in
/-- The parts of an error under the name of its kind. -/
def Error.outline : Error → Outline
  | .duplicateColumn model column =>
      tuple "DuplicateColumn"
        [record "DuplicateColumn" [("model", quoted model), ("column", quoted column)]]
  | .duplicateModel model =>
      tuple "DuplicateModel"
        [record "DuplicateModel" [("model", quoted model), ("table", optional none)]]
  | .duplicateTable model table =>
      tuple "DuplicateModel"
        [record "DuplicateModel"
          [("model", quoted model), ("table", optional (some (quoted table)))]]
  | .missingPrimaryKey model =>
      tuple "MissingPrimaryKey" [record "MissingPrimaryKey" [("model", quoted model)]]
  | .unknownModel name =>
      tuple "UnknownTargetModel"
        [record "UnknownTargetModel" [("target", quoted name), ("referenced_by", optional none)]]
  | .unknownTarget model field target =>
      tuple "UnknownTargetModel"
        [record "UnknownTargetModel"
          [("target", quoted target),
            ("referenced_by", optional (some (tuple "" [quoted model, quoted field])))]]
  | .invalidPair model field problem =>
      tuple "InvalidReferencePair"
        [record "InvalidReferencePair"
          [("model", quoted model), ("field", quoted field), ("reason", quoted problem.message)]]
  | .cyclicKey path =>
      tuple "CyclicKeyDependency"
        [record "CyclicKeyDependency" [("path", list (path.map quoted))]]
  | .unresolved references =>
      tuple "UnresolvedReferences"
        [record "UnresolvedReferences" [("references", list (references.map quoted))]]
  | .adHoc text => tuple "Adhoc" [record "AdhocError" [("message", quoted text)]]
  | .external text contexts => tuple "Anyhow" [Outline.external text contexts.reverse]

namespace ErrorChain

private def outlineOf (e : Error) (cause : Option Outline) : Outline :=
  Outline.record "Error" [("kind", e.outline), ("cause", Outline.optional cause)]

private def causeOutline : List ErrorObject → Option Outline
  | [] => none
  | cause :: rest => some (outlineOf cause.error (causeOutline rest))

def outline (c : ErrorChain) : Outline :=
  outlineOf c.head.error (causeOutline c.causes)

end ErrorChain

end RelSchema
