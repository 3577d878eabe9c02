/-
Lineage.Yaml.Scalar — what an unquoted YAML scalar stands for.

The forms are those of YAML 1.1: the words for null and for flags,
numbers, dates and times.  Everything else is text.
-/
import Lineage.Yaml.Timestamp

namespace Lineage.Yaml

/-- The words for null. -/
def nullWords : List String := ["", "~", "null", "Null", "NULL"]

/-- The words for true. -/
def trueWords : List String :=
  ["yes", "Yes", "YES", "true", "True", "TRUE", "on", "On", "ON"]

/-- The words for false. -/
def falseWords : List String :=
  ["no", "No", "NO", "false", "False", "FALSE", "off", "Off", "OFF"]

/-- The key under which a mapping takes over the fields of others. -/
def mergeMark : List Char := ['<', '<']

/-- The key of the value that a mapping stands for. -/
def valueMark : List Char := ['=']

/-- The value of a scalar that is no word. -/
def formedValue (cs : List Char) : Except Fault Scalar :=
  match float? cs with
  | some r => r.map .float
  | none =>
    match integer? cs with
    | some r => r.map .int
    | none =>
      match timestamp? cs with
      | some r => r
      | none => .ok (.text (.ofChars cs))

/-- The value of an unquoted scalar; the marks are keys alone. -/
def scalarValue (cs : List Char) : Except Fault Scalar :=
  let word := String.ofList cs
  if word ∈ trueWords then .ok (.bool true)
  else if word ∈ falseWords then .ok (.bool false)
  else if word ∈ nullWords then .ok .null
  else if cs = mergeMark ∨ cs = valueMark then .error .grammar
  else formedValue cs

end Lineage.Yaml
