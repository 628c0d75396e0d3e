import Implementors.Decimal
import Implementors.Text.Quoted

/-! Why a JSON text is refused, and in which words. -/
namespace Implementors.Json

/-- A value that stands where another kind was wanted. -/
inductive Found
  | null
  | boolean (b : Bool)
  | integer (n : Int)
  | decimal (d : Decimal)
  | string (s : String)
  | sequence
  | map
  deriving DecidableEq, Repr

/-- The kind of value that a reader wants. -/
inductive Wanted
  | string
  | boolean
  | sequence
  | map
  | unit
  | descriptor
  deriving DecidableEq, Repr

inductive Cause
  | endOfList
  | endOfObject
  | endOfString
  | endOfValue
  | expectedColon
  | expectedListComma
  | expectedObjectComma
  | expectedWord
  | expectedValue
  | invalidEscape
  | invalidNumber
  | numberOutOfRange
  | loneSurrogate
  | brokenSurrogatePair
  | controlCharacter
  | keyNotString
  | trailingComma
  | trailingCharacters
  | wrongKind (found : Found) (wanted : Wanted)
  | wrongLength (found : Nat) (wanted : Wanted) (size : Nat)
  | missingField (field : String)
  | repeatedField (field : String)
  | unknownName (name : String) (known : List String)
  deriving DecidableEq, Repr

/-- The three classes of causes: the text ends too early, it is well formed but holds the wrong
data, or it is not well formed. -/
inductive Category
  | ended
  | data
  | form
  deriving DecidableEq, Repr

def Cause.category : Cause → Category
  | endOfList | endOfObject | endOfString | endOfValue => .ended
  | wrongKind .. | wrongLength .. | missingField _ | repeatedField _ | unknownName .. => .data
  | _ => .form

def Found.text : Found → String
  | null => "null"
  | boolean b => "boolean `" ++ (if b then "true" else "false") ++ "`"
  | integer n => "integer `" ++ toString n ++ "`"
  | decimal d => "floating point `" ++ d.text ++ "`"
  | string s => "string " ++ Text.quoted s
  | sequence => "sequence"
  | map => "map"

def Wanted.text : Wanted → String
  | string => "a string"
  | boolean => "a boolean"
  | sequence => "a sequence"
  | map => "a map"
  | unit => "unit"
  | descriptor => "struct ImplementorDescriptor"

def backquoted (name : String) : String := "`" ++ name ++ "`"

def Cause.message : Cause → String
  | endOfList => "EOF while parsing a list"
  | endOfObject => "EOF while parsing an object"
  | endOfString => "EOF while parsing a string"
  | endOfValue => "EOF while parsing a value"
  | expectedColon => "expected `:`"
  | expectedListComma => "expected `,` or `]`"
  | expectedObjectComma => "expected `,` or `\x7d`"
  | expectedWord => "expected ident"
  | expectedValue => "expected value"
  | invalidEscape => "invalid escape"
  | invalidNumber => "invalid number"
  | numberOutOfRange => "number out of range"
  | loneSurrogate => "lone leading surrogate in hex escape"
  | brokenSurrogatePair => "unexpected end of hex escape"
  | controlCharacter => "control character (\\u0000-\\u001F) found while parsing a string"
  | keyNotString => "key must be a string"
  | trailingComma => "trailing comma"
  | trailingCharacters => "trailing characters"
  | wrongKind found wanted => "invalid type: " ++ found.text ++ ", expected " ++ wanted.text
  | wrongLength found wanted size =>
    "invalid length " ++ toString found ++ ", expected " ++ wanted.text ++ " with " ++
      toString size ++ " elements"
  | missingField field => "missing field " ++ backquoted field
  | repeatedField field => "duplicate field " ++ backquoted field
  | unknownName name known =>
    "unknown variant " ++ backquoted name ++ ", expected " ++
      String.intercalate " or " (known.map backquoted)

end Implementors.Json
