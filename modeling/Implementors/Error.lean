import Implementors.Json.Fault

/-! What can go wrong with a fragment, a page or a document tree, and in which words it is told. -/
namespace Implementors

/-- Why a file could not be read as text. -/
inductive ReadFault
  | notFound
  | notADirectory
  | isADirectory
  | nameTooLong
  | nulOctet
  | notUtf8
  deriving DecidableEq, Repr

inductive Error
  | sinkAlreadyBound
  | malformedEntry (line : Nat)
  | json (line : Nat) (error : Json.Error)
  | invalidScriptPath (path : Octets)
  | unreadable (fault : ReadFault)
  deriving DecidableEq, Repr

def ReadFault.message : ReadFault → String
  | notFound => "No such file or directory (os error 2)"
  | notADirectory => "Not a directory (os error 20)"
  | isADirectory => "Is a directory (os error 21)"
  | nameTooLong => "File name too long (os error 36)"
  | nulOctet => "file name contained an unexpected NUL byte"
  | notUtf8 => "stream did not contain valid UTF-8"

namespace Error

def onLine (line : Nat) (text : String) : String := "line " ++ toString line ++ ": " ++ text

def message : Error → String
  | sinkAlreadyBound => "an implementor sink has already been initialized for this page"
  | malformedEntry line => onLine line "expected `implementors[\"<library>\"] = [...];`"
  | json line error => onLine line error.message
  | invalidScriptPath path => "not an implementors script path: " ++ Text.lenient path
  | unreadable fault => "I/O error: " ++ fault.message

/-- Whether another error lies beneath this one. -/
def hasSource : Error → Bool
  | json .. | unreadable _ => true
  | _ => false

end Error
end Implementors
