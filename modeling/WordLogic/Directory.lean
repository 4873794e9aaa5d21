import WordLogic.Error

/-!
# Directories

A directory is a flat collection of named files. A name with a slash points into a directory below
it, and there is none, so such a file can be neither read nor written.
-/

namespace WordLogic

/-- Files by name. -/
structure Directory where
  files : List (String × List UInt8)
deriving Repr, DecidableEq

namespace Directory

/-- The directory without files. -/
def empty : Directory := ⟨[]⟩

/-- The name can stand for a file in this directory. -/
def isLocal (name : String) : Bool := '/' ∉ name.toList

/-- The bytes of a file. -/
def read (d : Directory) (name : String) : Except FileError (List UInt8) :=
  match d.files.lookup name with
  | some bytes => .ok bytes
  | none => .error .notFound

/-- The directory after a file was written, in place of the one of that name if there is one. -/
def write (d : Directory) (name : String) (bytes : List UInt8) : Except FileError Directory :=
  if isLocal name then .ok ⟨(name, bytes) :: d.files.filter (·.1 ≠ name)⟩
  else .error .notFound

/-- The text of a file that is UTF-8. -/
def readText (d : Directory) (name : String) : Except FileError String :=
  match d.read name with
  | .error e => .error e
  | .ok bytes =>
    match Utf8.decode bytes with
    | .ok cs => .ok (String.ofList cs)
    | .error _ => .error .invalidData

end Directory

end WordLogic
