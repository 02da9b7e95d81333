/-!
# Causes of failure

Two kinds of things fail: building a term from its parts (`TermError`) and measuring or writing a
tree of terms (`EncodeError`).  The causes are data; `message` gives the wording of each.
-/

namespace Acpi

/-- Why a term cannot be built from the parts given. -/
inductive TermError where
  /-- The text is no name path. -/
  | invalidName
  /-- The text of a string constant is not ASCII or holds a zero byte. -/
  | invalidString
  /-- The text is not three capital letters and four hexadecimal digits. -/
  | invalidEisaId
  /-- A resource names an interrupt line or channel that its descriptor cannot hold. -/
  | invalidResource
  /-- A method takes, or a call passes, more than seven arguments. -/
  | tooManyArguments
  /-- A synchronisation level does not fit its four bits. -/
  | invalidSyncLevel
  /-- A package has more elements than its count byte can hold. -/
  | tooLarge
  deriving DecidableEq, Repr

/-- The wording of a cause. -/
def TermError.message : TermError → String
  | .invalidName => "invalid AML name"
  | .invalidString => "invalid AML string literal"
  | .invalidEisaId => "invalid EISA ID"
  | .invalidResource => "invalid resource descriptor"
  | .tooManyArguments => "too many method arguments"
  | .invalidSyncLevel => "method sync level out of range"
  | .tooLarge => "package has too many elements"

/-- Why a tree cannot be measured or written. -/
inductive EncodeError where
  /-- A block stands below the top, or an opcode and its second byte do not belong together. -/
  | invalidTree
  /-- The space left is shorter than what is to be written. -/
  | bufferTooSmall
  /-- The header carries a length that the tree no longer has. -/
  | staleStamp
  /-- The package lengths or the space measured do not belong to the tree that is written. -/
  | sizeMismatch
  /-- A package length or the whole table exceeds its field. -/
  | sizeOverflow
  deriving DecidableEq, Repr

/-- The wording of a cause. -/
def EncodeError.message : EncodeError → String
  | .invalidTree => "invalid AML tree structure"
  | .bufferTooSmall => "output buffer too small for AML table"
  | .staleStamp => "tree size does not match the stamped table header length"
  | .sizeMismatch => "emitted AML size does not match computed size"
  | .sizeOverflow => "AML object too large to encode"

end Acpi
