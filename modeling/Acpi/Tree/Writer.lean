import Acpi.Stream
import Acpi.Tree.Layout

/-!
# Writing a tree

A writer walks a tree in the order in which it was measured and writes it chunk by chunk: the opcode
byte, the second opcode byte, the package length, the bytes of data.  It takes the package lengths
from a list, one for each packaged object that it meets, and measures nothing itself.

A run that fails keeps what it has done: the chunks written before stay in the stream, and the
package lengths taken stay taken.
-/

namespace Acpi

/-- The package lengths that are still to be written, and the stream that takes the bytes. -/
structure Writer where
  lengths : List PkgLength
  stream : Stream

namespace Writer

/-- Writing with a writer. -/
abbrev WriteM := EStateM EncodeError Writer

/-- Writes one chunk. -/
def writeChunk (bytes : ByteArray) : WriteM Unit := fun ⟨lengths, stream⟩ =>
  match (Stream.write bytes).run stream with
  | .ok _ stream => .ok () ⟨lengths, stream⟩
  | .error error stream => .error error ⟨lengths, stream⟩

/-- Takes the next package length. -/
def nextLength : WriteM PkgLength := fun ⟨lengths, stream⟩ =>
  match lengths with
  | [] => .error .sizeMismatch ⟨[], stream⟩
  | length :: lengths => .ok length ⟨lengths, stream⟩

/-- Writes the opcode of an object and its package length; nothing for a pseudo object.  Whether the
two opcode bytes belong together has been settled by measuring. -/
def writeHead (head : Head) : WriteM Unit := do
  unless head.pseudo do
    writeChunk (ByteArray.empty.push head.opcode)
    match head.sub with
    | some sub => writeChunk (ByteArray.empty.push sub)
    | none => pure ()
    if head.packaged then
      let length ← nextLength
      writeChunk length.bytes.toByteArray

mutual

/-- Writes a tree below the top. -/
def writeNode : Node → WriteM Unit
  | .block .. => throw .invalidTree
  | .data bytes => writeChunk bytes
  | .object head fixed body => do
      writeHead head
      if head.invocation then writeCallee fixed else writeNodes fixed
      writeNodes body

/-- Writes a list of trees one after the other. -/
def writeNodes : List Node → WriteM Unit
  | [] => pure ()
  | node :: nodes => do
      writeNode node
      writeNodes nodes

/-- Writes the fixed arguments of an invocation, without the private one. -/
def writeCallee : List Node → WriteM Unit
  | [] => pure ()
  | [callee] => writeNode callee
  | callee :: _ :: nodes => do
      writeNode callee
      writeNodes nodes

end

/-- Writes a whole tree; a block starts with its header as it stands. -/
def writeTop : Node → WriteM Unit
  | .block header body => do
      writeChunk header.bytes.toByteArray
      writeNodes body
  | node => writeNode node

end Writer

/-- Measures a tree and writes it to a stream.  A tree that cannot be measured writes nothing. -/
def Node.write (node : Node) : EStateM EncodeError Stream Unit := fun stream =>
  match Layout.ofNode node with
  | .error error => .error error stream
  | .ok layout =>
      match (Writer.writeTop node).run ⟨layout.lengths.toList, stream⟩ with
      | .ok _ writer => .ok () writer.stream
      | .error error writer => .error error writer.stream

end Acpi
