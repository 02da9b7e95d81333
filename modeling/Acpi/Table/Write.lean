import Acpi.Bytes
import Acpi.Table.Checksum
import Acpi.Table.Log
import Acpi.Tree.Writer

/-!
# Writing a table

A finished table is the header of a block, with the length of the table filled in, followed by the
terms of the block, with a checksum that makes all bytes add up to zero.

`write` checks everything that can be checked before it touches the buffer: that the tree is a
block and can be measured, that the buffer is long enough, and that a stamped header still tells the
true length.  Only then bytes change.  Should writing fail all the same, the bytes of the table are
cleared, so that no half of a table is left behind.
-/

namespace Acpi.Table

open Log (Record)

/-- What a write leaves: its result, the whole buffer and the records in order. -/
structure Outcome where
  result : Except EncodeError Nat
  buffer : ByteArray
  log : List Record

/-- The state of writing the terms of a table. -/
structure Progress where
  writer : Writer
  log : List Record

/-- Writes one term and reports how far the table has come. -/
def writeTerm (node : Node) : EStateM EncodeError Progress Unit := fun ⟨writer, log⟩ =>
  match (Writer.writeNode node).run writer with
  | .ok _ writer => .ok () ⟨writer, log ++ [.term writer.stream.written]⟩
  | .error error writer => .error error ⟨writer, log⟩

/-- Writes the terms of a table in order. -/
def writeTerms : List Node → EStateM EncodeError Progress Unit
  | [] => pure ()
  | node :: nodes => do
      writeTerm node
      writeTerms nodes

/-- Writes a header. -/
def writeHeader (header : Header) : EStateM EncodeError Progress Unit := fun ⟨writer, log⟩ =>
  match (Writer.writeChunk header.bytes.toByteArray).run writer with
  | .ok _ writer => .ok () ⟨writer, log⟩
  | .error error writer => .error error ⟨writer, log⟩

/-- The header as it is written first: the length filled in and the checksum clear. -/
def openHeader (header : Header) (total : UInt32) : Header :=
  { header with length := total, checksum := 0 }

/-- What filling the bytes of a table leaves. -/
structure Filled where
  /-- The checksum, if the table could be written. -/
  result : Except EncodeError UInt8
  bytes : ByteArray
  log : List Record

/-- Writes a whole table over the given bytes, which it must fill exactly.  The layout need not be
the one of the body: any disagreement is an error, and an error clears the bytes. -/
def fill (header : Header) (body : List Node) (layout : Layout) (bytes : ByteArray) : Filled :=
  let failed (cause : EncodeError) (log : List Record) : Filled :=
    ⟨.error cause, Bytes.fill bytes.size 0, log ++ [.failed header.signature cause]⟩
  let writing : EStateM EncodeError Progress Unit := do
    writeHeader (openHeader header layout.total)
    writeTerms body
  match writing.run ⟨⟨layout.lengths.toList, Stream.fresh .forward bytes⟩, []⟩ with
  | .error cause progress => failed cause progress.log
  | .ok _ ⟨writer, log⟩ =>
      if writer.stream.remaining = 0 then
        let written := writer.stream.buffer
        let checksum := Checksum.compute written
        ⟨.ok checksum,
          Stream.overwrite written Header.checksumOffset (ByteArray.empty.push checksum), log⟩
      else
        failed .sizeMismatch log

/-- The bytes that the table of a tree needs. -/
def query : Node → Except EncodeError Nat × List Record
  | .block header body =>
      match Layout.ofBody body with
      | .error cause => (.error cause, [])
      | .ok layout =>
          (.ok layout.total.toNat, [.required header.signature layout.total.toNat])
  | _ => (.error .invalidTree, [])

/-- Writes the table of a tree to the front of a buffer. -/
def write (node : Node) (buffer : ByteArray) : Outcome :=
  match node with
  | .block header body =>
      match Layout.ofBody body with
      | .error cause => ⟨.error cause, buffer, []⟩
      | .ok layout =>
          let total := layout.total.toNat
          if buffer.size < total then
            ⟨.error .bufferTooSmall, buffer, []⟩
          else if header.isStamped && header.length != layout.total then
            ⟨.error .staleStamp, buffer, [.stale header.signature header.length total]⟩
          else
            let filled := fill header body layout (buffer.extract 0 total)
            let buffer := filled.bytes ++ buffer.extract total buffer.size
            match filled.result with
            | .error cause => ⟨.error cause, buffer, filled.log⟩
            | .ok checksum =>
                ⟨.ok total, buffer, filled.log ++ [.finished header.signature total checksum]⟩
  | _ => ⟨.error .invalidTree, buffer, []⟩

/-- The finished table of a tree, in a buffer made for it. -/
def encode (node : Node) : Except EncodeError ByteArray × List Record :=
  match query node with
  | (.error cause, log) => (.error cause, log)
  | (.ok total, log) =>
      let outcome := write node (Bytes.fill total 0)
      (outcome.result.map fun _ => outcome.buffer, log ++ outcome.log)

end Acpi.Table
