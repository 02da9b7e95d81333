import Acpi.Proofs.Encoding
import Acpi.Proofs.Stream

/-!
# Sessions on a stream

A session is any sequence of calls on one stream, and it goes on when a call is refused.  Where a
chunk lands depends on the direction and on everything accepted before it, so the buffer is
described by one invariant, `Holds`: the chunks lie side by side at one end of the buffer, and every
other byte still has its initial value.  A call appends at most one chunk (`Holds.put`), hence a
session appends the accepted ones (`Holds.afterAll`).

The bound on the count of written bytes is part of the type of streams, so that no subtraction and
no slice can go wrong there.  `Cursor` is a stream without that bound: each of its subtractions and
slices is checked and may fail.  `Cursor.answers?_ofStream` says that on the states of a stream none
ever does.

## Main results

* `Call.perform_of_le`, `Call.perform_of_lt`: all that one call can do.
* `Holds.afterAll`: what a session leaves in the buffer, in either direction.
* `reports_eq`: what a session answers depends on the room alone, not on the direction.
* `session_faithful`: the statement about whole sessions.
-/

namespace Acpi

/-- The order in which chunks lie in a buffer.  A backward stream puts each of them in front of the
ones before. -/
def Direction.arrange : Direction → List (List UInt8) → List UInt8
  | .forward, chunks => chunks.flatten
  | .backward, chunks => chunks.reverse.flatten

theorem Direction.length_arrange (direction : Direction) (chunks : List (List UInt8)) :
    (direction.arrange chunks).length = chunks.flatten.length := by
  cases direction with
  | forward => rfl
  | backward => simp [arrange, List.length_flatten, List.sum_reverse]

theorem Direction.arrange_forward_concat (chunks : List (List UInt8)) (chunk : List UInt8) :
    Direction.forward.arrange (chunks ++ [chunk]) = Direction.forward.arrange chunks ++ chunk := by
  simp [arrange]

theorem Direction.arrange_backward_concat (chunks : List (List UInt8)) (chunk : List UInt8) :
    Direction.backward.arrange (chunks ++ [chunk]) =
      chunk ++ Direction.backward.arrange chunks := by
  simp [arrange]

/-- A buffer with a part of it replaced, at the end where the direction starts. -/
def Direction.place : Direction → List UInt8 → List UInt8 → List UInt8
  | .forward, initial, part => part ++ initial.drop part.length
  | .backward, initial, part => initial.take (initial.length - part.length) ++ part

/-- Behind a part that was replaced at the front, a further chunk enlarges the part. -/
theorem Direction.place_forward_append (initial part chunk : List UInt8) :
    (Direction.forward.place initial part).take part.length ++ chunk ++
      (Direction.forward.place initial part).drop (part.length + chunk.length) =
        Direction.forward.place initial (part ++ chunk) := by
  simp [place, List.drop_append]

/-- In front of a part that was replaced at the back, a further chunk enlarges the part. -/
theorem Direction.place_backward_append {initial part chunk : List UInt8}
    (h : part.length + chunk.length ≤ initial.length) :
    (Direction.backward.place initial part).take (initial.length - part.length - chunk.length) ++
      chunk ++
      (Direction.backward.place initial part).drop
        (initial.length - part.length - chunk.length + chunk.length) =
        Direction.backward.place initial (chunk ++ part) := by
  have hStart : initial.length - part.length - chunk.length + chunk.length =
      (initial.take (initial.length - part.length)).length := by
    rw [List.length_take]
    omega
  have hFront : initial.length - part.length - chunk.length ≤
      (initial.take (initial.length - part.length)).length := by
    omega
  have hMin : min (initial.length - part.length - chunk.length) (initial.length - part.length) =
      initial.length - (chunk ++ part).length := by
    rw [List.length_append]
    omega
  simp only [place]
  rw [hStart, List.drop_left, List.take_append_of_le_length hFront, List.take_take, hMin,
    List.append_assoc]

namespace Stream

/-! ## Calls and sessions -/

/-- One call on a stream. -/
inductive Call where
  | write (chunk : ByteArray)
  | writeByte (byte : UInt8)

/-- A call, the stream on which it was made, its answer and the stream that it left. -/
structure Event where
  before : Stream
  call : Call
  result : Except EncodeError Unit
  after : Stream

namespace Call

/-- The bytes that a call offers to the stream. -/
def bytes : Call → List UInt8
  | .write chunk => chunk.data.toList
  | .writeByte byte => [byte]

/-- Makes the call. -/
def run : Call → EStateM EncodeError Stream Unit
  | .write chunk => Stream.write chunk
  | .writeByte byte => Stream.writeByte byte

/-- Makes the call and notes how it went. -/
def perform (call : Call) (stream : Stream) : Event :=
  match call.run stream with
  | .ok _ after => ⟨stream, call, .ok (), after⟩
  | .error error after => ⟨stream, call, .error error, after⟩

end Call

/-- What the calls of a session come to.  A call that is refused does not end it. -/
def session : List Call → Stream → List Event
  | [], _ => []
  | call :: calls, stream => call.perform stream :: session calls (call.perform stream).after

/-- The stream at the end of a session. -/
def afterAll : List Call → Stream → Stream
  | [], stream => stream
  | call :: calls, stream => afterAll calls (call.perform stream).after

/-- The chunks that a session has written, in the order of the calls. -/
def accepted (calls : List Call) (stream : Stream) : List (List UInt8) :=
  ((session calls stream).filter fun event => event.result.isOk).map fun event => event.call.bytes

/-! ## One call -/

theorem capacity_put {stream : Stream} {chunk : ByteArray} (h : chunk.size ≤ stream.remaining) :
    (stream.put chunk h).capacity = stream.capacity :=
  size_overwrite (position_add_le h)

theorem write_of_lt {stream : Stream} {chunk : ByteArray} (h : stream.remaining < chunk.size) :
    write chunk stream = .error .bufferTooSmall stream := by
  rw [write, dif_neg (Nat.not_le.2 h)]

theorem written_add_remaining (stream : Stream) :
    stream.written + stream.remaining = stream.capacity := by
  have := stream.written_le
  simp only [remaining, capacity]
  omega

namespace Call

theorem run_eq (call : Call) : call.run = Stream.write call.bytes.toByteArray := by
  cases call with
  | write chunk => rw [run, bytes, Bytes.toByteArray_toList]
  | writeByte byte => rfl

/-- A call that offers no more than there is room for is accepted. -/
theorem perform_of_le {call : Call} {stream : Stream}
    (h : call.bytes.toByteArray.size ≤ stream.remaining) :
    call.perform stream = ⟨stream, call, .ok (), stream.put call.bytes.toByteArray h⟩ := by
  rw [perform, run_eq, write_of_le h]

/-- A call that offers more than there is room for is refused and changes nothing. -/
theorem perform_of_lt {call : Call} {stream : Stream}
    (h : stream.remaining < call.bytes.toByteArray.size) :
    call.perform stream = ⟨stream, call, .error .bufferTooSmall, stream⟩ := by
  rw [perform, run_eq, write_of_lt h]

end Call

/-- What is to be expected of a call on a buffer of the given size. -/
structure Event.Sound (size : Nat) (event : Event) : Prop where
  balance : event.after.written + event.after.remaining = event.after.capacity
  capacity : event.after.capacity = size
  accepted_iff : event.result = .ok () ↔ event.call.bytes.length ≤ event.before.remaining
  refused_iff : event.result = .error .bufferTooSmall ↔
    event.before.remaining < event.call.bytes.length
  unchanged : event.before.remaining < event.call.bytes.length → event.after = event.before

theorem Call.sound_perform (call : Call) (stream : Stream) :
    (call.perform stream).Sound stream.capacity := by
  have hSize : call.bytes.toByteArray.size = call.bytes.length := List.size_toByteArray
  by_cases hFits : call.bytes.toByteArray.size ≤ stream.remaining
  · have hRoom : call.bytes.length ≤ stream.remaining := by omega
    rw [perform_of_le hFits]
    exact
      { balance := written_add_remaining _
        capacity := capacity_put hFits
        accepted_iff := ⟨fun _ => hRoom, fun _ => rfl⟩
        refused_iff := ⟨nofun, fun hLong => absurd hRoom (Nat.not_le.2 hLong)⟩
        unchanged := fun hLong => absurd hRoom (Nat.not_le.2 hLong) }
  · have hLong : stream.remaining < call.bytes.length := by omega
    rw [perform_of_lt (Nat.not_le.1 hFits)]
    exact
      { balance := written_add_remaining _
        capacity := rfl
        accepted_iff := ⟨nofun, fun hRoom => absurd hRoom (Nat.not_le.2 hLong)⟩
        refused_iff := ⟨fun _ => hLong, fun _ => rfl⟩
        unchanged := fun _ => rfl }

/-- Every call of a session goes as expected, and all of them see the same capacity. -/
theorem sound_of_mem_session {calls : List Call} {stream : Stream} {event : Event}
    (hMem : event ∈ session calls stream) : event.Sound stream.capacity := by
  induction calls generalizing stream with
  | nil => exact absurd hMem List.not_mem_nil
  | cons call calls ih =>
      have hFirst := call.sound_perform stream
      rcases List.mem_cons.1 hMem with rfl | hRest
      · exact hFirst
      · rw [← hFirst.capacity]
        exact ih hRest

/-! ## What lies in the buffer -/

/-- The chunks lie at one end of the buffer, and the rest of it is as it was. -/
structure Holds (direction : Direction) (initial : ByteArray) (chunks : List (List UInt8))
    (stream : Stream) : Prop where
  direction_eq : stream.direction = direction
  capacity : stream.capacity = initial.size
  written : stream.written = chunks.flatten.length
  bytes : stream.buffer.data.toList =
    direction.place initial.data.toList (direction.arrange chunks)

theorem holds_fresh (direction : Direction) (buffer : ByteArray) :
    Holds direction buffer [] (fresh direction buffer) where
  direction_eq := rfl
  capacity := rfl
  written := rfl
  bytes := by
    cases direction with
    | forward => rfl
    | backward =>
        show buffer.data.toList = buffer.data.toList.take (buffer.data.toList.length - 0) ++ []
        rw [Nat.sub_zero, List.take_length, List.append_nil]

/-- The contents lie at the end of the buffer where the stream started. -/
theorem toList_contents (stream : Stream) :
    stream.contents.data.toList =
      match stream.direction with
      | .forward => stream.buffer.data.toList.take stream.written
      | .backward => stream.buffer.data.toList.drop (stream.buffer.size - stream.written) := by
  unfold contents
  cases stream.direction with
  | forward => simp
  | backward =>
      have hAll : (stream.buffer.data.toList.drop (stream.buffer.size - stream.written)).length ≤
          stream.buffer.size - (stream.buffer.size - stream.written) := by
        rw [List.length_drop]
        exact Nat.le_refl _
      simp only [ByteArray.data_extract, Array.toList_extract, List.extract,
        List.take_of_length_le hAll]

/-- Any stream holds what it has written so far, as one chunk. -/
theorem holds_contents (stream : Stream) :
    Holds stream.direction stream.buffer [stream.contents.data.toList] stream := by
  have hBound := stream.written_le
  have hSize : stream.buffer.data.toList.length = stream.buffer.size := rfl
  have hContents := stream.toList_contents
  have hLength : stream.contents.data.toList.length = stream.written := by
    rw [hContents]
    split
    · rw [List.length_take]
      omega
    · rw [List.length_drop]
      omega
  refine ⟨rfl, rfl, ?_, ?_⟩
  · rw [List.flatten_singleton, hLength]
  · cases hDirection : stream.direction with
    | forward =>
        rw [hDirection] at hContents
        simp only [Direction.arrange, Direction.place, List.flatten_singleton, hLength]
        rw [hContents, List.take_append_drop]
    | backward =>
        rw [hDirection] at hContents
        simp only [Direction.arrange, Direction.place, List.reverse_singleton,
          List.flatten_singleton, hLength, hSize]
        rw [hContents, List.take_append_drop]

/-- An accepted call adds its bytes to the chunks written. -/
theorem accepted_of_le {call : Call} {calls : List Call} {stream : Stream}
    (h : call.bytes.toByteArray.size ≤ stream.remaining) :
    accepted (call :: calls) stream =
      call.bytes :: accepted calls (stream.put call.bytes.toByteArray h) := by
  rw [accepted, session, Call.perform_of_le h, List.filter_cons_of_pos rfl, List.map_cons]
  rfl

theorem accepted_of_lt {call : Call} {calls : List Call} {stream : Stream}
    (h : stream.remaining < call.bytes.toByteArray.size) :
    accepted (call :: calls) stream = accepted calls stream := by
  rw [accepted, session, Call.perform_of_lt h, List.filter_cons_of_neg Bool.false_ne_true]
  rfl

namespace Holds

variable {direction : Direction} {initial : ByteArray} {chunks : List (List UInt8)}
  {stream : Stream}

theorem length_arrange (h : Holds direction initial chunks stream) :
    (direction.arrange chunks).length = stream.written := by
  rw [Direction.length_arrange, h.written]

/-- The contents are what lies at that end. -/
theorem contents (h : Holds direction initial chunks stream) :
    stream.contents.data.toList = direction.arrange chunks := by
  have hLength := h.length_arrange
  have hSize : stream.buffer.size = initial.data.toList.length := h.capacity
  have hBound := stream.written_le
  rw [toList_contents, h.direction_eq, h.bytes]
  cases direction with
  | forward => exact List.take_left' hLength
  | backward =>
      apply List.drop_left'
      rw [List.length_take]
      omega

/-- A chunk that fits is laid beside the others. -/
theorem put (h : Holds direction initial chunks stream) {chunk : List UInt8}
    (hFits : chunk.toByteArray.size ≤ stream.remaining) :
    Holds direction initial (chunks ++ [chunk]) (stream.put chunk.toByteArray hFits) where
  direction_eq := h.direction_eq
  capacity := (capacity_put hFits).trans h.capacity
  written := by
    show stream.written + chunk.toByteArray.size = _
    rw [h.written, List.size_toByteArray]
    simp
  bytes := by
    have hLength := h.length_arrange
    have hSize : stream.buffer.size = initial.data.toList.length := h.capacity
    have hBound := stream.written_le
    have hRoom := hFits
    simp only [remaining, List.size_toByteArray] at hRoom
    show (overwrite stream.buffer (stream.position chunk.toByteArray.size)
      chunk.toByteArray).data.toList = _
    rw [toList_overwrite, h.bytes, List.size_toByteArray, List.data_toByteArray, position,
      h.direction_eq]
    cases direction with
    | forward =>
        rw [Direction.arrange_forward_concat, ← hLength, Direction.place_forward_append]
    | backward =>
        rw [Direction.arrange_backward_concat, hSize, ← hLength, Direction.place_backward_append]
        omega

/-- A session lays the chunks that it writes beside those written before. -/
theorem afterAll (h : Holds direction initial chunks stream) (calls : List Call) :
    Holds direction initial (chunks ++ accepted calls stream) (afterAll calls stream) := by
  induction calls generalizing chunks stream with
  | nil =>
      have hNone : accepted [] stream = [] := rfl
      rw [hNone, List.append_nil]
      exact h
  | cons call calls ih =>
      by_cases hFits : call.bytes.toByteArray.size ≤ stream.remaining
      · rw [accepted_of_le hFits, List.append_cons, Stream.afterAll, Call.perform_of_le hFits]
        exact ih (h.put hFits)
      · have hLong := Nat.not_le.1 hFits
        rw [accepted_of_lt hLong, Stream.afterAll, Call.perform_of_lt hLong]
        exact ih h

end Holds

/-! ## Two directions, one sequence of answers -/

/-- What a caller learns from a call, wherever the bytes went. -/
def Event.report (event : Event) : Except EncodeError Unit × Nat × Nat :=
  (event.result, event.after.written, event.after.remaining)

/-- The answers of a session depend on the counts alone. -/
theorem reports_eq {stream other : Stream} (hWritten : stream.written = other.written)
    (hRemaining : stream.remaining = other.remaining) (calls : List Call) :
    (session calls stream).map Event.report = (session calls other).map Event.report := by
  induction calls generalizing stream other with
  | nil => rfl
  | cons call calls ih =>
      rw [session, session, List.map_cons, List.map_cons]
      by_cases hFits : call.bytes.toByteArray.size ≤ stream.remaining
      · have hFits' : call.bytes.toByteArray.size ≤ other.remaining := hRemaining ▸ hFits
        rw [Call.perform_of_le hFits, Call.perform_of_le hFits']
        have hWritten' : (stream.put _ hFits).written = (other.put _ hFits').written :=
          congrArg (· + call.bytes.toByteArray.size) hWritten
        have hRemaining' : (stream.put _ hFits).remaining = (other.put _ hFits').remaining := by
          rw [remaining_put, remaining_put, hRemaining]
        rw [ih hWritten' hRemaining', Event.report, Event.report, hWritten', hRemaining']
      · have hLong := Nat.not_le.1 hFits
        have hLong' := hRemaining ▸ hLong
        rw [Call.perform_of_lt hLong, Call.perform_of_lt hLong', ih hWritten hRemaining,
          Event.report, Event.report, hWritten, hRemaining]

/-- What a caller can ask of a stream. -/
structure View where
  written : Nat
  remaining : Nat
  contents : ByteArray

def view (stream : Stream) : View := ⟨stream.written, stream.remaining, stream.contents⟩

end Stream

/-! ## Checked arithmetic -/

/-- A buffer and a count that need not belong together. -/
structure Cursor where
  direction : Direction
  buffer : ByteArray
  written : Nat

namespace Cursor

open Acpi.Stream (Call View)

/-- A difference, unless it would be negative. -/
def sub? (a b : Nat) : Option Nat := if b ≤ a then some (a - b) else none

/-- The bytes from one index up to another, unless they leave the buffer. -/
def slice? (buffer : ByteArray) (start stop : Nat) : Option ByteArray :=
  if start ≤ stop ∧ stop ≤ buffer.size then some (buffer.extract start stop) else none

/-- Copies a chunk to the bytes from one index up to another, unless these leave the buffer or are
not as many as the chunk has. -/
def copy? (buffer : ByteArray) (start stop : Nat) (chunk : ByteArray) : Option ByteArray :=
  if start ≤ stop ∧ stop ≤ buffer.size ∧ stop - start = chunk.size then
    some (Stream.overwrite buffer start chunk)
  else
    none

def remaining? (cursor : Cursor) : Option Nat := sub? cursor.buffer.size cursor.written

def position? (cursor : Cursor) (size : Nat) : Option Nat :=
  match cursor.direction with
  | .forward => some cursor.written
  | .backward => do sub? (← sub? cursor.buffer.size cursor.written) size

/-- Writes a chunk, or refuses it whole. -/
def write? (cursor : Cursor) (chunk : ByteArray) : Option (Except EncodeError Unit × Cursor) := do
  let room ← cursor.remaining?
  if room < chunk.size then
    return (.error .bufferTooSmall, cursor)
  let start ← cursor.position? chunk.size
  let buffer ← copy? cursor.buffer start (start + chunk.size) chunk
  return (.ok (), { cursor with buffer, written := cursor.written + chunk.size })

def contents? (cursor : Cursor) : Option ByteArray :=
  match cursor.direction with
  | .forward => slice? cursor.buffer 0 cursor.written
  | .backward => do
      slice? cursor.buffer (← sub? cursor.buffer.size cursor.written) cursor.buffer.size

def view? (cursor : Cursor) : Option View := do
  return ⟨cursor.written, ← cursor.remaining?, ← cursor.contents?⟩

/-- The answers of a session, with what can be asked after each call. -/
def answers? : List Call → Cursor → Option (List (Except EncodeError Unit × View))
  | [], _ => some []
  | call :: calls, cursor => do
      let (result, after) ← cursor.write? call.bytes.toByteArray
      let view ← after.view?
      let answers ← answers? calls after
      return (result, view) :: answers

/-- A stream without its bound. -/
def ofStream (stream : Stream) : Cursor := ⟨stream.direction, stream.buffer, stream.written⟩

theorem sub?_of_le {a b : Nat} (h : b ≤ a) : sub? a b = some (a - b) := if_pos h

theorem remaining?_ofStream (stream : Stream) :
    (ofStream stream).remaining? = some stream.remaining :=
  sub?_of_le stream.written_le

theorem position?_ofStream {stream : Stream} {size : Nat} (h : size ≤ stream.remaining) :
    (ofStream stream).position? size = some (stream.position size) := by
  have hCount := remaining?_ofStream stream
  unfold position? Stream.position
  show (match stream.direction with
    | .forward => some stream.written
    | .backward => (ofStream stream).remaining?.bind fun room => sub? room size) = _
  cases stream.direction with
  | forward => rfl
  | backward =>
      rw [hCount, Option.bind_some, sub?_of_le h]
      rfl

/-- A chunk for which there is room goes to a part of the buffer that has its size. -/
theorem copy?_ofStream {stream : Stream} {chunk : ByteArray} (h : chunk.size ≤ stream.remaining) :
    copy? stream.buffer (stream.position chunk.size) (stream.position chunk.size + chunk.size)
      chunk = some (stream.put chunk h).buffer := by
  have hEnd := Stream.position_add_le h
  unfold copy?
  rw [if_pos ⟨by omega, hEnd, by omega⟩]
  rfl

/-- Writing to a stream never leaves the range of its numbers or its buffer. -/
theorem write?_ofStream (call : Call) (stream : Stream) :
    (ofStream stream).write? call.bytes.toByteArray =
      some ((call.perform stream).result, ofStream (call.perform stream).after) := by
  have hCount := remaining?_ofStream stream
  unfold write?
  rw [hCount]
  by_cases hFits : call.bytes.toByteArray.size ≤ stream.remaining
  · have hStart := position?_ofStream hFits
    have hCopy := copy?_ofStream hFits
    rw [Call.perform_of_le hFits]
    simp only [Option.bind_eq_bind, Option.bind_some, if_neg (Nat.not_lt.2 hFits), hStart]
    show (copy? stream.buffer _ _ _).bind _ = _
    rw [hCopy]
    rfl
  · have hLong := Nat.not_le.1 hFits
    rw [Call.perform_of_lt hLong]
    simp only [Option.bind_eq_bind, Option.bind_some, if_pos hLong]
    rfl

theorem contents?_ofStream (stream : Stream) :
    (ofStream stream).contents? = some stream.contents := by
  have hCount := remaining?_ofStream stream
  have hBound := stream.written_le
  unfold contents? Stream.contents
  show (match stream.direction with
    | .forward => slice? stream.buffer 0 stream.written
    | .backward => (ofStream stream).remaining?.bind fun start =>
        slice? stream.buffer start stream.buffer.size) = _
  cases stream.direction with
  | forward => exact if_pos ⟨Nat.zero_le _, hBound⟩
  | backward =>
      rw [hCount, Option.bind_some]
      exact if_pos ⟨Nat.sub_le _ _, Nat.le_refl _⟩

theorem view?_ofStream (stream : Stream) : (ofStream stream).view? = some stream.view := by
  unfold view?
  rw [remaining?_ofStream, contents?_ofStream]
  rfl

/-- Checked and unchecked sessions give the same answers. -/
theorem answers?_ofStream (calls : List Call) (stream : Stream) :
    answers? calls (ofStream stream) =
      some ((Stream.session calls stream).map fun event => (event.result, event.after.view)) := by
  induction calls generalizing stream with
  | nil => rfl
  | cons call calls ih =>
      rw [answers?, write?_ofStream]
      simp only [Option.bind_eq_bind, Option.bind_some, view?_ofStream, ih]
      rfl

end Cursor

namespace Stream

/-- **Sessions are faithful.**  Take any buffer, any direction and any sequence of calls, refused
ones included.

* At the start and after every call the bytes written and the bytes that remain make up the whole
  buffer.  A call is refused exactly if it offers more than remains, and then changes nothing.
* In the end the written part consists of the accepted chunks, in the order of the calls on a
  forward stream and the other way round on a backward one.  It lies at the end of the buffer where
  the stream started, and all other bytes are as they were.
* On any other buffer of that size, filled in either direction, the same calls have the same
  answers and leave the same counts.
* With every subtraction and every slice checked, the session is the same: no check fails. -/
theorem session_faithful (direction : Direction) (buffer : ByteArray) (calls : List Call) :
    let start := fresh direction buffer
    let last := afterAll calls start
    let part := direction.arrange (accepted calls start)
    (start.written + start.remaining = start.capacity ∧ start.capacity = buffer.size) ∧
      (∀ event ∈ session calls start, event.Sound buffer.size) ∧
      last.contents.data.toList = part ∧ last.written = part.length ∧
      last.buffer.data.toList = direction.place buffer.data.toList part ∧
      (∀ (direction' : Direction) (buffer' : ByteArray), buffer'.size = buffer.size →
        (session calls start).map Event.report =
          (session calls (fresh direction' buffer')).map Event.report) ∧
      Cursor.view? ⟨direction, buffer, 0⟩ = some start.view ∧
      Cursor.answers? calls ⟨direction, buffer, 0⟩ =
        some ((session calls start).map fun event => (event.result, event.after.view)) := by
  intro start last part
  have hLast : Holds direction buffer ([] ++ accepted calls start) last :=
    (holds_fresh direction buffer).afterAll calls
  refine ⟨⟨written_add_remaining start, rfl⟩, fun event hMem => sound_of_mem_session hMem,
    hLast.contents, hLast.length_arrange.symm, hLast.bytes, ?_, Cursor.view?_ofStream start,
    Cursor.answers?_ofStream calls start⟩
  intro direction' buffer' hSize
  have hWritten : start.written = (fresh direction' buffer').written := rfl
  have hRemaining : start.remaining = (fresh direction' buffer').remaining := by
    show buffer.size - 0 = buffer'.size - 0
    rw [hSize]
  exact reports_eq hWritten hRemaining calls

/-- Three calls on four bytes, filled from the back: the second is refused, the third goes in front
of the first. -/
theorem session_faithful_backward :
    let calls : List Call :=
      [.write [1, 2].toByteArray, .write [7, 7, 7].toByteArray, .writeByte 3]
    let buffer : ByteArray := [0xAA, 0xBB, 0xCC, 0xDD].toByteArray
    accepted calls (fresh .backward buffer) = [[1, 2], [3]] ∧
      (afterAll calls (fresh .backward buffer)).buffer.data.toList = [0xAA, 3, 1, 2] := by
  intro calls buffer
  have hAccepted : accepted calls (fresh .backward buffer) = [[1, 2], [3]] := by rfl
  obtain ⟨-, -, -, -, hBytes, -⟩ := session_faithful .backward buffer calls
  refine ⟨hAccepted, ?_⟩
  rw [hBytes, hAccepted]
  rfl

end Stream

end Acpi
