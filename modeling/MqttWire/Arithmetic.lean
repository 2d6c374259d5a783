import MqttWire.Request.Basic

/-!
# Arithmetic of a machine

A machine adds in words of so many bits, and cuts a length down to sixteen bits and a digit to a byte
where it writes them.  Here all that is counted, shifted and written on the way from a request to its
packet is computed once more, with numbers throughout, bytes and positions included, and an
`Arithmetic` says what is kept of each: everything (`exact`), or the last bits, as many as there are
(`wrapping`).

Checks that count nothing, and the row of fields that a request consists of, are those of the
request.  Lengths of texts, values and buffers are words as they come.
-/

namespace MqttWire

/-- **What is kept of a number:** in a word, in sixteen bits, and in a byte. -/
structure Arithmetic where
  word : Nat → Nat
  half : Nat → Nat
  byte : Nat → Nat

namespace Arithmetic

/-- Everything is kept. -/
def exact : Arithmetic := ⟨id, id, id⟩

/-- The last bits are kept: so many in a word. -/
def wrapping (bits : Nat) : Arithmetic :=
  ⟨fun n => n % (1 <<< bits), fun n => n % 65536, fun n => n % 256⟩

variable (a : Arithmetic)

/-- A sum in a word. -/
def add (m n : Nat) : Nat := a.word (m + n)

/-- The sum, where a word holds it. -/
def checkedAdd? (m n : Nat) : Option Nat := if a.word (m + n) = m + n then some (m + n) else none

/-! ### Sizes -/

def textSize (value : String) : Except EncodeError Nat :=
  if value.utf8ByteSize > Field.maxLength then .error (.violation .stringTooLong)
  else .ok (a.add 2 value.utf8ByteSize)

def binarySize (value : Bytes) : Except EncodeError Nat :=
  if value.length > Field.maxLength then .error (.violation .binaryTooLong)
  else .ok (a.add 2 value.length)

def size : Field → Except EncodeError Nat
  | .byte _ => .ok 1
  | .word _ => .ok 2
  | .text value => a.textSize value
  | .binary value => a.binarySize value
  | .raw value => .ok value.length

def filterSize (filter : String) : Except EncodeError Nat :=
  if filter.isEmpty then .error (.violation .emptyTopic) else a.textSize filter

def connectLength (c : Connect) : Except EncodeError Nat := do
  let mut length ← a.textSize c.clientId
  if let some (topic, message) := c.will? then
    length := a.add length (a.add (← a.textSize topic) (← a.binarySize message))
  if let some userName := c.userName then
    length := a.add length (← a.textSize userName)
  if let some password := c.password then
    length := a.add length (← a.binarySize password)
  return a.add Connect.fixedPartLength length

def publishLength (p : Publish) : Except EncodeError Nat := do
  let topic ← a.textSize p.topic
  let size := if p.flags.qos.needsPacketId then a.add topic 2 else topic
  match (a.checkedAdd? size p.message.length).filter (· ≤ RemainingLength.limit) with
  | some sum => return sum
  | none => throw (.violation .remainingLengthTooLarge)

def subscribeLength (s : Subscribe) : Except EncodeError Nat :=
  s.subscriptions.foldlM
    (fun size entry => return a.add (a.add size (← a.filterSize entry.filter)) 1) 2

def unsubscribeLength (u : Unsubscribe) : Except EncodeError Nat :=
  u.filters.foldlM (fun size filter => return a.add size (← a.filterSize filter)) 2

/-- How many bytes follow the fixed header. -/
def remainingLength : Request → Except EncodeError Nat
  | .connect c => a.connectLength c
  | .publish p => a.publishLength p
  | .acknowledge _ => .ok 2
  | .subscribe s => a.subscribeLength s
  | .unsubscribe u => a.unsubscribeLength u
  | .pingReq => .ok 0
  | .disconnect => .ok 0

/-- The length of a packet of which `remaining` bytes follow the fixed header. -/
def packetLength (remaining : Nat) : Except EncodeError Nat := do
  return a.add (a.add 1 (← RemainingLength.width remaining)) remaining

/-! ### Bytes -/

/-- Sixteen bits, high byte first. -/
def bigEndian (n : Nat) : List Nat := [n / 256, n % 256]

def counted (value : Bytes) : List Nat :=
  bigEndian (a.half value.length) ++ value.map UInt8.toNat

/-- A field on the wire. -/
def bytes : Field → List Nat
  | .byte value => [value.toNat]
  | .word value => bigEndian value.toNat
  | .text value => a.counted (utf8 value)
  | .binary value => a.counted value
  | .raw value => value.map UInt8.toNat

def publishFlags (flags : PublishFlags) : Nat :=
  a.byte (flags.qos.level.toNat <<< 1)
    ||| (if flags.duplicate then PublishFlags.duplicateBit.toNat else 0)
    ||| (if flags.retain then PublishFlags.retainBit.toNat else 0)

/-- The bits of a connect flags byte with another quality of service for the will. -/
def willQoS (flags : ConnectFlags) (qos : QoS) : Nat :=
  (flags.bits &&& ~~~ConnectFlags.willQoSMask).toNat ||| a.byte (qos.level.toNat <<< 3)

/-- May a packet of this kind have these flags? -/
def checkFlags (type : ControlType) (flags : Nat) : Except EncodeError Unit :=
  if flags > 15 then .error (.violation .invalidFlags)
  else
    match type.requiredFlags with
    | some required => if flags = required.toNat then .ok () else .error (.violation .invalidFlags)
    | none => if flags >>> 1 &&& 3 = 3 then .error (.violation .invalidQoS) else .ok ()

/-- The first byte of a packet of this kind. -/
def firstByte (type : ControlType) (flags : Nat) : Except EncodeError Nat := do
  checkFlags type flags
  return a.byte (type.code.toNat <<< 4) ||| flags

/-- The first byte of the request's packet. -/
def header : Request → Except EncodeError Nat
  | .connect _ => a.firstByte .connect 0
  | .publish p => a.firstByte .publish (a.publishFlags p.flags)
  | .acknowledge k =>
    match k.type.requiredFlags with
    | some flags => a.firstByte k.type flags.toNat
    | none => .error (.violation .invalidControlType)
  | .subscribe _ => a.firstByte .subscribe 2
  | .unsubscribe _ => a.firstByte .unsubscribe 2
  | .pingReq => a.firstByte .pingReq 0
  | .disconnect => a.firstByte .disconnect 0

/-- The first `count` digits of a number, the least first. -/
def digits : Nat → Nat → List Nat
  | 0, _ => []
  | count + 1, n =>
    (if n / 128 > 0 then a.byte (n % 128) ||| 128 else a.byte (n % 128)) :: digits count (n / 128)

end Arithmetic

/-! ### Tapes -/

/-- **A buffer of numbers and the position** up to which it has been written. -/
structure Tape where
  cells : List Nat
  position : Nat
deriving DecidableEq

/-- An action on a tape, which may fail; the tape outlives the failure. -/
abbrev TapeM : Type → Type := EStateM EncodeError Tape

/-- A check among actions: its failure is the action's. -/
instance : MonadLift (Except EncodeError) TapeM where
  monadLift
    | .ok a => pure a
    | .error e => throw e

namespace Tape

def start (buffer : Bytes) : Tape := ⟨buffer.map UInt8.toNat, 0⟩

/-- How many cells there is still room for. -/
def room (t : Tape) : Nat := t.cells.length - t.position

/-- Fails where there is no room for so many cells. -/
def requireRoom (size : Nat) : TapeM Unit := do
  if (← get).room < size then
    throw .bufferTooSmall

end Tape

/-- What an action gives, and the tape that it leaves. -/
def TapeM.outcome {α : Type} (action : TapeM α) (t : Tape) : Except EncodeError α × Tape :=
  match action t with
  | .ok v t' => (.ok v, t')
  | .error e t' => (.error e, t')

namespace Arithmetic

variable (a : Arithmetic)

/-- Overwrites the cells from the position to `size` behind it, and moves there. -/
def overwrite (numbers : List Nat) (size : Nat) (t : Tape) : Tape where
  cells := t.cells.take t.position ++ numbers ++ t.cells.drop (a.add t.position size)
  position := a.add t.position size

/-- Writes numbers that take up `size` cells, if there is room for them. -/
def putNumbers (numbers : List Nat) (size : Nat) : TapeM Unit := do
  Tape.requireRoom size
  modify (a.overwrite numbers size)

/-- Writes a field, whole or not at all. -/
def put (field : Field) : TapeM Unit := do
  a.putNumbers (a.bytes field) (← a.size field)

def putAll : List Field → TapeM Unit
  | [] => pure ()
  | field :: fields => do
    a.put field
    putAll fields

/-- Writes the fixed header, where there is room for all of the packet, and gives the header's
length. -/
def putHeader (first remaining : Nat) : TapeM Nat := do
  Tape.requireRoom (← a.packetLength remaining)
  let count ← RemainingLength.width remaining
  a.putNumbers (first :: a.digits count remaining) (a.add 1 count)
  return a.add 1 count

/-- Writes what follows the fixed header. -/
def putBody : Request → TapeM Unit
  | .connect c => do
    a.putAll [.text Connect.protocolName, .byte Connect.protocolLevel]
    a.put (.byte (← c.wireFlags))
    a.putAll (.word c.keepAlive :: c.payload)
  | .publish p => a.putAll p.fields
  | .acknowledge k => a.putAll k.fields
  | .subscribe s => a.putAll s.fields
  | .unsubscribe u => a.putAll u.fields
  | .pingReq => pure ()
  | .disconnect => pure ()

/-! ### Packets -/

/-- The length of the request's packet, where `remaining` is what counting its body comes to. -/
def lengthFrom (request : Request) (remaining : Except EncodeError Nat) :
    Except EncodeError Nat := do
  request.packet.validity
  let _ ← a.header request
  a.packetLength (← remaining)

/-- **The length of the request's packet,** or why it has none. -/
def encodedLength (request : Request) : Except EncodeError Nat :=
  a.lengthFrom request (a.remainingLength request)

/-- Writes the request's packet, where `remaining` is what counting its body comes to, and gives the
position behind it. -/
def putFrom (request : Request) (remaining : Except EncodeError Nat) : TapeM Nat := do
  request.packet.validity
  let first ← a.header request
  let _ ← a.putHeader first (← remaining)
  a.putBody request
  return (← get).position

/-- Writes the request's packet to the start of a buffer, where `remaining` is what counting its body
comes to. -/
def encodeFrom (request : Request) (remaining : Except EncodeError Nat) (buffer : Bytes) :
    Except EncodeError Nat × List Nat :=
  let outcome := (a.putFrom request remaining).outcome (.start buffer)
  (outcome.1, outcome.2.cells)

/-- **Writes the request's packet to the start of a buffer:** the result, and the whole buffer. -/
def encode (request : Request) (buffer : Bytes) : Except EncodeError Nat × List Nat :=
  a.encodeFrom request (a.remainingLength request) buffer

/-! ### Over time -/

/-- **Writes one more field,** and tells whether it could; a field that cannot be written is passed
over. -/
def write (t : Tape) (field : Field) : Except EncodeError Unit × Tape := (a.put field).outcome t

/-- **The tape after all fields,** one after the other. -/
def run (t : Tape) (fields : List Field) : Tape :=
  fields.foldl (fun t field => (a.write t field).2) t

end Arithmetic

end MqttWire
