import MqttWire.Proofs.Packet
import MqttWire.Request.Basic

/-!
# Requests as rows of fields

Every request counts its bytes in one place and writes them in another.  Here the two are brought
together: `Request.fields` is the row of fields that a request consists of.  `Request.writes` says
that the row is what its packet writes, and that the packet announces the row's size.

Each request also knows when it has a size at all.  The lemmas `remainingLength_eq_ok_iff` say so in
terms of the row: it must have a size, and beyond that no filter is empty and no message too long.
-/

namespace MqttWire

/-! ### Connect requests -/

namespace Connect

/-- The body of a connect packet. -/
def fields (c : Connect) : List Field :=
  [.text protocolName, .byte protocolLevel, .byte c.wireBits, .word c.keepAlive] ++ c.payload

/-- The payload is counted as it is written, whatever fields are there. -/
theorem payloadLength_eq (c : Connect) : c.payloadLength = Field.totalSize c.payload := by
  unfold payloadLength payload
  cases c.will? <;> cases c.userName <;> cases c.password <;>
    simp [Field.totalSize_cons, Field.totalSize_nil, Field.size, Nat.add_assoc]

theorem length_payload_le (c : Connect) : c.payload.length ≤ 5 := by
  unfold payload
  cases c.will? <;> cases c.userName <;> cases c.password <;> simp

/-- What is in a payload stands behind a length in two bytes. -/
theorem eq_text_or_binary_of_mem_payload {c : Connect} {field : Field} (h : field ∈ c.payload) :
    (∃ value, field = .text value) ∨ ∃ value, field = .binary value := by
  simp only [payload, List.mem_cons, List.mem_append, List.mem_flatMap, List.mem_map,
    List.not_mem_nil, or_false] at h
  rcases h with rfl | ((⟨will, -, rfl | rfl⟩ | ⟨name, -, rfl⟩) | ⟨password, -, rfl⟩)
  · exact .inl ⟨_, rfl⟩
  · exact .inl ⟨_, rfl⟩
  · exact .inr ⟨_, rfl⟩
  · exact .inl ⟨_, rfl⟩
  · exact .inr ⟨_, rfl⟩

theorem payloadLength_le {c : Connect} {n : Nat} (h : c.payloadLength = .ok n) :
    n ≤ 5 * (2 + Field.maxLength) := by
  rw [payloadLength_eq] at h
  refine Nat.le_trans (Field.totalSize_le (fun field hfield k hk => ?_) h)
    (Nat.mul_le_mul_right _ c.length_payload_le)
  rcases eq_text_or_binary_of_mem_payload hfield with ⟨value, rfl⟩ | ⟨value, rfl⟩
  · obtain ⟨hle, rfl⟩ := Field.textSize_eq_ok_iff.1 hk
    exact Nat.add_le_add_left hle 2
  · obtain ⟨hle, rfl⟩ := Field.binarySize_eq_ok_iff.1 hk
    exact Nat.add_le_add_left hle 2

theorem putFields_eq {c : Connect} (h : c.validate = .ok ()) : c.putFields = putAll c.fields := by
  have hw : c.wireFlags = .ok c.wireBits := by
    rw [wireFlags, h]
    rfl
  have hf : c.fields = [.text protocolName, .byte protocolLevel] ++
      (.byte c.wireBits :: .word c.keepAlive :: c.payload) := rfl
  rw [putFields, hw, lift_ok, pure_bind, hf, putAll_append]
  rfl

theorem remainingLength_eq_ok_iff {c : Connect} {n : Nat} :
    c.packet.remainingLength = .ok n ↔ Field.totalSize c.fields = .ok n := by
  have hf : Field.totalSize [.text protocolName, .byte protocolLevel, .byte c.wireBits,
      .word c.keepAlive] = .ok fixedPartLength := rfl
  simp only [packet, payloadLength_eq, fields, Field.totalSize_append_eq_ok_iff, bind_eq_ok_iff,
    pure, Except.pure, Except.ok.injEq, hf]
  constructor
  · rintro ⟨m, hm, rfl⟩
    exact ⟨fixedPartLength, m, rfl, hm, rfl⟩
  · rintro ⟨_, m, rfl, hm, rfl⟩
    exact ⟨m, hm, rfl⟩

end Connect

/-! ### Publish requests -/

/-- A message may take what its topic and identifier leave of the limit. -/
theorem Publish.remainingLength_eq_ok_iff {p : Publish} {n : Nat} :
    p.remainingLength = .ok n ↔
      Field.totalSize p.fields = .ok n ∧ n ≤ RemainingLength.limit := by
  have hs : Field.totalSize p.fields = .ok n ↔ ∃ m, Field.textSize p.topic = .ok m ∧
      m + (if p.flags.qos.needsPacketId then 2 else 0) + p.message.length = n := by
    cases hq : p.flags.qos.needsPacketId <;>
      simp [fields, hq, Field.totalSize_cons_eq_ok_iff, Field.totalSize_nil, Field.size,
        pure, Except.pure, Nat.add_assoc]
  rw [hs, remainingLength, bind_eq_ok_iff]
  generalize (if p.flags.qos.needsPacketId then 2 else 0) = idLength
  constructor
  · rintro ⟨m, hm, h⟩
    dsimp only at h
    split at h
    · cases h
    · cases h
      exact ⟨⟨m, hm, rfl⟩, by omega⟩
  · rintro ⟨⟨m, hm, rfl⟩, hn⟩
    refine ⟨m, hm, ?_⟩
    dsimp only
    rw [if_neg (by omega)]
    rfl

/-! ### Subscribe and unsubscribe requests -/

theorem filterSize_eq_ok_iff {filter : String} {n : Nat} :
    filterSize filter = .ok n ↔ filter ≠ "" ∧ Field.textSize filter = .ok n := by
  unfold filterSize
  by_cases h : filter = ""
  · simp [h]
  · simp [h]

theorem filterSize_ne_bufferTooSmall (filter : String) :
    filterSize filter ≠ .error .bufferTooSmall := by
  unfold filterSize
  split
  · exact nofun
  · exact Field.textSize_ne_bufferTooSmall filter

section Entries

variable {α : Type} {step : Nat → α → Except EncodeError Nat} {row : α → List Field}
  {legal : α → Prop}
  (hstep : ∀ size a n, step size a = .ok n ↔
    ∃ k, Field.totalSize (row a) = .ok k ∧ size + k = n ∧ legal a)
include hstep

/-- Entries that are counted one by one are counted like the row that they make up. -/
theorem foldlM_eq_ok_iff : ∀ (entries : List α) (size n : Nat), entries.foldlM step size = .ok n ↔
    ∃ k, Field.totalSize (entries.flatMap row) = .ok k ∧ size + k = n ∧ ∀ a ∈ entries, legal a
  | [], size, n => by simp [Field.totalSize_nil, pure, Except.pure]
  | a :: entries, size, n => by
    simp only [List.foldlM_cons, bind_eq_ok_iff, hstep, foldlM_eq_ok_iff entries,
      List.flatMap_cons, Field.totalSize_append_eq_ok_iff, List.forall_mem_cons]
    constructor
    · rintro ⟨_, ⟨k, hk, rfl, ha⟩, m, hm, rfl, hl⟩
      exact ⟨k + m, ⟨k, m, hk, hm, rfl⟩, (Nat.add_assoc size k m).symm, ha, hl⟩
    · rintro ⟨_, ⟨k, m, hk, hm, rfl⟩, rfl, ha, hl⟩
      exact ⟨size + k, ⟨k, hk, rfl, ha⟩, m, hm, Nat.add_assoc size k m, hl⟩

/-- The two bytes of an identifier in front of the entries are counted with them. -/
theorem foldlM_two_eq_ok_iff {entries : List α} (id : UInt16) {n : Nat} :
    entries.foldlM step 2 = .ok n ↔
      Field.totalSize (.word id :: entries.flatMap row) = .ok n ∧ ∀ a ∈ entries, legal a := by
  rw [foldlM_eq_ok_iff hstep, Field.totalSize_cons_eq_ok_iff]
  constructor
  · rintro ⟨k, hk, rfl, hl⟩
    exact ⟨⟨2, k, rfl, hk, rfl⟩, hl⟩
  · rintro ⟨⟨m, k, hm, hk, rfl⟩, hl⟩
    cases hm
    exact ⟨k, hk, rfl, hl⟩

end Entries

theorem Subscribe.remainingLength_eq_ok_iff {s : Subscribe} {n : Nat} :
    s.remainingLength = .ok n ↔
      Field.totalSize s.fields = .ok n ∧ ∀ entry ∈ s.subscriptions, entry.filter ≠ "" := by
  have hstep (size : Nat) (entry : Subscription) (n : Nat) :
      (do return size + (← filterSize entry.filter) + 1 : Except EncodeError Nat) = .ok n ↔
        ∃ k, Field.totalSize [.text entry.filter, .byte entry.maxQoS.level] = .ok k ∧
          size + k = n ∧ entry.filter ≠ "" := by
    simp only [bind_eq_ok_iff, filterSize_eq_ok_iff, Field.totalSize_cons_eq_ok_iff,
      Field.totalSize_nil, Field.size, pure, Except.pure, Except.ok.injEq]
    constructor
    · rintro ⟨m, ⟨hne, hm⟩, rfl⟩
      exact ⟨m + 1, ⟨m, 1, hm, ⟨1, 0, rfl, rfl, rfl⟩, rfl⟩, by omega, hne⟩
    · rintro ⟨_, ⟨m, _, hm, ⟨_, _, rfl, rfl, rfl⟩, rfl⟩, rfl, hne⟩
      exact ⟨m, ⟨hne, hm⟩, by omega⟩
  exact foldlM_two_eq_ok_iff hstep s.packetId

theorem Unsubscribe.remainingLength_eq_ok_iff {u : Unsubscribe} {n : Nat} :
    u.remainingLength = .ok n ↔
      Field.totalSize u.fields = .ok n ∧ ∀ filter ∈ u.filters, filter ≠ "" := by
  have hstep (size : Nat) (filter : String) (n : Nat) :
      (do return size + (← filterSize filter) : Except EncodeError Nat) = .ok n ↔
        ∃ k, Field.totalSize [.text filter] = .ok k ∧ size + k = n ∧ filter ≠ "" := by
    simp only [bind_eq_ok_iff, filterSize_eq_ok_iff, Field.totalSize_cons_eq_ok_iff,
      Field.totalSize_nil, Field.size, pure, Except.pure, Except.ok.injEq]
    constructor
    · rintro ⟨m, ⟨hne, hm⟩, rfl⟩
      exact ⟨m, ⟨m, 0, hm, rfl, rfl⟩, rfl, hne⟩
    · rintro ⟨_, ⟨m, _, hm, rfl, rfl⟩, rfl, hne⟩
      exact ⟨m, ⟨hne, hm⟩, rfl⟩
  rw [fields, List.map_eq_flatMap]
  exact foldlM_two_eq_ok_iff hstep u.packetId

/-! ### All requests -/

namespace Request

/-- **The body of the request's packet.** -/
def fields : Request → List Field
  | connect request => request.fields
  | publish request => request.fields
  | acknowledge request => request.fields
  | subscribe request => request.fields
  | unsubscribe request => request.fields
  | pingReq => []
  | disconnect => []

/-- **A request writes its row of fields** and announces the row's size. -/
theorem writes (request : Request) : request.packet.Writes request.fields := by
  cases request with
  | connect c => exact ⟨Connect.putFields_eq, fun _ hn => Connect.remainingLength_eq_ok_iff.1 hn⟩
  | publish p => exact ⟨fun _ => rfl, fun _ hn => (Publish.remainingLength_eq_ok_iff.1 hn).1⟩
  | acknowledge a => exact ⟨fun _ => rfl, fun _ hn => hn⟩
  | subscribe s => exact ⟨fun _ => rfl, fun _ hn => (Subscribe.remainingLength_eq_ok_iff.1 hn).1⟩
  | unsubscribe u =>
    exact ⟨fun _ => rfl, fun _ hn => (Unsubscribe.remainingLength_eq_ok_iff.1 hn).1⟩
  | pingReq => exact ⟨fun _ => rfl, fun _ hn => hn⟩
  | disconnect => exact ⟨fun _ => rfl, fun _ hn => hn⟩

/-- **The bytes of the request's packet,** or why it has none. -/
def bytes (request : Request) : Except EncodeError Bytes := request.packet.bytes request.fields

/-- **Encoding a request** places its bytes, or leaves the buffer as it was. -/
theorem encode_eq (request : Request) (buffer : Bytes) :
    request.encode buffer = Outcome.place request.bytes buffer := request.writes.encode_eq buffer

/-- Where there is room for them, the bytes of a request are placed. -/
theorem encode_of_bytes {request : Request} {bytes buffer : Bytes} (h : request.bytes = .ok bytes)
    (hle : bytes.length ≤ buffer.length) :
    request.encode buffer = ⟨.ok bytes.length, bytes ++ buffer.drop bytes.length⟩ := by
  rw [encode_eq, h, Outcome.place_of_le hle]

theorem encodedLength_eq (request : Request) :
    request.encodedLength = request.bytes.map List.length := request.writes.encodedLength_eq

end Request

end MqttWire
