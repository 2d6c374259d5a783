import MqttWire.Proofs.Bodies
import MqttWire.Proofs.Digits

/-!
# The grammar of packets

The strict reader and the encoder describe the same packets: what is read is exactly the bytes of a
request, up to what never reaches the wire (`Request.read_eq_some_iff`).  So the packets that
encoding can leave in a buffer are those that the reader accepts (`Request.exists_encode_iff`), and a
row of packets is read as the requests that it is made of (`Request.readAll?_eq_some_iff`).
-/

namespace MqttWire

/-- A kind and flags have a header where they go together, and then the first byte is known. -/
theorem FixedHeader.ofFlags_controlByte_iff {type : ControlType} {flags first : UInt8} :
    (∃ header, ofFlags type flags = .ok header ∧ header.controlByte = first) ↔
      type.checkFlags flags = .ok () ∧ type.code <<< 4 ||| flags = first := by
  constructor
  · rintro ⟨header, hh, rfl⟩
    obtain ⟨legal, rfl⟩ := exists_of_ofFlags hh
    exact ⟨legal, rfl⟩
  · rintro ⟨h, rfl⟩
    exact ⟨_, ofFlags_of_checkFlags h, rfl⟩

namespace Request

/-- **A request and its packet's parts:** the first byte, and the body.  The request is one that the
other side can tell from them. -/
structure Frames (request : Request) (first : UInt8) (body : Bytes) : Prop where
  onWire : request.onWire = request
  validity : request.packet.validity = .ok ()
  header : ∃ header, request.packet.header = .ok header ∧ header.controlByte = first
  remainingLength : request.packet.remainingLength = .ok body.length
  fields : request.fields.flatMap Field.bytes = body

variable {first : UInt8} {body : Bytes}

/-- Where the kind has fixed flags, the first byte is fixed too. -/
theorem frames_iff {request : Request} (type : ControlType) (flags : UInt8)
    (hi : request.onWire = request) (hh : request.packet.header = FixedHeader.ofFlags type flags)
    (hlegal : type.checkFlags flags = .ok ()) :
    request.Frames first body ↔ first = type.code <<< 4 ||| flags ∧
      request.packet.validity = .ok () ∧ request.packet.remainingLength = .ok body.length ∧
      body = request.fields.flatMap Field.bytes := by
  have hheader := @FixedHeader.ofFlags_controlByte_iff type flags first
  rw [← hh] at hheader
  constructor
  · rintro ⟨-, hv, hf, hn, hb⟩
    exact ⟨(hheader.1 hf).2.symm, hv, hn, hb.symm⟩
  · rintro ⟨hf, hv, hn, hb⟩
    exact ⟨hi, hv, hheader.2 ⟨hlegal, hf.symm⟩, hn, hb.symm⟩

theorem frames_connect_iff {c : Connect} : (connect c).Frames first body ↔ first = 0x10 ∧
    (c.validate = .ok () ∧ ∀ field ∈ c.fields, field.Fits) ∧
    body = c.fields.flatMap Field.bytes := by
  rw [frames_iff .connect 0 rfl rfl rfl]
  constructor
  · rintro ⟨hfirst, hv, hn, hb⟩
    obtain ⟨hf, -⟩ := Field.totalSize_eq_ok_iff.1 (Connect.remainingLength_eq_ok_iff.1 hn)
    exact ⟨hfirst, ⟨hv, hf⟩, hb⟩
  · rintro ⟨hfirst, ⟨hv, hf⟩, rfl⟩
    have hn := Field.totalSize_eq_ok_iff.2 ⟨hf, rfl⟩
    exact ⟨hfirst, hv, Connect.remainingLength_eq_ok_iff.2 hn, rfl⟩

theorem frames_publish_iff {p : Publish} (hl : body.length ≤ RemainingLength.limit) :
    (publish p).Frames first body ↔ first >>> 4 = 3 ∧
      (p.flags.qos.level = first >>> 1 &&& 3 ∧
        p.flags.duplicate = decide (first &&& 0x08 ≠ 0) ∧
        p.flags.retain = decide (first &&& 0x01 ≠ 0)) ∧
      p.topic ≠ "" ∧ p.topic.utf8ByteSize ≤ Field.maxLength ∧
      (p.flags.qos.needsPacketId = false → p.packetId = 0) ∧
      body = p.fields.flatMap Field.bytes := by
  have hheader := @FixedHeader.ofFlags_controlByte_iff .publish p.flags.bits first
  rw [PublishFlags.controlByte_iff] at hheader
  have hvalid : p.validate = .ok () ↔ p.topic ≠ "" := by
    unfold Publish.validate
    by_cases h : p.topic = "" <;> simp [h]
  have hid : (publish p).onWire = publish p ↔
      (p.flags.qos.needsPacketId = false → p.packetId = 0) := by
    obtain ⟨topic, packetId, message, flags⟩ := p
    cases h : flags.qos.needsPacketId <;> simp [onWire, h, eq_comm]
  have hfits : (∀ field ∈ p.fields, field.Fits) ↔ p.topic.utf8ByteSize ≤ Field.maxLength := by
    cases h : p.flags.qos.needsPacketId <;> simp [Publish.fields, h]
  constructor
  · rintro ⟨hi, hv, hh, hn, hb⟩
    obtain ⟨hf, -⟩ := Field.totalSize_eq_ok_iff.1 (Publish.remainingLength_eq_ok_iff.1 hn).1
    obtain ⟨hfirst, hflags⟩ := hheader.1 hh
    exact ⟨hfirst, hflags, hvalid.1 hv, hfits.1 hf, hid.1 hi, hb.symm⟩
  · rintro ⟨hfirst, hflags, hv, hf, hi, rfl⟩
    exact ⟨hid.2 hi, hvalid.2 hv, hheader.2 ⟨hfirst, hflags⟩, Publish.remainingLength_eq_ok_iff.2
      ⟨Field.totalSize_eq_ok_iff.2 ⟨hfits.2 hf, rfl⟩, hl⟩, rfl⟩

theorem frames_acknowledge_iff {a : Acknowledgement} :
    (acknowledge a).Frames first body ↔
      (a.type = .pubAck ∧ first = 0x40 ∨ a.type = .pubRec ∧ first = 0x50 ∨
        a.type = .pubRel ∧ first = 0x62 ∨ a.type = .pubComp ∧ first = 0x70) ∧
      body = bigEndian a.packetId.toNat := by
  obtain ⟨type, packetId⟩ := a
  constructor
  · intro h
    refine ⟨?_, h.fields.symm⟩
    cases type with
    | pubAck => exact .inl ⟨rfl, ((frames_iff .pubAck 0 rfl rfl rfl).1 h).1⟩
    | pubRec => exact .inr (.inl ⟨rfl, ((frames_iff .pubRec 0 rfl rfl rfl).1 h).1⟩)
    | pubRel => exact .inr (.inr (.inl ⟨rfl, ((frames_iff .pubRel 2 rfl rfl rfl).1 h).1⟩))
    | pubComp => exact .inr (.inr (.inr ⟨rfl, ((frames_iff .pubComp 0 rfl rfl rfl).1 h).1⟩))
    | _ => cases h.validity
  · rintro ⟨⟨rfl, rfl⟩ | ⟨rfl, rfl⟩ | ⟨rfl, rfl⟩ | ⟨rfl, rfl⟩, rfl⟩
    · exact (frames_iff .pubAck 0 rfl rfl rfl).2 ⟨rfl, rfl, rfl, rfl⟩
    · exact (frames_iff .pubRec 0 rfl rfl rfl).2 ⟨rfl, rfl, rfl, rfl⟩
    · exact (frames_iff .pubRel 2 rfl rfl rfl).2 ⟨rfl, rfl, rfl, rfl⟩
    · exact (frames_iff .pubComp 0 rfl rfl rfl).2 ⟨rfl, rfl, rfl, rfl⟩

theorem frames_subscribe_iff {s : Subscribe} : (subscribe s).Frames first body ↔ first = 0x82 ∧
    checkCount s.subscriptions.length = .ok () ∧ (∀ entry ∈ s.subscriptions, entry.filter ≠ "") ∧
    (∀ field ∈ s.fields, field.Fits) ∧ body = s.fields.flatMap Field.bytes := by
  rw [frames_iff .subscribe 2 rfl rfl rfl]
  constructor
  · rintro ⟨hfirst, hv, hn, hb⟩
    obtain ⟨hs, hne⟩ := Subscribe.remainingLength_eq_ok_iff.1 hn
    exact ⟨hfirst, hv, hne, (Field.totalSize_eq_ok_iff.1 hs).1, hb⟩
  · rintro ⟨hfirst, hv, hne, hf, rfl⟩
    have hs := Field.totalSize_eq_ok_iff.2 ⟨hf, rfl⟩
    exact ⟨hfirst, hv, Subscribe.remainingLength_eq_ok_iff.2 ⟨hs, hne⟩, rfl⟩

theorem frames_unsubscribe_iff {u : Unsubscribe} : (unsubscribe u).Frames first body ↔
    first = 0xA2 ∧ checkCount u.filters.length = .ok () ∧ (∀ filter ∈ u.filters, filter ≠ "") ∧
    (∀ field ∈ u.fields, field.Fits) ∧ body = u.fields.flatMap Field.bytes := by
  rw [frames_iff .unsubscribe 2 rfl rfl rfl]
  constructor
  · rintro ⟨hfirst, hv, hn, hb⟩
    obtain ⟨hs, hne⟩ := Unsubscribe.remainingLength_eq_ok_iff.1 hn
    exact ⟨hfirst, hv, hne, (Field.totalSize_eq_ok_iff.1 hs).1, hb⟩
  · rintro ⟨hfirst, hv, hne, hf, rfl⟩
    have hs := Field.totalSize_eq_ok_iff.2 ⟨hf, rfl⟩
    exact ⟨hfirst, hv, Unsubscribe.remainingLength_eq_ok_iff.2 ⟨hs, hne⟩, rfl⟩

theorem frames_pingReq_iff : pingReq.Frames first body ↔ first = 0xC0 ∧ body = [] := by
  rw [frames_iff .pingReq 0 rfl rfl rfl]
  constructor
  · rintro ⟨hfirst, -, -, hb⟩
    exact ⟨hfirst, hb⟩
  · rintro ⟨hfirst, rfl⟩
    exact ⟨hfirst, rfl, rfl, rfl⟩

theorem frames_disconnect_iff : disconnect.Frames first body ↔ first = 0xE0 ∧ body = [] := by
  rw [frames_iff .disconnect 0 rfl rfl rfl]
  constructor
  · rintro ⟨hfirst, -, -, hb⟩
    exact ⟨hfirst, hb⟩
  · rintro ⟨hfirst, rfl⟩
    exact ⟨hfirst, rfl, rfl, rfl⟩

/-- The first bytes of publish packets are none of the others. -/
theorem readBody_publish (h : first >>> 4 = 3) :
    readBody first = publish <$> Publish.read first := by
  unfold readBody
  split
  case h_10 => rw [if_pos h]
  all_goals exact absurd h (by decide)

theorem acknowledge_read_eq_some_iff {type : ControlType} {request : Request} :
    (acknowledge <$> Acknowledgement.read type) body = some (request, []) ↔
      ∃ a, a.type = type ∧ body = bigEndian a.packetId.toNat ∧ acknowledge a = request := by
  simp only [Acknowledgement.read, ReadM.map_apply_eq_some_iff, ReadM.bind_apply_eq_some_iff,
    readWord_eq_some_iff, ReadM.pure_apply, Option.some.injEq, Prod.mk.injEq]
  constructor
  · rintro ⟨_, ⟨id, _, rfl, rfl, rfl⟩, rfl⟩
    exact ⟨_, rfl, List.append_nil _, rfl⟩
  · rintro ⟨a, rfl, rfl, rfl⟩
    exact ⟨_, ⟨_, _, (List.append_nil _).symm, rfl, rfl⟩, rfl⟩

/-- What the strict reader finds in a body has this body. -/
theorem frames_of_readBody {request : Request} (hl : body.length ≤ RemainingLength.limit)
    (h : readBody first body = some (request, [])) : request.Frames first body := by
  -- one case for each first byte that is fixed, in the reader's order, and one for the others
  unfold readBody at h
  split at h
  · obtain ⟨c, hc, rfl⟩ := ReadM.map_apply_eq_some_iff.1 h
    obtain ⟨hlegal, hb⟩ := (Connect.takes_read _ _ _).1 hc
    exact frames_connect_iff.2 ⟨rfl, hlegal, hb.trans (List.append_nil _)⟩
  · obtain ⟨a, ha, hb, rfl⟩ := acknowledge_read_eq_some_iff.1 h
    exact frames_acknowledge_iff.2 ⟨.inl ⟨ha, rfl⟩, hb⟩
  · obtain ⟨a, ha, hb, rfl⟩ := acknowledge_read_eq_some_iff.1 h
    exact frames_acknowledge_iff.2 ⟨.inr (.inl ⟨ha, rfl⟩), hb⟩
  · obtain ⟨a, ha, hb, rfl⟩ := acknowledge_read_eq_some_iff.1 h
    exact frames_acknowledge_iff.2 ⟨.inr (.inr (.inl ⟨ha, rfl⟩)), hb⟩
  · obtain ⟨a, ha, hb, rfl⟩ := acknowledge_read_eq_some_iff.1 h
    exact frames_acknowledge_iff.2 ⟨.inr (.inr (.inr ⟨ha, rfl⟩)), hb⟩
  · obtain ⟨s, hs, rfl⟩ := ReadM.map_apply_eq_some_iff.1 h
    obtain ⟨hc, hne, hf, hb, -⟩ := Subscribe.read_eq_some_iff.1 hs
    exact frames_subscribe_iff.2 ⟨rfl, hc, hne, hf, hb⟩
  · obtain ⟨u, hu, rfl⟩ := ReadM.map_apply_eq_some_iff.1 h
    obtain ⟨hc, hne, hf, hb, -⟩ := Unsubscribe.read_eq_some_iff.1 hu
    exact frames_unsubscribe_iff.2 ⟨rfl, hc, hne, hf, hb⟩
  · cases h
    exact frames_pingReq_iff.2 ⟨rfl, rfl⟩
  · cases h
    exact frames_disconnect_iff.2 ⟨rfl, rfl⟩
  · by_cases hfirst : first >>> 4 = 3
    · rw [if_pos hfirst] at h
      obtain ⟨p, hp, rfl⟩ := ReadM.map_apply_eq_some_iff.1 h
      obtain ⟨hflags, hne, hf, hi, hb, -⟩ := Publish.read_eq_some_iff.1 hp
      exact (frames_publish_iff hl).2 ⟨hfirst, hflags, hne, hf, hi, hb⟩
    · rw [if_neg hfirst] at h
      cases h

/-- What has a body is found in it by the strict reader. -/
theorem Frames.readBody {request : Request} (hl : body.length ≤ RemainingLength.limit)
    (h : request.Frames first body) : readBody first body = some (request, []) := by
  cases request with
  | connect c =>
    obtain ⟨rfl, hlegal, hb⟩ := frames_connect_iff.1 h
    have hread := (Connect.takes_read _ _ _).2 ⟨hlegal, hb.trans (List.append_nil _).symm⟩
    exact ReadM.map_apply_eq_some_iff.2 ⟨c, hread, rfl⟩
  | publish p =>
    obtain ⟨hfirst, hflags, hne, hf, hi, hb⟩ := (frames_publish_iff hl).1 h
    rw [readBody_publish hfirst]
    exact ReadM.map_apply_eq_some_iff.2
      ⟨p, Publish.read_eq_some_iff.2 ⟨hflags, hne, hf, hi, hb, rfl⟩, rfl⟩
  | acknowledge a =>
    obtain ⟨⟨ha, rfl⟩ | ⟨ha, rfl⟩ | ⟨ha, rfl⟩ | ⟨ha, rfl⟩, hb⟩ := frames_acknowledge_iff.1 h
    all_goals exact acknowledge_read_eq_some_iff.2 ⟨a, ha, hb, rfl⟩
  | subscribe s =>
    obtain ⟨rfl, hc, hne, hf, hb⟩ := frames_subscribe_iff.1 h
    exact ReadM.map_apply_eq_some_iff.2
      ⟨s, Subscribe.read_eq_some_iff.2 ⟨hc, hne, hf, hb, rfl⟩, rfl⟩
  | unsubscribe u =>
    obtain ⟨rfl, hc, hne, hf, hb⟩ := frames_unsubscribe_iff.1 h
    exact ReadM.map_apply_eq_some_iff.2
      ⟨u, Unsubscribe.read_eq_some_iff.2 ⟨hc, hne, hf, hb, rfl⟩, rfl⟩
  | pingReq =>
    obtain ⟨rfl, rfl⟩ := frames_pingReq_iff.1 h
    rfl
  | disconnect =>
    obtain ⟨rfl, rfl⟩ := frames_disconnect_iff.1 h
    rfl

/-! ### Packets -/

theorem onWire_onWire (request : Request) : request.onWire.onWire = request.onWire := by
  cases request with
  | publish p => cases h : p.flags.qos.needsPacketId <;> simp [onWire, h]
  | _ => rfl

/-- What the other side does not see is not written. -/
theorem bytes_onWire (request : Request) : request.onWire.bytes = request.bytes := by
  cases request with
  | publish p =>
    have hf : (publish p).onWire.fields = p.fields := by
      cases h : p.flags.qos.needsPacketId <;> simp [onWire, fields, Publish.fields, h]
    have hp : (publish p).onWire.packet = p.packet := by
      show Packet.mk _ _ _ (putAll (publish p).onWire.fields) = _
      rw [hf]
      rfl
    rw [bytes, hf, hp]
    rfl
  | _ => rfl

/-- The bytes of a packet are its first byte, the digits of its body's length, and its body. -/
theorem bytes_eq_ok_iff {request : Request} {bytes : Bytes} (hi : request.onWire = request) :
    request.bytes = .ok bytes ↔ ∃ first body count, request.Frames first body ∧
      RemainingLength.width body.length = .ok count ∧
      bytes = first :: (RemainingLength.digits count body.length ++ body) := by
  rw [Request.bytes, Packet.bytes_eq_ok_iff]
  constructor
  · rintro ⟨hv, header, remaining, count, hh, hn, hc, rfl⟩
    have hl := request.writes.length_row hv hn
    refine ⟨header.controlByte, _, count, ⟨hi, hv, ⟨header, hh, rfl⟩, ?_, rfl⟩, ?_, ?_⟩
    · rw [hl]; exact hn
    · rw [hl]; exact hc
    · rw [hl]; rfl
  · rintro ⟨_, _, count, ⟨-, hv, ⟨header, hh, rfl⟩, hn, rfl⟩, hc, rfl⟩
    exact ⟨hv, header, _, count, hh, hn, hc, rfl⟩

/-- The strict reader takes a first byte, the digits of a length, and a body of this length that holds
a request. -/
theorem read_eq_some_iff_exists_body {input rest : Bytes} {request : Request} :
    read input = some (request, rest) ↔ ∃ first body count,
      RemainingLength.width body.length = .ok count ∧
      readBody first body = some (request, []) ∧
      input = first :: (RemainingLength.digits count body.length ++ body) ++ rest := by
  simp only [read, ReadM.bind_apply_eq_some_iff, readByte_eq_some_iff,
    RemainingLength.read_eq_some_iff, readBytes_eq_some_iff]
  constructor
  · rintro ⟨first, _, rfl, _, _, ⟨count, hc, rfl⟩, body, _, ⟨rfl, rfl⟩, h⟩
    cases hbody : (readBody first).whole? body with
    | none => rw [hbody] at h; cases h
    | some found =>
      rw [hbody] at h
      cases h
      exact ⟨first, body, count, hc, ReadM.whole?_eq_some_iff.1 hbody, by simp⟩
  · rintro ⟨first, body, count, hc, hbody, rfl⟩
    refine ⟨first, _, rfl, body.length, body ++ rest, ⟨count, hc, ?_⟩, body, rest, ⟨rfl, rfl⟩, ?_⟩
    · exact List.append_assoc _ body rest
    · rw [ReadM.whole?_eq_some_iff.2 hbody]
      rfl

/-- **The strict reader takes the bytes of requests,** whatever follows, and nothing else. -/
theorem read_eq_some_iff {input rest : Bytes} {request : Request} :
    read input = some (request, rest) ↔
      request.onWire = request ∧ ∃ bytes, request.bytes = .ok bytes ∧ input = bytes ++ rest := by
  rw [read_eq_some_iff_exists_body]
  constructor
  · rintro ⟨first, body, count, hc, hbody, rfl⟩
    have hframes := frames_of_readBody (RemainingLength.le_limit_of_width_eq_ok hc) hbody
    have hbytes := (bytes_eq_ok_iff hframes.onWire).2 ⟨first, body, count, hframes, hc, rfl⟩
    exact ⟨hframes.onWire, _, hbytes, rfl⟩
  · rintro ⟨hi, bytes, hb, rfl⟩
    obtain ⟨first, body, count, hframes, hc, rfl⟩ := (bytes_eq_ok_iff hi).1 hb
    have hbody := hframes.readBody (RemainingLength.le_limit_of_width_eq_ok hc)
    exact ⟨first, body, count, hc, hbody, rfl⟩

/-- The bytes of a request are read, whatever follows, as what the other side sees of it. -/
theorem read_append {request : Request} {bytes : Bytes} (h : request.bytes = .ok bytes)
    (rest : Bytes) : read (bytes ++ rest) = some (request.onWire, rest) :=
  read_eq_some_iff.2 ⟨request.onWire_onWire, bytes, by rw [bytes_onWire, h], rfl⟩

/-- **Encoding reaches exactly the grammar:** bytes are what some request leaves in some buffer if
the strict reader accepts them as a whole. -/
theorem exists_encode_iff (w : Bytes) :
    (∃ (request : Request) (buffer : Bytes) (n : Nat),
      (request.encode buffer).result = .ok n ∧ (request.encode buffer).buffer.take n = w) ↔
    (read.whole? w).isSome := by
  rw [Option.isSome_iff_exists]
  constructor
  · rintro ⟨request, buffer, n, hn, rfl⟩
    rw [encode_eq] at hn ⊢
    obtain ⟨placed, hb, rfl, -, hbuf⟩ := Outcome.place_eq_ok hn
    refine ⟨request.onWire, ReadM.whole?_eq_some_iff.2 (read_eq_some_iff.2 ⟨request.onWire_onWire,
      placed, ?_, ?_⟩)⟩
    · rw [bytes_onWire, hb]
    · rw [hbuf, List.take_left, List.append_nil]
  · rintro ⟨request, hread⟩
    obtain ⟨-, bytes, hb, hw⟩ := read_eq_some_iff.1 (ReadM.whole?_eq_some_iff.1 hread)
    rw [List.append_nil] at hw
    subst hw
    refine ⟨request, w, w.length, ?_, ?_⟩
    · rw [encode_eq, hb, Outcome.place_of_le (Nat.le_refl _)]
    · rw [encode_eq, hb, Outcome.place_of_le (Nat.le_refl _), List.take_left]

/-! ### Rows of packets -/

/-- The bytes of a request that has any. -/
def wire (request : Request) : Bytes :=
  match request.bytes with
  | .ok bytes => bytes
  | .error _ => []

theorem wire_of_bytes {request : Request} {bytes : Bytes} (h : request.bytes = .ok bytes) :
    request.wire = bytes := by
  rw [wire, h]

theorem wire_onWire (request : Request) : request.onWire.wire = request.wire := by
  rw [wire, bytes_onWire, wire]

/-- No request has an empty packet. -/
theorem bytes_ne_nil {request : Request} {bytes : Bytes} (h : request.bytes = .ok bytes) :
    bytes ≠ [] := by
  rw [← bytes_onWire] at h
  obtain ⟨first, body, count, -, -, rfl⟩ := (bytes_eq_ok_iff request.onWire_onWire).1 h
  exact List.cons_ne_nil _ _

theorem takes_read : read.Takes
    (fun request => request.onWire = request ∧ request.bytes = .ok request.wire) wire := by
  intro input request rest
  rw [read_eq_some_iff]
  constructor
  · rintro ⟨hi, bytes, hb, rfl⟩
    obtain rfl := wire_of_bytes hb
    exact ⟨⟨hi, hb⟩, rfl⟩
  · rintro ⟨⟨hi, hb⟩, rfl⟩
    exact ⟨hi, _, hb, rfl⟩

/-- **A row of packets is read** as the requests whose bytes it is made of, and nothing else is. -/
theorem readAll?_eq_some_iff {input : Bytes} {requests : List Request} :
    readAll? input = some requests ↔
      (∀ request ∈ requests, request.onWire = request ∧ request.bytes = .ok request.wire) ∧
        input = requests.flatMap wire := by
  rw [readAll?, ReadM.whole?_eq_some_iff,
    takes_read.many_length_eq_some_iff fun request h => bytes_ne_nil h.2]
  simp only [and_true]

end Request

end MqttWire
