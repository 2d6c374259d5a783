import MqttWire.Proofs.Grammar
import MqttWire.Received

/-!
# What arrives of a request

Whatever is encoded is found by the receiver again: the packet ends for it where it ends for the
encoder, whatever stands behind it, and its fields are those of the request
(`Request.received_encode`).  The receiver reads the body of each kind apart, and each of these
readers finds its fields in the row that the request has written.
-/

namespace MqttWire

namespace Received

variable {α : Type} {reader : ReadM α} {legal : α → Prop} {bytes : α → Bytes}

/-- An identifier and a row of entries are read to the end. -/
theorem readEntries_eq (h : reader.Takes legal bytes) (hne : ∀ a, legal a → bytes a ≠ [])
    {make : UInt16 → List α → Received} {id : UInt16} {as : List α} (has : ∀ a ∈ as, legal a) :
    (do return make (← readWord) (← readToEnd reader)) (bigEndian id.toNat ++ as.flatMap bytes) =
      some (make id as, []) := by
  have hread : readToEnd reader (as.flatMap bytes) = some (as, []) :=
    (h.many_length_eq_some_iff hne).2 ⟨has, rfl, rfl⟩
  simp only [ReadM.bind_apply_eq_some_iff, readWord_eq_some_iff, ReadM.pure_apply,
    Option.some.injEq, Prod.mk.injEq]
  exact ⟨_, _, rfl, _, _, hread, rfl, rfl⟩

end Received

/-! ### Bodies -/

theorem Received.readBody_connect {c : Connect} (hv : c.validate = .ok ())
    (hf : ∀ field ∈ c.fields, field.Fits) :
    readBody 0x10 (c.fields.flatMap Field.bytes) = some ((Request.connect c).received, []) := by
  obtain ⟨-, hflags, ht, hm, hu, hp⟩ := Connect.validate_wireBits_iff.1 ⟨hv, rfl⟩
  obtain ⟨hid, htopic, hmessage, hname, hpassword⟩ :=
    (Connect.fits_fields_iff (ht.trans hm.symm)).1 hf
  have hopening : Connect.opening = Field.counted (utf8 "MQTT") ++ [4] := by decide
  have htext := takes_readText.optional
  have hbinary := takes_readBinary.optional
  -- the caller's bits are where the receiver looks for them
  have hbits : ∀ byte : UInt8, byte &&& 0x3A &&& 0x02 = byte &&& 0x02 ∧
      (byte &&& 0x3A) >>> (3 : UInt8) &&& 3 = byte >>> (3 : UInt8) &&& 3 ∧
      byte &&& 0x3A &&& 0x20 = byte &&& 0x20 := by
    decide +kernel
  obtain ⟨hclean, hqos, hretain⟩ := hbits c.wireBits
  rw [← hflags] at hclean hqos hretain
  rw [Connect.flatMap_fields (ht.trans hm.symm), hopening]
  refine ReadM.map_apply_eq_some_iff.2 ⟨_, ?_, rfl⟩
  simp only [ReceivedConnect.read, ReadM.bind_apply_eq_some_iff, readByte_eq_some_iff,
    readWord_eq_some_iff, takes_readText _ _ _, htext _ _ _ _, hbinary _ _ _ _,
    ReadM.pure_apply, Option.some.injEq, Prod.mk.injEq, List.append_assoc, List.cons_append,
    List.nil_append]
  refine ⟨_, _, ⟨by decide, rfl⟩, _, _, rfl, _, _, rfl, _, _, rfl, _, _, ⟨hid, rfl⟩,
    _, _, ⟨⟨ht, htopic⟩, rfl⟩, _, _, ⟨⟨hm, hmessage⟩, rfl⟩, _, _, ⟨⟨hu, hname⟩, rfl⟩,
    _, _, ⟨⟨hp, hpassword⟩, (List.append_nil _).symm⟩, ?_, rfl⟩
  rw [hclean, hqos, hretain]

theorem Received.readBody_publish {p : Publish} {first : UInt8} (hfirst : first >>> 4 = 3)
    (hq : p.flags.qos.level = first >>> 1 &&& 3)
    (hd : p.flags.duplicate = decide (first &&& 0x08 ≠ 0))
    (hr : p.flags.retain = decide (first &&& 0x01 ≠ 0))
    (hl : p.topic.utf8ByteSize ≤ Field.maxLength) :
    readBody first (p.fields.flatMap Field.bytes) =
      some ((Request.publish p).received, []) := by
  have hread : readBody first = publish <$> ReceivedPublish.read first := by
    unfold readBody
    split
    case h_10 => rw [if_pos hfirst]
    all_goals exact absurd hfirst (by decide)
  have hid : (ReadM.optional (first >>> 1 &&& 3 ≠ 0) readWord)
      ((if p.flags.qos.needsPacketId then bigEndian p.packetId.toNat else []) ++ p.message) =
      some (if p.flags.qos.level = 0 then none else some p.packetId, p.message) := by
    rw [← hq, takes_readWord.optional]
    cases p.flags.qos <;> simp [QoS.level, QoS.needsPacketId]
  rw [hread, Publish.flatMap_fields]
  refine ReadM.map_apply_eq_some_iff.2 ⟨_, ?_, rfl⟩
  simp only [ReceivedPublish.read, ReadM.bind_apply_eq_some_iff, takes_readText _ _ _,
    readRest_eq_some_iff, ReadM.pure_apply, Option.some.injEq, Prod.mk.injEq]
  refine ⟨_, _, ⟨hl, rfl⟩, _, _, hid, _, _, ⟨rfl, rfl⟩, ?_, rfl⟩
  rw [hq, hd, hr]

theorem Received.readWord_bigEndian (type : ControlType) (id : UInt16) :
    (acknowledge type <$> readWord) (bigEndian id.toNat) = some (acknowledge type id, []) :=
  ReadM.map_apply_eq_some_iff.2 ⟨id, readWord_eq_some_iff.2 (List.append_nil _).symm, rfl⟩

theorem Received.takes_readEntry :
    readEntry.Takes (fun entry => entry.1.utf8ByteSize ≤ Field.maxLength)
      fun entry => Field.counted (utf8 entry.1) ++ [entry.2] := by
  intro input entry rest
  simp only [readEntry, ReadM.bind_apply_eq_some_iff, takes_readText _ _ _, readByte_eq_some_iff,
    ReadM.pure_apply, Option.some.injEq, Prod.mk.injEq, List.append_assoc]
  constructor
  · rintro ⟨filter, _, ⟨h, rfl⟩, level, _, rfl, rfl, rfl⟩
    exact ⟨h, rfl⟩
  · rintro ⟨h, rfl⟩
    exact ⟨_, _, ⟨h, rfl⟩, _, _, rfl, rfl, rfl⟩

theorem Received.readBody_subscribe {s : Subscribe} (hf : ∀ field ∈ s.fields, field.Fits) :
    readBody 0x82 (s.fields.flatMap Field.bytes) = some ((Request.subscribe s).received, []) := by
  have hentries : (s.subscriptions.flatMap fun entry => Field.counted (utf8 entry.filter) ++
      [entry.maxQoS.level]) = (s.subscriptions.map fun e => (e.filter, e.maxQoS.level)).flatMap
        fun entry => Field.counted (utf8 entry.1) ++ [entry.2] := by
    rw [List.flatMap_map]
  have hne (entry : String × UInt8) (_ : entry.1.utf8ByteSize ≤ Field.maxLength) :
      Field.counted (utf8 entry.1) ++ [entry.2] ≠ [] := List.append_ne_nil_of_right_ne_nil _ nofun
  have hlong : ∀ entry ∈ s.subscriptions.map fun e => (e.filter, e.maxQoS.level),
      entry.1.utf8ByteSize ≤ Field.maxLength :=
    List.forall_mem_map.2 (Subscribe.fits_fields_iff.1 hf)
  rw [Subscribe.flatMap_fields, hentries]
  exact readEntries_eq takes_readEntry hne hlong

theorem Received.readBody_unsubscribe {u : Unsubscribe} (hf : ∀ field ∈ u.fields, field.Fits) :
    readBody 0xA2 (u.fields.flatMap Field.bytes) = some ((Request.unsubscribe u).received, []) := by
  have hne (filter : String) (_ : filter.utf8ByteSize ≤ Field.maxLength) :
      Field.counted (utf8 filter) ≠ [] := nofun
  rw [Unsubscribe.flatMap_fields]
  exact readEntries_eq takes_readText hne (Unsubscribe.fits_fields_iff.1 hf)

/-! ### Packets -/

namespace Request

/-- **The receiver finds in a body** what the request has put there. -/
theorem Frames.received {request : Request} {first : UInt8} {body : Bytes}
    (h : request.Frames first body) (hl : body.length ≤ RemainingLength.limit) :
    Received.readBody first body = some (request.received, []) := by
  cases request with
  | connect c =>
    obtain ⟨rfl, ⟨hv, hf⟩, rfl⟩ := frames_connect_iff.1 h
    exact Received.readBody_connect hv hf
  | publish p =>
    obtain ⟨hfirst, ⟨hq, hd, hr⟩, -, hlong, -, rfl⟩ := (frames_publish_iff hl).1 h
    exact Received.readBody_publish hfirst hq hd hr hlong
  | acknowledge a =>
    obtain ⟨type, packetId⟩ := a
    obtain ⟨⟨rfl, rfl⟩ | ⟨rfl, rfl⟩ | ⟨rfl, rfl⟩ | ⟨rfl, rfl⟩, rfl⟩ := frames_acknowledge_iff.1 h
    all_goals exact Received.readWord_bigEndian _ packetId
  | subscribe s =>
    obtain ⟨rfl, -, -, hf, rfl⟩ := frames_subscribe_iff.1 h
    exact Received.readBody_subscribe hf
  | unsubscribe u =>
    obtain ⟨rfl, -, -, hf, rfl⟩ := frames_unsubscribe_iff.1 h
    exact Received.readBody_unsubscribe hf
  | pingReq =>
    obtain ⟨rfl, rfl⟩ := frames_pingReq_iff.1 h
    rfl
  | disconnect =>
    obtain ⟨rfl, rfl⟩ := frames_disconnect_iff.1 h
    rfl

theorem received_onWire (request : Request) : request.onWire.received = request.received := by
  cases request with
  | publish p => cases h : p.flags.qos <;> simp [onWire, received, h, QoS.level, QoS.needsPacketId]
  | _ => rfl

/-- **The receiver finds in the bytes of a request** its fields, and what follows is left. -/
theorem read_bytes_append {request : Request} {bytes : Bytes} (h : request.bytes = .ok bytes)
    (rest : Bytes) : Received.read (bytes ++ rest) = some (request.received, rest) := by
  rw [← bytes_onWire] at h
  obtain ⟨first, body, count, hframes, hc, rfl⟩ := (bytes_eq_ok_iff request.onWire_onWire).1 h
  have hbody := hframes.received (RemainingLength.le_limit_of_width_eq_ok hc)
  obtain ⟨h4, hneeds⟩ := RemainingLength.width_eq_ok_iff.1 hc
  have hdigits := RemainingLength.readDigits_digits (body ++ rest) hneeds h4
  rw [received_onWire] at hbody
  simp only [Received.read, ReadM.bind_apply_eq_some_iff, readByte_eq_some_iff,
    readBytes_eq_some_iff]
  refine ⟨first, _, rfl, body.length, body ++ rest, ?_, body, rest, ⟨rfl, rfl⟩, ?_⟩
  · rw [← hdigits]
    exact congrArg _ (List.append_assoc _ body rest)
  · rw [ReadM.whole?_eq_some_iff.2 hbody]
    rfl

/-- **Decoding undoes encoding.**  Where encoding succeeds, the receiver takes from the buffer the
bytes that count and no more, whatever follows them, and finds the fields of the request. -/
theorem received_encode {request : Request} {buffer : Bytes} {n : Nat}
    (h : (request.encode buffer).result = .ok n) :
    ((request.encode buffer).buffer.take n).length = n ∧
      ∀ rest, Received.read ((request.encode buffer).buffer.take n ++ rest) =
        some (request.received, rest) := by
  rw [encode_eq] at h ⊢
  obtain ⟨placed, hb, rfl, -, hbuf⟩ := Outcome.place_eq_ok h
  rw [hbuf, List.take_left]
  exact ⟨rfl, read_bytes_append hb⟩

/-- A connect packet with a will, in front of another packet. -/
theorem received_encode_instance :
    let request := connect (((Connect.ofClientId "c").withWill "t" [1]).withFlags ⟨0x2A⟩)
    let buffer : Bytes := List.replicate 25 9
    (request.encode buffer).result = .ok 21 ∧
      Received.read ((request.encode buffer).buffer.take 21 ++ [0xC0, 0]) =
        some (.connect ⟨"MQTT", 4, true, 1, true, 0, "c", some "t", some [1], none, none⟩,
          [0xC0, 0]) := by
  intro request buffer
  have h : (request.encode buffer).result = .ok 21 := by decide
  exact ⟨h, (received_encode h).2 [0xC0, 0]⟩

end Request

end MqttWire
