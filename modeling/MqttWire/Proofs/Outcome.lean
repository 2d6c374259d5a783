import MqttWire.Proofs.Rows

/-!
# What encoding leaves behind

Asking for the length of a request and encoding it never disagree (`encodedLength_encode`): a broken
rule is reported by both, whatever the buffer, and otherwise the buffer decides, by its length.
Once the fixed header stands the body cannot fail, and takes exactly the bytes announced.

Encoding is atomic (`encode_atomic`): a failure leaves the buffer as it was, and a success changes
only the bytes that it counts, to what the request alone determines.
-/

namespace MqttWire

/-! ### Only writing can run out of room -/

theorem Field.size_ne_bufferTooSmall (field : Field) : field.size ≠ .error .bufferTooSmall := by
  cases field with
  | text value => exact textSize_ne_bufferTooSmall value
  | binary value => exact binarySize_ne_bufferTooSmall value
  | byte | word | raw => exact nofun

theorem Field.totalSize_ne_bufferTooSmall :
    ∀ fields : List Field, totalSize fields ≠ .error .bufferTooSmall
  | [] => nofun
  | field :: fields =>
    bind_ne_error field.size_ne_bufferTooSmall fun _ =>
      bind_ne_error (totalSize_ne_bufferTooSmall fields) fun _ => nofun

theorem FixedHeader.ofFlags_ne_bufferTooSmall (type : ControlType) (flags : UInt8) :
    ofFlags type flags ≠ .error .bufferTooSmall := by
  unfold ofFlags
  split
  · exact nofun
  · next e he =>
    rintro ⟨⟩
    unfold ControlType.checkFlags at he
    split at he
    · cases he
    split at he <;> split at he <;> cases he

theorem checkCount_ne_bufferTooSmall (count : Nat) : checkCount count ≠ .error .bufferTooSmall := by
  unfold checkCount
  split
  · exact nofun
  split <;> exact nofun

theorem ConnectFlags.validate_ne_bufferTooSmall (flags : ConnectFlags) (hasWill : Bool) :
    flags.validate hasWill ≠ .error .bufferTooSmall := by
  unfold validate
  refine check_ne_error (by decide) ?_
  refine check_ne_error (by decide) ?_
  exact last_check_ne_error (by decide)

theorem Connect.validate_ne_bufferTooSmall (c : Connect) : c.validate ≠ .error .bufferTooSmall := by
  unfold validate
  refine check_ne_error (by decide) ?_
  refine check_ne_error (by decide) ?_
  exact c.flags.validate_ne_bufferTooSmall _

theorem Publish.validate_ne_bufferTooSmall (p : Publish) : p.validate ≠ .error .bufferTooSmall := by
  unfold validate
  split <;> exact nofun

theorem Publish.remainingLength_ne_bufferTooSmall (p : Publish) :
    p.remainingLength ≠ .error .bufferTooSmall := by
  refine bind_ne_error (Field.textSize_ne_bufferTooSmall p.topic) fun m => ?_
  exact check_ne_error (by decide) nofun

theorem Acknowledgement.validate_ne_bufferTooSmall (a : Acknowledgement) :
    a.validate ≠ .error .bufferTooSmall := by
  unfold validate
  split <;> exact nofun

theorem Acknowledgement.header_ne_bufferTooSmall (a : Acknowledgement) :
    a.header ≠ .error .bufferTooSmall := by
  unfold header
  split
  · exact FixedHeader.ofFlags_ne_bufferTooSmall _ _
  · exact nofun

namespace Request

/-- The length of a request is known, or a rule is broken. -/
theorem encodedLength_ne_bufferTooSmall (request : Request) :
    request.encodedLength ≠ .error .bufferTooSmall := by
  have key {packet : Packet} (hv : packet.validity ≠ .error .bufferTooSmall)
      (hh : packet.header ≠ .error .bufferTooSmall)
      (hn : packet.remainingLength ≠ .error .bufferTooSmall) :
      packet.encodedLength ≠ .error .bufferTooSmall :=
    bind_ne_error hv fun _ => bind_ne_error hh fun _ => bind_ne_error hn fun n =>
      FixedHeader.packetLength_ne_bufferTooSmall n
  have header := FixedHeader.ofFlags_ne_bufferTooSmall
  cases request with
  | connect c =>
    refine key c.validate_ne_bufferTooSmall (header .connect 0) (bind_ne_error ?_ fun _ => nofun)
    rw [c.payloadLength_eq]
    exact Field.totalSize_ne_bufferTooSmall c.payload
  | publish p =>
    exact key p.validate_ne_bufferTooSmall (header .publish p.flags.bits)
      p.remainingLength_ne_bufferTooSmall
  | acknowledge a => exact key a.validate_ne_bufferTooSmall a.header_ne_bufferTooSmall nofun
  | subscribe s =>
    refine key (checkCount_ne_bufferTooSmall _) (header .subscribe 2)
      (foldlM_ne_error (fun _ entry => ?_) _ _)
    exact bind_ne_error (filterSize_ne_bufferTooSmall entry.filter) fun _ => nofun
  | unsubscribe u =>
    refine key (checkCount_ne_bufferTooSmall _) (header .unsubscribe 2)
      (foldlM_ne_error (fun _ filter => ?_) _ _)
    exact bind_ne_error (filterSize_ne_bufferTooSmall filter) fun _ => nofun
  | pingReq => exact key nofun (header .pingReq 0) nofun
  | disconnect => exact key nofun (header .disconnect 0) nofun

/-! ### Length and encoding agree -/

/-- **The length query and the encoder agree.**  A broken rule found by one is found by the other,
whatever the buffer; a length decides together with the buffer's.  Nothing can go wrong behind the
fixed header: from the writer that it leaves, the body is written and takes exactly the remaining
length. -/
theorem encodedLength_encode (request : Request) :
    request.encodedLength ≠ .error .bufferTooSmall ∧
    (∀ rule, request.encodedLength = .error (.violation rule) →
      ∀ buffer, (request.encode buffer).result = .error (.violation rule)) ∧
    (∀ length, request.encodedLength = .ok length → ∀ buffer : Bytes,
      (length ≤ buffer.length → (request.encode buffer).result = .ok length) ∧
      (buffer.length < length → (request.encode buffer).result = .error .bufferTooSmall)) ∧
    ∀ header remaining buffer n w, request.packet.validity = .ok () →
      request.packet.header = .ok header → request.packet.remainingLength = .ok remaining →
      header.put remaining (Writer.start buffer) = .ok n w →
      ∃ w', request.packet.fields w = .ok () w' ∧ w'.position = w.position + remaining := by
  have hlen := request.encodedLength_eq
  refine ⟨request.encodedLength_ne_bufferTooSmall, fun rule h buffer => ?_,
    fun length h buffer => ?_, fun header remaining buffer n w hv hh hn hw => ?_⟩
  · rw [encode_eq]
    cases hb : request.bytes with
    | error e => rw [hlen, hb] at h; cases h; rfl
    | ok bytes => rw [hlen, hb] at h; cases h
  · rw [encode_eq]
    cases hb : request.bytes with
    | error e => rw [hlen, hb] at h; cases h
    | ok bytes =>
      rw [hlen, hb] at h
      cases h
      exact ⟨fun hle => by rw [Outcome.place_of_le hle], fun hlt => by rw [Outcome.place_of_lt hlt]⟩
  · have hw' : header.put remaining ⟨[] ++ buffer, ([] : Bytes).length⟩ = .ok n w := hw
    refine ⟨_, request.writes.fields_after_header hv hn hw', ?_⟩
    rw [Writer.append, request.writes.length_row hv hn]

/-- A broken rule, a length with room and without, and a body behind its header. -/
theorem encodedLength_encode_instance :
    ((publish (.ofMessage "" [1])).encodedLength = .error (.violation .emptyTopic) ∧
      ((publish (.ofMessage "" [1])).encode [9, 9]).result = .error (.violation .emptyTopic)) ∧
    (pingReq.encodedLength = .ok 2 ∧ (pingReq.encode [9, 9, 9]).result = .ok 2 ∧
      (pingReq.encode [9]).result = .error .bufferTooSmall) ∧
    ∃ w, (connect ((Connect.ofClientId "c").withWill "t" [1])).packet.fields
      ⟨[0x10, 19] ++ List.replicate 20 9, 2⟩ = .ok () w ∧ w.position = 21 := by
  obtain ⟨-, hrule, -, -⟩ := encodedLength_encode (publish (.ofMessage "" [1]))
  obtain ⟨-, -, hlength, -⟩ := encodedLength_encode pingReq
  obtain ⟨-, -, -, hbody⟩ :=
    encodedLength_encode (connect ((Connect.ofClientId "c").withWill "t" [1]))
  refine ⟨⟨rfl, hrule _ rfl [9, 9]⟩, ⟨rfl, (hlength 2 rfl [9, 9, 9]).1 (by decide),
    (hlength 2 rfl [9]).2 (by decide)⟩, ?_⟩
  exact hbody ⟨.connect, 0, rfl⟩ 19 (List.replicate 22 9) 2 _ rfl rfl rfl rfl

/-! ### Atomicity -/

/-- **Encoding is atomic.**  After a failure the buffer is as it was; after a success it is so behind
the bytes that count, and those are the same in every buffer that holds them. -/
theorem encode_atomic (request : Request) (buffer : Bytes) :
    (request.encode buffer).buffer.length = buffer.length ∧
    (∀ e, (request.encode buffer).result = .error e → (request.encode buffer).buffer = buffer) ∧
    ∀ n, (request.encode buffer).result = .ok n →
      n ≤ buffer.length ∧
      (∀ i, n ≤ i → (request.encode buffer).buffer[i]? = buffer[i]?) ∧
      ∀ other : Bytes, n ≤ other.length → (request.encode other).result = .ok n ∧
        (request.encode other).buffer.take n = (request.encode buffer).buffer.take n := by
  rw [encode_eq]
  refine ⟨Outcome.length_buffer_place, fun e => Outcome.buffer_place_of_error, fun n h => ?_⟩
  obtain ⟨placed, hb, rfl, hle, hbuf⟩ := Outcome.place_eq_ok h
  refine ⟨hle, fun i hi => ?_, fun other ho => ?_⟩
  · rw [hbuf, List.getElem?_append_right hi, List.getElem?_drop]
    congr 1
    omega
  · rw [hbuf, encode_eq, hb, Outcome.place_of_le ho, List.take_left, List.take_left]
    exact ⟨rfl, rfl⟩

/-- A failure, and one packet in two buffers. -/
theorem encode_atomic_instance :
    (((publish (.ofMessage "" [1])).encode [9, 9]).result = .error (.violation .emptyTopic) ∧
      ((publish (.ofMessage "" [1])).encode [9, 9]).buffer = [9, 9]) ∧
    (pingReq.encode [9, 9, 9]).result = .ok 2 ∧
    (pingReq.encode [9, 9, 9]).buffer[2]? = some 9 ∧
    (pingReq.encode [5, 5]).buffer.take 2 = (pingReq.encode [9, 9, 9]).buffer.take 2 := by
  obtain ⟨-, hfail, -⟩ := encode_atomic (publish (.ofMessage "" [1])) [9, 9]
  obtain ⟨-, -, hsucceed⟩ := encode_atomic pingReq [9, 9, 9]
  obtain ⟨-, hframe, hbytes⟩ := hsucceed 2 rfl
  exact ⟨⟨rfl, hfail (.violation .emptyTopic) rfl⟩, rfl, hframe 2 (Nat.le_refl 2),
    (hbytes [5, 5] (by decide)).2⟩

end Request

end MqttWire
