import MqttWire.Proofs.Received
import MqttWire.Settings

/-!
# Settings on the wire

Settings become a connect request unless their will asks for a quality of service that is no level.
The request is then legal but for one thing: it may have a password and no user name.  So only that,
a text that is too long, or a short buffer can keep it from being written, and a receiver finds the
settings in what is written (`Settings.toConnect_encode`).
-/

namespace MqttWire

/-! ### Connect requests -/

namespace Connect

/-- **A legal connect request has bytes** unless one of its fields is too long. -/
theorem bytes_cases {c : Connect} (h : c.validate = .ok ()) :
    (∃ bytes, (Request.connect c).bytes = .ok bytes) ∨
      ∃ field ∈ c.payload, ∃ e, field.size = .error e ∧ (Request.connect c).bytes = .error e := by
  have hheader : c.packet.header = .ok ⟨.connect, 0, rfl⟩ := rfl
  cases hp : c.payloadLength with
  | error e =>
    have hfields := hp
    rw [payloadLength_eq] at hfields
    obtain ⟨field, hmem, hsize⟩ := Field.exists_of_totalSize_eq_error hfields
    refine .inr ⟨field, hmem, e, hsize, ?_⟩
    have hn : c.packet.remainingLength = .error e := by
      show (do return fixedPartLength + (← c.payloadLength)) = _
      rw [hp]
      rfl
    show c.packet.bytes _ = _
    unfold Packet.bytes
    rw [hheader, hn, show c.packet.validity = .ok () from h]
    rfl
  | ok n =>
    have hle := payloadLength_le hp
    have hn : c.packet.remainingLength = .ok (fixedPartLength + n) := by
      show (do return fixedPartLength + (← c.payloadLength)) = _
      rw [hp]
      rfl
    cases hc : RemainingLength.width (fixedPartLength + n) with
    | error e =>
      obtain ⟨hlimit, -⟩ := RemainingLength.width_eq_error_iff.1 hc
      unfold Field.maxLength at hle
      unfold fixedPartLength RemainingLength.limit at hlimit
      omega
    | ok count =>
      exact .inl ⟨_, Packet.bytes_eq_ok_iff.2 ⟨h, _, _, _, hheader, hn, hc, rfl⟩⟩

/-- Where the request is not legal it has no bytes. -/
theorem bytes_of_validate_eq_error {c : Connect} {e : EncodeError} (h : c.validate = .error e) :
    (Request.connect c).bytes = .error e := by
  show c.packet.bytes _ = _
  unfold Packet.bytes
  rw [show c.packet.validity = .error e from h]
  rfl

end Connect

/-! ### Quality of service and flags -/

/-- The levels are the numbers up to 2. -/
theorem QoS.ofLevel_cases (number : UInt8) :
    (∃ qos : QoS, qos.level = number ∧ ofLevel number = .ok qos) ∨
      2 < number ∧ ofLevel number = .error (.violation .invalidQoS) := by
  by_cases h : number ≤ 2
  · left
    have hnumber : number = 0 ∨ number = 1 ∨ number = 2 := by
      revert number
      decide +kernel
    obtain rfl | rfl | rfl := hnumber
    · exact ⟨atMostOnce, rfl, rfl⟩
    · exact ⟨atLeastOnce, rfl, rfl⟩
    · exact ⟨exactlyOnce, rfl, rfl⟩
  · right
    refine ⟨UInt8.not_le.1 h, ?_⟩
    revert number
    decide +kernel

namespace ConnectFlags

/-- The flags are legal and say this of the session and of the will, which `qos` and `retain` leave
out where there is none. -/
def Say (flags : ConnectFlags) (clean hasWill : Bool) (qos : UInt8) (retain : Bool) : Prop :=
  flags.validate hasWill = .ok () ∧ decide (flags.bits &&& 0x02 ≠ 0) = clean ∧
    flags.bits >>> 3 &&& 3 = qos ∧ decide (flags.bits &&& 0x20 ≠ 0) = retain

instance (flags : ConnectFlags) (clean hasWill : Bool) (qos : UInt8) (retain : Bool) :
    Decidable (flags.Say clean hasWill qos retain) := by
  unfold Say
  infer_instance

theorem say_of_session (clean : Bool) :
    (if clean then empty.cleanSession else empty).Say clean false 0 false := by
  cases clean <;> decide

theorem say_of_will (clean : Bool) (qos : QoS) (retain : Bool) :
    let flags := (if clean then empty.cleanSession else empty).willQoS qos
    (if retain then flags.willRetain else flags).Say clean true qos.level retain := by
  cases clean <;> cases qos <;> cases retain <;> decide

end ConnectFlags

/-! ### Settings -/

namespace Settings

/-- What is written as texts. -/
def texts (s : Settings) : List String :=
  s.clientId :: (s.will.toList.map WillSettings.topic ++ s.userName.toList)

/-- What is written as binary values. -/
def binaries (s : Settings) : List String :=
  s.will.toList.map WillSettings.message ++ s.password.toList

/-- **What a receiver should find of settings:** all of them, and nothing of a will where there is
none. -/
def received (s : Settings) : ReceivedConnect where
  protocolName := "MQTT"
  protocolLevel := 4
  cleanSession := s.cleanSession
  willQoS := (s.will.map WillSettings.qos).getD 0
  willRetain := (s.will.map WillSettings.retain).getD false
  keepAlive := s.keepAlive
  clientId := s.clientId
  willTopic := s.will.map WillSettings.topic
  willMessage := s.will.map fun will => utf8 will.message
  userName := s.userName
  password := s.password.map utf8

/-- **The flags of settings** say what the settings say, unless the will asks for a quality of
service that is no level. -/
theorem connectFlags_cases (s : Settings) :
    ((∀ will ∈ s.will, will.qos ≤ 2) ∧ ∃ flags, s.connectFlags = .ok flags ∧
      flags.Say s.cleanSession s.will.isSome ((s.will.map WillSettings.qos).getD 0)
        ((s.will.map WillSettings.retain).getD false)) ∨
    (∃ will ∈ s.will, 2 < will.qos) ∧ s.connectFlags = .error (.violation .invalidQoS) := by
  unfold connectFlags
  cases s.will with
  | none => exact .inl ⟨nofun, _, rfl, ConnectFlags.say_of_session _⟩
  | some will =>
    rcases QoS.ofLevel_cases will.qos with ⟨qos, hlevel, hqos⟩ | ⟨hlt, hqos⟩
    · have hsay := ConnectFlags.say_of_will s.cleanSession qos will.retain
      have hle : qos.level ≤ 2 := qos.level_le
      rw [hlevel] at hsay hle
      refine .inl ⟨?_, _, by simp only [hqos]; rfl, hsay⟩
      rintro _ ⟨⟩
      exact hle
    · refine .inr ⟨⟨will, rfl, hlt⟩, ?_⟩
      simp only [hqos]
      rfl

variable {s : Settings} {c : Connect}

/-- **The connect request of settings.** -/
theorem toConnect_cases (s : Settings) :
    ((∀ will ∈ s.will, will.qos ≤ 2) ∧ ∃ flags,
      flags.Say s.cleanSession s.will.isSome ((s.will.map WillSettings.qos).getD 0)
        ((s.will.map WillSettings.retain).getD false) ∧
      s.toConnect = .ok {
        clientId := s.clientId
        willTopic := s.will.map WillSettings.topic
        willMessage := s.will.map fun will => utf8 will.message
        userName := s.userName
        password := s.password.map utf8
        flags := flags
        keepAlive := s.keepAlive }) ∨
    (∃ will ∈ s.will, 2 < will.qos) ∧ s.toConnect = .error (.violation .invalidQoS) := by
  unfold toConnect
  rcases s.connectFlags_cases with ⟨hle, flags, hflags, hsay⟩ | ⟨hlt, hflags⟩
  · exact .inl ⟨hle, flags, hsay, by rw [hflags]; rfl⟩
  · exact .inr ⟨hlt, by rw [hflags]; rfl⟩

/-- The receiver of the request finds the settings. -/
theorem received_of_toConnect (h : s.toConnect = .ok c) :
    (Request.connect c).received = .connect s.received := by
  rcases s.toConnect_cases with ⟨-, flags, ⟨-, hclean, hqos, hretain⟩, hc⟩ | ⟨-, hc⟩
  · rw [hc] at h
    cases h
    rw [Request.received, received, ← hclean, ← hqos, ← hretain]
  · rw [hc] at h
    cases h

/-- The request is legal but for a password without a user name. -/
theorem validate_of_toConnect (h : s.toConnect = .ok c) :
    c.validate = if s.password.isSome ∧ s.userName = none then
      .error (.violation .passwordWithoutUserName) else .ok () := by
  rcases s.toConnect_cases with ⟨-, flags, ⟨hvalid, -⟩, hc⟩ | ⟨-, hc⟩
  · rw [hc] at h
    cases h
    simp only [Connect.validate, Option.isSome_map, ne_eq, not_true_eq_false, if_false, hvalid]
    cases s.password <;> cases s.userName <;> rfl
  · rw [hc] at h
    cases h

/-- What the request holds is a text or a binary value of the settings. -/
theorem mem_payload_of_toConnect (h : s.toConnect = .ok c) {field : Field}
    (hf : field ∈ c.payload) :
    (∃ text ∈ s.texts, field = .text text) ∨ ∃ text ∈ s.binaries, field = .binary (utf8 text) := by
  rcases s.toConnect_cases with ⟨-, flags, -, hc⟩ | ⟨-, hc⟩
  · rw [hc] at h
    cases h
    rw [Connect.payload_eq (by simp)] at hf
    simp only [Option.toList_map, List.map_map, List.mem_cons, List.mem_append, List.mem_map,
      Function.comp_apply] at hf
    simp only [texts, binaries, List.mem_cons, List.mem_append, List.mem_map]
    rcases hf with
      rfl | ((⟨will, hw, rfl⟩ | ⟨will, hw, rfl⟩) | ⟨name, hn, rfl⟩) | ⟨password, hp, rfl⟩
    · exact .inl ⟨_, .inl rfl, rfl⟩
    · exact .inl ⟨_, .inr (.inl ⟨will, hw, rfl⟩), rfl⟩
    · exact .inr ⟨_, .inl ⟨will, hw, rfl⟩, rfl⟩
    · exact .inl ⟨_, .inr (.inr hn), rfl⟩
    · exact .inr ⟨_, .inr hp, rfl⟩
  · rw [hc] at h
    cases h

/-- **From settings to the wire.**  A will at a quality of service above 2 is refused, and nothing
else.  The request then has a buffer in which it is written, unless there is a password without a
user name, or a text or binary value is too long; and what is written holds the settings. -/
theorem toConnect_encode (s : Settings) :
    (∀ e, s.toConnect = .error e ↔
      e = .violation .invalidQoS ∧ ∃ will, s.will = some will ∧ 2 < will.qos) ∧
    ∀ c, s.toConnect = .ok c → ∀ buffer : Bytes,
      let outcome := (Request.connect c).encode buffer
      (outcome.result = .error (.violation .passwordWithoutUserName) ↔
        s.password.isSome ∧ s.userName = none) ∧
      (∀ e, outcome.result = .error e →
        e = .violation .passwordWithoutUserName ∨
        (e = .violation .stringTooLong ∧
          ∃ text ∈ s.texts, Field.maxLength < text.utf8ByteSize) ∨
        (e = .violation .binaryTooLong ∧
          ∃ text ∈ s.binaries, Field.maxLength < text.utf8ByteSize) ∨
        e = .bufferTooSmall ∧ ∃ length, buffer.length < length ∧ ∀ other : Bytes,
          length ≤ other.length → ((Request.connect c).encode other).result = .ok length) ∧
      ∀ n, outcome.result = .ok n →
        Received.read (outcome.buffer.take n) = some (.connect s.received, []) := by
  refine ⟨fun e => ?_, fun c hc buffer => ?_⟩
  · rcases s.toConnect_cases with ⟨hle, flags, -, hok⟩ | ⟨hlt, herror⟩
    · rw [hok]
      refine ⟨nofun, ?_⟩
      rintro ⟨-, will, hwill, hlt⟩
      exact absurd hlt (UInt8.not_lt.2 (hle will hwill))
    · rw [herror, Except.error.injEq]
      exact ⟨fun he => ⟨he.symm, hlt⟩, fun he => he.1.symm⟩
  · have hvalid := validate_of_toConnect hc
    dsimp only
    rw [Request.encode_eq]
    by_cases hpassword : s.password.isSome ∧ s.userName = none
    · rw [if_pos hpassword] at hvalid
      rw [Connect.bytes_of_validate_eq_error hvalid]
      refine ⟨iff_of_true rfl hpassword, ?_, nofun⟩
      rintro e ⟨⟩
      exact .inl rfl
    · rw [if_neg hpassword] at hvalid
      rcases Connect.bytes_cases hvalid with ⟨bytes, hb⟩ | ⟨field, hmem, e, hsize, hb⟩
      · rw [hb]
        rcases Nat.lt_or_ge buffer.length bytes.length with hlt | hle
        · rw [Outcome.place_of_lt hlt]
          refine ⟨iff_of_false nofun hpassword, ?_, nofun⟩
          rintro e ⟨⟩
          refine .inr (.inr (.inr ⟨rfl, bytes.length, hlt, fun other ho => ?_⟩))
          rw [Request.encode_of_bytes hb ho]
        · rw [Outcome.place_of_le hle]
          refine ⟨iff_of_false nofun hpassword, nofun, ?_⟩
          rintro n ⟨⟩
          have hread := Request.read_bytes_append hb []
          rw [List.append_nil, received_of_toConnect hc] at hread
          rw [List.take_left, hread]
      · rw [hb]
        rcases mem_payload_of_toConnect hc hmem with ⟨text, ht, rfl⟩ | ⟨text, ht, rfl⟩
        · obtain ⟨rfl, hlong⟩ := Field.size_text_eq_error hsize
          refine ⟨iff_of_false nofun hpassword, ?_, nofun⟩
          rintro e ⟨⟩
          exact .inr (.inl ⟨rfl, text, ht, hlong⟩)
        · obtain ⟨rfl, hlong⟩ := Field.size_binary_eq_error hsize
          refine ⟨iff_of_false nofun hpassword, ?_, nofun⟩
          rintro e ⟨⟩
          exact .inr (.inr (.inl ⟨rfl, text, ht, hlong⟩))

/-- A will at no level, a password alone, and a will on the wire. -/
theorem toConnect_encode_instance :
    let settings : Settings := ⟨"c", 60, true, some ⟨"t", "m", 1, true⟩, some "u", some "p"⟩
    let buffer : Bytes := List.replicate 30 9
    (∃ c, settings.toConnect = .ok c ∧ ((Request.connect c).encode buffer).result = .ok 27 ∧
      Received.read (((Request.connect c).encode buffer).buffer.take 27) =
        some (.connect ⟨"MQTT", 4, true, 1, true, 60, "c", some "t", some [109], some "u",
          some [112]⟩, [])) ∧
    { settings with will := some ⟨"t", "m", 3, true⟩ }.toConnect =
      .error (.violation .invalidQoS) ∧
    ∃ c, { settings with userName := none }.toConnect = .ok c ∧
      ((Request.connect c).encode []).result = .error (.violation .passwordWithoutUserName) := by
  intro settings buffer
  refine ⟨⟨_, rfl, by decide, ?_⟩, ?_, _, rfl, ?_⟩
  · exact ((toConnect_encode settings).2 _ rfl buffer).2.2 27 (by decide)
  · exact ((toConnect_encode { settings with will := some ⟨"t", "m", 3, true⟩ }).1 _).2
      ⟨rfl, _, rfl, by decide⟩
  · exact ((toConnect_encode { settings with userName := none }).2 _ rfl []).1.2 ⟨rfl, rfl⟩

end Settings

end MqttWire
