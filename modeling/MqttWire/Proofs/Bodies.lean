import MqttWire.Proofs.ConnectFlags
import MqttWire.Proofs.Reading
import MqttWire.Proofs.Rows

/-!
# Reading bodies

The strict reader of each kind of body takes the rows of fields that legal requests of this kind
consist of, and nothing else.  A connect body ends with its last field, so its reader stops there
(`Connect.takes_read`); the others go on to the end of what there is.
-/

namespace MqttWire

/-! ### Connect requests -/

namespace Connect

/-- The will counts as a whole or not at all. -/
theorem payload_eq {c : Connect} (h : c.willTopic.isSome = c.willMessage.isSome) :
    c.payload = .text c.clientId :: (c.willTopic.toList.map .text ++
      c.willMessage.toList.map .binary ++ c.userName.toList.map .text ++
      c.password.toList.map .binary) := by
  unfold payload will?
  cases ht : c.willTopic <;> cases hm : c.willMessage <;> simp [ht, hm] at h ⊢

theorem flatMap_fields {c : Connect} (h : c.willTopic.isSome = c.willMessage.isSome) :
    c.fields.flatMap Field.bytes = opening ++ c.wireBits :: (bigEndian c.keepAlive.toNat ++
      (Field.counted (utf8 c.clientId) ++
      (c.willTopic.toList.flatMap (fun topic => Field.counted (utf8 topic)) ++
      (c.willMessage.toList.flatMap Field.counted ++
      (c.userName.toList.flatMap (fun name => Field.counted (utf8 name)) ++
        c.password.toList.flatMap Field.counted))))) := by
  have ho : [Field.text protocolName, .byte protocolLevel].flatMap Field.bytes = opening := by
    decide
  have hf : c.fields = [.text protocolName, .byte protocolLevel] ++
      (.byte c.wireBits :: .word c.keepAlive :: c.payload) := rfl
  rw [hf, List.flatMap_append, ho, payload_eq h]
  simp only [List.flatMap_cons, List.flatMap_append, List.flatMap_map, List.append_assoc,
    Field.bytes, List.cons_append, List.nil_append]

theorem fits_fields_iff {c : Connect} (h : c.willTopic.isSome = c.willMessage.isSome) :
    (∀ field ∈ c.fields, field.Fits) ↔ c.clientId.utf8ByteSize ≤ Field.maxLength ∧
      (∀ topic ∈ c.willTopic, topic.utf8ByteSize ≤ Field.maxLength) ∧
      (∀ message ∈ c.willMessage, message.length ≤ Field.maxLength) ∧
      (∀ name ∈ c.userName, name.utf8ByteSize ≤ Field.maxLength) ∧
      ∀ password ∈ c.password, password.length ≤ Field.maxLength := by
  have hn : protocolName.utf8ByteSize ≤ Field.maxLength := by decide
  rw [fields, payload_eq h]
  simp [or_imp, forall_and, hn]

/-- **The reader of connect bodies takes the bodies of legal requests.** -/
theorem takes_read : read.Takes (fun c => c.validate = .ok () ∧ ∀ field ∈ c.fields, field.Fits)
    fun c => c.fields.flatMap Field.bytes := by
  intro input c rest
  have htext := takes_readText.optional
  have hbinary := takes_readBinary.optional
  have ho : opening.length = 7 := rfl
  simp only [read, ReadM.bind_apply_eq_some_iff, readBytes_eq_some_iff, readByte_eq_some_iff,
    readWord_eq_some_iff, takes_readText _ _ _, htext _ _ _ _, hbinary _ _ _ _,
    ReadM.guard_apply_eq_some_iff, ReadM.pure_apply, Option.some.injEq, Prod.mk.injEq]
  constructor
  · rintro ⟨_, _, ⟨rfl, -⟩, _, _, ⟨rfl, rfl⟩, bits, _, rfl, _, _, ⟨hlegal, rfl⟩, keepAlive, _, rfl,
      clientId, _, ⟨hid, rfl⟩, topic, _, ⟨⟨ht, htopic⟩, rfl⟩, message, _, ⟨⟨hm, hmessage⟩, rfl⟩,
      name, _, ⟨⟨hu, hname⟩, rfl⟩, password, _, ⟨⟨hp, hpassword⟩, rfl⟩, rfl, rfl⟩
    have hwill := ht.trans hm.symm
    obtain ⟨hv, hw⟩ := (validate_wireBits_iff (c := ⟨clientId, topic, message, name, password,
      ⟨bits &&& 0x3A⟩, keepAlive⟩)).2 ⟨hlegal, rfl, ht, hm, hu, hp⟩
    refine ⟨⟨hv, (fits_fields_iff hwill).2 ⟨hid, htopic, hmessage, hname, hpassword⟩⟩, ?_⟩
    rw [flatMap_fields hwill, hw]
    simp only [List.append_assoc, List.cons_append]
  · rintro ⟨⟨hv, hfits⟩, rfl⟩
    obtain ⟨hlegal, hflags, ht, hm, hu, hp⟩ := validate_wireBits_iff.1 ⟨hv, rfl⟩
    have hwill := ht.trans hm.symm
    obtain ⟨hid, htopic, hmessage, hname, hpassword⟩ := (fits_fields_iff hwill).1 hfits
    rw [flatMap_fields hwill]
    simp only [List.append_assoc, List.cons_append]
    exact ⟨_, _, ⟨rfl, ho⟩, (), _, ⟨rfl, rfl⟩, _, _, rfl, (), _, ⟨hlegal, rfl⟩, _, _, rfl,
      _, _, ⟨hid, rfl⟩, _, _, ⟨⟨ht, htopic⟩, rfl⟩, _, _, ⟨⟨hm, hmessage⟩, rfl⟩,
      _, _, ⟨⟨hu, hname⟩, rfl⟩, _, _, ⟨⟨hp, hpassword⟩, rfl⟩, by rw [← hflags], rfl⟩

end Connect

/-! ### Publish requests -/

theorem readLevel_eq_some_iff {number : UInt8} {input rest : Bytes} {qos : QoS} :
    readLevel number input = some (qos, rest) ↔ qos.level = number ∧ input = rest := by
  unfold readLevel
  split
  · rw [ReadM.pure_apply]; cases qos <;> simp [QoS.level]
  · rw [ReadM.pure_apply]; cases qos <;> simp [QoS.level]
  · rw [ReadM.pure_apply]; cases qos <;> simp [QoS.level]
  · next h0 h1 h2 =>
    rw [ReadM.failure_apply]
    refine ⟨nofun, ?_⟩
    rintro ⟨rfl, -⟩
    cases qos
    · exact absurd rfl h0
    · exact absurd rfl h1
    · exact absurd rfl h2

/-- The first byte of a publish packet holds the flags, each in its place. -/
theorem PublishFlags.controlByte_iff {flags : PublishFlags} {first : UInt8} :
    (ControlType.publish.checkFlags flags.bits = .ok () ∧
      ControlType.publish.code <<< 4 ||| flags.bits = first) ↔
      first >>> 4 = 3 ∧ flags.qos.level = first >>> 1 &&& 3 ∧
        flags.duplicate = decide (first &&& 0x08 ≠ 0) ∧
        flags.retain = decide (first &&& 0x01 ≠ 0) := by
  obtain ⟨duplicate, qos, retain⟩ := flags
  revert first
  cases qos <;> cases duplicate <;> cases retain <;> decide +kernel

theorem readPacketId_eq_some_iff {qos : QoS} {input rest : Bytes} {id : UInt16} :
    readPacketId qos input = some (id, rest) ↔ (qos.needsPacketId = false → id = 0) ∧
      input = (if qos.needsPacketId then bigEndian id.toNat else []) ++ rest := by
  unfold readPacketId
  cases qos with
  | atMostOnce => simp [QoS.needsPacketId, eq_comm]
  | atLeastOnce | exactlyOnce => simp [QoS.needsPacketId, readWord_eq_some_iff]

theorem Publish.flatMap_fields (p : Publish) :
    p.fields.flatMap Field.bytes = Field.counted (utf8 p.topic) ++
      ((if p.flags.qos.needsPacketId then bigEndian p.packetId.toNat else []) ++ p.message) := by
  cases h : p.flags.qos.needsPacketId <;> simp [fields, h, Field.bytes]

theorem Publish.read_eq_some_iff {first : UInt8} {input rest : Bytes} {p : Publish} :
    Publish.read first input = some (p, rest) ↔
      (p.flags.qos.level = first >>> 1 &&& 3 ∧
        p.flags.duplicate = decide (first &&& 0x08 ≠ 0) ∧
        p.flags.retain = decide (first &&& 0x01 ≠ 0)) ∧
      p.topic ≠ "" ∧ p.topic.utf8ByteSize ≤ Field.maxLength ∧
      (p.flags.qos.needsPacketId = false → p.packetId = 0) ∧
      input = p.fields.flatMap Field.bytes ∧ rest = [] := by
  simp only [Publish.read, ReadM.bind_apply_eq_some_iff, readLevel_eq_some_iff,
    takes_readText _ _ _, readPacketId_eq_some_iff, readRest_eq_some_iff,
    ReadM.guard_apply_eq_some_iff, ReadM.pure_apply, Option.some.injEq, Prod.mk.injEq, flatMap_fields]
  constructor
  · rintro ⟨qos, _, ⟨hq, rfl⟩, topic, _, ⟨hl, rfl⟩, _, _, ⟨hne, rfl⟩, id, _, ⟨hi, rfl⟩,
      _, _, ⟨rfl, rfl⟩, rfl, rfl⟩
    exact ⟨⟨hq, rfl, rfl⟩, hne, hl, hi, rfl, rfl⟩
  · rintro ⟨⟨hq, hd, hr⟩, hne, hl, hi, rfl, rfl⟩
    refine ⟨_, _, ⟨hq, rfl⟩, _, _, ⟨hl, rfl⟩, (), _, ⟨hne, rfl⟩, _, _, ⟨hi, rfl⟩,
      _, _, ⟨rfl, rfl⟩, ?_, rfl⟩
    rw [← hd, ← hr]

/-! ### Subscribe and unsubscribe requests -/

theorem takes_readFilter :
    readFilter.Takes (fun filter => filter ≠ "" ∧ filter.utf8ByteSize ≤ Field.maxLength)
      fun filter => Field.counted (utf8 filter) := by
  intro input filter rest
  simp only [readFilter, ReadM.bind_apply_eq_some_iff, takes_readText _ _ _,
    ReadM.guard_apply_eq_some_iff, ReadM.pure_apply, Option.some.injEq, Prod.mk.injEq]
  constructor
  · rintro ⟨_, _, ⟨hl, rfl⟩, _, _, ⟨hne, rfl⟩, rfl, rfl⟩
    exact ⟨⟨hne, hl⟩, rfl⟩
  · rintro ⟨⟨hne, hl⟩, rfl⟩
    exact ⟨_, _, ⟨hl, rfl⟩, (), _, ⟨hne, rfl⟩, rfl, rfl⟩

theorem Subscription.takes_read :
    Subscription.read.Takes
      (fun entry => entry.filter ≠ "" ∧ entry.filter.utf8ByteSize ≤ Field.maxLength)
      fun entry => Field.counted (utf8 entry.filter) ++ [entry.maxQoS.level] := by
  intro input entry rest
  simp only [Subscription.read, ReadM.bind_apply_eq_some_iff, takes_readFilter _ _ _,
    readByte_eq_some_iff, readLevel_eq_some_iff, ReadM.pure_apply, Option.some.injEq,
    Prod.mk.injEq, List.append_assoc]
  constructor
  · rintro ⟨filter, _, ⟨h, rfl⟩, number, _, rfl, qos, _, ⟨rfl, rfl⟩, rfl, rfl⟩
    exact ⟨h, rfl⟩
  · rintro ⟨h, rfl⟩
    exact ⟨_, _, ⟨h, rfl⟩, _, _, rfl, _, _, ⟨rfl, rfl⟩, rfl, rfl⟩

theorem checkCount_eq_ok_iff {α : Type} {entries : List α} :
    checkCount entries.length = .ok () ↔ entries.length ≤ 8 ∧ entries ≠ [] := by
  cases entries with
  | nil => simp [checkCount]
  | cons a as =>
    by_cases h : as.length + 1 ≤ 8
    · simp [checkCount, maxTopics, h]
    · simp [checkCount, maxTopics, h]

/-- An identifier and entries are taken where the entries are legal, and one to eight. -/
theorem readEntries_eq_some_iff {α : Type} {reader : ReadM α} {legal : α → Prop}
    {bytes : α → Bytes} (h : reader.Takes legal bytes) (hne : ∀ a, legal a → bytes a ≠ [])
    {input rest : Bytes} {id : UInt16} {entries : List α} :
    readEntries reader input = some ((id, entries), rest) ↔
      checkCount entries.length = .ok () ∧ (∀ a ∈ entries, legal a) ∧
        input = bigEndian id.toNat ++ entries.flatMap bytes ∧ rest = [] := by
  simp only [readEntries, ReadM.bind_apply_eq_some_iff, readWord_eq_some_iff,
    h.many_eq_some_iff hne, ReadM.guard_apply_eq_some_iff, ReadM.pure_apply, Option.some.injEq,
    Prod.mk.injEq, checkCount_eq_ok_iff]
  constructor
  · rintro ⟨id, _, rfl, entries, _, ⟨hl, hlegal, rfl, rfl⟩, _, _, ⟨hnil, rfl⟩, ⟨rfl, rfl⟩, rfl⟩
    exact ⟨⟨hl, hnil⟩, hlegal, rfl, rfl⟩
  · rintro ⟨⟨hl, hnil⟩, hlegal, rfl, rfl⟩
    exact ⟨_, _, rfl, _, _, ⟨hl, hlegal, rfl, rfl⟩, (), _, ⟨hnil, rfl⟩, ⟨rfl, rfl⟩, rfl⟩

theorem Subscribe.fits_fields_iff {s : Subscribe} : (∀ field ∈ s.fields, field.Fits) ↔
    ∀ entry ∈ s.subscriptions, entry.filter.utf8ByteSize ≤ Field.maxLength := by
  rw [fields, List.forall_mem_cons, List.forall_mem_flatMap]
  simp

theorem Subscribe.flatMap_fields (s : Subscribe) :
    s.fields.flatMap Field.bytes = bigEndian s.packetId.toNat ++
      s.subscriptions.flatMap fun entry => Field.counted (utf8 entry.filter) ++
        [entry.maxQoS.level] := by
  simp only [fields, List.flatMap_cons, List.flatMap_assoc, List.flatMap_nil, Field.bytes,
    List.append_nil]

theorem Subscribe.read_eq_some_iff {input rest : Bytes} {s : Subscribe} :
    Subscribe.read input = some (s, rest) ↔ checkCount s.subscriptions.length = .ok () ∧
      (∀ entry ∈ s.subscriptions, entry.filter ≠ "") ∧ (∀ field ∈ s.fields, field.Fits) ∧
      input = s.fields.flatMap Field.bytes ∧ rest = [] := by
  have hne (entry : Subscription) (_ : entry.filter ≠ "" ∧
      entry.filter.utf8ByteSize ≤ Field.maxLength) :
      Field.counted (utf8 entry.filter) ++ [entry.maxQoS.level] ≠ [] :=
    List.append_ne_nil_of_right_ne_nil _ nofun
  have hread := @readEntries_eq_some_iff _ _ _ _ Subscription.takes_read hne
  rw [Subscribe.read, ReadM.map_apply_eq_some_iff, fits_fields_iff, flatMap_fields]
  constructor
  · rintro ⟨⟨id, entries⟩, hr, rfl⟩
    obtain ⟨hc, hlegal, hi, hrest⟩ := hread.1 hr
    exact ⟨hc, fun entry he => (hlegal entry he).1, fun entry he => (hlegal entry he).2, hi, hrest⟩
  · rintro ⟨hc, hempty, hlong, hi, hrest⟩
    have hlegal := fun entry he => And.intro (hempty entry he) (hlong entry he)
    exact ⟨(s.packetId, s.subscriptions), hread.2 ⟨hc, hlegal, hi, hrest⟩, rfl⟩

theorem Unsubscribe.fits_fields_iff {u : Unsubscribe} : (∀ field ∈ u.fields, field.Fits) ↔
    ∀ filter ∈ u.filters, filter.utf8ByteSize ≤ Field.maxLength := by
  simp only [fields, List.forall_mem_cons, List.forall_mem_map, Field.fits_word,
    Field.fits_text, true_and]

theorem Unsubscribe.flatMap_fields (u : Unsubscribe) :
    u.fields.flatMap Field.bytes = bigEndian u.packetId.toNat ++
      u.filters.flatMap fun filter => Field.counted (utf8 filter) := by
  simp only [fields, List.flatMap_cons, List.flatMap_map, Field.bytes]

theorem Unsubscribe.read_eq_some_iff {input rest : Bytes} {u : Unsubscribe} :
    Unsubscribe.read input = some (u, rest) ↔ checkCount u.filters.length = .ok () ∧
      (∀ filter ∈ u.filters, filter ≠ "") ∧ (∀ field ∈ u.fields, field.Fits) ∧
      input = u.fields.flatMap Field.bytes ∧ rest = [] := by
  have hne (filter : String) (_ : filter ≠ "" ∧ filter.utf8ByteSize ≤ Field.maxLength) :
      Field.counted (utf8 filter) ≠ [] := nofun
  have hread := @readEntries_eq_some_iff _ _ _ _ takes_readFilter hne
  rw [Unsubscribe.read, ReadM.map_apply_eq_some_iff, fits_fields_iff, flatMap_fields]
  constructor
  · rintro ⟨⟨id, filters⟩, hr, rfl⟩
    obtain ⟨hc, hlegal, hi, hrest⟩ := hread.1 hr
    exact ⟨hc, fun filter hf => (hlegal filter hf).1, fun filter hf => (hlegal filter hf).2, hi,
      hrest⟩
  · rintro ⟨hc, hempty, hlong, hi, hrest⟩
    have hlegal := fun filter hf => And.intro (hempty filter hf) (hlong filter hf)
    exact ⟨(u.packetId, u.filters), hread.2 ⟨hc, hlegal, hi, hrest⟩, rfl⟩

end MqttWire
