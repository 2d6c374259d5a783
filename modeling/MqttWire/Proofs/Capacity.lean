import MqttWire.Proofs.AnyPacket
import MqttWire.Proofs.Rows

/-!
# Encoding within a capacity

The bytes of a packet are written to a buffer made to measure, if there is one within the capacity,
or to a buffer of the whole capacity.  Both give the same bytes or the same failure
(`Packet.encodeGrown_encode`): where there is room for the packet, more of it changes nothing.

So it is for every request, and for any packet whose body the announced length decides: the body
takes just these bytes, or it stops at a field that is too long before it takes more than these.
-/

namespace MqttWire

/-- **A row that `n` bytes of room decide:** it takes just these, or one of its fields is too long and
those before it take no more. -/
def Field.DecidedBy (row : List Field) (n : Nat) : Prop :=
  ((∀ field ∈ row, field.Fits) ∧ (row.flatMap bytes).length = n) ∨
    ∃ before field after, row = before ++ field :: after ∧ (∀ f ∈ before, f.Fits) ∧
      ¬ field.Fits ∧ (before.flatMap bytes).length ≤ n

/-- A field that is too long is where a row fails, if there is room for those before it. -/
theorem failsBehind_of_size_eq_error {before after : List Field} {field : Field}
    {written rest : Bytes} {e : EncodeError} (hfits : ∀ f ∈ before, f.Fits)
    (hle : (before.flatMap Field.bytes).length ≤ rest.length) (hsize : field.size = .error e) :
    FailsBehind (before ++ field :: after) ⟨written ++ rest, written.length⟩ before e :=
  ⟨field, after, _, _, rfl, putAll_eq_ok_iff.2 ⟨hfits, hle, rfl⟩,
    Field.put_of_size_eq_error hsize _⟩

/-- **What counts of what an action leaves:** the bytes it has written, or its failure. -/
def Outcome.Yields (outcome : Outcome) : Except EncodeError Bytes → Prop
  | .ok bytes => outcome.result = .ok bytes.length ∧ outcome.buffer.take bytes.length = bytes
  | .error e => outcome.result = .error e

/-- The bytes that an action has written, or its failure, are what it yields. -/
theorem Outcome.Yields.take_eq {outcome : Outcome} {written : Except EncodeError Bytes}
    (h : outcome.Yields written) :
    (do return outcome.buffer.take (← outcome.result) : Except EncodeError Bytes) = written := by
  cases written with
  | error e =>
    have hresult : outcome.result = .error e := h
    rw [hresult]
    rfl
  | ok bytes =>
    obtain ⟨hresult, htake⟩ := h
    rw [hresult, ok_bind, htake]
    rfl

namespace Packet

variable {packet : Packet} {row : List Field} {head : Bytes} {remaining : Nat}

/-- **A packet whose body its length decides,** while the content is legal. -/
def Decided (packet : Packet) : Prop :=
  packet.validity = .ok () → ∃ row, packet.fields = putAll row ∧
    ∀ n, packet.remainingLength = .ok n → Field.DecidedBy row n

/-- Where there is room for such a packet, what is written does not depend on the buffer. -/
theorem exists_yields (h : packet.Decided) (ho : packet.opening = .ok (head, remaining)) :
    ∃ written, ∀ buffer : Bytes, head.length + remaining ≤ buffer.length →
      (packet.encode buffer).Yields written := by
  obtain ⟨hv, -, -, -, hn, -⟩ := opening_eq_ok_iff.1 ho
  obtain ⟨row, hrow, hdecided⟩ := h hv
  have hroom (buffer : Bytes) (hle : head.length + remaining ≤ buffer.length) :
      remaining ≤ (buffer.drop head.length).length := by
    rw [List.length_drop]
    omega
  rcases hdecided remaining hn with ⟨hfits, rfl⟩ | ⟨before, field, after, rfl, hfits, hlong, hbefore⟩
  · refine ⟨.ok (head ++ row.flatMap Field.bytes), fun buffer hle => ?_⟩
    have hw : putAll row ⟨head ++ buffer.drop head.length, head.length⟩ = .ok () _ :=
      putAll_eq_ok_iff.2 ⟨hfits, hroom buffer hle, rfl⟩
    rw [encode_of_putAll_eq_ok hrow ho hle hw]
    exact ⟨rfl, List.take_left⟩
  · cases hsize : field.size with
    | ok n => exact absurd ⟨n, hsize⟩ hlong
    | error e =>
      refine ⟨.error e, fun buffer hle => ?_⟩
      have hbuffer := Nat.le_trans hbefore (hroom buffer hle)
      rw [encode_of_failsBehind hrow ho hle (failsBehind_of_size_eq_error hfits hbuffer hsize)]
      rfl

/-- A buffer made to measure holds in the end what counts of a buffer of the whole capacity. -/
theorem yields_encodeGrown (h : packet.Decided) {capacity : Nat} {grow : Nat → Option Bytes}
    (hfull : ∀ n, grow n = none ↔ capacity < n)
    (hgrown : ∀ n grown, grow n = some grown → grown.length = n)
    {buffer : Bytes} (hb : buffer.length = capacity) :
    (packet.encode buffer).Yields (packet.encodeGrown grow) := by
  rw [encodeGrown, encodedLength_eq_opening]
  cases ho : packet.opening with
  | error e =>
    rw [encode_of_opening_eq_error ho]
    rfl
  | ok o =>
    obtain ⟨head, remaining⟩ := o
    simp only [Except.map, ok_bind]
    cases hg : grow (head.length + remaining) with
    | none =>
      have hlt := (hfull _).1 hg
      rw [encode_of_lt ho (by omega)]
      rfl
    | some grown =>
      have hle : ¬ capacity < head.length + remaining := fun hlt => by
        rw [(hfull _).2 hlt] at hg
        cases hg
      have hlength := hgrown _ _ hg
      obtain ⟨written, hwritten⟩ := exists_yields h ho
      have hbuffer := hwritten buffer (by omega)
      have hmeasured := hwritten grown (by omega)
      rw [← hmeasured.take_eq] at hbuffer
      exact hbuffer

end Packet

/-- The body of a request takes the length announced. -/
theorem Request.packet_decided (request : Request) : request.packet.Decided := fun hv =>
  ⟨request.fields, request.writes.fields_eq hv, fun _ hn =>
    .inl (Field.totalSize_eq_ok_iff.1 (request.writes.totalSize_eq hv hn))⟩

namespace Packet

/-- A buffer of zeros is made to measure, within the capacity. -/
theorem zeroed_eq_none_iff {capacity n : Nat} : zeroed capacity n = none ↔ capacity < n := by
  unfold zeroed
  by_cases h : capacity < n <;> simp [h]

theorem length_of_zeroed {capacity n : Nat} {grown : Bytes} (h : zeroed capacity n = some grown) :
    grown.length = n := by
  unfold zeroed at h
  split at h
  · cases h
  · cases h
    exact List.length_replicate

/-- **The bytes of a packet within a capacity** are those that writing it to a buffer of the whole
capacity leaves, whatever was in there, and there are none exactly if writing fails, for the same
reason.  So it is where a buffer grows to any length within the capacity and to none beyond, for every
request and for any packet whose body its length decides. -/
theorem encodeGrown_encode {packet : Packet}
    (h : (∃ request : Request, packet = request.packet) ∨ ∃ row, packet.fields = putAll row ∧
      ∀ n, packet.remainingLength = .ok n → Field.DecidedBy row n)
    {capacity : Nat} {grow : Nat → Option Bytes} (hfull : ∀ n, grow n = none ↔ capacity < n)
    (hgrown : ∀ n grown, grow n = some grown → grown.length = n)
    {buffer : Bytes} (hb : buffer.length = capacity) :
    (∀ bytes, packet.encodeGrown grow = .ok bytes ↔
      ∃ n, (packet.encode buffer).result = .ok n ∧ bytes.length = n ∧
        bytes = (packet.encode buffer).buffer.take n) ∧
    ∀ e, packet.encodeGrown grow = .error e ↔ (packet.encode buffer).result = .error e := by
  have hdecided : packet.Decided := by
    rcases h with ⟨request, rfl⟩ | ⟨row, hrow⟩
    · exact request.packet_decided
    · exact fun _ => ⟨row, hrow⟩
  have hyields := yields_encodeGrown hdecided hfull hgrown hb
  cases hbytes : packet.encodeGrown grow with
  | error e =>
    rw [hbytes] at hyields
    have hresult : (packet.encode buffer).result = .error e := hyields
    rw [hresult]
    exact ⟨fun bytes => ⟨nofun, by rintro ⟨_, ⟨⟩, -⟩⟩, fun e' => by
      rw [Except.error.injEq, Except.error.injEq]⟩
  | ok bytes =>
    rw [hbytes] at hyields
    obtain ⟨hresult, htake⟩ := hyields
    rw [hresult]
    refine ⟨fun bytes' => ?_, fun e => ⟨nofun, nofun⟩⟩
    constructor
    · rintro ⟨⟩
      exact ⟨_, rfl, rfl, htake.symm⟩
    · rintro ⟨_, ⟨⟩, -, rfl⟩
      rw [htake]

/-- A message and a body with a value that is too long, within five bytes and within sixteen. -/
theorem encodeGrown_encode_instance :
    let message := (Request.publish (.ofMessage "t" [1])).packet
    let tooLong : Field := .binary (List.replicate 65536 0)
    let custom : Packet :=
      ⟨.ok (), FixedHeader.ofFlags .pubAck 0, .ok 2, putAll [.word 7, tooLong]⟩
    message.encodeWithin 16 = .ok [0x30, 4, 0, 1, 0x74, 1] ∧
      message.encodeWithin 5 = .error .bufferTooSmall ∧
      custom.encodeWithin 16 = .error (.violation .binaryTooLong) := by
  intro message tooLong custom
  have hsize : tooLong.size = .error (.violation .binaryTooLong) :=
    Field.binarySize_of_lt (by rw [List.length_replicate]; decide)
  have hunfit := Field.not_fits_of_size_eq_error hsize
  have hmessage (capacity : Nat) := @encodeGrown_encode message (.inl ⟨_, rfl⟩) capacity _
    (fun _ => zeroed_eq_none_iff) (fun _ _ => length_of_zeroed)
  have hcustom := @encodeGrown_encode custom (.inr ⟨[.word 7, tooLong], rfl, fun n hn => by
      cases hn
      exact .inr ⟨[.word 7], tooLong, [], rfl, by simp, hunfit, by decide⟩⟩) 16 _
    (fun _ => zeroed_eq_none_iff) (fun _ _ => length_of_zeroed)
  refine ⟨?_, ?_, ?_⟩
  · exact ((@hmessage 16 (List.replicate 16 9) rfl).1 _).2 ⟨6, rfl, rfl, rfl⟩
  · exact ((@hmessage 5 (List.replicate 5 9) rfl).2 _).2 rfl
  · refine ((@hcustom (List.replicate 16 9) rfl).2 _).2 ?_
    have ho : custom.opening = .ok ([0x40, 2], 2) := rfl
    have hfails : FailsBehind [.word 7, tooLong] ⟨[0x40, 2] ++ List.replicate 14 9, 2⟩ [.word 7]
        (.violation .binaryTooLong) :=
      ⟨tooLong, [], _, _, rfl, rfl, Field.put_of_size_eq_error hsize _⟩
    rw [encode_of_failsBehind rfl ho (by decide) hfails]

end Packet

end MqttWire
