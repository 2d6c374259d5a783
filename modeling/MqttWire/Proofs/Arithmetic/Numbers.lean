import Mathlib.Algebra.GroupWithZero.Nat
import MqttWire.Arithmetic
import MqttWire.Proofs.Bodies
import MqttWire.Proofs.Outcome

/-!
# Numbers that a machine keeps

An arithmetic that keeps the numbers below some bound (`Arithmetic.Keeps`) makes no difference to
what is computed before anything is written, as long as the bound lies above `268435460`, the length
of the longest packet.  Every sum is bounded by a check that stands before it: that of a value by
the limit on its length, that of the filters by the limit on their number, that of a message by the
limit on the remaining length, and the length of a packet by the same.

* `remainingLength_eq` and `packetLength_eq` say so of lengths;
* `header_eq`, `bytes_eq` and `digits_eq` say so of the bytes that are written.
-/

namespace MqttWire

/-- What comes behind a check matters only where the check succeeds. -/
theorem bind_congr_of_ok {ε α β : Type} {x : Except ε α} {f g : α → Except ε β}
    (h : ∀ v, x = .ok v → f v = g v) : x >>= f = x >>= g := by
  cases x with
  | error e => rfl
  | ok v => exact h v rfl

theorem Field.textSize_le {value : String} {n : Nat} (h : textSize value = .ok n) : n ≤ 65537 := by
  obtain ⟨hle, rfl⟩ := textSize_eq_ok_iff.1 h
  exact Nat.add_le_add_left hle 2

theorem filterSize_le {filter : String} {n : Nat} (h : filterSize filter = .ok n) : n ≤ 65537 :=
  Field.textSize_le (filterSize_eq_ok_iff.1 h).2

namespace Arithmetic

/-- **Nothing is lost below the bound** in a word, below 65,536 in sixteen bits, and below 256 in a
byte. -/
structure Keeps (a : Arithmetic) (bound : Nat) : Prop where
  word : ∀ {n}, n < bound → a.word n = n
  half : ∀ {n}, n < 65536 → a.half n = n
  byte : ∀ {n}, n < 256 → a.byte n = n

theorem keeps_exact (bound : Nat) : exact.Keeps bound :=
  ⟨fun _ => rfl, fun _ => rfl, fun _ => rfl⟩

theorem keeps_wrapping (bits : Nat) : (wrapping bits).Keeps (2 ^ bits) := by
  rw [← Nat.one_shiftLeft]
  exact ⟨Nat.mod_eq_of_lt, Nat.mod_eq_of_lt, Nat.mod_eq_of_lt⟩

variable {a : Arithmetic} {bound : Nat}

theorem Keeps.add (h : a.Keeps bound) {m n : Nat} (hlt : m + n < bound) : a.add m n = m + n :=
  h.word hlt

/-! ### Sizes -/

section Sizes

variable (h : a.Keeps bound) (hbound : 268435460 < bound)
include h hbound

theorem textSize_eq (value : String) : a.textSize value = Field.textSize value := by
  rw [textSize, Field.textSize]
  split
  · rfl
  · next hle =>
    rw [Field.maxLength, Nat.not_lt] at hle
    rw [h.add (by omega)]

theorem binarySize_eq (value : Bytes) : a.binarySize value = Field.binarySize value := by
  rw [binarySize, Field.binarySize]
  split
  · rfl
  · next hle =>
    rw [Field.maxLength, Nat.not_lt] at hle
    rw [h.add (by omega)]

theorem size_eq (field : Field) : a.size field = field.size := by
  cases field with
  | text value => exact textSize_eq h hbound value
  | binary value => exact binarySize_eq h hbound value
  | byte | word | raw => rfl

theorem filterSize_eq (filter : String) : a.filterSize filter = MqttWire.filterSize filter := by
  rw [filterSize, MqttWire.filterSize, textSize_eq h hbound]

theorem connectLength_eq (c : Connect) : a.connectLength c = c.packet.remainingLength := by
  unfold connectLength Connect.packet Connect.payloadLength
  simp only [textSize_eq h hbound, binarySize_eq h hbound]
  -- whatever fields are there, five sizes at most are added, and each is bounded
  rcases c.will? with _ | ⟨topic, message⟩ <;> cases c.userName <;> cases c.password <;>
    simp only [bind_assoc, pure_bind] <;>
    iterate
      refine bind_congr_of_ok fun _ hsize => ?_
      simp only [Field.textSize_eq_ok_iff, Field.binarySize_eq_ok_iff, Field.maxLength] at hsize
  all_goals simp (disch := omega) only [h.add, Connect.fixedPartLength]

theorem filter_checkedAdd? (m n : Nat) :
    (a.checkedAdd? m n).filter (· ≤ RemainingLength.limit) =
      if m + n > RemainingLength.limit then none else some (m + n) := by
  rw [RemainingLength.limit, checkedAdd?]
  by_cases hlarge : m + n > 268435455
  · rw [if_pos hlarge]
    split
    · exact Option.filter_eq_none_iff.2 fun k hk => by
        cases hk
        simpa using hlarge
    · rfl
  · rw [if_neg hlarge, if_pos (h.word (by omega)), Option.filter_some,
      if_pos (by simpa using hlarge)]

theorem publishLength_eq (p : Publish) : a.publishLength p = p.remainingLength := by
  rw [publishLength, Publish.remainingLength, textSize_eq h hbound]
  refine bind_congr_of_ok fun topic htopic => ?_
  have hle := Field.textSize_le htopic
  have hsize : (if p.flags.qos.needsPacketId then a.add topic 2 else topic) =
      topic + (if p.flags.qos.needsPacketId then 2 else 0) := by
    split
    · exact h.add (by omega)
    · rfl
  dsimp only
  rw [hsize, filter_checkedAdd? h hbound]
  by_cases hlarge : topic + (if p.flags.qos.needsPacketId then 2 else 0) + p.message.length >
      RemainingLength.limit
  · rw [if_pos hlarge, if_pos hlarge]
    rfl
  · rw [if_neg hlarge, if_neg hlarge]

/-- Filters are counted alike as long as a sum of what eight of them take, and a byte more for each,
stays below the bound. -/
theorem foldlM_filterSize_eq {α : Type} {filter : α → String} {sum sum' : Nat → Nat → Nat}
    (hsum : ∀ size n, size + n + 1 < bound → sum size n = sum' size n)
    (hle : ∀ size n, sum' size n ≤ size + n + 1) (entries : List α) :
    ∀ size, size + entries.length * 65538 < bound →
      entries.foldlM (fun size entry => return sum size (← a.filterSize (filter entry))) size =
        (entries.foldlM (fun size entry => return sum' size (← MqttWire.filterSize (filter entry)))
          size : Except EncodeError Nat) := by
  induction entries with
  | nil => exact fun size _ => rfl
  | cons entry entries ih =>
    intro size hlt
    rw [List.length_cons, Nat.succ_mul] at hlt
    rw [List.foldlM_cons, List.foldlM_cons, bind_assoc, bind_assoc, filterSize_eq h hbound]
    refine bind_congr_of_ok fun n hn => ?_
    have hn := filterSize_le hn
    have hnext := hle size n
    rw [pure_bind, pure_bind, hsum size n (by omega)]
    exact ih _ (by omega)

theorem subscribeLength_eq {s : Subscribe} (hcount : s.subscriptions.length ≤ 8) :
    a.subscribeLength s = s.remainingLength := by
  refine foldlM_filterSize_eq h hbound (fun size n hlt => ?_) (fun size n => Nat.le_refl _)
    s.subscriptions 2 (by omega)
  have hfirst : a.add size n = size + n := h.add (Nat.lt_of_succ_lt hlt)
  rw [hfirst, h.add hlt]

theorem unsubscribeLength_eq {u : Unsubscribe} (hcount : u.filters.length ≤ 8) :
    a.unsubscribeLength u = u.remainingLength :=
  foldlM_filterSize_eq h hbound (fun size n hlt => h.add (Nat.lt_of_succ_lt hlt))
    (fun size n => Nat.le_succ _) u.filters 2 (by omega)

/-- **The bytes behind the fixed header are counted as they are,** once the content is legal: eight
filters at most are counted then. -/
theorem remainingLength_eq {request : Request} (hv : request.packet.validity = .ok ()) :
    a.remainingLength request = request.packet.remainingLength := by
  cases request with
  | connect c => exact connectLength_eq h hbound c
  | publish p => exact publishLength_eq h hbound p
  | subscribe s => exact subscribeLength_eq h hbound (checkCount_eq_ok_iff.1 hv).1
  | unsubscribe u => exact unsubscribeLength_eq h hbound (checkCount_eq_ok_iff.1 hv).1
  | acknowledge | pingReq | disconnect => rfl

theorem packetLength_eq (remaining : Nat) :
    a.packetLength remaining = FixedHeader.packetLength remaining := by
  refine bind_congr_of_ok fun count hcount => ?_
  have hle := RemainingLength.le_limit_of_width_eq_ok hcount
  have hcount := (RemainingLength.width_eq_ok_iff.1 hcount).1
  rw [RemainingLength.limit] at hle
  have hfirst : a.add 1 count = 1 + count := h.add (by omega)
  rw [hfirst, h.add (by omega)]

end Sizes

/-! ### Bytes -/

section Bytes

variable (h : a.Keeps bound)
include h

omit h in
theorem bigEndian_eq {n : Nat} (hn : n < 65536) :
    bigEndian n = (MqttWire.bigEndian n).map UInt8.toNat := by
  have hhigh : n / 256 < 2 ^ 8 := by omega
  simp only [bigEndian, MqttWire.bigEndian, List.map_cons, List.map_nil, UInt8.toNat_ofNat',
    Nat.mod_eq_of_lt hhigh]

theorem counted_eq {value : Bytes} (hle : value.length ≤ Field.maxLength) :
    a.counted value = (Field.counted value).map UInt8.toNat := by
  have hlt : value.length < 65536 := Nat.lt_succ_of_le hle
  rw [counted, Field.counted, h.half hlt, bigEndian_eq hlt, List.map_append]

/-- A field that is not too long goes to the wire as it is. -/
theorem bytes_eq {field : Field} (hfits : field.Fits) :
    a.bytes field = field.bytes.map UInt8.toNat := by
  cases field with
  | byte value => rfl
  | word value => exact bigEndian_eq value.toNat_lt
  | text value => exact counted_eq h (Field.fits_text.1 hfits)
  | binary value => exact counted_eq h (Field.fits_binary.1 hfits)
  | raw value => rfl

theorem publishFlags_eq (flags : PublishFlags) : a.publishFlags flags = flags.bits.toNat := by
  obtain ⟨duplicate, qos, retain⟩ := flags
  have hlevel : a.byte (qos.level.toNat <<< 1) = (qos.level <<< 1).toNat := by
    cases qos <;> exact h.byte (by decide)
  rw [publishFlags, hlevel]
  cases duplicate <;> cases qos <;> cases retain <;> rfl

theorem willQoS_eq (flags : ConnectFlags) (qos : QoS) :
    a.willQoS flags qos = (flags.willQoS qos).bits.toNat := by
  have hlevel : a.byte (qos.level.toNat <<< 3) = (qos.level <<< 3).toNat := by
    cases qos <;> exact h.byte (by decide)
  rw [willQoS, hlevel, ConnectFlags.willQoS, UInt8.toNat_or]

omit h in
theorem checkFlags_eq (type : ControlType) (flags : UInt8) :
    checkFlags type flags.toNat = type.checkFlags flags := by
  have hwide : flags.toNat > 15 ↔ flags > 15 := (@UInt8.lt_iff_toNat_lt 15 flags).symm
  have hthree : flags.toNat >>> 1 &&& 3 = 3 ↔ flags >>> 1 &&& 3 = 3 := by
    rw [← UInt8.toNat_inj, UInt8.toNat_and, UInt8.toNat_shiftRight]
    rfl
  unfold checkFlags ControlType.checkFlags
  cases type.requiredFlags with
  | some required => simp only [hwide, UInt8.toNat_inj]
  | none => simp only [hwide, hthree]

theorem firstByte_eq (type : ControlType) (flags : UInt8) : a.firstByte type flags.toNat =
    (FixedHeader.ofFlags type flags).map fun header => header.controlByte.toNat := by
  have hcode : a.byte (type.code.toNat <<< 4) = (type.code <<< 4).toNat := by
    cases type <;> exact h.byte (by decide)
  rw [firstByte, checkFlags_eq, hcode]
  cases hflags : type.checkFlags flags with
  | error e =>
    have hnone : FixedHeader.ofFlags type flags = .error e := by
      unfold FixedHeader.ofFlags
      split
      · next hok => rw [hok] at hflags; cases hflags
      · next he =>
        rw [he] at hflags
        cases hflags
        rfl
    rw [hnone]
    rfl
  | ok u =>
    rw [FixedHeader.ofFlags_of_checkFlags hflags]
    show Except.ok _ = Except.ok (type.code <<< 4 ||| flags).toNat
    rw [UInt8.toNat_or]

/-- The first byte of a packet is that of its fixed header. -/
theorem header_eq (request : Request) : a.header request =
    request.packet.header.map fun header => header.controlByte.toNat := by
  have hfirst := firstByte_eq h
  cases request with
  | connect c => exact hfirst .connect 0
  | publish p =>
    rw [header, publishFlags_eq h]
    exact hfirst .publish p.flags.bits
  | acknowledge k =>
    show header a _ = k.header.map _
    rw [header, Acknowledgement.header]
    cases k.type.requiredFlags with
    | some flags => exact hfirst k.type flags
    | none => rfl
  | subscribe s => exact hfirst .subscribe 2
  | unsubscribe u => exact hfirst .unsubscribe 2
  | pingReq => exact hfirst .pingReq 0
  | disconnect => exact hfirst .disconnect 0

theorem digits_eq (count n : Nat) :
    a.digits count n = (RemainingLength.digits count n).map UInt8.toNat := by
  induction count generalizing n with
  | zero => rfl
  | succ count ih =>
    have hdigit : n % 128 < 2 ^ 7 := Nat.mod_lt n (by decide)
    have hbyte : n % 128 < 2 ^ 8 := Nat.lt_of_lt_of_le hdigit (by decide)
    have hhigh : n % 128 + 128 < 2 ^ 8 := Nat.add_lt_add_right hdigit 128
    have hor : n % 128 ||| 128 = n % 128 + 128 := by
      rw [Nat.or_comm, Nat.add_comm]
      exact (Nat.two_pow_add_eq_or_of_lt hdigit 1).symm
    rw [digits, RemainingLength.digits, List.map_cons, ih, h.byte hbyte, hor, UInt8.toNat_ofNat']
    by_cases hlast : n / 128 = 0
    · rw [if_neg (Nat.not_lt.2 (Nat.le_of_eq hlast)), if_pos hlast, Nat.mod_eq_of_lt hbyte]
    · rw [if_pos (Nat.pos_of_ne_zero hlast), if_neg hlast, Nat.mod_eq_of_lt hhigh]

end Bytes

end Arithmetic

end MqttWire
