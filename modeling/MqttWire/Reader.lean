import MqttWire.Field

/-!
# Reading bytes

What writing puts into a buffer is read back from its front.  A `ReadM` reader takes bytes off the
front and gives a value, or fails; it never looks behind what it takes.

For each shape of field two lemmas tie the reader to the field's bytes: those bytes are read as the
field's value whatever follows them, and nothing else is read as it.
-/

namespace MqttWire

/-- **A reader** takes bytes off the front of its input, or fails. -/
abbrev ReadM : Type → Type := StateT Bytes Option

namespace ReadM

variable {α β : Type}

/-! ### Combining readers -/

@[simp] theorem pure_apply (a : α) (input : Bytes) :
    (pure a : ReadM α) input = some (a, input) := rfl

@[simp] theorem failure_apply (input : Bytes) : (failure : ReadM α) input = none := rfl

@[simp] theorem get_apply (input : Bytes) : (get : ReadM Bytes) input = some (input, input) := rfl

theorem bind_apply (reader : ReadM α) (next : α → ReadM β) (input : Bytes) :
    (reader >>= next) input = (reader input).bind fun r => next r.1 r.2 := rfl

/-- Both readers succeed where they succeed one after the other. -/
theorem bind_apply_eq_some_iff {reader : ReadM α} {next : α → ReadM β} {input rest : Bytes}
    {b : β} : (reader >>= next) input = some (b, rest) ↔
      ∃ a mid, reader input = some (a, mid) ∧ next a mid = some (b, rest) := by
  simp [bind_apply, Option.bind_eq_some_iff]

/-- Takes nothing, and succeeds where a condition holds. -/
theorem guard_apply_eq_some_iff {p : Prop} [Decidable p] {input rest : Bytes} {u : Unit} :
    (guard p : ReadM Unit) input = some (u, rest) ↔ p ∧ input = rest := by
  unfold guard
  split
  · next h => simp [h]
  · next h => simp [h]

/-- Reads what there is, if it is there. -/
def optional (present : Bool) (reader : ReadM α) : ReadM (Option α) :=
  if present then some <$> reader else pure none

/-- Reads to the end of the input, at most `limit` times. -/
def many (reader : ReadM α) : Nat → ReadM (List α)
  | 0 => do
    guard ((← get) = [])
    return []
  | limit + 1 => do
    if (← get) = [] then return []
    return (← reader) :: (← many reader limit)

/-- The value of an input that a reader takes as a whole. -/
def whole? (reader : ReadM α) (input : Bytes) : Option α :=
  match reader input with
  | some (a, []) => some a
  | _ => none

theorem whole?_eq_some_iff {reader : ReadM α} {input : Bytes} {a : α} :
    reader.whole? input = some a ↔ reader input = some (a, []) := by
  unfold whole?
  split
  · next h => simp [h]
  · next h => exact ⟨nofun, fun ha => absurd ha (h a)⟩

end ReadM

/-! ### Bytes and words -/

def readByte : ReadM UInt8 := fun input =>
  match input with
  | [] => none
  | byte :: rest => some (byte, rest)

/-- Reads a given number of bytes. -/
def readBytes (n : Nat) : ReadM Bytes := fun input =>
  if input.length < n then none else some (input.take n, input.drop n)

/-- Reads all that is left. -/
def readRest : ReadM Bytes := fun input => some (input, [])

/-- Reads a word, high byte first. -/
def readWord : ReadM UInt16 := do
  let high ← readByte
  let low ← readByte
  return UInt16.ofNat (ofBigEndian high low)

theorem readByte_eq_some_iff {input rest : Bytes} {byte : UInt8} :
    readByte input = some (byte, rest) ↔ input = byte :: rest := by
  cases input <;> simp [readByte]

theorem readBytes_eq_some_iff {n : Nat} {input bytes rest : Bytes} :
    readBytes n input = some (bytes, rest) ↔ input = bytes ++ rest ∧ bytes.length = n := by
  unfold readBytes
  constructor
  · intro h
    split at h
    · cases h
    · cases h
      refine ⟨(List.take_append_drop n input).symm, ?_⟩
      rw [List.length_take]
      omega
  · rintro ⟨rfl, rfl⟩
    simp

theorem readRest_eq_some_iff {input bytes rest : Bytes} :
    readRest input = some (bytes, rest) ↔ input = bytes ∧ rest = [] := by
  simp [readRest, eq_comm]

theorem readWord_eq_some_iff {input rest : Bytes} {word : UInt16} :
    readWord input = some (word, rest) ↔ input = bigEndian word.toNat ++ rest := by
  have hw := word.toNat_lt
  simp only [readWord, ReadM.bind_apply_eq_some_iff, readByte_eq_some_iff, ReadM.pure_apply,
    Option.some.injEq, Prod.mk.injEq]
  constructor
  · rintro ⟨high, _, rfl, low, _, rfl, rfl, rfl⟩
    have := ofBigEndian_lt high low
    rw [UInt16.toNat_ofNat', Nat.mod_eq_of_lt this, bigEndian_ofBigEndian]
    rfl
  · rintro rfl
    refine ⟨_, _, rfl, _, _, rfl, ?_, rfl⟩
    rw [ofBigEndian_bigEndian hw, UInt16.ofNat_toNat]

/-! ### Texts and binary values -/

/-- Reads a binary value behind its length. -/
def readBinary : ReadM Bytes := do
  readBytes (← readWord).toNat

/-- Reads a text behind its length. -/
def readText : ReadM String := do
  match ofUtf8? (← readBinary) with
  | some text => return text
  | none => failure

theorem readBinary_eq_some_iff {input rest : Bytes} {value : Bytes} :
    readBinary input = some (value, rest) ↔
      input = Field.counted value ++ rest ∧ value.length ≤ Field.maxLength := by
  simp only [readBinary, ReadM.bind_apply_eq_some_iff, readWord_eq_some_iff,
    readBytes_eq_some_iff, Field.counted, Field.maxLength]
  constructor
  · rintro ⟨word, _, rfl, rfl, h⟩
    have := word.toNat_lt
    rw [h]
    exact ⟨by rw [List.append_assoc], by omega⟩
  · rintro ⟨rfl, h⟩
    have hw : (UInt16.ofNat value.length).toNat = value.length := by
      rw [UInt16.toNat_ofNat']
      omega
    exact ⟨UInt16.ofNat value.length, _, by rw [hw, List.append_assoc], rfl, hw.symm⟩

theorem readText_eq_some_iff {input rest : Bytes} {text : String} :
    readText input = some (text, rest) ↔
      input = Field.counted (utf8 text) ++ rest ∧ text.utf8ByteSize ≤ Field.maxLength := by
  simp only [readText, ReadM.bind_apply_eq_some_iff, readBinary_eq_some_iff]
  constructor
  · rintro ⟨value, mid, ⟨rfl, hv⟩, h⟩
    cases ht : ofUtf8? value with
    | none => rw [ht] at h; cases h
    | some found =>
      rw [ht] at h
      cases h
      obtain rfl := ofUtf8?_eq_some_iff.1 ht
      exact ⟨rfl, hv⟩
  · rintro ⟨rfl, h⟩
    exact ⟨_, _, ⟨rfl, h⟩, by rw [ofUtf8?_utf8]; rfl⟩

end MqttWire
