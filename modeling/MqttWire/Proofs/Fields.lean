import MqttWire.Writer

/-!
# Rows of fields

A row of fields has a size if none of its fields is too long, and the size is then the number of its
bytes (`Field.totalSize_eq_ok_iff`).  The row is written part by part (`putAll_append`): as a whole
where it has a size and there is room (`putAll_eq_ok_iff`), and otherwise up to the first field that
cannot be written (`exists_of_putAll_eq_error`).  Checks stand in chains, among writing and before it,
and what a chain comes to is said link by link.
-/

namespace MqttWire

/-! ### Chains of checks -/

@[simp] theorem ok_bind {ε α β : Type} (a : α) (f : α → Except ε β) : Except.ok a >>= f = f a := rfl

/-- A chain of checks succeeds where one does after the other. -/
theorem bind_eq_ok_iff {ε α β : Type} {x : Except ε α} {f : α → Except ε β} {b : β} :
    x >>= f = .ok b ↔ ∃ a, x = .ok a ∧ f a = .ok b := by
  constructor
  · intro h
    cases x with
    | error e => cases h
    | ok a => exact ⟨a, rfl, h⟩
  · rintro ⟨a, rfl, h⟩
    exact h

section Check

variable {ε : Type} {p : Prop} [Decidable p] {e e' : ε}

/-- A check in front of others. -/
theorem check_eq_ok_iff {next : Unit → Except ε Unit} :
    (if p then throw e >>= next else next ()) = .ok () ↔ ¬ p ∧ next () = .ok () := by
  by_cases h : p
  · rw [if_pos h]
    exact ⟨nofun, fun hn => absurd h hn.1⟩
  · rw [if_neg h]
    exact ⟨fun hn => ⟨h, hn⟩, fun hn => hn.2⟩

/-- A check with none behind it. -/
theorem last_check_eq_ok_iff : (if p then throw e else pure () : Except ε Unit) = .ok () ↔ ¬ p := by
  by_cases h : p
  · rw [if_pos h]
    exact ⟨nofun, fun hn => absurd h hn⟩
  · rw [if_neg h]
    exact ⟨fun _ => h, fun _ => rfl⟩

theorem check_ne_error {α : Type} {next : Unit → Except ε α} (he : e ≠ e')
    (hn : next () ≠ .error e') : (if p then throw e >>= next else next ()) ≠ .error e' := by
  by_cases h : p
  · rw [if_pos h]
    intro hc
    cases hc
    exact he rfl
  · rw [if_neg h]
    exact hn

theorem last_check_ne_error (he : e ≠ e') :
    (if p then throw e else pure () : Except ε Unit) ≠ .error e' := by
  by_cases h : p
  · rw [if_pos h]
    intro hc
    cases hc
    exact he rfl
  · rw [if_neg h]
    exact nofun

end Check

/-- A chain of checks does not fail in a way that none of them does. -/
theorem bind_ne_error {ε α β : Type} {x : Except ε α} {f : α → Except ε β} {e : ε}
    (hx : x ≠ .error e) (hf : ∀ a, f a ≠ .error e) : x >>= f ≠ .error e := by
  cases x with
  | error e' =>
    intro h
    cases h
    exact hx rfl
  | ok a => exact hf a

/-- The same for a sum that is checked term by term. -/
theorem foldlM_ne_error {ε α β : Type} {f : β → α → Except ε β} {e : ε}
    (hf : ∀ b a, f b a ≠ .error e) : ∀ (as : List α) (b : β), as.foldlM f b ≠ .error e
  | [], b => nofun
  | a :: as, b => by
    rw [List.foldlM_cons]
    exact bind_ne_error (hf b a) (foldlM_ne_error hf as)

/-! ### Sizes -/

namespace Field

theorem textSize_eq_ok_iff {value : String} {n : Nat} :
    textSize value = .ok n ↔ value.utf8ByteSize ≤ maxLength ∧ n = 2 + value.utf8ByteSize := by
  unfold textSize
  split
  · next h => exact ⟨nofun, fun hn => by omega⟩
  · next h =>
    rw [Except.ok.injEq]
    exact ⟨fun hn => ⟨by omega, hn.symm⟩, fun hn => hn.2.symm⟩

theorem binarySize_eq_ok_iff {value : Bytes} {n : Nat} :
    binarySize value = .ok n ↔ value.length ≤ maxLength ∧ n = 2 + value.length := by
  unfold binarySize
  split
  · next h => exact ⟨nofun, fun hn => by omega⟩
  · next h =>
    rw [Except.ok.injEq]
    exact ⟨fun hn => ⟨by omega, hn.symm⟩, fun hn => hn.2.symm⟩

theorem binarySize_of_lt {value : Bytes} (h : maxLength < value.length) :
    binarySize value = .error (.violation .binaryTooLong) := by
  rw [binarySize, if_pos h]

theorem textSize_ne_bufferTooSmall (value : String) : textSize value ≠ .error .bufferTooSmall := by
  unfold textSize
  split <;> exact nofun

theorem binarySize_ne_bufferTooSmall (value : Bytes) :
    binarySize value ≠ .error .bufferTooSmall := by
  unfold binarySize
  split <;> exact nofun

theorem totalSize_nil : totalSize [] = pure 0 := rfl

theorem totalSize_cons (field : Field) (fields : List Field) :
    totalSize (field :: fields) = do return (← field.size) + (← totalSize fields) := rfl

theorem totalSize_cons_eq_ok_iff {field : Field} {fields : List Field} {n : Nat} :
    totalSize (field :: fields) = .ok n ↔
      ∃ m k, field.size = .ok m ∧ totalSize fields = .ok k ∧ m + k = n := by
  simp only [totalSize, bind_eq_ok_iff, pure, Except.pure, Except.ok.injEq]
  constructor
  · rintro ⟨m, hm, k, hk, rfl⟩
    exact ⟨m, k, hm, hk, rfl⟩
  · rintro ⟨m, k, hm, hk, rfl⟩
    exact ⟨m, hm, k, hk, rfl⟩

/-- The size of a row is the sum of the sizes of its parts. -/
theorem totalSize_append_eq_ok_iff {fields fields' : List Field} {n : Nat} :
    totalSize (fields ++ fields') = .ok n ↔
      ∃ m k, totalSize fields = .ok m ∧ totalSize fields' = .ok k ∧ m + k = n := by
  induction fields generalizing n with
  | nil =>
    constructor
    · intro h
      exact ⟨0, n, rfl, h, Nat.zero_add n⟩
    · rintro ⟨m, k, hm, hk, rfl⟩
      cases hm
      rw [Nat.zero_add]
      exact hk
  | cons field fields ih =>
    simp only [List.cons_append, totalSize_cons_eq_ok_iff, ih]
    constructor
    · rintro ⟨a, _, ha, ⟨m, k, hm, hk, rfl⟩, rfl⟩
      exact ⟨a + m, k, ⟨a, m, ha, hm, rfl⟩, hk, Nat.add_assoc a m k⟩
    · rintro ⟨_, k, ⟨a, m, ha, hm, rfl⟩, hk, rfl⟩
      exact ⟨a, m + k, ha, ⟨m, k, hm, hk, rfl⟩, (Nat.add_assoc a m k).symm⟩

/-- A field that is not too long. -/
def Fits (field : Field) : Prop := ∃ n, field.size = .ok n

theorem not_fits_of_size_eq_error {field : Field} {e : EncodeError} (h : field.size = .error e) :
    ¬ field.Fits := by
  rintro ⟨n, hn⟩
  rw [h] at hn
  cases hn

@[simp] theorem fits_byte (value : UInt8) : (byte value).Fits := ⟨1, rfl⟩

@[simp] theorem fits_word (value : UInt16) : (word value).Fits := ⟨2, rfl⟩

@[simp] theorem fits_raw (value : Bytes) : (raw value).Fits := ⟨value.length, rfl⟩

@[simp] theorem fits_text {value : String} :
    (text value).Fits ↔ value.utf8ByteSize ≤ maxLength :=
  ⟨fun ⟨_, h⟩ => (textSize_eq_ok_iff.1 h).1, fun h => ⟨_, textSize_eq_ok_iff.2 ⟨h, rfl⟩⟩⟩

@[simp] theorem fits_binary {value : Bytes} : (binary value).Fits ↔ value.length ≤ maxLength :=
  ⟨fun ⟨_, h⟩ => (binarySize_eq_ok_iff.1 h).1, fun h => ⟨_, binarySize_eq_ok_iff.2 ⟨h, rfl⟩⟩⟩

/-- A row of fields has a size if none of them is too long, and it is the number of its bytes. -/
theorem totalSize_eq_ok_iff {fields : List Field} {n : Nat} :
    totalSize fields = .ok n ↔
      (∀ field ∈ fields, field.Fits) ∧ (fields.flatMap bytes).length = n := by
  constructor
  · intro h
    refine ⟨?_, length_flatMap_bytes h⟩
    induction fields generalizing n with
    | nil => exact nofun
    | cons field fields ih =>
      obtain ⟨m, k, hm, hk, -⟩ := totalSize_cons_eq_ok_iff.1 h
      exact List.forall_mem_cons.2 ⟨⟨m, hm⟩, ih hk⟩
  · rintro ⟨h, rfl⟩
    induction fields with
    | nil => rfl
    | cons field fields ih =>
      obtain ⟨⟨m, hm⟩, hfields⟩ := List.forall_mem_cons.1 h
      refine totalSize_cons_eq_ok_iff.2 ⟨m, _, hm, ih hfields, ?_⟩
      rw [List.flatMap_cons, List.length_append, length_bytes hm]

theorem size_text_eq_error {value : String} {e : EncodeError} (h : (text value).size = .error e) :
    e = .violation .stringTooLong ∧ maxLength < value.utf8ByteSize := by
  rw [size, textSize] at h
  split at h
  · next hlong =>
    cases h
    exact ⟨rfl, hlong⟩
  · cases h

theorem size_binary_eq_error {value : Bytes} {e : EncodeError}
    (h : (binary value).size = .error e) :
    e = .violation .binaryTooLong ∧ maxLength < value.length := by
  rw [size, binarySize] at h
  split at h
  · next hlong =>
    cases h
    exact ⟨rfl, hlong⟩
  · cases h

/-- A row has no size because of one of its fields. -/
theorem exists_of_totalSize_eq_error {fields : List Field} {e : EncodeError}
    (h : totalSize fields = .error e) : ∃ field ∈ fields, field.size = .error e := by
  induction fields with
  | nil => cases h
  | cons field fields ih =>
    rw [totalSize] at h
    cases hf : field.size with
    | error e' =>
      rw [hf] at h
      cases h
      exact ⟨field, List.mem_cons_self, hf⟩
    | ok m =>
      cases ht : totalSize fields with
      | error e' =>
        rw [hf, ht] at h
        cases h
        obtain ⟨last, hlast, hsize⟩ := ih ht
        exact ⟨last, List.mem_cons_of_mem field hlast, hsize⟩
      | ok k =>
        rw [hf, ht] at h
        cases h

/-- A row of bounded fields is bounded by their number. -/
theorem totalSize_le {fields : List Field} {bound n : Nat}
    (hb : ∀ field ∈ fields, ∀ k, field.size = .ok k → k ≤ bound) (h : totalSize fields = .ok n) :
    n ≤ fields.length * bound := by
  induction fields generalizing n with
  | nil =>
    cases h
    exact Nat.zero_le _
  | cons field fields ih =>
    obtain ⟨hfield, hfields⟩ := List.forall_mem_cons.1 hb
    obtain ⟨m, k, hm, hk, rfl⟩ := totalSize_cons_eq_ok_iff.1 h
    have hmle := hfield m hm
    have hkle := ih hfields hk
    rw [List.length_cons, Nat.succ_mul]
    omega

end Field

/-! ### Writing -/

section Bind

variable {ε σ α β : Type} {action : EStateM ε σ α} {next : α → EStateM ε σ β} {s s' : σ}

/-- After an action that succeeds, the next one starts from what it leaves. -/
theorem bind_of_ok {a : α} (h : action s = .ok a s') : (action >>= next) s = next a s' := by
  simp only [bind, EStateM.bind, h]

/-- An action that fails ends what it stands in. -/
theorem bind_of_error {e : ε} (h : action s = .error e s') :
    (action >>= next) s = .error e s' := by
  simp only [bind, EStateM.bind, h]

end Bind

/-- A row is written by writing its parts. -/
theorem putAll_append (fields fields' : List Field) :
    putAll (fields ++ fields') = (do putAll fields; putAll fields') := by
  induction fields with
  | nil => simp [putAll]
  | cons field fields ih => simp [putAll, ih]

/-- A check that succeeds writes nothing. -/
@[simp] theorem lift_ok {α : Type} (a : α) :
    (liftM (Except.ok a : Except EncodeError α) : WriteM α) = pure a := rfl

/-- A check that fails leaves the writer as it is. -/
@[simp] theorem lift_error {α : Type} (e : EncodeError) :
    (liftM (Except.error e : Except EncodeError α) : WriteM α) = throw e := rfl

/-- A field is written where it is not too long and there is room for all of it. -/
theorem Field.put_eq_ok_iff {field : Field} {written rest : Bytes} {w : Writer} :
    field.put ⟨written ++ rest, written.length⟩ = .ok () w ↔
      field.Fits ∧ field.bytes.length ≤ rest.length ∧
        w = ⟨written ++ field.bytes ++ rest.drop field.bytes.length,
          (written ++ field.bytes).length⟩ := by
  cases hsize : field.size with
  | error e =>
    rw [put_of_size_eq_error hsize]
    refine ⟨nofun, ?_⟩
    rintro ⟨⟨n, hn⟩, -⟩
    rw [hsize] at hn
    cases hn
  | ok n =>
    have hfits : field.Fits := ⟨n, hsize⟩
    rw [put_of_size_eq_ok hsize]
    rcases Nat.lt_or_ge rest.length field.bytes.length with hlt | hle
    · rw [putBytes_of_lt (by rw [Writer.room_split]; exact hlt)]
      exact ⟨nofun, fun h => by omega⟩
    · rw [putBytes_of_le (by rw [Writer.room_split]; exact hle), Writer.append_split]
      constructor
      · intro h
        cases h
        exact ⟨hfits, hle, rfl⟩
      · rintro ⟨-, -, rfl⟩
        rfl

/-- A field that cannot be written leaves the writer as it is. -/
theorem Field.writer_of_put_eq_error {field : Field} {w w' : Writer} {e : EncodeError}
    (h : field.put w = .error e w') : w' = w := by
  cases hsize : field.size with
  | error e' =>
    rw [put_of_size_eq_error hsize] at h
    cases h
    rfl
  | ok n =>
    rw [put_of_size_eq_ok hsize] at h
    rcases Nat.lt_or_ge w.room field.bytes.length with hlt | hle
    · rw [putBytes_of_lt hlt] at h
      cases h
      rfl
    · rw [putBytes_of_le hle] at h
      cases h

/-- **A row is written** where none of its fields is too long and there is room for all of it. -/
theorem putAll_eq_ok_iff {row : List Field} {written rest : Bytes} {w : Writer} :
    putAll row ⟨written ++ rest, written.length⟩ = .ok () w ↔
      (∀ field ∈ row, field.Fits) ∧ (row.flatMap Field.bytes).length ≤ rest.length ∧
        w = ⟨written ++ row.flatMap Field.bytes ++ rest.drop (row.flatMap Field.bytes).length,
          (written ++ row.flatMap Field.bytes).length⟩ := by
  constructor
  · intro h
    induction row generalizing written rest with
    | nil =>
      cases h
      exact ⟨nofun, Nat.zero_le _, by simp⟩
    | cons field row ih =>
      cases hfield : field.put ⟨written ++ rest, written.length⟩ with
      | error e w' => rw [putAll, bind_of_error hfield] at h; cases h
      | ok u w' =>
        rw [putAll, bind_of_ok hfield] at h
        obtain ⟨hfits, hle, rfl⟩ := Field.put_eq_ok_iff.1 hfield
        obtain ⟨hrow, hroom, rfl⟩ := ih h
        rw [List.length_drop] at hroom
        rw [List.flatMap_cons, List.length_append]
        refine ⟨List.forall_mem_cons.2 ⟨hfits, hrow⟩, by omega, ?_⟩
        rw [List.drop_drop, List.append_assoc written]
  · rintro ⟨hfits, hle, rfl⟩
    rw [putAll_of_totalSize (Field.totalSize_eq_ok_iff.2 ⟨hfits, rfl⟩) hle, List.length_append]

/-- **A row that is not written** has a first field that is not, behind others that are. -/
theorem exists_of_putAll_eq_error {row : List Field} {w w' : Writer} {e : EncodeError}
    (h : putAll row w = .error e w') :
    ∃ before field after, row = before ++ field :: after ∧ putAll before w = .ok () w' ∧
      field.put w' = .error e w' := by
  induction row generalizing w with
  | nil => cases h
  | cons field row ih =>
    cases hfield : field.put w with
    | error e' w'' =>
      rw [putAll, bind_of_error hfield] at h
      cases h
      obtain rfl := Field.writer_of_put_eq_error hfield
      exact ⟨[], field, row, rfl, rfl, hfield⟩
    | ok u w'' =>
      rw [putAll, bind_of_ok hfield] at h
      obtain ⟨before, last, after, rfl, hbefore, hlast⟩ := ih h
      exact ⟨field :: before, last, after, rfl, by rw [putAll, bind_of_ok hfield, hbefore], hlast⟩

/-- What stands behind a field that cannot be written does not count. -/
theorem putAll_eq_error {before after : List Field} {field : Field} {w w' w'' : Writer}
    {e : EncodeError} (hbefore : putAll before w = .ok () w') (hfield : field.put w' = .error e w'') :
    putAll (before ++ field :: after) w = .error e w'' := by
  rw [putAll_append, bind_of_ok hbefore, putAll, bind_of_error hfield]

end MqttWire
