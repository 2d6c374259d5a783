import Mathlib.Data.Option.Basic
import MqttWire.Proofs.Fields
import MqttWire.Reader

/-!
# What a reader takes

`ReadM.Takes` says of a reader which values it can find, and which bytes each of them is read from,
whatever follows.  A reader of this kind undoes writing and accepts nothing else.  The readers of
fields are such readers, and so are an optional one and the repetition of one.
-/

namespace MqttWire

namespace ReadM

variable {α β : Type}

/-- **The reader takes the bytes of legal values,** whatever follows, and nothing else. -/
def Takes (reader : ReadM α) (legal : α → Prop) (bytes : α → Bytes) : Prop :=
  ∀ (input : Bytes) (a : α) (rest : Bytes),
    reader input = some (a, rest) ↔ legal a ∧ input = bytes a ++ rest

variable {reader : ReadM α} {legal : α → Prop} {bytes : α → Bytes}

theorem map_apply_eq_some_iff {f : α → β} {input rest : Bytes} {b : β} :
    (f <$> reader) input = some (b, rest) ↔ ∃ a, reader input = some (a, rest) ∧ f a = b := by
  rw [map_eq_pure_bind, bind_apply_eq_some_iff]
  constructor
  · rintro ⟨a, _, ha, h⟩
    cases h
    exact ⟨a, ha, rfl⟩
  · rintro ⟨a, ha, rfl⟩
    exact ⟨a, rest, ha, rfl⟩

/-- An optional value takes its bytes where it is there, and otherwise none. -/
theorem Takes.optional (h : reader.Takes legal bytes) (present : Bool) :
    (optional present reader).Takes (fun o => o.isSome = present ∧ ∀ a ∈ o, legal a)
      fun o => o.toList.flatMap bytes := by
  intro input o rest
  cases present with
  | false =>
    simp only [ReadM.optional]
    constructor
    · intro ho
      cases ho
      exact ⟨⟨rfl, nofun⟩, rfl⟩
    · rintro ⟨⟨ho, -⟩, hi⟩
      cases o with
      | none => rw [hi]; rfl
      | some a => cases ho
  | true =>
    simp only [ReadM.optional, if_true, map_apply_eq_some_iff, h input]
    constructor
    · rintro ⟨a, ⟨ha, rfl⟩, rfl⟩
      exact ⟨⟨rfl, fun b hb => by cases hb; exact ha⟩, by simp⟩
    · rintro ⟨⟨ho, ha⟩, rfl⟩
      cases o with
      | none => cases ho
      | some a => exact ⟨a, ⟨ha a rfl, by simp⟩, rfl⟩

theorem many_zero_eq_some_iff {input rest : Bytes} {as : List α} :
    many reader 0 input = some (as, rest) ↔ input = [] ∧ as = [] ∧ rest = [] := by
  simp only [many, bind_apply_eq_some_iff, get_apply, guard_apply_eq_some_iff, pure_apply,
    Option.some.injEq, Prod.mk.injEq]
  constructor
  · rintro ⟨_, _, ⟨rfl, rfl⟩, _, _, ⟨rfl, rfl⟩, rfl, rfl⟩
    exact ⟨rfl, rfl, rfl⟩
  · rintro ⟨rfl, rfl, rfl⟩
    exact ⟨_, _, ⟨rfl, rfl⟩, (), _, ⟨rfl, rfl⟩, rfl, rfl⟩

theorem many_succ_nil (limit : Nat) : many reader (limit + 1) [] = some ([], []) := rfl

theorem many_succ_eq_some_iff {limit : Nat} {input rest : Bytes} {as : List α} (hi : input ≠ []) :
    many reader (limit + 1) input = some (as, rest) ↔ ∃ a mid as', reader input = some (a, mid) ∧
      many reader limit mid = some (as', rest) ∧ a :: as' = as := by
  rw [many, bind_apply, get_apply, Option.bind_some, if_neg hi]
  simp only [bind_apply_eq_some_iff, pure_apply, Option.some.injEq, Prod.mk.injEq]
  constructor
  · rintro ⟨a, mid, ha, as', _, has, rfl, rfl⟩
    exact ⟨a, mid, as', ha, has, rfl⟩
  · rintro ⟨a, mid, as', ha, has, rfl⟩
    exact ⟨a, mid, ha, as', _, has, rfl, rfl⟩

/-- A repeated reader takes a row of legal values to the end of the input. -/
theorem Takes.many_eq_some_iff (h : reader.Takes legal bytes) (hne : ∀ a, legal a → bytes a ≠ []) :
    ∀ {limit : Nat} {input rest : Bytes} {as : List α},
      many reader limit input = some (as, rest) ↔
        as.length ≤ limit ∧ (∀ a ∈ as, legal a) ∧ input = as.flatMap bytes ∧ rest = []
  | 0, input, rest, as => by
    rw [many_zero_eq_some_iff]
    constructor
    · rintro ⟨rfl, rfl, rfl⟩
      exact ⟨Nat.le_refl 0, nofun, rfl, rfl⟩
    · rintro ⟨hl, -, rfl, rfl⟩
      obtain rfl := List.length_eq_zero_iff.1 (Nat.le_zero.1 hl)
      exact ⟨rfl, rfl, rfl⟩
  | limit + 1, input, rest, as => by
    by_cases hi : input = []
    · subst hi
      rw [many_succ_nil]
      constructor
      · intro hs
        cases hs
        exact ⟨Nat.zero_le _, nofun, rfl, rfl⟩
      · rintro ⟨-, ha, hb, rfl⟩
        cases as with
        | nil => rfl
        | cons a as =>
          -- no legal value is read from nothing
          have hnil := (List.append_eq_nil_iff.1 hb.symm).1
          exact absurd hnil (hne a (ha a List.mem_cons_self))
    · rw [many_succ_eq_some_iff hi]
      constructor
      · rintro ⟨a, mid, as', ha, has, rfl⟩
        obtain ⟨hl, hlegal, rfl, rfl⟩ := (h.many_eq_some_iff hne).1 has
        obtain ⟨hla, rfl⟩ := (h _ _ _).1 ha
        exact ⟨Nat.succ_le_succ hl, List.forall_mem_cons.2 ⟨hla, hlegal⟩, rfl, rfl⟩
      · rintro ⟨hl, hlegal, rfl, rfl⟩
        cases as with
        | nil => exact absurd rfl hi
        | cons a as =>
          obtain ⟨hla, hlegal⟩ := List.forall_mem_cons.1 hlegal
          exact ⟨a, _, as, (h _ _ _).2 ⟨hla, List.flatMap_cons⟩,
            (h.many_eq_some_iff hne).2 ⟨Nat.le_of_succ_le_succ hl, hlegal, rfl, rfl⟩, rfl⟩

/-- Values that take a byte or more are not more than the bytes they take. -/
theorem length_le_length_flatMap : ∀ {as : List α}, (∀ a ∈ as, bytes a ≠ []) →
    as.length ≤ (as.flatMap bytes).length
  | [], _ => Nat.le_refl 0
  | a :: as, h => by
    obtain ⟨ha, has⟩ := List.forall_mem_cons.1 h
    have hpos := List.length_pos_iff.2 ha
    have ih := length_le_length_flatMap has
    rw [List.flatMap_cons, List.length_append, List.length_cons]
    omega

/-- As many repetitions as there are bytes are enough. -/
theorem Takes.many_length_eq_some_iff (h : reader.Takes legal bytes)
    (hne : ∀ a, legal a → bytes a ≠ []) {input rest : Bytes} {as : List α} :
    many reader input.length input = some (as, rest) ↔
      (∀ a ∈ as, legal a) ∧ input = as.flatMap bytes ∧ rest = [] := by
  rw [h.many_eq_some_iff hne, and_iff_right_of_imp]
  rintro ⟨has, rfl, -⟩
  exact length_le_length_flatMap fun a ha => hne a (has a ha)

end ReadM

/-! ### Fields -/

theorem takes_readWord : readWord.Takes (fun _ => True) fun word => bigEndian word.toNat :=
  fun _ _ _ => by rw [readWord_eq_some_iff]; simp

theorem takes_readText : readText.Takes (fun text => text.utf8ByteSize ≤ Field.maxLength)
    fun text => Field.counted (utf8 text) := fun _ _ _ => by
  rw [readText_eq_some_iff, and_comm]

theorem takes_readBinary : readBinary.Takes (fun value => value.length ≤ Field.maxLength)
    Field.counted := fun _ _ _ => by
  rw [readBinary_eq_some_iff, and_comm]

end MqttWire
