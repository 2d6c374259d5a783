import Mathlib.Data.List.Nodup
import MqttWire.Json.Written

/-!
# Reading values

What the readers of single values and of members make of them: a number in decimal is read exactly
as far as the limit allows, and the members under a key are read through their values only, and only
where there are not two of them.
-/

namespace MqttWire.Json

/-! ### Words -/

/-- The characters that mean something outside of texts. -/
def reserved : List Char := [' ', '\n', '\r', '\t', ',', '}', ']', '"', '{', '[']

/-- Any other characters stand for themselves. -/
theorem isWord_of_not_reserved {cs : List Char} (hne : cs ≠ []) (h : ∀ c ∈ cs, c ∉ reserved) :
    IsWord cs := by
  have hblank : ∀ c ∈ cs, isBlank c = false := fun c hc => by
    have hc := h c hc
    simp only [reserved, List.mem_cons, not_or] at hc
    simp [isBlank, hc]
  refine ⟨hne, fun c hc => ⟨hblank c (List.mem_of_mem_head? hc), fun hstart => ?_⟩,
    fun c hc => hblank c (List.mem_of_mem_getLast? hc), fun c hc => ?_⟩
  · refine h c (List.mem_of_mem_head? hc) ?_
    simp only [reserved, List.mem_cons] at hstart ⊢
    tauto
  · have hc := h c hc
    simp only [reserved, List.mem_cons, not_or] at hc
    simp [isDelimiter, hc]

theorem not_reserved_of_isDigit {c : Char} (h : c.isDigit = true) : c ∉ reserved := by
  have hreserved : (reserved.all fun d => !d.isDigit) = true := by decide
  intro hc
  have hdigit := List.all_eq_true.1 hreserved c hc
  rw [h] at hdigit
  cases hdigit

namespace Value

/-! ### Numbers -/

theorem le_ofDigitChars (digits : List Char) (n : Nat) : n ≤ Nat.ofDigitChars 10 digits n := by
  induction digits generalizing n with
  | nil => exact Nat.le_refl n
  | cons d digits ih =>
    rw [Nat.ofDigitChars_cons]
    have hmore := ih (10 * n + (d.toNat - '0'.toNat))
    omega

/-- Digits are read while the number stays below the limit, and it never shrinks. -/
theorem foldlM_appendDigit? {limit : Nat} {digits : List Char}
    (hdigits : ∀ d ∈ digits, d.isDigit = true) {n : Nat} (hn : n ≤ limit) :
    digits.foldlM (appendDigit? limit) n =
      if Nat.ofDigitChars 10 digits n ≤ limit then some (Nat.ofDigitChars 10 digits n)
      else none := by
  induction digits generalizing n with
  | nil => exact (if_pos hn).symm
  | cons d digits ih =>
    obtain ⟨hd, hdigits⟩ := List.forall_mem_cons.1 hdigits
    rw [List.foldlM_cons, Nat.ofDigitChars_cons, appendDigit?, hd, Bool.true_and]
    by_cases hlonger : 10 * n + (d.toNat - '0'.toNat) ≤ limit
    · rw [if_pos (decide_eq_true hlonger)]
      exact ih hdigits hlonger
    · have hle := le_ofDigitChars digits (10 * n + (d.toNat - '0'.toNat))
      rw [if_neg (by rw [decide_eq_true_eq]; exact hlonger), if_neg (by omega)]
      rfl

/-- A number above zero does not start with a zero. -/
theorem head?_toDigits_ne {n : Nat} (hn : 0 < n) : (Nat.toDigits 10 n).head? ≠ some '0' := by
  have hdigit : ∀ m < 10, 0 < m → [m.digitChar].head? ≠ some '0' := by decide
  induction n using Nat.strongRecOn with
  | _ n ih =>
    by_cases hlt : n < 10
    · rw [Nat.toDigits_of_lt_base hlt]
      exact hdigit n hlt hn
    · rw [Nat.toDigits_of_base_le (by decide) (by omega), List.head?_append_of_ne_nil _
        Nat.toDigits_ne_nil]
      exact ih (n / 10) (by omega) (by omega)

theorem isDigit_of_mem_toDigits {n : Nat} : ∀ d ∈ Nat.toDigits 10 n, d.isDigit = true :=
  fun _ hd => Nat.isDigit_of_mem_toDigits (by decide) (by decide) hd

theorem isWord_toDigits (n : Nat) : IsWord (Nat.toDigits 10 n) :=
  isWord_of_not_reserved Nat.toDigits_ne_nil fun d hd =>
    not_reserved_of_isDigit (isDigit_of_mem_toDigits d hd)

/-- **A number in decimal is read,** if it is within the limit. -/
theorem numeral?_toDigits (limit n : Nat) :
    numeral? limit (Nat.toDigits 10 n) = if n ≤ limit then some n else none := by
  rcases Nat.eq_zero_or_pos n with rfl | hn
  · rfl
  · have hread := foldlM_appendDigit? (isDigit_of_mem_toDigits (n := n)) (Nat.zero_le limit)
    rw [Nat.ofDigitChars_ten_toDigits] at hread
    have hhead := head?_toDigits_ne hn
    rw [← hread]
    unfold numeral?
    split
    · next hnil => exact absurd hnil Nat.toDigits_ne_nil
    · next hzero => rw [hzero] at hhead; exact absurd rfl hhead
    · next hzero => rw [hzero] at hhead; exact absurd rfl hhead
    · rfl

/-- A number in decimal. -/
def decimal (n : Nat) : Value := .word (String.ofList (Nat.toDigits 10 n))

theorem nat?_decimal (limit n : Nat) :
    nat? limit (.decimal n) = if n ≤ limit then some n else none := by
  rw [decimal, nat?, String.toList_ofList, numeral?_toDigits]

theorem exists_nat?_decimal {limit n : Nat} (h : n ≤ limit) :
    ∃ n', nat? limit (.decimal n) = some n' ∧ n' = n ∧ n ≤ limit :=
  ⟨n, by rw [nat?_decimal, if_pos h], rfl, h⟩

theorem bool?_toString (on : Bool) : bool? (.word (toString on)) = some on := by
  cases on <;> rfl

/-! ### Members -/

variable {α : Type} {read : Value → Option α} {values values' : List Value}

theorem under_cons (key : String) (m : String × Value) (members : List (String × Value)) :
    under key (m :: members) =
      if m.1 = key then m.2 :: under key members else under key members := by
  by_cases h : m.1 = key <;> simp [under, h]

theorem under_eq_nil {key : String} {members : List (String × Value)}
    (h : ∀ m ∈ members, m.1 ≠ key) : under key members = [] := by
  rw [under, List.filter_eq_nil_iff.2 fun m hm => by rw [beq_iff_eq]; exact h m hm, List.map_nil]

theorem mem_under_iff {key : String} {value : Value} {members : List (String × Value)} :
    value ∈ under key members ↔ (key, value) ∈ members := by
  simp only [under, List.mem_map, List.mem_filter, beq_iff_eq]
  constructor
  · rintro ⟨m, ⟨hm, rfl⟩, rfl⟩
    exact hm
  · exact fun hm => ⟨_, ⟨hm, rfl⟩, rfl⟩

/-- A value that must be there is read alone. -/
theorem required_eq_some_iff {a : α} :
    required read values = some a ↔ ∃ value, values = [value] ∧ read value = some a := by
  match values with
  | [] => simp [required]
  | [value] => simp [required]
  | _ :: _ :: _ => simp [required]

/-- A value that may be there is read alone, or is not there. -/
theorem optional_eq_some_iff {absent a : α} :
    optional absent read values = some a ↔
      values = [] ∧ absent = a ∨ ∃ value, values = [value] ∧ read value = some a := by
  match values with
  | [] => simp [optional]
  | [value] => simp [optional]
  | _ :: _ :: _ => simp [optional]

theorem read_of_optional {absent a : α} {value : Value} (h : optional absent read values = some a)
    (hvalue : value ∈ values) : read value = some a := by
  rcases optional_eq_some_iff.1 h with ⟨rfl, -⟩ | ⟨value', rfl, hread⟩
  · cases hvalue
  · exact List.mem_singleton.1 hvalue ▸ hread

theorem length_le_of_required {a : α} (h : required read values = some a) : values.length ≤ 1 := by
  obtain ⟨value, rfl, -⟩ := required_eq_some_iff.1 h
  exact Nat.le_refl 1

theorem length_le_of_optional {absent a : α} (h : optional absent read values = some a) :
    values.length ≤ 1 := by
  rcases optional_eq_some_iff.1 h with ⟨rfl, -⟩ | ⟨value, rfl, -⟩
  · exact Nat.zero_le 1
  · exact Nat.le_refl 1

/-- A value that is there might as well have been left out. -/
theorem required_eq_optional (h : values ≠ []) (absent : α) :
    required read values = optional absent read values := by
  match values, h with
  | [_], _ | _ :: _ :: _, _ => rfl

/-- Only what the values are read as matters. -/
theorem required_congr (h : values.map read = values'.map read) :
    required read values = required read values' := by
  match values, values', h with
  | [], [], _ => rfl
  | [_], [_], h => exact (List.cons.inj h).1
  | [_], _ :: _ :: _, h | _ :: _ :: _, [_], h => cases (List.cons.inj h).2
  | _ :: _ :: _, _ :: _ :: _, _ => rfl

theorem optional_congr {absent : α} (h : values.map read = values'.map read) :
    optional absent read values = optional absent read values' := by
  match values, values', h with
  | [], [], _ => rfl
  | [_], [_], h => exact (List.cons.inj h).1
  | [_], _ :: _ :: _, h | _ :: _ :: _, [_], h => cases (List.cons.inj h).2
  | _ :: _ :: _, _ :: _ :: _, _ => rfl

/-- Where no known key has two values, and all keys are known, no key is repeated. -/
theorem nodup_of_length_under_le {members : List (String × Value)} {known : List String}
    (hknown : ∀ m ∈ members, m.1 ∈ known) (h : ∀ key ∈ known, (under key members).length ≤ 1) :
    (members.map Prod.fst).Nodup := by
  rw [List.nodup_iff_count_le_one]
  intro key
  have hcount : (members.map Prod.fst).count key = (under key members).length := by
    rw [under, List.length_map, List.count_eq_length_filter, List.filter_map, List.length_map]
    rfl
  by_cases hkey : key ∈ members.map Prod.fst
  · obtain ⟨m, hm, rfl⟩ := List.mem_map.1 hkey
    exact hcount ▸ h m.1 (hknown m hm)
  · rw [List.count_eq_zero_of_not_mem hkey]
    exact Nat.zero_le 1

end Value

end MqttWire.Json
