import MqttWire.Json.Standard
import MqttWire.Proofs.Document
import MqttWire.Proofs.Values

/-!
# Standard values are written

Every value of the standard form is one that is read (`Standard.exists_written`): its texts end
where the reader thinks they do, none of the characters of a number ends a word, and the commas of
an array stand where they may.
-/

namespace MqttWire.Json

/-! ### Texts -/

theorem closed_plain {c : Char} {cs : List Char} (hquote : c ≠ '"') (hescape : c ≠ '\\')
    (h : Closed false cs) : Closed false (c :: cs) := by
  refine ⟨fun hc => absurd hc hquote, ?_⟩
  rw [beq_false_of_ne hescape]
  exact h

theorem closed_escape {c : Char} {cs : List Char} (h : Closed false cs) :
    Closed false ('\\' :: c :: cs) := by
  refine ⟨fun hc => absurd hc (by decide), fun _ => rfl, ?_⟩
  show Closed (c == '\\' && false) cs
  rw [Bool.and_false]
  exact h

theorem ne_of_mem_hexDigits {x : Char} (h : x ∈ hexDigits) : x ≠ '"' ∧ x ≠ '\\' := by
  have hhex : (hexDigits.all fun x => x != '"' && x != '\\') = true := by decide
  simpa using List.all_eq_true.1 hhex x h

theorem StandardText.quotable {cs : List Char} (h : StandardText cs) : Quotable cs := by
  rw [quotable_iff_closed]
  induction h with
  | nil => rfl
  | plain _ hquote hescape _ ih => exact closed_plain hquote hescape ih
  | escape _ _ ih => exact closed_escape ih
  | code hcode _ ih =>
    simp only [List.forall_mem_cons] at hcode
    obtain ⟨ha, hb, hc, hd, -⟩ := hcode
    have hplain {x : Char} (hx : x ∈ hexDigits) {cs : List Char} (h : Closed false cs) :
        Closed false (x :: cs) :=
      closed_plain (ne_of_mem_hexDigits hx).1 (ne_of_mem_hexDigits hx).2 h
    exact closed_escape (hplain ha (hplain hb (hplain hc (hplain hd ih))))

/-! ### Numbers -/

theorem Digits.not_reserved (ds : Digits) : ∀ d ∈ ds.1, d ∉ reserved :=
  fun d hd => not_reserved_of_isDigit (ds.2.2 d hd)

theorem Exponent.not_reserved (e : Exponent) : ∀ c ∈ e.chars, c ∉ reserved := by
  obtain ⟨upper, sign, digits⟩ := e
  simp only [chars, List.forall_mem_cons, List.forall_mem_append]
  refine ⟨?_, ?_, digits.not_reserved⟩
  · split <;> decide
  · rcases sign with _ | minus
    · exact List.forall_mem_nil _
    · rw [List.forall_mem_singleton]
      split <;> decide

theorem Number.not_reserved (n : Number) : ∀ c ∈ n.chars, c ∉ reserved := by
  obtain ⟨minus, whole, -, fraction, exponent⟩ := n
  simp only [chars, List.forall_mem_append]
  refine ⟨?_, whole.not_reserved, ?_, ?_⟩
  · split
    · exact List.forall_mem_singleton.2 (by decide)
    · exact List.forall_mem_nil _
  · rcases fraction with _ | digits
    · exact List.forall_mem_nil _
    · exact List.forall_mem_cons.2 ⟨by decide, digits.not_reserved⟩
  · rcases exponent with _ | e
    · exact List.forall_mem_nil _
    · exact e.not_reserved

theorem Number.isWord (n : Number) : IsWord n.chars := by
  refine isWord_of_not_reserved (fun hnil => n.whole.2.1 ?_) n.not_reserved
  exact (List.append_eq_nil_iff.1 (List.append_eq_nil_iff.1 hnil).2).1

/-! ### Values -/

/-- A comma before every item is always enough. -/
theorem commas_of_forall {items : List (Item × Value)} (h : ∀ i ∈ items, i.1.comma = true)
    (bare afterWord : Bool) : Commas bare afterWord items := by
  induction items generalizing bare afterWord with
  | nil => trivial
  | cons i items ih =>
    obtain ⟨hi, hitems⟩ := List.forall_mem_cons.1 h
    exact ⟨fun hcomma => absurd (hi.symm.trans hcomma) (by decide), ih hitems _ _⟩

/-- An array with a comma between any two items. -/
theorem written_array (inner : Blanks) {items : List Spaced} {value : Spaced → Value}
    (h : ∀ i ∈ items, Written i.value (value i)) :
    Written ('[' :: (inner ++ (commaSeparated (items.map Spaced.chars) ++ [']'])))
      (.array (items.map value)) := by
  cases items with
  | nil => exact @Written.array inner [] trivial (List.forall_mem_nil _)
  | cons i items =>
    obtain ⟨hi, hitems⟩ := List.forall_mem_cons.1 h
    have hwritten := @Written.array inner
      ((⟨false, i⟩, value i) :: items.map fun i => (⟨true, i⟩, value i))
      ⟨fun _ => ⟨rfl, rfl⟩, commas_of_forall (List.forall_mem_map.2 fun _ _ => rfl) _ _⟩
      (List.forall_mem_cons.2 ⟨hi, List.forall_mem_map.2 hitems⟩)
    simpa [commaSeparated, Item.chars, List.flatMap_map, Function.comp_def] using hwritten

/-- **A standard value is one that is read.** -/
theorem Standard.exists_written {cs : List Char} (h : Standard cs) : ∃ value, Written cs value := by
  have : Nonempty Value := ⟨.word "null"⟩
  induction h with
  | text h => exact ⟨_, .text h.quotable⟩
  | number n => exact ⟨_, .word n.isWord⟩
  | @literal word h =>
    have hword : ∀ word ∈ ["true", "false", "null"], IsWord word.toList := by decide
    exact ⟨_, .word (hword word h)⟩
  | array inner _ ih =>
    choose! value hvalue using ih
    exact ⟨_, written_array inner hvalue⟩
  | object o hkeys _ ih =>
    choose! value hvalue using ih
    have hwritten := @Written.object o.inner (o.entries.map fun e => (e, value e))
      (List.forall_mem_map.2 fun e he => (hkeys e he).quotable) (List.forall_mem_map.2 hvalue)
    rw [List.map_map] at hwritten
    exact ⟨_, by simpa [Function.comp_def] using hwritten⟩

theorem Entry.IsStandard.isWritten {e : Entry} (h : e.IsStandard) : e.IsWritten :=
  ⟨h.key.quotable, h.value.exists_written⟩

end MqttWire.Json
