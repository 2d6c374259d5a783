import Mathlib.Algebra.Order.BigOperators.Group.List
import Mathlib.Algebra.Order.Group.Nat
import MqttWire.Proofs.Rows
import MqttWire.Proofs.Verdict.Basic

/-!
# The verdict on subscribe and unsubscribe requests

Both kinds of request name topic filters and are checked alike: first the number of the filters, and
then filter by filter, so that of several bad ones the first is reported.  They differ in what is
counted with each filter, which for a subscribe request is one byte more
(`Request.encodedLength_subscribe_unsubscribe`).
-/

namespace MqttWire

/-! ### What is checked, and what is counted -/

/-- A topic filter must not be empty, nor too long. -/
def Check.filter (filter : String) : List Check := [⟨filter = "", .emptyTopic⟩, .text filter]

/-- **What is checked of a row of topic filters:** that there are one to eight, and then each of
them in the order given. -/
def filterChecks (filters : List String) : List Check :=
  [⟨filters = [], .noTopics⟩, ⟨8 < filters.length, .tooManyTopics⟩] ++ filters.flatMap Check.filter

/-- **How much follows the fixed header:** an identifier, and each filter with its length and so
many bytes more. -/
def filtersSize (more : Nat) (filters : List String) : Nat :=
  2 + (filters.map fun filter => 2 + filter.utf8ByteSize + more).sum

theorem checkCount_eq_verdict (filters : List String) : checkCount filters.length =
    verdict [⟨filters = [], .noTopics⟩, ⟨8 < filters.length, .tooManyTopics⟩] (.ok ()) := by
  rw [checkCount, maxTopics, verdict_cons, verdict_cons, verdict_nil]
  by_cases hempty : filters = []
  · simp [hempty]
  · by_cases hmany : filters.length ≤ 8
    · simp [hempty, hmany]
    · simp [hempty, hmany, Nat.not_le.1 hmany]

theorem filterSize_eq_verdict (filter : String) :
    filterSize filter = verdict (Check.filter filter) (.ok (2 + filter.utf8ByteSize)) := by
  rw [filterSize, Check.filter, verdict_cons, Field.textSize_eq_verdict]
  simp

theorem Subscribe.remainingLength_eq_verdict (s : Subscribe) :
    s.remainingLength = verdict ((s.subscriptions.map Subscription.filter).flatMap Check.filter)
      (.ok (filtersSize 1 (s.subscriptions.map Subscription.filter))) := by
  have hstep (size : Nat) (entry : Subscription) :
      (do return size + (← filterSize entry.filter) + 1 : Except EncodeError Nat) =
        verdict (Check.filter entry.filter) (.ok (size + (2 + entry.filter.utf8ByteSize + 1))) := by
    rw [filterSize_eq_verdict, verdict_bind]
    rfl
  rw [List.flatMap_map, filtersSize, List.map_map]
  exact foldlM_eq_verdict hstep s.subscriptions 2

theorem Unsubscribe.remainingLength_eq_verdict (u : Unsubscribe) : u.remainingLength =
    verdict (u.filters.flatMap Check.filter) (.ok (filtersSize 0 u.filters)) := by
  have hstep (size : Nat) (filter : String) :
      (do return size + (← filterSize filter) : Except EncodeError Nat) =
        verdict (Check.filter filter) (.ok (size + (2 + filter.utf8ByteSize + 0))) := by
    rw [filterSize_eq_verdict, verdict_bind]
    rfl
  exact foldlM_eq_verdict hstep u.filters 2

theorem Subscribe.encodedLength_eq_verdict (s : Subscribe) :
    s.packet.encodedLength = verdict (filterChecks (s.subscriptions.map Subscription.filter))
      (FixedHeader.packetLength (filtersSize 1 (s.subscriptions.map Subscription.filter))) := by
  have hcount : checkCount s.subscriptions.length =
      checkCount (s.subscriptions.map Subscription.filter).length := by rw [List.length_map]
  have hheader : s.packet.header = .ok ⟨.subscribe, 2, rfl⟩ := rfl
  exact Packet.encodedLength_eq_verdict (hcount.trans (checkCount_eq_verdict _)) hheader
    fun _ => s.remainingLength_eq_verdict

theorem Unsubscribe.encodedLength_eq_verdict (u : Unsubscribe) : u.packet.encodedLength =
    verdict (filterChecks u.filters) (FixedHeader.packetLength (filtersSize 0 u.filters)) := by
  have hheader : u.packet.header = .ok ⟨.unsubscribe, 2, rfl⟩ := rfl
  exact Packet.encodedLength_eq_verdict (checkCount_eq_verdict _) hheader
    fun _ => u.remainingLength_eq_verdict

/-- Eight filters at most are counted, and each is bounded. -/
theorem filtersSize_le {more : Nat} {filters : List String}
    (h : firstBroken? (filterChecks filters) = none) :
    filtersSize more filters ≤ 2 + 8 * (65537 + more) := by
  have hchecks := firstBroken?_eq_none_iff.1 h
  have hcount : filters.length ≤ 8 := by
    have hmany := hchecks ⟨8 < filters.length, .tooManyTopics⟩ (by simp [filterChecks])
    simpa using hmany
  have hlong (filter : String) (hf : filter ∈ filters) : filter.utf8ByteSize ≤ 65535 := by
    have htext := hchecks (.text filter)
      (List.mem_append_right _ (List.mem_flatMap.2 ⟨filter, hf, by simp [Check.filter]⟩))
    simpa [Check.text] using htext
  have hsum : (filters.map fun filter => 2 + filter.utf8ByteSize + more).sum ≤
      filters.length * (65537 + more) := by
    have hbound := List.sum_le_card_nsmul (filters.map fun filter => 2 + filter.utf8ByteSize + more)
      (65537 + more) fun n hn => by
        obtain ⟨filter, hf, rfl⟩ := List.mem_map.1 hn
        have hle := hlong filter hf
        omega
    rwa [List.length_map, Nat.nsmul_eq_mul] at hbound
  calc filtersSize more filters ≤ 2 + filters.length * (65537 + more) :=
        Nat.add_le_add_left hsum 2
    _ ≤ 2 + 8 * (65537 + more) := Nat.add_le_add_left (Nat.mul_le_mul_right _ hcount) 2

/-! ### The verdict -/

section Filters

variable {more : Nat} {filters : List String} {length : Except EncodeError Nat}

/-- What the verdict on filters comes to, with a byte more for each or without. -/
theorem judged_of_filters (hmore : more ≤ 1) (h : length = verdict (filterChecks filters)
      (FixedHeader.packetLength (filtersSize more filters))) :
    Judged (filterChecks filters) (filtersSize more filters) length ∧
    length ≠ .error (.violation .invalidFlags) ∧
    length ≠ .error (.violation .remainingLengthTooLarge) ∧
    ∀ n, length = .ok n → n ≤ 524302 + 8 * more := by
  have hjudged : Judged (filterChecks filters) (filtersSize more filters) length :=
    .of_verdict h fun hsound => by
      have hle : filtersSize more filters ≤ 2 + 8 * (65537 + more) := filtersSize_le hsound
      unfold RemainingLength.limit
      omega
  have hrules : ∀ check ∈ filterChecks filters, check.rule ≠ .invalidFlags ∧
      check.rule ≠ .remainingLengthTooLarge := by
    rw [filterChecks, List.forall_mem_append, List.forall_mem_flatMap]
    simp [Check.filter, Check.text]
  refine ⟨hjudged, hjudged.ne_error fun check hc => (hrules check hc).1,
    hjudged.ne_error fun check hc => (hrules check hc).2, fun n hn => ?_⟩
  have hle := hjudged.le_of_le hn (filtersSize_le (hjudged.firstBroken?_eq_none hn)) (by omega)
  omega

end Filters

namespace Request

/-- **The length of a subscribe or unsubscribe request** is refused for the number of its filters,
or for the first of them that is empty or too long, and otherwise counted.  No other rule is ever
reported, and a length is at most 524,310 or 524,302. -/
theorem encodedLength_subscribe_unsubscribe (packetId : UInt16) :
    (∀ entries : List Subscription,
      let filters := entries.map Subscription.filter
      let length := (subscribe ⟨packetId, entries⟩).encodedLength
      Judged (filterChecks filters) (filtersSize 1 filters) length ∧
      length ≠ .error (.violation .invalidFlags) ∧
      length ≠ .error (.violation .remainingLengthTooLarge) ∧
      ∀ n, length = .ok n → n ≤ 524310) ∧
    ∀ filters : List String,
      let length := (unsubscribe ⟨packetId, filters⟩).encodedLength
      Judged (filterChecks filters) (filtersSize 0 filters) length ∧
      length ≠ .error (.violation .invalidFlags) ∧
      length ≠ .error (.violation .remainingLengthTooLarge) ∧
      ∀ n, length = .ok n → n ≤ 524302 := by
  refine ⟨fun entries => judged_of_filters (Nat.le_refl 1) ?_,
    fun filters => judged_of_filters (Nat.zero_le 1) ?_⟩
  · exact Subscribe.encodedLength_eq_verdict ⟨packetId, entries⟩
  · exact Unsubscribe.encodedLength_eq_verdict ⟨packetId, filters⟩

/-- A long filter in front of an empty one, nine filters, and one filter with a byte more or
without. -/
theorem encodedLength_subscribe_unsubscribe_instance :
    let long := String.ofList (List.replicate 65536 'a')
    (subscribe ⟨7, [⟨"a", .atMostOnce⟩, ⟨long, .exactlyOnce⟩, ⟨"", .atMostOnce⟩]⟩).encodedLength =
        .error (.violation .stringTooLong) ∧
      (unsubscribe ⟨7, "" :: List.replicate 8 "a"⟩).encodedLength =
        .error (.violation .tooManyTopics) ∧
      (subscribe ⟨7, [⟨"a/b", .atLeastOnce⟩]⟩).encodedLength = .ok 10 ∧
      (unsubscribe ⟨7, ["a/b"]⟩).encodedLength = .ok 9 := by
  intro long
  have hlong : 65535 < long.utf8ByteSize := by
    rw [utf8ByteSize_replicate]
    decide
  have hbroken (text : String) (h : 65535 < text.utf8ByteSize) :
      firstBroken? (filterChecks ["a", text, ""]) = some .stringTooLong := by
    simp [filterChecks, Check.filter, Check.text, firstBroken?_cons, h, ne_empty_of_lt h]
  obtain ⟨hsubscribe, hunsubscribe⟩ := encodedLength_subscribe_unsubscribe 7
  exact ⟨(hsubscribe _).1.of_broken _ (hbroken long hlong),
    (hunsubscribe _).1.of_broken _ (by decide),
    (hsubscribe [⟨"a/b", .atLeastOnce⟩]).1.eq_ok (by decide) rfl,
    (hunsubscribe ["a/b"]).1.eq_ok (by decide) rfl⟩

end Request

end MqttWire
