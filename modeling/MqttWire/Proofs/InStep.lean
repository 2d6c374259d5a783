import MqttWire.Proofs.Bodies
import MqttWire.Proofs.Outcome
import MqttWire.Proofs.Verdict.Subscription

/-!
# Subscribe and unsubscribe requests in step

A subscribe request differs from the unsubscribe request for the same filters in one byte behind each
filter.  Both are refused for the same reason, the first is longer by the number of filters, and
without these bytes its body is that of the second.  Lists of entries and of filters that are handled
in parallel stay in step too, and a request made from either never has too many filters
(`Request.subscribe_unsubscribe`).
-/

namespace MqttWire

/-! ### Refusals -/

/-- What breaks a rule breaks it in every buffer. -/
theorem Request.result_encode_eq_violation_iff {request : Request} {buffer : Bytes}
    {rule : Violation} : (request.encode buffer).result = .error (.violation rule) ↔
      request.encodedLength = .error (.violation rule) := by
  rw [encode_eq, encodedLength_eq]
  cases request.bytes with
  | error e => simp [Outcome.place, Except.map]
  | ok bytes =>
    refine iff_of_false (fun h => ?_) (by simp [Except.map])
    rcases Nat.lt_or_ge buffer.length bytes.length with hlt | hle
    · rw [Outcome.place_of_lt hlt] at h
      cases h
    · rw [Outcome.place_of_le hle] at h
      cases h

section Filters

variable {filters : List String}

/-- The number of the filters is looked at before the filters. -/
theorem firstBroken?_filterChecks : firstBroken? (filterChecks filters) =
    if filters = [] then some .noTopics
    else if 8 < filters.length then some .tooManyTopics
    else firstBroken? (filters.flatMap Check.filter) := by
  rw [filterChecks, List.cons_append, List.cons_append, List.nil_append, firstBroken?_cons,
    firstBroken?_cons]
  simp only [decide_eq_true_eq]

theorem rule_of_filters {rule : Violation}
    (h : firstBroken? (filters.flatMap Check.filter) = some rule) :
    rule = .emptyTopic ∨ rule = .stringTooLong := by
  obtain ⟨check, hcheck, rfl⟩ := exists_of_firstBroken? h
  obtain ⟨filter, -, hcheck⟩ := List.mem_flatMap.1 hcheck
  rcases List.mem_cons.1 hcheck with rfl | hcheck
  · exact .inl rfl
  · obtain rfl := List.mem_singleton.1 hcheck
    exact .inr rfl

theorem firstBroken?_eq_noTopics_iff :
    firstBroken? (filterChecks filters) = some .noTopics ↔ filters = [] := by
  rw [firstBroken?_filterChecks]
  split
  · next h => exact iff_of_true rfl h
  · next h =>
    refine iff_of_false (fun hrule => ?_) h
    split at hrule
    · cases hrule
    · rcases rule_of_filters hrule with h' | h' <;> cases h'

theorem firstBroken?_eq_tooManyTopics_iff :
    firstBroken? (filterChecks filters) = some .tooManyTopics ↔ 8 < filters.length := by
  rw [firstBroken?_filterChecks]
  split
  · next h => exact iff_of_false nofun (by rw [h]; decide)
  · split
    · next h => exact iff_of_true rfl h
    · next h =>
      refine iff_of_false (fun hrule => ?_) h
      rcases rule_of_filters hrule with h' | h' <;> cases h'

/-- A byte more is counted with each filter. -/
theorem filtersSize_one (filters : List String) :
    filtersSize 1 filters = filtersSize 0 filters + filters.length := by
  unfold filtersSize
  induction filters with
  | nil => rfl
  | cons filter filters ih =>
    simp only [List.map_cons, List.sum_cons, List.length_cons] at ih ⊢
    omega

end Filters

namespace Subscribe

theorem judged (s : Subscribe) :
    Judged (filterChecks (s.subscriptions.map Subscription.filter))
      (filtersSize 1 (s.subscriptions.map Subscription.filter)) s.packet.encodedLength :=
  (judged_of_filters (Nat.le_refl 1) s.encodedLength_eq_verdict).1

/-- A request is refused for what is wrong with its filters, whatever it is written to. -/
theorem result_encode_eq_violation_iff (s : Subscribe) (buffer : Bytes) (rule : Violation) :
    ((Request.subscribe s).encode buffer).result = .error (.violation rule) ↔
      firstBroken? (filterChecks (s.subscriptions.map Subscription.filter)) = some rule :=
  Request.result_encode_eq_violation_iff.trans s.judged.eq_error_iff

/-- The unsubscribe request for the same filters. -/
def withoutLevels (s : Subscribe) : Unsubscribe :=
  ⟨s.packetId, s.subscriptions.map Subscription.filter⟩

theorem validity_eq (s : Subscribe) : s.packet.validity = s.withoutLevels.packet.validity := by
  show checkCount _ = checkCount (s.subscriptions.map Subscription.filter).length
  rw [List.length_map]

/-- **Both are counted alike,** but for a byte with each filter. -/
theorem remainingLength_eq (s : Subscribe) : s.remainingLength =
    s.withoutLevels.remainingLength.map (· + s.subscriptions.length) := by
  rw [s.remainingLength_eq_verdict, s.withoutLevels.remainingLength_eq_verdict, verdict_map,
    filtersSize_one, List.length_map]
  rfl

end Subscribe

theorem Unsubscribe.judged (u : Unsubscribe) :
    Judged (filterChecks u.filters) (filtersSize 0 u.filters) u.packet.encodedLength :=
  (judged_of_filters (Nat.zero_le 1) u.encodedLength_eq_verdict).1

theorem Unsubscribe.result_encode_eq_violation_iff (u : Unsubscribe) (buffer : Bytes)
    (rule : Violation) : ((Request.unsubscribe u).encode buffer).result = .error (.violation rule) ↔
      firstBroken? (filterChecks u.filters) = some rule :=
  Request.result_encode_eq_violation_iff.trans u.judged.eq_error_iff

/-! ### Bodies -/

/-- **Takes out the byte behind each of so many filters,** and gives what is left, and these bytes. -/
def takeOut : Nat → Bytes → Bytes × Bytes
  | count + 1, high :: low :: rest =>
    let length := ofBigEndian high low
    let others := takeOut count (rest.drop (length + 1))
    (high :: low :: rest.take length ++ others.1, (rest.drop length).take 1 ++ others.2)
  | _, bytes => (bytes, [])

theorem takeOut_counted_append {content : Bytes} (count : Nat) (byte : UInt8) (rest : Bytes)
    (h : content.length ≤ Field.maxLength) :
    takeOut (count + 1) (Field.counted content ++ [byte] ++ rest) =
      (Field.counted content ++ (takeOut count rest).1, byte :: (takeOut count rest).2) := by
  have hlength : ofBigEndian (UInt8.ofNat (content.length / 256)) (UInt8.ofNat content.length) =
      content.length := ofBigEndian_bigEndian (Nat.lt_succ_of_le h)
  have hdrop : (content ++ [byte] ++ rest).drop content.length = byte :: rest := by
    rw [List.append_assoc, List.drop_left]
    rfl
  have htake : (content ++ [byte] ++ rest).take content.length = content := by
    rw [List.append_assoc, List.take_left]
  show takeOut (count + 1) (_ :: _ :: (content ++ [byte] ++ rest)) = _
  rw [takeOut, hlength, ← List.drop_drop, hdrop, htake]
  rfl

/-- What is left of the entries of a subscribe request are the filters, and what is taken out are the
levels. -/
theorem takeOut_entries {entries : List Subscription}
    (h : ∀ entry ∈ entries, entry.filter.utf8ByteSize ≤ Field.maxLength) :
    takeOut entries.length
        (entries.flatMap fun entry => Field.counted (utf8 entry.filter) ++ [entry.maxQoS.level]) =
      ((entries.map Subscription.filter).flatMap fun filter => Field.counted (utf8 filter),
        entries.map fun entry => entry.maxQoS.level) := by
  induction entries with
  | nil => rfl
  | cons entry entries ih =>
    obtain ⟨hentry, hentries⟩ := List.forall_mem_cons.1 h
    rw [List.flatMap_cons, List.length_cons, takeOut_counted_append _ _ _ (by exact hentry),
      ih hentries]
    rfl

/-- The bytes of a packet that was written end with its body. -/
theorem Request.exists_body {request : Request} {buffer : Bytes} {n : Nat}
    (h : (request.encode buffer).result = .ok n) :
    request.packet.remainingLength = .ok (request.fields.flatMap Field.bytes).length ∧
    (∀ field ∈ request.fields, field.Fits) ∧
    ∃ head, (request.encode buffer).buffer.take n = head ++ request.fields.flatMap Field.bytes := by
  rw [encode_eq] at h ⊢
  obtain ⟨placed, hplaced, rfl, -, hbuffer⟩ := Outcome.place_eq_ok h
  obtain ⟨hv, header, remaining, count, -, hn, -, rfl⟩ := Packet.bytes_eq_ok_iff.1 hplaced
  have hsize := request.writes.totalSize_eq hv hn
  obtain ⟨hfits, rfl⟩ := Field.totalSize_eq_ok_iff.1 hsize
  exact ⟨hn, hfits, _, by rw [hbuffer, List.take_left]⟩

/-! ### Lists in parallel -/

namespace BoundedList

variable {α β : Type} {capacity : Nat}

/-- A step does the same to items of another kind. -/
theorem Step.apply_map (f : α → β) (step : Step α) (items : List α) :
    (step.map f).apply capacity (items.map f) = (step.apply capacity items).map f := by
  cases step with
  | push item =>
    rw [Step.map, Step.apply, Step.apply, List.length_map]
    split
    · rw [List.map_append, List.map_singleton]
    · rfl
  | pop => exact List.map_dropLast.symm
  | clear => rfl

theorem foldl_apply_map (f : α → β) (steps : List (Step α)) (items : List α) :
    (steps.map (Step.map f)).foldl (Step.apply capacity) (items.map f) =
      (steps.foldl (Step.apply capacity) items).map f := by
  induction steps generalizing items with
  | nil => rfl
  | cons step steps ih => rw [List.map_cons, List.foldl_cons, List.foldl_cons, Step.apply_map, ih]

/-- What is in a list stands in the order in which it was pushed. -/
theorem sublist_foldl_apply (steps : List (Step α)) (items : List α) :
    (steps.foldl (Step.apply capacity) items).Sublist (items ++ steps.filterMap Step.pushed?) := by
  induction steps generalizing items with
  | nil => simp
  | cons step steps ih =>
    refine (ih _).trans ?_
    cases step with
    | push item =>
      show (Step.apply capacity items (.push item) ++ _).Sublist (items ++ ([item] ++ _))
      rw [← List.append_assoc, Step.apply]
      refine List.Sublist.append_right ?_ _
      split
      · exact List.Sublist.refl _
      · exact List.sublist_append_left items [item]
    | pop => exact (List.dropLast_sublist items).append_right _
    | clear => exact (List.nil_sublist items).append_right _

end BoundedList

namespace Request

/-! ### In step -/

/-- A subscribe request and the unsubscribe request for the same filters, side by side: what is left
of the body of the first without the bytes behind its filters is the body of the second. -/
theorem takeOut_body {s : Subscribe} {buffer buffer' : Bytes} {n m : Nat}
    (hs : ((subscribe s).encode buffer).result = .ok n)
    (hu : ((unsubscribe s.withoutLevels).encode buffer').result = .ok m) :
    ∃ head body head' body',
      ((subscribe s).encode buffer).buffer.take n = head ++ body ∧
      s.remainingLength = .ok body.length ∧
      ((unsubscribe s.withoutLevels).encode buffer').buffer.take m = head' ++ body' ∧
      s.withoutLevels.remainingLength = .ok body'.length ∧
      body.take 2 = body'.take 2 ∧ takeOut s.subscriptions.length (body.drop 2) =
        (body'.drop 2, s.subscriptions.map fun entry => entry.maxQoS.level) := by
  obtain ⟨hn, hfits, head, hbody⟩ := exists_body hs
  obtain ⟨hm, -, head', hbody'⟩ := exists_body hu
  have hid (id : UInt16) (rest : Bytes) :
      (bigEndian id.toNat ++ rest).take 2 = bigEndian id.toNat :=
    List.take_left' (length_bigEndian _)
  have hentries (id : UInt16) (rest : Bytes) : (bigEndian id.toNat ++ rest).drop 2 = rest :=
    List.drop_left' (length_bigEndian _)
  refine ⟨head, _, head', _, hbody, hn, hbody', hm, ?_, ?_⟩
  · rw [fields, s.flatMap_fields, fields, Unsubscribe.flatMap_fields, hid, hid]
    rfl
  · rw [fields, s.flatMap_fields, fields, Unsubscribe.flatMap_fields, hentries, hentries]
    exact takeOut_entries (Subscribe.fits_fields_iff.1 hfits)

/-- **Subscribe and unsubscribe requests stay in step.**  For the same filters both are refused for the
same rule, whatever the buffers, and otherwise the first takes a byte more for each filter, which
taken out of its body leaves the body of the second.  Lists of eight at most that are handled in
parallel hold the same filters, in the order in which they were pushed; a request made from either is
never refused for too many of them, and for none exactly if there is none. -/
theorem subscribe_unsubscribe (packetId : UInt16) :
    (∀ entries : List Subscription,
      let s : Subscribe := ⟨packetId, entries⟩
      let u : Unsubscribe := ⟨packetId, entries.map Subscription.filter⟩
      s.packet.validity = u.packet.validity ∧
      s.remainingLength = u.remainingLength.map (· + entries.length) ∧
      (∀ rule, (subscribe s).encodedLength = .error (.violation rule) ↔
        (unsubscribe u).encodedLength = .error (.violation rule)) ∧
      (∀ rule buffer buffer', ((subscribe s).encode buffer).result = .error (.violation rule) ↔
        ((unsubscribe u).encode buffer').result = .error (.violation rule)) ∧
      ((∃ n, (subscribe s).encodedLength = .ok n) ↔ ∃ m, (unsubscribe u).encodedLength = .ok m) ∧
      ∀ buffer buffer' n m, ((subscribe s).encode buffer).result = .ok n →
        ((unsubscribe u).encode buffer').result = .ok m → ∃ head body head' body',
          ((subscribe s).encode buffer).buffer.take n = head ++ body ∧
          s.remainingLength = .ok body.length ∧
          ((unsubscribe u).encode buffer').buffer.take m = head' ++ body' ∧
          u.remainingLength = .ok body'.length ∧
          body.take 2 = body'.take 2 ∧ takeOut entries.length (body.drop 2) =
            (body'.drop 2, entries.map fun entry => entry.maxQoS.level)) ∧
    ∀ steps : List (BoundedList.Step Subscription),
      let subscriptions : SubscriptionList := BoundedList.empty.run steps
      let filters : FilterList := BoundedList.empty.run (steps.map (.map Subscription.filter))
      subscriptions.items = steps.foldl (BoundedList.Step.apply 8) [] ∧
      filters.items = subscriptions.items.map Subscription.filter ∧
      subscriptions.items.Sublist (steps.filterMap BoundedList.Step.pushed?) ∧
      ∀ buffer,
        let subscribed := ((subscribe ⟨packetId, subscriptions.items⟩).encode buffer).result
        let unsubscribed := ((unsubscribe ⟨packetId, filters.items⟩).encode buffer).result
        subscribed ≠ .error (.violation .tooManyTopics) ∧
        unsubscribed ≠ .error (.violation .tooManyTopics) ∧
        (subscribed = .error (.violation .noTopics) ↔ subscriptions.items = []) ∧
        (unsubscribed = .error (.violation .noTopics) ↔ filters.items = []) := by
  refine ⟨fun entries => ?_, fun steps => ?_⟩
  · intro s u
    refine ⟨s.validity_eq, s.remainingLength_eq, fun rule => ?_, fun rule buffer buffer' => ?_,
      s.judged.exists_eq_ok_iff.trans u.judged.exists_eq_ok_iff.symm,
      fun buffer buffer' n m => takeOut_body⟩
    · exact s.judged.eq_error_iff.trans u.judged.eq_error_iff.symm
    · exact (s.result_encode_eq_violation_iff buffer rule).trans
        (u.result_encode_eq_violation_iff buffer' rule).symm
  · intro subscriptions filters
    have hsubscriptions : subscriptions.items = steps.foldl (BoundedList.Step.apply 8) [] :=
      BoundedList.items_run _ steps
    have hfilters : filters.items = subscriptions.items.map Subscription.filter := by
      rw [hsubscriptions, ← BoundedList.foldl_apply_map]
      exact BoundedList.items_run _ _
    refine ⟨hsubscriptions, hfilters, ?_, fun buffer => ?_⟩
    · rw [hsubscriptions]
      exact BoundedList.sublist_foldl_apply steps []
    · intro subscribed unsubscribed
      have hs (rule : Violation) : subscribed = .error (.violation rule) ↔
          firstBroken? (filterChecks filters.items) = some rule := by
        rw [hfilters]
        exact Subscribe.result_encode_eq_violation_iff _ buffer rule
      have hu (rule : Violation) : unsubscribed = .error (.violation rule) ↔
          firstBroken? (filterChecks filters.items) = some rule :=
        Unsubscribe.result_encode_eq_violation_iff _ buffer rule
      have hcount := filters.length_le
      have hfew : ¬ 8 < filters.items.length := Nat.not_lt.2 hcount
      have hempty : filters.items = [] ↔ subscriptions.items = [] := by
        rw [hfilters, List.map_eq_nil_iff]
      refine ⟨?_, ?_, ?_, ?_⟩
      · rw [Ne, hs, firstBroken?_eq_tooManyTopics_iff]
        exact hfew
      · rw [Ne, hu, firstBroken?_eq_tooManyTopics_iff]
        exact hfew
      · rw [hs, firstBroken?_eq_noTopics_iff, hempty]
      · rw [hu, firstBroken?_eq_noTopics_iff]

/-- Two filters with their levels and without, an empty filter refused in both, and a run of nine
pushes and a pop, after which there are seven filters. -/
theorem subscribe_unsubscribe_instance :
    let s : Subscribe := ⟨10, [⟨"a/b", .atLeastOnce⟩, ⟨"c", .exactlyOnce⟩]⟩
    let buffer : Bytes := List.replicate 14 9
    let steps : List (BoundedList.Step Subscription) :=
      List.replicate 9 (.push ⟨"a", .atMostOnce⟩) ++ [.pop]
    let filters : FilterList := BoundedList.empty.run (steps.map (.map Subscription.filter))
    (∃ head body head' body',
        ((subscribe s).encode buffer).buffer.take 14 = head ++ body ∧
        s.remainingLength = .ok body.length ∧
        ((unsubscribe ⟨10, ["a/b", "c"]⟩).encode buffer).buffer.take 12 = head' ++ body' ∧
        Unsubscribe.remainingLength ⟨10, ["a/b", "c"]⟩ = .ok body'.length ∧
        body.take 2 = body'.take 2 ∧ takeOut 2 (body.drop 2) = (body'.drop 2, [1, 2])) ∧
      ((unsubscribe ⟨10, ["a", ""]⟩).encode []).result = .error (.violation .emptyTopic) ∧
      filters.items = List.replicate 7 "a" ∧
      ((unsubscribe ⟨10, filters.items⟩).encode []).result ≠ .error (.violation .noTopics) := by
  intro s buffer steps filters
  obtain ⟨hpair, hlists⟩ := subscribe_unsubscribe 10
  obtain ⟨-, -, -, -, -, hbody⟩ := hpair s.subscriptions
  obtain ⟨-, -, -, hrule, -⟩ := hpair [⟨"a", .atMostOnce⟩, ⟨"", .atMostOnce⟩]
  obtain ⟨hitems, hfilters, -, hbuffer⟩ := hlists steps
  obtain ⟨-, -, -, hnone⟩ := hbuffer []
  have hseven : filters.items = List.replicate 7 "a" := by
    rw [hfilters, hitems]
    decide
  have hsubscribe : ((subscribe s).encode buffer).result = .ok 14 := by decide
  have hunsubscribe : ((unsubscribe s.withoutLevels).encode buffer).result = .ok 12 := by decide
  have hempty : ((subscribe ⟨10, [⟨"a", .atMostOnce⟩, ⟨"", .atMostOnce⟩]⟩).encode []).result =
      .error (.violation .emptyTopic) := by decide
  refine ⟨hbody buffer buffer 14 12 hsubscribe hunsubscribe, (hrule .emptyTopic [] []).1 hempty,
    hseven, ?_⟩
  rw [Ne, hnone, hseven]
  decide

end Request

end MqttWire
