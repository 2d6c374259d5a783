import MqttWire.Proofs.Grammar
import MqttWire.Queue

/-!
# Queues hold requests

Whatever a client has done with its queue, the bytes that wait are the packets of the requests that
were written since the last flush, one behind the other (`Queue.holds_run_start`).  So the other side
reads them as these requests, with nothing left over, although flushes leave old bytes in the buffer.

`Queue.Holds` says which requests wait.  A step that does not fail leads from one such row of requests
to the next (`Holds.step_of_succeeds`), and a step that fails leads nowhere (`step_of_not_succeeds`).
-/

namespace MqttWire

/-- **The encoding of a request** is what it puts at the front of any buffer that has room. -/
def Request.Encodes (request : Request) (bytes : Bytes) : Prop :=
  ∀ buffer : Bytes, bytes.length ≤ buffer.length →
    request.encode buffer = ⟨.ok bytes.length, bytes ++ buffer.drop bytes.length⟩

theorem Request.encodes_iff {request : Request} {bytes : Bytes} :
    request.Encodes bytes ↔ request.bytes = .ok bytes := by
  constructor
  · intro h
    -- a buffer made to measure holds nothing else in the end
    have hplace := h bytes (Nat.le_refl _)
    rw [encode_eq, List.drop_length, List.append_nil] at hplace
    have hok : (Outcome.place request.bytes bytes).result = .ok bytes.length := by rw [hplace]
    obtain ⟨placed, hb, -, -, hbuffer⟩ := Outcome.place_eq_ok hok
    rw [hplace, List.drop_length, List.append_nil] at hbuffer
    rw [hb]
    exact congrArg _ hbuffer.symm
  · exact fun h buffer => encode_of_bytes h

namespace Queue

variable {queue : Queue} {waiting : List Request} {step : Step}

/-! ### One step -/

/-- Does a step do what it is for? -/
def succeeds (queue : Queue) : Step → Bool
  | .push request => (queue.push request).1.isOk
  | .flush => true

/-- The requests that wait after a step that does not fail. -/
def Step.apply (waiting : List Request) : Step → List Request
  | .push request => waiting ++ [request]
  | .flush => []

/-- **The queue holds these requests:** their encodings, one behind the other, are what waits. -/
structure Holds (queue : Queue) (waiting : List Request) : Prop where
  used_le : queue.used ≤ queue.buffer.length
  encodes : ∀ request ∈ waiting, request.Encodes request.wire
  pending : queue.pending = waiting.flatMap Request.wire

theorem length_pending_append (h : queue.used ≤ queue.buffer.length) (bytes : Bytes) :
    (queue.pending ++ bytes).length = queue.used + bytes.length := by
  rw [List.length_append, pending, List.length_take, Nat.min_eq_left h]

/-- **What a push does:** nothing, or the bytes of the request go behind those that wait. -/
theorem push_cases (queue : Queue) (request : Request) :
    (∃ e, queue.push request = (.error e, queue)) ∨
      ∃ bytes, request.bytes = .ok bytes ∧
        bytes.length ≤ (queue.buffer.drop queue.used).length ∧
        queue.push request = (.ok bytes.length,
          ⟨queue.pending ++ bytes ++ queue.buffer.drop (queue.used + bytes.length),
            queue.used + bytes.length⟩) := by
  cases h : (Outcome.place request.bytes (queue.buffer.drop queue.used)).result with
  | error e =>
    have hbuffer := Outcome.buffer_place_of_error h
    refine .inl ⟨e, ?_⟩
    simp only [push, Request.encode_eq, h, hbuffer, List.take_append_drop]
  | ok n =>
    obtain ⟨bytes, hb, rfl, hle, hbuffer⟩ := Outcome.place_eq_ok h
    refine .inr ⟨bytes, hb, hle, ?_⟩
    simp only [push, Request.encode_eq, h, hbuffer, List.drop_drop, pending, List.append_assoc]

/-- A request is written if its length is known and there is room. -/
theorem push_eq_ok_iff {request : Request} {n : Nat} (h : queue.used ≤ queue.buffer.length) :
    (queue.push request).1 = .ok n ↔
      request.encodedLength = .ok n ∧ queue.used + n ≤ queue.buffer.length := by
  have hpush : (queue.push request).1 =
      (request.encode (queue.buffer.drop queue.used)).result := by
    cases hr : (request.encode (queue.buffer.drop queue.used)).result <;> simp only [push, hr]
  rw [hpush, Request.encode_eq, Outcome.result_place_eq_ok_iff, Request.encodedLength_eq,
    List.length_drop, Nat.le_sub_iff_add_le' h]

/-- A step that fails does nothing. -/
theorem step_of_not_succeeds (h : queue.succeeds step = false) : queue.step step = queue := by
  cases step with
  | flush => cases h
  | push request =>
    rcases push_cases queue request with ⟨e, hp⟩ | ⟨bytes, -, -, hp⟩
    · rw [step_push, hp]
    · rw [succeeds, hp] at h
      cases h

theorem length_buffer_step (queue : Queue) (step : Step) :
    (queue.step step).buffer.length = queue.buffer.length := by
  cases step with
  | flush => rfl
  | push request =>
    rcases push_cases queue request with ⟨e, hp⟩ | ⟨bytes, -, hle, hp⟩
    · rw [step_push, hp]
    · rw [step_push, hp]
      simp only [pending, List.length_append, List.length_take, List.length_drop] at hle ⊢
      omega

theorem used_step_le (h : queue.used ≤ queue.buffer.length) (step : Step) :
    (queue.step step).used ≤ (queue.step step).buffer.length := by
  rw [length_buffer_step]
  cases step with
  | flush => exact Nat.zero_le _
  | push request =>
    rcases push_cases queue request with ⟨e, hp⟩ | ⟨bytes, -, hle, hp⟩
    · rw [step_push, hp]
      exact h
    · rw [List.length_drop] at hle
      rw [step_push, hp]
      exact Nat.add_le_of_le_sub' h hle

/-- Behind what waits after a step the buffer is as it was. -/
theorem drop_buffer_step (h : queue.used ≤ queue.buffer.length) {n : Nat}
    (hn : (queue.step step).used ≤ n) :
    (queue.step step).buffer.drop n = queue.buffer.drop n := by
  cases step with
  | flush => rfl
  | push request =>
    rcases push_cases queue request with ⟨e, hp⟩ | ⟨bytes, -, -, hp⟩
    · rw [step_push, hp]
    · rw [step_push, hp, ← length_pending_append h] at hn
      obtain ⟨k, rfl⟩ := Nat.exists_eq_add_of_le hn
      rw [step_push, hp, ← length_pending_append h, List.drop_length_add_append, List.drop_drop]

/-- Where requests wait, a step that does not fail leads to the next row of requests. -/
theorem Holds.step_of_succeeds (h : queue.Holds waiting) (hs : queue.succeeds step = true) :
    (queue.step step).Holds (step.apply waiting) := by
  cases step with
  | flush => exact ⟨Nat.zero_le _, nofun, rfl⟩
  | push request =>
    rcases push_cases queue request with ⟨e, hp⟩ | ⟨bytes, hb, -, hp⟩
    · rw [succeeds, hp] at hs
      cases hs
    · have hwire := Request.wire_of_bytes hb
      refine ⟨used_step_le h.used_le _, fun r hr => ?_, ?_⟩
      · rcases List.mem_append.1 hr with hr | hr
        · exact h.encodes r hr
        · obtain rfl := List.mem_singleton.1 hr
          rw [hwire]
          exact Request.encodes_iff.2 hb
      · rw [step_push, hp, Queue.pending, ← length_pending_append h.used_le, List.take_left,
          h.pending, Step.apply, List.flatMap_append, List.flatMap_singleton, hwire]

/-! ### All steps -/

/-- **The steps that do not fail** on the way from a queue. -/
def succeeded (queue : Queue) : List Step → List Step
  | [] => []
  | step :: steps =>
    let later := (queue.step step).succeeded steps
    if queue.succeeds step then step :: later else later

/-- The requests pushed since the last flush. -/
def sinceFlush (steps : List Step) : List Request := steps.foldl Step.apply []

variable {steps : List Step}

theorem succeeded_cons_of_succeeds (h : queue.succeeds step = true) :
    queue.succeeded (step :: steps) = step :: (queue.step step).succeeded steps := by
  rw [succeeded, if_pos h]

theorem succeeded_cons_of_not_succeeds (h : queue.succeeds step = false) :
    queue.succeeded (step :: steps) = queue.succeeded steps := by
  rw [succeeded, if_neg (by rw [h]; decide), step_of_not_succeeds h]

/-- **Steps that fail can be left out.** -/
theorem run_succeeded (queue : Queue) (steps : List Step) :
    queue.run (queue.succeeded steps) = queue.run steps := by
  induction steps generalizing queue with
  | nil => rfl
  | cons step steps ih =>
    cases hs : queue.succeeds step with
    | true => rw [succeeded_cons_of_succeeds hs, run_cons, ih, run_cons]
    | false => rw [succeeded_cons_of_not_succeeds hs, ih, run_cons, step_of_not_succeeds hs]

/-- From requests that wait, a run leads to those that the steps that do not fail make of them. -/
theorem Holds.run (h : queue.Holds waiting) (steps : List Step) :
    (queue.run steps).Holds ((queue.succeeded steps).foldl Step.apply waiting) := by
  -- the row of requests goes along with the queue, from step to step
  induction steps generalizing queue waiting with
  | nil => exact h
  | cons step steps ih =>
    cases hs : queue.succeeds step with
    | true =>
      rw [succeeded_cons_of_succeeds hs]
      exact ih (h.step_of_succeeds hs)
    | false =>
      rw [succeeded_cons_of_not_succeeds hs, run_cons, step_of_not_succeeds hs]
      exact ih h

theorem length_buffer_run (queue : Queue) (steps : List Step) :
    (queue.run steps).buffer.length = queue.buffer.length := by
  induction steps generalizing queue with
  | nil => rfl
  | cons step steps ih => rw [run_cons, ih, length_buffer_step]

/-- Behind what has waited at any time the buffer is as it was. -/
theorem drop_buffer_run (h : queue.used ≤ queue.buffer.length) {n : Nat}
    (hn : ∀ k, (queue.run (steps.take k)).used ≤ n) :
    (queue.run steps).buffer.drop n = queue.buffer.drop n := by
  induction steps generalizing queue with
  | nil => rfl
  | cons step steps ih =>
    have hlater (k : Nat) : ((queue.step step).run (steps.take k)).used ≤ n := hn (k + 1)
    rw [run_cons, ih (used_step_le h step) hlater, drop_buffer_step h (hlater 0)]

/-- The other side reads what waits as the requests that wait. -/
theorem Holds.readAll?_pending (h : queue.Holds waiting) :
    Request.readAll? queue.pending = some (waiting.map Request.onWire) := by
  rw [Request.readAll?_eq_some_iff, h.pending]
  constructor
  · intro r hr
    obtain ⟨request, hrequest, rfl⟩ := List.mem_map.1 hr
    have hb := Request.encodes_iff.1 (h.encodes request hrequest)
    rw [Request.bytes_onWire, Request.wire_onWire]
    exact ⟨request.onWire_onWire, hb⟩
  · simp only [List.flatMap_map, Request.wire_onWire]

/-- **A queue at any time,** whatever the buffer was and whatever has been done with it.  It holds the
requests that were written since the last flush, and the other side reads them.  A push succeeds if
there is room, and one that fails changes nothing, so the queue would be the same without those that
have failed; and where no packet has ever waited, the buffer is as it was. -/
theorem holds_run_start (buffer : Bytes) (steps : List Step) :
    let queue := (start buffer).run steps
    let done := (start buffer).succeeded steps
    let waiting := sinceFlush done
    queue.Holds waiting ∧
      (∀ request n, (queue.push request).1 = .ok n ↔
        request.encodedLength = .ok n ∧ queue.used + n ≤ buffer.length) ∧
      (∀ request e, (queue.push request).1 = .error e → (queue.push request).2 = queue) ∧
      (start buffer).run done = queue ∧
      queue.buffer.length = buffer.length ∧
      (∀ n, (∀ k, ((start buffer).run (steps.take k)).used ≤ n) →
        queue.buffer.drop n = buffer.drop n) ∧
      Request.readAll? queue.pending = some (waiting.map Request.onWire) := by
  intro queue done waiting
  have hstart : (start buffer).Holds [] := ⟨Nat.zero_le _, nofun, rfl⟩
  have hholds : queue.Holds waiting := hstart.run steps
  have hlength : queue.buffer.length = buffer.length := length_buffer_run _ steps
  refine ⟨hholds, fun request n => ?_, fun request e h => ?_, run_succeeded _ steps, hlength,
    fun n => drop_buffer_run hstart.used_le, hholds.readAll?_pending⟩
  · rw [← hlength]
    exact push_eq_ok_iff hholds.used_le
  · rcases push_cases queue request with ⟨e', hp⟩ | ⟨bytes, -, -, hp⟩
    · rw [hp]
    · rw [hp] at h
      cases h

/-- The second request finds no room, and the third overwrites the first. -/
example : (start [9, 9, 9]).run [.push .pingReq, .push .disconnect] = ⟨[0xC0, 0, 9], 2⟩ ∧
    (start [9, 9, 9]).run [.push .pingReq, .push .disconnect, .flush, .push .disconnect] =
      ⟨[0xE0, 0, 9], 2⟩ := by
  decide

end Queue

end MqttWire
