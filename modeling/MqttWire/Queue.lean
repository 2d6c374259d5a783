import MqttWire.Request.Basic

/-!
# Outgoing packets in one buffer

A client that gathers packets before it sends them writes one behind the other into one buffer.
Sending empties the queue; the buffer keeps its bytes.  What a client does over time is a list of
steps, each a push or a flush, and `run` goes through them.
-/

namespace MqttWire

/-- **Packets that wait to be sent,** at the front of a buffer. -/
structure Queue where
  buffer : Bytes
  /-- How many bytes wait. -/
  used : Nat
deriving DecidableEq

namespace Queue

def start (buffer : Bytes) : Queue := ⟨buffer, 0⟩

/-- The bytes that wait to be sent. -/
def pending (queue : Queue) : Bytes := queue.buffer.take queue.used

/-- **Adds a request behind those that wait,** and gives the length of its packet.  A request that
cannot be written stays out. -/
def push (queue : Queue) (request : Request) : Except EncodeError Nat × Queue :=
  let outcome := request.encode (queue.buffer.drop queue.used)
  let buffer := queue.buffer.take queue.used ++ outcome.buffer
  match outcome.result with
  | .ok length => (.ok length, ⟨buffer, queue.used + length⟩)
  | .error e => (.error e, ⟨buffer, queue.used⟩)

/-- Everything has been sent. -/
def flush (queue : Queue) : Queue := { queue with used := 0 }

/-- **What a client does with its queue.** -/
inductive Step where
  | push (request : Request)
  | flush
deriving DecidableEq

/-- The queue after a step; one that fails is passed over. -/
def step (queue : Queue) : Step → Queue
  | .push request => (queue.push request).2
  | .flush => queue.flush

theorem step_push (queue : Queue) (request : Request) :
    queue.step (.push request) = (queue.push request).2 := rfl

/-- **The queue after all steps,** one after the other. -/
def run (queue : Queue) (steps : List Step) : Queue := steps.foldl step queue

theorem run_cons (queue : Queue) (step : Step) (steps : List Step) :
    queue.run (step :: steps) = (queue.step step).run steps := rfl

end Queue

end MqttWire
