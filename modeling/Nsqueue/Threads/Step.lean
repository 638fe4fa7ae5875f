/-
The producer and the consumer of `spsc_queue<T, N>` interleaved. Each operation is a sequence of
atomic steps, one for each load or store of `writeIndex_` or `readIndex_`, each slot construction
and each move-out; a thread's reads of its own cache are private and fold into its next step. A
scheduler choice runs one step of the producer or of the consumer (invoking an operation when the
thread is idle), or `reset()` when both are idle. Each operation logs its `Event` at the step where
it takes effect: an enqueue at its store of `writeIndex_`, a dequeue at its store of
`readIndex_`, a failing `emplace` at its reload of `readIndex_`, a failing `pop`/`consume_one` at
its reload of `writeIndex_`.
-/
import Nsqueue.Ops
import Nsqueue.Fifo
import Nsqueue.Schedule

namespace Nsqueue

/-! ## Operations and program counters -/

/-- The producer's operations; `push(item)` and `force_push(item)` are `emplace(item)` and
`force_emplace(item)`. -/
inductive ProducerOp (α : Type) where
  | emplace (v : α)
  | forceEmplace (v : α)

/-- The consumer's operations. -/
inductive ConsumerOp where
  /-- `pop(T& item)` -/
  | popItem
  /-- `pop()` -/
  | pop
  /-- `force_pop(T& item)` -/
  | forcePopItem
  /-- `force_pop()` -/
  | forcePop
  /-- `consume_one(func)` -/
  | consumeOne
  /-- `consume_all(func)` -/
  | consumeAll
  /-- `consume_n(func, n)` -/
  | consumeN (n : Nat)

namespace ProducerOp

variable {α : Type}

/-- `push(item)` -/
def push (item : α) : ProducerOp α := .emplace item

/-- `force_push(item)` -/
def forcePush (item : α) : ProducerOp α := .forceEmplace item

/-- The value constructed into the slot. -/
def value : ProducerOp α → α
  | .emplace v | .forceEmplace v => v

/-- Spins on a full queue instead of failing. -/
def force : ProducerOp α → Bool
  | .emplace _ => false
  | .forceEmplace _ => true

end ProducerOp

namespace ConsumerOp

/-- Spins on an empty queue instead of failing. -/
def force : ConsumerOp → Bool
  | .forcePopItem | .forcePop => true
  | _ => false

/-- Moves the slot's value out: `pop(T&)` and `force_pop(T&)` move-assign it into `item`, and
`consume_one` (and the loops over it) hands `std::move(items_[readIdx].mObj)` to `func`, which the
model takes as moving it out; a `func` that only reads its argument leaves the value in the slot,
as `pop()` and `force_pop()` do. -/
def moves : ConsumerOp → Bool
  | .pop | .forcePop => false
  | _ => true

/-- Calls `consume_one` again after a success. -/
def loops : ConsumerOp → Bool
  | .consumeAll | .consumeN _ => true
  | _ => false

/-- Makes a call after `done` successful ones: `consume_n` only while `m < n`. -/
def proceeds : ConsumerOp → Nat → Bool
  | .consumeN n, done => done < n
  | _, _ => true

end ConsumerOp

/-- Where the producer is in its current operation. -/
inductive Producer (α : Type) where
  | idle
  /-- about to load `writeIndex_` -/
  | load (op : ProducerOp α)
  /-- about to reload `readIndexCache_` from `readIndex_` -/
  | reload (op : ProducerOp α) (writeIdx nextWriteIdx : Nat)
  /-- about to construct the value into slot `writeIdx` -/
  | construct (op : ProducerOp α) (writeIdx nextWriteIdx : Nat)
  /-- about to store `nextWriteIdx` to `writeIndex_` -/
  | publish (op : ProducerOp α) (writeIdx nextWriteIdx : Nat)

/-- Where the consumer is in its current operation, `done` counting the successful calls of
`consume_one` a `consume_all`/`consume_n` has made. -/
inductive Consumer (α : Type) where
  | idle
  /-- about to load `readIndex_` -/
  | load (op : ConsumerOp) (done : Nat)
  /-- about to reload `writeIndexCache_` from `writeIndex_` -/
  | reload (op : ConsumerOp) (done readIdx : Nat)
  /-- about to move the value out of slot `readIdx` -/
  | take (op : ConsumerOp) (done readIdx : Nat)
  /-- about to store `readIdx + 1` to `readIndex_`, holding the value moved out -/
  | release (op : ConsumerOp) (done readIdx : Nat) (item : Option α)

/-! ## One step of each thread -/

variable {α : Type} (N : Nat)

/-- One step of the producer, invoking `op` if it is idle: its next program counter, the shared
state after the step and the events logged. -/
def producerStep (op : ProducerOp α) (q : Queue α) : Producer α → Producer α × Queue α × List (Event α)
  | .idle => (.load op, q, [])
  | .load op =>
    let writeIdx := q.writeIndex
    let nextWriteIdx := nextIndex N writeIdx
    (if nextWriteIdx = q.readIndexCache then .reload op writeIdx nextWriteIdx
      else .construct op writeIdx nextWriteIdx, q, [])
  | .reload op writeIdx nextWriteIdx =>
    let q := q.reloadReadIndex
    if nextWriteIdx = q.readIndexCache then
      if op.force then (.reload op writeIdx nextWriteIdx, q, []) else (.idle, q, [.enqueueFull])
    else (.construct op writeIdx nextWriteIdx, q, [])
  | .construct op writeIdx nextWriteIdx =>
    (.publish op writeIdx nextWriteIdx, q.construct writeIdx op.value, [])
  | .publish op _ nextWriteIdx => (.idle, q.publishWrite nextWriteIdx, [.enqueue op.value])

/-- Once data is known present at `readIdx`: move it out, or go straight to the store. -/
def Consumer.found (op : ConsumerOp) (done readIdx : Nat) : Consumer α :=
  if op.moves then .take op done readIdx else .release op done readIdx none

/-- After a successful call: the next call of a loop, or done. -/
def Consumer.after (op : ConsumerOp) (done : Nat) : Consumer α :=
  if op.loops then .load op done else .idle

/-- The value a successful dequeue removes: the one it moved out, else the one left in its slot. -/
def removed (item : Option α) (q : Queue α) (readIdx : Nat) : Option α :=
  match item with
  | some v => some v
  | none => q.items readIdx

/-- One step of the consumer, invoking `op` if it is idle. -/
def consumerStep (op : ConsumerOp) (q : Queue α) : Consumer α → Consumer α × Queue α × List (Event α)
  | .idle => (.load op 0, q, [])
  | .load op done =>
    if op.proceeds done then
      let readIdx := q.readIndex
      (if readIdx = q.writeIndexCache then .reload op done readIdx else .found op done readIdx, q, [])
    else (.idle, q, [])
  | .reload op done readIdx =>
    let q := q.reloadWriteIndex
    if readIdx = q.writeIndexCache then
      if op.force then (.reload op done readIdx, q, []) else (.idle, q, [.dequeueEmpty])
    else (.found op done readIdx, q, [])
  | .take op done readIdx => (.release op done readIdx (q.moveOut readIdx).1, (q.moveOut readIdx).2, [])
  | .release op done readIdx item =>
    (.after op (done + 1), q.publishRead (nextIndex N readIdx),
      (removed item q readIdx).toList.map .dequeue)

/-! ## The interleaving -/

/-- The queue's shared state, both threads' program counters and the log of events. -/
structure Sys (α : Type) where
  queue : Queue α
  producer : Producer α
  consumer : Consumer α
  history : List (Event α)

/-- What the scheduler runs next. -/
inductive Choice (α : Type) where
  /-- a step of the producer, which invokes `op` when idle -/
  | producer (op : ProducerOp α)
  /-- a step of the consumer, which invokes `op` when idle -/
  | consumer (op : ConsumerOp)
  /-- `reset()`, taken only while both threads are idle -/
  | reset

namespace Sys

/-- A newly constructed queue with both threads idle. -/
def init : Sys α := ⟨Queue.init, .idle, .idle, []⟩

/-- One scheduler step. -/
def step (s : Sys α) : Choice α → Sys α
  | .producer op =>
    let r := producerStep N op s.queue s.producer
    { s with producer := r.1, queue := r.2.1, history := s.history ++ r.2.2 }
  | .consumer op =>
    let r := consumerStep N op s.queue s.consumer
    { s with consumer := r.1, queue := r.2.1, history := s.history ++ r.2.2 }
  | .reset =>
    match s.producer, s.consumer with
    | .idle, .idle => { s with queue := s.queue.reset, history := s.history ++ [.reset] }
    | _, _ => s

/-- The state after a schedule. -/
def run (s : Sys α) (cs : List (Choice α)) : Sys α := cs.foldl (step N) s

@[simp] theorem run_nil (s : Sys α) : run N s [] = s := rfl

@[simp] theorem run_cons (s : Sys α) (c : Choice α) (cs : List (Choice α)) :
    run N s (c :: cs) = run N (s.step N c) cs := rfl

theorem run_append (s : Sys α) (cs cs' : List (Choice α)) :
    run N s (cs ++ cs') = run N (run N s cs) cs' :=
  List.foldl_append _ _ _ _

/-- The states some interleaving reaches from a new queue. -/
abbrev Reachable : Sys α → Prop := Reach (step N) init

theorem reachable_run (cs : List (Choice α)) : Reachable N (run N init cs) := Reach.foldl .init cs

end Sys

end Nsqueue
