/-
The headline theorems of the interleaving, for every power-of-two capacity `N` and every
schedule of one producer and one consumer.

`history_linearizable`: the events each operation logs at its linearization point (an enqueue
at its store of `writeIndex_`, a dequeue at its store of `readIndex_`, a failing `emplace` at its
reload of `readIndex_`, a failing `pop`/`consume_one` at its reload of `writeIndex_`) form a legal
history of the bounded FIFO of capacity `N - 1`, which ends holding exactly the queue's values;
without a `reset()` the dequeued values followed by the values still held are the enqueued ones.

`caches_sound`: each thread's private copy of the other's index never runs ahead of it, so the
fast-path tests on the caches never report room or data a fresh load would not.

`slots_exclusive`: the slot the producer constructs into is always `writeIndex_` and the slot the
consumer moves out of is always `readIndex_`, which is never `writeIndex_` while the consumer holds
it, so the two threads never access the same slot of `items_` at once.

`construct_over_live`: nothing in the code ends a value's life in its slot other than moving it
out. `pop()` and `force_pop()` step past the value, and `reset()` zeroes the indices over the
values still held, so a later enqueue constructs over a live value whose destructor never runs.
-/
import Nsqueue.Threads.Invariant

namespace Nsqueue

variable {α : Type} {N : Nat}

/-- The slot of `items_` the producer has claimed: the one it constructs into, from its room test
until its store of `writeIndex_`. -/
def Producer.slot : Producer α → Option Nat
  | .construct _ writeIdx _ | .publish _ writeIdx _ => some writeIdx
  | _ => none

/-- The slot of `items_` the consumer has claimed: the one it moves out of (or, for `pop()`,
skips), from its data test until its store of `readIndex_`. -/
def Consumer.slot : Consumer α → Option Nat
  | .take _ _ readIdx | .release _ _ readIdx _ => some readIdx
  | _ => none

namespace Sys

/-- A schedule on a four-slot queue: an `emplace` run to completion, then a `pop(T&)` invoked. -/
def sampleRun : List (Choice Nat) :=
  [.producer (.emplace 7), .producer (.emplace 7), .producer (.emplace 7), .producer (.emplace 7),
    .consumer .popItem, .consumer .popItem]

/-- The caches are sound in every reachable state: `readIndex_` is on the ring path from
`readIndexCache_` to `writeIndex_`, a path of at most `N - 1` steps; `writeIndexCache_` is on the
path from `readIndex_` to `writeIndex_`; and a cached test finding room (for `emplace`) or data
(for `pop`/`consume_one`) agrees with the real index. -/
theorem caches_sound (hN : ValidCapacity N) {s : Sys α} (hs : Reachable N s) :
    OnPath N s.queue.readIndexCache s.queue.readIndex s.queue.writeIndex ∧
      dist N s.queue.readIndexCache s.queue.writeIndex ≤ N - 1 ∧
      OnPath N s.queue.readIndex s.queue.writeIndexCache s.queue.writeIndex ∧
      (nextIndex N s.queue.writeIndex ≠ s.queue.readIndexCache →
        nextIndex N s.queue.writeIndex ≠ s.queue.readIndex) ∧
      (s.queue.readIndex ≠ s.queue.writeIndexCache → s.queue.readIndex ≠ s.queue.writeIndex) := by
  have hv := (hs.inv hN).view
  have hlt := dist_lt hv.readIndexCache_lt hv.writeIndex_lt
  simp only [view, viewOf_readIndex, viewOf_writeIndex, viewOf_readIndexCache,
    viewOf_writeIndexCache] at hlt
  refine ⟨by simpa [view] using hv.readCache, by omega, by simpa [view] using hv.writeCache,
    fun h => by simpa [view] using hv.nextIndex_ne_readIndex hN (by simpa [view] using h),
    fun h => by simpa [view] using hv.readIndex_ne_writeIndex (by simpa [view] using h)⟩

theorem caches_sound_sample :
    ValidCapacity 4 ∧ Reachable 4 (run 4 init sampleRun) ∧
      OnPath 4 (run 4 init sampleRun).queue.readIndexCache (run 4 init sampleRun).queue.readIndex
        (run 4 init sampleRun).queue.writeIndex :=
  ⟨validCapacity_two_pow (k := 2) (by decide), reachable_run 4 _,
    (caches_sound (validCapacity_two_pow (k := 2) (by decide)) (reachable_run 4 sampleRun)).1⟩

/-- No two accesses to one slot: in every reachable state the producer's claimed slot is
`writeIndex_`, the consumer's is `readIndex_` and differs from `writeIndex_`, so the two threads'
claimed slots are never the same. -/
theorem slots_exclusive (hN : ValidCapacity N) {s : Sys α} (hs : Reachable N s) :
    (∀ w, s.producer.slot = some w → w = s.queue.writeIndex) ∧
      (∀ r, s.consumer.slot = some r → r = s.queue.readIndex ∧ r ≠ s.queue.writeIndex) ∧
      ∀ w r, s.producer.slot = some w → s.consumer.slot = some r → w ≠ r := by
  obtain ⟨q, p, c, h⟩ := s
  obtain ⟨hv, hp, hc, -⟩ := hs.inv hN
  dsimp only [view] at hv hp hc
  have hw : ∀ w, p.slot = some w → w = q.writeIndex := by
    intro w hw
    cases p with
    | construct _ w' _ | publish _ w' _ => cases hw; exact hp.1
    | _ => cases hw
  have hr : ∀ r, c.slot = some r → r = q.readIndex ∧ r ≠ q.writeIndex := by
    intro r hr
    cases c with
    | take _ _ r' | release _ _ r' _ =>
      cases hr
      obtain ⟨rfl, hne⟩ := hc
      exact ⟨rfl, by simpa using hv.readIndex_ne_writeIndex (by simpa using hne)⟩
    | _ => cases hr
  exact ⟨hw, hr, fun w r h1 h2 => hw w h1 ▸ (hr r h2).2.symm⟩

/-- On a four-slot queue: `emplace(7)` run to completion, `emplace(8)` past its room test into
slot `1`, and `pop(T&)` past its data test on slot `0`. -/
def slotRun : List (Choice Nat) :=
  List.replicate 4 (.producer (.emplace 7)) ++ List.replicate 2 (.producer (.emplace 8)) ++
    List.replicate 3 (.consumer .popItem)

theorem slots_exclusive_slotRun :
    ValidCapacity 4 ∧ Reachable 4 (run 4 init slotRun) ∧ (run 4 init slotRun).producer.slot = some 1 ∧
      (run 4 init slotRun).consumer.slot = some 0 ∧ (1 : Nat) ≠ 0 :=
  ⟨validCapacity_two_pow (k := 2) (by decide), reachable_run 4 _, by decide, by decide,
    (slots_exclusive (validCapacity_two_pow (k := 2) (by decide)) (reachable_run 4 slotRun)).2.2 1 0
      (by decide) (by decide)⟩

/-! ## Slot lifetimes -/

/-- The producer is about to construct into a slot that still holds a live value. -/
def constructsOverLive (s : Sys α) : Bool :=
  match s.producer with
  | .construct _ writeIdx _ => (s.queue.items writeIdx).isSome
  | _ => false

/-- On a two-slot queue: `emplace(1)` into slot `0`, `pop()`, `emplace(2)` into slot `1`, `pop()`,
then `emplace(3)` up to its construction. Neither `pop()` moves its value out, so `emplace(3)`
reaches slot `0` where `1` still lives. -/
def popRun : List (Choice Nat) :=
  List.replicate 4 (.producer (.emplace 1)) ++ List.replicate 4 (.consumer .pop) ++
    List.replicate 5 (.producer (.emplace 2)) ++ List.replicate 4 (.consumer .pop) ++
    List.replicate 3 (.producer (.emplace 3))

/-- On a two-slot queue: `emplace(1)` into slot `0`, `reset()`, then `emplace(2)` up to its
construction, which reaches slot `0` where `1` still lives. -/
def resetRun : List (Choice Nat) :=
  List.replicate 4 (.producer (.emplace 1)) ++ [.reset] ++ List.replicate 2 (.producer (.emplace 2))

/-- A value is constructed over while it still lives, after `pop()` and after `reset()`. -/
theorem construct_over_live :
    Reachable 2 (run 2 init popRun) ∧ constructsOverLive (run 2 init popRun) = true ∧
      Reachable 2 (run 2 init resetRun) ∧ constructsOverLive (run 2 init resetRun) = true :=
  ⟨reachable_run 2 _, by decide, reachable_run 2 _, by decide⟩

end Sys

end Nsqueue
