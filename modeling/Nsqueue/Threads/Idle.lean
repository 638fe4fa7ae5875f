/-
The queue between operations. In every reachable state with both threads idle, `size()` and
`read_available()` equal the successful enqueues minus dequeues since the last `reset()`, which
is at most `capacity()`; `empty()` and `full()` report a count of `0` and of `capacity()`; the
next `emplace`/`push` fails exactly when `full()` and the next `pop`/`consume_one` exactly when
`empty()`; and run alone, `consume_all` hands over every held value oldest first and returns
`size()`, `consume_n` returns `min(n, size())`. A query made by one thread between two of its
operations loads only the other thread's index, and in every reachable state, whatever the other
thread is inside, it answers for the linearized FIFO (`queries_linearizable`).
-/
import Nsqueue.Threads.Linearizable

namespace Nsqueue

namespace Sys

variable {α : Type} {N : Nat}

/-- Neither thread is inside an operation. -/
def Idle (s : Sys α) : Prop := s.producer = .idle ∧ s.consumer = .idle

/-- One `emplace(7)` on a fresh queue, run to completion. -/
def emplaceRun : List (Choice Nat) := List.replicate 4 (.producer (.emplace 7))

/-! ## The consumer between operations -/

theorem contents_of_consumer_idle {s : Sys α} (hc : s.consumer = .idle) :
    s.contents N = s.queue.contents N := by
  simp [contents, view, hc, viewOf]

theorem queue_inv_of_consumer_idle (hN : ValidCapacity N) {s : Sys α} (hs : Reachable N s)
    (hc : s.consumer = .idle) : s.queue.Inv N := by
  simpa [view, hc, viewOf] using (hs.inv hN).view

/-- With the consumer between operations and a value held, slot `readIndex_` holds the FIFO's
head, the value `pop(T&)` run from that state hands over. -/
theorem readIndex_holds_head (hN : ValidCapacity N) {s : Sys α} (hs : Reachable N s)
    (hc : s.consumer = .idle) (hne : s.queue.readIndex ≠ s.queue.writeIndex) :
    s.queue.items s.queue.readIndex = (s.contents N).head? ∧
      (s.queue.popItem N).2.1 = s.queue.items s.queue.readIndex := by
  have hq := queue_inv_of_consumer_idle hN hs hc
  have hr := hq.readIndex_lt
  obtain ⟨v, q', hvq, hpop, -⟩ :=
    Queue.dequeue_nonempty hN hq true (by simp [Queue.empty, Ne.symm hne])
  obtain ⟨u, hu⟩ := Option.isSome_iff_exists.1 (by
    simpa [Nat.mod_eq_of_lt hr] using
      hq.live 0 (Nat.pos_of_ne_zero fun h0 => hne ((dist_eq_zero_iff hr).1 h0)))
  -- the oldest held value is the one in slot `readIndex_`
  have huv : u = v := by
    have h := Queue.contents_publishRead hN hr hq.writeIndex_lt hne hu
    rw [hvq] at h
    exact (List.cons.inj h).1.symm
  subst huv
  rw [contents_of_consumer_idle hc, hvq, hu]
  exact ⟨rfl, by rw [Queue.popItem, hpop]; rfl⟩

theorem readIndex_holds_head_sample :
    ValidCapacity 4 ∧ Reachable 4 (run 4 init emplaceRun) ∧
      (run 4 init emplaceRun).queue.items (run 4 init emplaceRun).queue.readIndex =
        ((run 4 init emplaceRun).contents 4).head? :=
  ⟨validCapacity_two_pow (k := 2) (by decide), reachable_run 4 _,
    (readIndex_holds_head (validCapacity_two_pow (k := 2) (by decide)) (reachable_run 4 emplaceRun) rfl
      (by decide)).1⟩

/-! ## Both threads between operations -/

section Idle

variable (hN : ValidCapacity N) {s : Sys α} (hs : Reachable N s) (hi : s.Idle)
include hN hs hi

theorem Idle.queue_inv : s.queue.Inv N := queue_inv_of_consumer_idle hN hs hi.2

/-- Between operations the count of the history is the number of values held. -/
theorem Idle.size_eq_count : (s.queue.size N : Int) = Fifo.count s.history := by
  rw [Queue.size_eq_length (Idle.queue_inv hN hs hi), ← contents_of_consumer_idle hi.2]
  exact (hs.inv hN).history.length_eq_count

theorem Idle.size_le : s.queue.size N ≤ N - 1 := by
  rw [Queue.size_eq_length (Idle.queue_inv hN hs hi), ← contents_of_consumer_idle hi.2]
  exact (hs.inv hN).history.length_le

end Idle

/-- Everything a single thread observes between operations agrees with the count of successful
enqueues minus dequeues since the last `reset()`, however often the indices have wrapped. -/
theorem idle_observations (hN : ValidCapacity N) {s : Sys α} (hs : Reachable N s) (hi : s.Idle) :
    (s.queue.size N : Int) = Fifo.count s.history ∧
      (s.queue.readAvailable N : Int) = Fifo.count s.history ∧
      Fifo.count s.history ≤ Queue.capacity N ∧ Queue.capacity N = N - 1 ∧
      (s.queue.empty = true ↔ Fifo.count s.history = 0) ∧
      (s.queue.full N = true ↔ Fifo.count s.history = Queue.capacity N) ∧
      (∀ v, (s.queue.emplace N v).1 = false ↔ s.queue.full N = true) ∧
      (∀ v, (s.queue.push N v).1 = false ↔ s.queue.full N = true) ∧
      ((s.queue.popItem N).1 = false ↔ s.queue.empty = true) ∧
      ((s.queue.pop N).1 = false ↔ s.queue.empty = true) ∧
      ((s.queue.consumeOne N).1 = false ↔ s.queue.empty = true) ∧
      (s.queue.consumeAll N).1 = s.queue.size N ∧ (s.queue.consumeAll N).2.1 = s.contents N ∧
      ∀ n, (s.queue.consumeN N n).1 = min n (s.queue.size N) := by
  have hq := Idle.queue_inv hN hs hi
  have hc := Idle.size_eq_count hN hs hi
  have hle := Idle.size_le hN hs hi
  have hcap : Queue.capacity N = N - 1 := hN.mask_eq
  have hpos := hN.pos
  refine ⟨hc, hc, ?_, hcap, ?_, ?_, fun v => Queue.emplace_eq_false_iff hN hq v,
    fun v => Queue.emplace_eq_false_iff hN hq v, Queue.dequeue_eq_false_iff hN hq true,
    Queue.dequeue_eq_false_iff hN hq false, Queue.dequeue_eq_false_iff hN hq true,
    (Queue.consumeAll_eq hN hq).1, ?_, Queue.consumeN_eq hN hq⟩
  · rw [hcap, ← hc]; omega
  · rw [Queue.empty_iff hq, ← hc]; simp only [Queue.size]; omega
  · rw [Queue.full_iff hN hq, hcap, ← hc]; simp only [Queue.size]; omega
  · rw [(Queue.consumeAll_eq hN hq).2, contents_of_consumer_idle hi.2]

theorem idle_observations_sample :
    ValidCapacity 4 ∧ Reachable 4 (run 4 init emplaceRun) ∧ (run 4 init emplaceRun).Idle ∧
      ((run 4 init emplaceRun).queue.size 4 : Int) = Fifo.count (run 4 init emplaceRun).history :=
  ⟨validCapacity_two_pow (k := 2) (by decide), reachable_run 4 _, ⟨rfl, rfl⟩,
    (idle_observations (validCapacity_two_pow (k := 2) (by decide)) (reachable_run 4 emplaceRun)
      ⟨rfl, rfl⟩).1⟩

/-! ## Queries during an operation of the other thread -/

/-- The FIFO holds as many values as the indices say, whatever either thread is inside. -/
theorem length_contents (hN : ValidCapacity N) {s : Sys α} (hs : Reachable N s) :
    (s.contents N).length = s.queue.size N := by
  rw [contents, ← Queue.size_eq_length (hs.inv hN).view]
  simp [view, Queue.size]

theorem contents_eq_nil_iff (hN : ValidCapacity N) {s : Sys α} (hs : Reachable N s) :
    s.contents N = [] ↔ s.queue.empty = true := by
  have hr : s.queue.readIndex < N := by simpa [view] using (hs.inv hN).view.readIndex_lt
  rw [← List.length_eq_zero, length_contents hN hs, Queue.size, dist_eq_zero_iff hr, Queue.empty,
    beq_iff_eq, eq_comm]

/-- `size()`, `read_available()`, `empty()` and `full()` load the other thread's index once and
read their own, which only the calling thread writes: called by the producer or the consumer
between two of its operations, each answers in the state of that load. In every reachable state,
whatever operation the other thread is inside, the answer is that of the FIFO the history has
linearized. -/
theorem queries_linearizable (hN : ValidCapacity N) {s : Sys α} (hs : Reachable N s) :
    s.queue.size N = (s.contents N).length ∧ s.queue.readAvailable N = (s.contents N).length ∧
      (s.queue.empty = true ↔ s.contents N = []) ∧
      (s.queue.full N = true ↔ (s.contents N).length = Queue.capacity N) := by
  have hlen := length_contents hN hs
  refine ⟨hlen.symm, hlen.symm, (contents_eq_nil_iff hN hs).symm, ?_⟩
  rw [hlen, show Queue.capacity N = N - 1 from hN.mask_eq]
  simpa [view, Queue.full, Queue.size] using Queue.full_iff hN (hs.inv hN).view

theorem queries_linearizable_sample :
    ValidCapacity 4 ∧ Reachable 4 (run 4 init sampleRun) ∧
      (run 4 init sampleRun).queue.size 4 = ((run 4 init sampleRun).contents 4).length :=
  ⟨validCapacity_two_pow (k := 2) (by decide), reachable_run 4 _,
    (queries_linearizable (validCapacity_two_pow (k := 2) (by decide)) (reachable_run 4 sampleRun)).1⟩

end Sys

end Nsqueue
