/-
The capacity check. `static_assert((N & (N - 1)) == 0)` is evaluated in `std::size_t`, where
`N - 1` wraps: it admits exactly `0` and the powers of two (`staticAssert_iff`). For a power of two every index stays below `N` in every reachable state, so
each slot the threads touch is one of the `N` (`indices_lt`), and `capacity()` values fit: that
many calls of `emplace` on a new queue succeed and the next fails (`capacity_attained`). At
`N = 0` the check passes, `mask_` is `SIZE_MAX`, and the first `emplace` constructs into
`items_[0]` of a storage with no slots and stores `writeIndex_ = 1` (`staticAssert_admits_zero`).
-/
import Nsqueue.Threads.Idle

namespace Nsqueue

/-! ## The check -/

theorem testBit_of_two_pow_le {x k : Nat} (h1 : 2 ^ k ≤ x) (h2 : x < 2 ^ (k + 1)) :
    x.testBit k = true := by
  have hx : x = 2 ^ k + (x - 2 ^ k) := by omega
  rw [hx, Nat.testBit_two_pow_add_eq, Nat.testBit_lt_two_pow (by rw [Nat.pow_succ] at h2; omega)]
  rfl

/-- A positive `n` has no bit in common with `n - 1` exactly when it is a power of two: otherwise
both share the leading bit of `n`. -/
theorem and_pred_eq_zero_iff {n : Nat} (hn : n ≠ 0) : n &&& (n - 1) = 0 ↔ n.isPowerOfTwo := by
  constructor
  · intro h
    refine ⟨n.log2, Nat.le_antisymm (Nat.not_lt.1 fun hlt => ?_) (Nat.log2_self_le hn)⟩
    have hup : n < 2 ^ (n.log2 + 1) := Nat.lt_log2_self
    have hb : (n &&& (n - 1)).testBit n.log2 = true := by
      rw [Nat.testBit_and, testBit_of_two_pow_le (Nat.log2_self_le hn) hup,
        testBit_of_two_pow_le (by omega) (by omega)]
      rfl
    simp [h] at hb
  · rintro ⟨k, rfl⟩
    rw [Nat.and_pow_two_sub_one_eq_mod, Nat.mod_self]

theorem mask_of_ne_zero {N : Nat} (h0 : N ≠ 0) (hN : N < 2 ^ 64) : mask N = N - 1 := by
  unfold mask; omega

/-- The `static_assert` admits `0` and the powers of two below `2^64`, and nothing else. -/
theorem staticAssert_iff {N : Nat} (hN : N < 2 ^ 64) :
    staticAssert N = true ↔ N = 0 ∨ N.isPowerOfTwo := by
  rw [staticAssert, beq_iff_eq]
  by_cases h0 : N = 0
  · simp [h0]
  · rw [mask_of_ne_zero h0 hN, and_pred_eq_zero_iff h0]
    simp [h0]

theorem staticAssert_iff_four : (4 : Nat) < 2 ^ 64 ∧ staticAssert 4 = true :=
  ⟨by decide, (staticAssert_iff (by decide)).2 (.inr ⟨2, rfl⟩)⟩

theorem validCapacity_iff {N : Nat} (hN : N < 2 ^ 64) :
    ValidCapacity N ↔ staticAssert N = true ∧ N ≠ 0 := by
  rw [staticAssert, beq_iff_eq]
  constructor
  · intro h
    have h0 := h.pos.ne'
    exact ⟨by rw [mask_of_ne_zero h0 hN, and_pred_eq_zero_iff h0]; exact h.pow, h0⟩
  · rintro ⟨h, h0⟩
    rw [mask_of_ne_zero h0 hN, and_pred_eq_zero_iff h0] at h
    exact ⟨h, hN⟩

/-! ## Indices in range -/

namespace Sys

variable {α : Type} {N : Nat}

/-- For a power of two `N`, in every reachable state the four indices are below `N`, and so is
the slot the producer is about to construct into and the slot the consumer is about to move out
of. -/
theorem indices_lt (hN : ValidCapacity N) {s : Sys α} (hs : Reachable N s) :
    s.queue.writeIndex < N ∧ s.queue.readIndex < N ∧ s.queue.readIndexCache < N ∧
      s.queue.writeIndexCache < N ∧
      (∀ op writeIdx nextWriteIdx, s.producer = .construct op writeIdx nextWriteIdx → writeIdx < N) ∧
      (∀ op done readIdx, s.consumer = .take op done readIdx → readIdx < N) := by
  obtain ⟨hv, hp, hc, -⟩ := hs.inv hN
  have hw : s.queue.writeIndex < N := by simpa [view] using hv.writeIndex_lt
  have hr : s.queue.readIndex < N := by simpa [view] using hv.readIndex_lt
  refine ⟨hw, hr, by simpa [view] using hv.readIndexCache_lt,
    by simpa [view] using hv.writeIndexCache_lt, ?_, ?_⟩
  · rintro op w n hpc
    rw [hpc] at hp
    exact hp.1 ▸ hw
  · rintro op done r hcc
    rw [hcc] at hc
    exact hc.1 ▸ hr

theorem indices_lt_sample :
    ValidCapacity 4 ∧ Reachable 4 (run 4 init [.producer (.emplace 7), .producer (.emplace 7)]) ∧
      (run 4 init [.producer (.emplace 7), .producer (.emplace 7)]).queue.writeIndex < 4 :=
  ⟨validCapacity_two_pow (k := 2) (by decide), reachable_run 4 _,
    (indices_lt (validCapacity_two_pow (k := 2) (by decide)) (reachable_run 4 _)).1⟩

/-! ## The capacity is attained -/

/-- `k` calls of `emplace(v)` on a new queue, each run to completion, all take the fast path:
slots `0` to `k - 1` hold `v`, `writeIndex_` is `k` and both caches are still `0`. -/
theorem run_fill (hN : ValidCapacity N) (v : α) :
    ∀ k ≤ N - 1, run N init (List.replicate (4 * k) (.producer (.emplace v))) =
      ⟨⟨fun j => if j < k then some v else none, 0, 0, k, 0⟩, .idle, .idle,
        List.replicate k (.enqueue v)⟩
  | 0, _ => by
    simp only [Nat.mul_zero, List.replicate, run_nil, init, Queue.init, Nat.not_lt_zero, if_false]
  | k + 1, hk => by
    have hpos := hN.pos
    have hnext : nextIndex N k = k + 1 := by rw [hN.nextIndex_eq (by omega), if_neg (by omega)]
    rw [show 4 * (k + 1) = 4 * k + 4 by omega, List.replicate_add, run_append, run_fill hN v k (by omega)]
    simp only [List.replicate, run_cons, run_nil, step, producerStep, hnext, if_neg (Nat.succ_ne_zero k),
      ProducerOp.value, List.append_nil, List.append_assoc, List.singleton_append, Sys.mk.injEq]
    refine ⟨?_, trivial, trivial, by rw [← List.replicate_succ', ← List.replicate_succ]⟩
    simp only [Queue.construct, Queue.publishWrite, Queue.mk.injEq, and_true]
    funext j
    simp only [Function.update_apply]
    split_ifs <;> first | rfl | omega

/-- A new queue holds `capacity()` values: that many calls of `emplace(v)`, each run to completion,
all succeed and leave the queue holding them, and the next call fails. -/
theorem capacity_attained (hN : ValidCapacity N) (v : α) :
    Reachable N (run N init (List.replicate (4 * Queue.capacity N) (.producer (.emplace v)))) ∧
      (run N init (List.replicate (4 * Queue.capacity N) (.producer (.emplace v)))).history =
        List.replicate (Queue.capacity N) (.enqueue v) ∧
      (run N init (List.replicate (4 * Queue.capacity N) (.producer (.emplace v)))).contents N =
        List.replicate (Queue.capacity N) v ∧
      (run N init (List.replicate (4 * Queue.capacity N + 3) (.producer (.emplace v)))).history =
        List.replicate (Queue.capacity N) (.enqueue v) ++ [.enqueueFull] := by
  have hfill := run_fill hN v (N - 1) le_rfl
  have hpos := hN.pos
  rw [show Queue.capacity N = N - 1 from hN.mask_eq]
  refine ⟨reachable_run N _, by rw [hfill], ?_, ?_⟩
  · -- nothing was dequeued and there was no `reset()`, so the queue holds what was enqueued
    have h := ((reachable_run N (List.replicate (4 * (N - 1)) (.producer (.emplace v)))).inv hN).history
    rw [hfill] at h ⊢
    simpa [Fifo.dequeued, Fifo.enqueued, List.filterMap_replicate] using h.dequeued_append (by simp)
  · have hwrap : nextIndex N (N - 1) = 0 := by rw [hN.nextIndex_eq (by omega), if_pos (by omega)]
    rw [List.replicate_add, run_append, hfill]
    simp [List.replicate, step, producerStep, hwrap, ProducerOp.force]

theorem capacity_attained_four :
    ValidCapacity 4 ∧
      (run 4 init (List.replicate (4 * Queue.capacity 4 + 3) (.producer (.emplace 7)))).history =
        List.replicate (Queue.capacity 4) (.enqueue 7) ++ [.enqueueFull] :=
  ⟨validCapacity_two_pow (k := 2) (by decide),
    (capacity_attained (validCapacity_two_pow (k := 2) (by decide)) 7).2.2.2⟩

/-! ## A capacity of zero -/

/-- `N = 0` passes the `static_assert`; `capacity()` is `SIZE_MAX`, and `emplace(7)` succeeds,
constructing into slot `0` and storing `writeIndex_ = 1`. -/
theorem staticAssert_admits_zero :
    staticAssert 0 = true ∧ Queue.capacity 0 = 2 ^ 64 - 1 ∧ Reachable 0 (run 0 init emplaceRun) ∧
      (run 0 init emplaceRun).history = [.enqueue 7] ∧ (run 0 init emplaceRun).queue.items 0 = some 7 ∧
      (run 0 init emplaceRun).queue.writeIndex = 1 :=
  ⟨by decide, by decide, reachable_run 0 _, by decide, by decide, by decide⟩

end Sys

end Nsqueue
