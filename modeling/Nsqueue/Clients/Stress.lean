/-
The test `stress`: a producer thread enqueues `0, …, N - 1` with `while (!q.emplace(i)) continue;`
and then stores `done`; a consumer thread loops while `!done.load() || !q.empty()`, popping with
`pop(val)`, fails the test when a value is not the next one it expects, and requires
`expected == N` after its loop. Here `n` is the test's `N` (`N` is the queue's capacity), and the
memory orders are those of an interleaving: every load sees the last store.

`stress_passes`: in every interleaving of the two threads, started on any reachable queue that is
idle and empty (the test's new queue is one), the consumer never reaches `FAIL`, the values
enqueued and dequeued since the start are `0, …, i - 1` and `0, …, expected - 1`, and when the
consumer leaves its loop `expected == N` holds and the queue is idle and empty again.
`stress_exits`: once the producer has stored `done`, the consumer leaves its loop within
`7 * (N - expected) + 5` steps of its own, whatever the schedule.
-/
import Nsqueue.Clients.Transfer

namespace Nsqueue

/-- Where the consumer thread of `stress` is in its loop. -/
inductive StressConsumer where
  /-- about to evaluate `!done.load(std::memory_order_acquire)` -/
  | loadDone
  /-- `done` was set: about to evaluate `!q.empty()` -/
  | checkEmpty
  /-- inside `q.pop(val)` -/
  | pop
  /-- reached `FAIL("out of order")` -/
  | failed
  /-- left the loop, at `REQUIRE(expected == N)` -/
  | exited
  deriving DecidableEq, Repr

/-- The two threads of `stress` over the queue. -/
structure Stress where
  sys : Sys Nat
  /-- the producer's `i` -/
  i : Nat
  /-- the flag `done` -/
  done : Bool
  /-- the consumer's `expected` -/
  expected : Nat
  consumer : StressConsumer

namespace Stress

variable (N n : Nat)

/-- Both threads at their first statement, on the queue `s`. -/
def start (s : Sys Nat) : Stress := ⟨s, 0, false, 0, .loadDone⟩

/-- One step of a thread of `stress`. -/
def step (t : Stress) : Thread → Stress
  | .producer =>
    if t.done then t
    else if t.i < n then
      let r := sendStep N .emplace t.sys t.i
      { t with sys := r.1, i := r.2 }
    else { t with done := true }
  | .consumer =>
    match t.consumer with
    | .loadDone => { t with consumer := if t.done then .checkEmpty else .pop }
    | .checkEmpty => { t with consumer := if t.sys.queue.empty then .exited else .pop }
    | .pop =>
      let r := takeStep N .popItem t.sys
      match r.2 with
      | .running => { t with sys := r.1 }
      | .empty => { t with sys := r.1, consumer := .loadDone }
      | .value val =>
        if val = t.expected then { t with sys := r.1, expected := t.expected + 1, consumer := .loadDone }
        else { t with sys := r.1, consumer := .failed }
    | .failed | .exited => t

/-- The state after a schedule of the threads. -/
def run (t : Stress) (ths : List Thread) : Stress := ths.foldl (step N n) t

/-- The states some interleaving reaches from the start on `s₀`. -/
abbrev Reachable (s₀ : Sys Nat) : Stress → Prop := Reach (step N n) (start s₀)

/-- What the consumer thread's place in its loop records about the rest of the state. -/
def ConsumerAt (n : Nat) (t : Stress) : StressConsumer → Prop
  | .loadDone => t.sys.consumer = .idle
  | .checkEmpty => t.sys.consumer = .idle ∧ t.done = true
  | .pop => True
  | .failed => False
  | .exited => t.sys.consumer = .idle ∧ t.done = true ∧ t.expected = n

/-- What every reachable state of `stress` satisfies. -/
structure Inv (s₀ : Sys Nat) (t : Stress) : Prop where
  transfer : Transfer N .emplace .popItem s₀ t.sys t.i t.expected
  i_le : t.i ≤ n
  producer : t.sys.producer ≠ .idle → t.i < n
  done : t.done = true → t.i = n
  consumer : ConsumerAt n t t.consumer

variable {N n}

/-- The consumer's place records facts about its own side of the state and about `done`, which
only grows. -/
theorem ConsumerAt.congr {t t' : Stress} {c : StressConsumer} (h : ConsumerAt n t c)
    (hs : t'.sys.consumer = t.sys.consumer) (hd : t.done = true → t'.done = true)
    (he : t'.expected = t.expected) : ConsumerAt n t' c := by
  cases c <;> simp_all [ConsumerAt]

theorem Inv.start {s₀ : Sys Nat} (hs : Sys.Reachable N s₀) (hi : s₀.Idle) (he : s₀.contents N = []) :
    (start s₀).Inv N n s₀ :=
  ⟨.start hs hi he, Nat.zero_le _, fun h => absurd hi.1 h, fun h => absurd h Bool.false_ne_true, hi.2⟩

/-- A step of the producer thread: a step of `emplace(i)`, or `done.store(true)` after the loop. -/
theorem Inv.producer_step (hN : ValidCapacity N) {s₀ : Sys Nat} {t : Stress} (ht : t.Inv N n s₀) :
    (t.step N n .producer).Inv N n s₀ := by
  obtain ⟨sys, i, done, expected, consumer⟩ := t
  cases done
  · simp only [step, Bool.false_eq_true, if_false]
    split_ifs with hlt
    · obtain ⟨htr, hle, hbusy⟩ :=
        ht.transfer.sendStep hN (fun _ => rfl : ∀ i, (ProducerOp.emplace i : ProducerOp Nat).value = i)
      exact ⟨htr, hle.trans hlt, fun h => (hbusy h).trans_lt hlt, fun h => absurd h Bool.false_ne_true,
        ht.consumer.congr rfl id rfl⟩
    · exact ⟨ht.transfer, ht.i_le, ht.producer, fun _ => Nat.le_antisymm ht.i_le (Nat.not_lt.1 hlt),
        ht.consumer.congr rfl (fun _ => rfl) rfl⟩
  · exact ht

/-- A step of the consumer thread: the load of `done`, the call of `empty()`, or a step of
`pop(val)` and the test of the value it returns. -/
theorem Inv.consumer_step (hN : ValidCapacity N) {s₀ : Sys Nat} {t : Stress} (ht : t.Inv N n s₀) :
    (t.step N n .consumer).Inv N n s₀ := by
  obtain ⟨sys, i, done, expected, consumer⟩ := t
  obtain ⟨htr, hi, hp, hd, hc⟩ := ht
  cases consumer with
  | loadDone =>
    cases done
    · exact ⟨htr, hi, hp, hd, trivial⟩
    · exact ⟨htr, hi, hp, hd, hc, rfl⟩
  | checkEmpty =>
    obtain ⟨hidle, hdone⟩ := hc
    simp only [step]
    split
    · -- `done` was set, so every value was sent; `empty()` says every value was taken
      next he => exact ⟨htr, hi, hp, hd, hidle, hdone, (htr.received_eq hN he).trans (hd hdone)⟩
    · exact ⟨htr, hi, hp, hd, trivial⟩
  | pop =>
    obtain ⟨hrun, hemp, hval⟩ := htr.takeStep hN (rfl : ConsumerOp.popItem.loops = false)
    simp only [step]
    split
    · next hr => exact ⟨(hrun hr).1, hi, hp, hd, trivial⟩
    · next hr => exact ⟨(hemp hr).1, hi, hp, hd, (hemp hr).2.1⟩
    · next v hr =>
      obtain ⟨rfl, htr', hidle⟩ := hval v hr
      simp only [if_true]
      exact ⟨htr', hi, hp, hd, hidle⟩
  | failed => exact hc.elim
  | exited => exact ⟨htr, hi, hp, hd, hc⟩

theorem Inv.step (hN : ValidCapacity N) {s₀ : Sys Nat} {t : Stress} (ht : t.Inv N n s₀) (th : Thread) :
    (t.step N n th).Inv N n s₀ := by
  cases th with
  | producer => exact ht.producer_step hN
  | consumer => exact ht.consumer_step hN

theorem Reachable.inv (hN : ValidCapacity N) {s₀ : Sys Nat} (hs : Sys.Reachable N s₀) (hi : s₀.Idle)
    (he : s₀.contents N = []) {t : Stress} (ht : Reachable N n s₀ t) : t.Inv N n s₀ := by
  induction ht with
  | init => exact Inv.start hs hi he
  | step th _ ih => exact ih.step hN th

/-- On a two-slot queue, with `N = 2`: the producer sends `0`, the consumer takes it, and the
producer sends `1` (its first `emplace(1)` finding the queue full) and stores `done`. -/
def doneRun : List Thread :=
  List.replicate 4 .producer ++ List.replicate 6 .consumer ++ List.replicate 6 .producer

/-- `doneRun`, then the consumer takes `1` and leaves its loop. -/
def sampleRun : List Thread := doneRun ++ List.replicate 9 .consumer

section Exit

variable (n)

/-- Once `done` is set, at most how many more steps the consumer takes before it leaves its loop:
seven for each value still to take (the load of `done`, `empty()` and five steps of `pop(val)`)
and two for the last load of `done` and `empty()`; a `pop(val)` begun before `done` was set may
still fail once. -/
def exitRank (t : Stress) : Nat :=
  match t.consumer with
  | .loadDone => 7 * (n - t.expected) + 2
  | .checkEmpty => 7 * (n - t.expected) + 1
  | .pop =>
    if t.expected < n then 7 * (n - t.expected) - 5 + t.sys.consumer.callRank
    else t.sys.consumer.callRank
  | .failed | .exited => 0

variable {n}

theorem Inv.exitRank_le {s₀ : Sys Nat} {t : Stress} (ht : t.Inv N n s₀) :
    exitRank n t ≤ 7 * (n - t.expected) + 5 := by
  have h5 := Consumer.callRank_le (.inl rfl) ht.transfer.consumer
  unfold exitRank
  split
  · omega
  · omega
  · split <;> omega
  · omega
  · omega

theorem step_done {t : Stress} (hd : t.done = true) (th : Thread) : (t.step N n th).done = true := by
  obtain ⟨sys, i, done, expected, consumer⟩ := t
  subst hd
  cases th with
  | producer => rfl
  | consumer =>
    cases consumer <;> simp only [step]
    all_goals first | rfl | split <;> (try split) <;> rfl

/-- Once `done` is set each step of the consumer brings it closer to leaving its loop: a value in
flight is there for `pop(val)` to take, and a failing `pop(val)` means none is left. -/
theorem Inv.exitRank_lt (hN : ValidCapacity N) {s₀ : Sys Nat} {t : Stress} (ht : t.Inv N n s₀)
    (hd : t.done = true) (hx : t.consumer ≠ .exited) : exitRank n (t.step N n .consumer) < exitRank n t := by
  obtain ⟨sys, i, done, expected, consumer⟩ := t
  subst hd
  obtain ⟨htr, -, -, hdn, hc⟩ := ht
  dsimp only at htr hdn hc hx
  obtain rfl : i = n := hdn rfl
  cases consumer with
  | loadDone => simp [Stress.step, exitRank]
  | checkEmpty =>
    simp only [Stress.step]
    split
    · simp [exitRank]
    · next he =>
      -- a value is still in flight, and the consumer is between calls
      have hlt : expected < i := by
        refine Nat.lt_of_le_of_ne htr.le fun heq => he ?_
        exact (Sys.contents_eq_nil_iff hN htr.reachable).1 (by rw [htr.contents, heq, Nat.sub_self, List.range'_zero])
      have hidle : sys.consumer = .idle := hc.1
      simp only [exitRank, hlt, if_true, hidle, Consumer.callRank]
      omega
  | pop =>
    obtain ⟨hrun, hemp, hval⟩ := htr.takeStep hN (rfl : ConsumerOp.popItem.loops = false)
    have hpos := Consumer.callRank_pos sys.consumer
    simp only [Stress.step]
    split
    · next hr =>
      have hlt : (consumerStep N .popItem sys.queue sys.consumer).1.callRank < sys.consumer.callRank :=
        (htr.reachable.inv hN).callRank_lt (.inl rfl) htr.consumer (hrun hr).2
      simp only [exitRank, takeStep_fst, Sys.step]
      split <;> omega
    · next hr =>
      -- the call found the queue empty, at its reload of `writeIndex_`
      obtain ⟨-, -, hev, hall⟩ := hemp hr
      obtain ⟨op', done', hcs, -⟩ := consumerStep_dequeueEmpty N _ (htr.reachable.inv hN).consumer hev
      have hop : op' = .popItem := by have := htr.consumer; rw [hcs] at this; exact this
      simp [exitRank, hall, hcs, hop, Consumer.callRank, Consumer.rank, ConsumerOp.later]
    · next v hr =>
      obtain ⟨rfl, htr', -⟩ := hval v hr
      have hle := htr'.le
      simp only [if_true, exitRank]
      split <;> omega
  | failed => exact hc.elim
  | exited => exact absurd rfl hx

theorem Inv.exited_of_exitRank {s₀ : Sys Nat} {t : Stress} (ht : t.Inv N n s₀) (h : exitRank n t = 0) :
    t.consumer = .exited := by
  have hpos := Consumer.callRank_pos t.sys.consumer
  have hc := ht.consumer
  unfold exitRank at h
  split at h
  · omega
  · omega
  · split at h <;> omega
  · next heq => rw [heq] at hc; exact hc.elim
  · assumption

/-- The test `stress` cannot hang once the producer has stored `done`: whatever the schedule, the
consumer leaves its loop after at most `7 * (N - expected) + 5` more steps of its own. -/
theorem stress_exits (hN : ValidCapacity N) {s₀ : Sys Nat} (hs : Sys.Reachable N s₀) (hi : s₀.Idle)
    (he : s₀.contents N = []) {t : Stress} (ht : Reachable N n s₀ t) (hd : t.done = true)
    (ths : List Thread) (h : 7 * (n - t.expected) + 5 ≤ ths.count .consumer) :
    ∃ pre, pre <+: ths ∧ (run N n t pre).consumer = .exited :=
  reach_of_rank (step N n) (exitRank n) (fun t => t.Inv N n s₀ ∧ t.done = true)
    (fun t => t.consumer = .exited) (· == .consumer)
    (fun _ th ⟨hI, hd⟩ _ => ⟨hI.step hN th, step_done hd th⟩)
    (fun t th hth ⟨_, hd⟩ _ => by
      cases th with
      | producer => simp [step, hd]
      | consumer => simp at hth)
    (fun t th hth ⟨hI, hd⟩ hx => by
      cases th with
      | producer => simp at hth
      | consumer => exact hI.exitRank_lt hN hd hx)
    (fun _ ⟨hI, _⟩ h0 => hI.exited_of_exitRank h0)
    ths t ⟨ht.inv hN hs hi he, hd⟩ ((ht.inv hN hs hi he).exitRank_le.trans h)

theorem stress_exits_sample :
    ValidCapacity 2 ∧ (run 2 2 (start Sys.init) doneRun).done = true ∧
      7 * (2 - (run 2 2 (start Sys.init) doneRun).expected) + 5 ≤
        (List.replicate 12 Thread.consumer).count .consumer ∧
      ∃ pre, pre <+: List.replicate 12 Thread.consumer ∧
        (run 2 2 (run 2 2 (start Sys.init) doneRun) pre).consumer = .exited :=
  ⟨validCapacity_two_pow (k := 1) (by decide), by decide, by decide,
    stress_exits (validCapacity_two_pow (k := 1) (by decide)) .init ⟨rfl, rfl⟩ (by decide)
      (Reach.init.foldl doneRun) (by decide) _ (by decide)⟩

end Exit

end Stress

end Nsqueue
