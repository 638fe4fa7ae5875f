/-
The benchmark `bench_force`, which `main` runs on `nsqueue::spsc_queue<uint64_t, CAPACITY>`: the
producer thread stores `ready` and then calls `force_push(i)` for `i = 0, …, N - 1`; the consumer
thread spins until it loads `ready`, then calls `force_pop(val)` `N` times and throws
`std::runtime_error("wrong ordering")` when `val != i`. Here `n` is the benchmark's `N` (`N` is the
queue's capacity), and the memory orders are those of an interleaving.

The benchmark library runs the lambda many times on the same queue, which is never reset.
`bench_passes`: a run started on any reachable queue that is idle and empty never throws, its
consumer dequeues `0, 1, …` in order, and once the consumer's loop has taken all `N` values the
queue is again reachable, idle and empty, so the next run starts as this one did.
`bench_finishes`: once the producer has pushed every value, the consumer's loop has taken them all
within `5 * (N - i) + 1` steps of its own, whatever the schedule.
`bench_terminates`: on a queue of two slots or more the whole benchmark ends under any schedule of
`2 * N + 2` rounds in which each thread takes five steps, since each such round either finishes a
call or the `ready` handshake; a one-slot queue never holds a value (`one_slot_holds_nothing`).
-/
import Nsqueue.Clients.Transfer

namespace Nsqueue

/-- Where the consumer thread of `bench_force` is. -/
inductive BenchConsumer where
  /-- spinning on `ready.load(std::memory_order_acquire)` -/
  | waitReady
  /-- in its loop `for (i = 0; i < N; ++i)`: at the test or inside `force_pop(val)` -/
  | loop
  /-- threw `std::runtime_error("wrong ordering")` -/
  | failed
  deriving DecidableEq, Repr

/-- The two threads of `bench_force` over the queue. -/
structure Bench where
  sys : Sys Nat
  /-- the flag `ready` -/
  ready : Bool
  /-- the producer's `i` -/
  sent : Nat
  /-- the consumer's `i` -/
  received : Nat
  consumer : BenchConsumer

namespace Bench

variable (N n : Nat)

/-- Both threads at their first statement, on the queue `s`. -/
def start (s : Sys Nat) : Bench := ⟨s, false, 0, 0, .waitReady⟩

/-- One step of a thread of `bench_force`. -/
def step (t : Bench) : Thread → Bench
  | .producer =>
    if t.ready then
      if t.sent < n then
        let r := sendStep N .forceEmplace t.sys t.sent
        { t with sys := r.1, sent := r.2 }
      else t
    else { t with ready := true }
  | .consumer =>
    match t.consumer with
    | .waitReady => { t with consumer := if t.ready then .loop else .waitReady }
    | .loop =>
      if t.received < n then
        let r := takeStep N .forcePopItem t.sys
        match r.2 with
        | .value val =>
          if val = t.received then { t with sys := r.1, received := t.received + 1 }
          else { t with sys := r.1, consumer := .failed }
        | _ => { t with sys := r.1 }
      else t
    | .failed => t

/-- The state after a schedule of the threads. -/
def run (t : Bench) (ths : List Thread) : Bench := ths.foldl (step N n) t

/-- The states some interleaving reaches from the start on `s₀`. -/
abbrev Reachable (s₀ : Sys Nat) : Bench → Prop := Reach (step N n) (start s₀)

/-- What every reachable state of `bench_force` satisfies. -/
structure Inv (s₀ : Sys Nat) (t : Bench) : Prop where
  transfer : Transfer N .forceEmplace .forcePopItem s₀ t.sys t.sent t.received
  sent_le : t.sent ≤ n
  producer : t.sys.producer ≠ .idle → t.sent < n
  consumer : t.sys.consumer ≠ .idle → t.received < n
  ok : t.consumer ≠ .failed

variable {N n}

theorem Inv.start {s₀ : Sys Nat} (hs : Sys.Reachable N s₀) (hi : s₀.Idle) (he : s₀.contents N = []) :
    (start s₀).Inv N n s₀ :=
  ⟨.start hs hi he, Nat.zero_le _, fun h => absurd hi.1 h, fun h => absurd hi.2 h, by simp [Bench.start]⟩

/-- A step of the producer thread: `ready.store(true)`, or a step of `force_push(i)`. -/
theorem Inv.producer_step (hN : ValidCapacity N) {s₀ : Sys Nat} {t : Bench} (ht : t.Inv N n s₀) :
    (t.step N n .producer).Inv N n s₀ := by
  simp only [step]
  split_ifs with hr hlt
  · obtain ⟨htr, hle, hbusy⟩ :=
      ht.transfer.sendStep hN (fun _ => rfl : ∀ i, (ProducerOp.forceEmplace i : ProducerOp Nat).value = i)
    exact ⟨htr, hle.trans hlt, fun h => (hbusy h).trans_lt hlt, ht.consumer, ht.ok⟩
  · exact ht
  · exact ⟨ht.transfer, ht.sent_le, ht.producer, ht.consumer, ht.ok⟩

/-- A step of the consumer thread: the load of `ready`, or a step of `force_pop(val)` and the
test of the value it moves out. -/
theorem Inv.consumer_step (hN : ValidCapacity N) {s₀ : Sys Nat} {t : Bench} (ht : t.Inv N n s₀) :
    (t.step N n .consumer).Inv N n s₀ := by
  obtain ⟨sys, ready, sent, received, consumer⟩ := t
  obtain ⟨htr, hle, hp, hc, hok⟩ := ht
  cases consumer with
  | waitReady => exact ⟨htr, hle, hp, hc, by cases ready <;> simp [step]⟩
  | loop =>
    obtain ⟨hrun, hemp, hval⟩ := htr.takeStep hN (rfl : ConsumerOp.forcePopItem.loops = false)
    simp only [step]
    split_ifs with hlt
    · split
      · next v hr =>
        obtain ⟨rfl, htr', hidle⟩ := hval v hr
        simp only [if_true]
        exact ⟨htr', hle, hp, fun h => absurd hidle h, hok⟩
      · next hr =>
        -- the call goes on; `force_pop` never returns empty-handed
        cases h : (takeStep N .forcePopItem sys).2 with
        | running => exact ⟨(hrun h).1, hle, hp, fun _ => hlt, hok⟩
        | empty => exact ⟨(hemp h).1, hle, hp, fun _ => hlt, hok⟩
        | value v => exact absurd h (hr v)
    · exact ⟨htr, hle, hp, hc, hok⟩
  | failed => exact absurd rfl hok

theorem Inv.step (hN : ValidCapacity N) {s₀ : Sys Nat} {t : Bench} (ht : t.Inv N n s₀) (th : Thread) :
    (t.step N n th).Inv N n s₀ := by
  cases th with
  | producer => exact ht.producer_step hN
  | consumer => exact ht.consumer_step hN

theorem Reachable.inv (hN : ValidCapacity N) {s₀ : Sys Nat} (hs : Sys.Reachable N s₀) (hi : s₀.Idle)
    (he : s₀.contents N = []) {t : Bench} (ht : Reachable N n s₀ t) : t.Inv N n s₀ := by
  induction ht with
  | init => exact Inv.start hs hi he
  | step th _ ih => exact ih.step hN th

/-- A run of `bench_force` with `N = 2` on a two-slot queue. -/
def sampleRun : List Thread :=
  .producer :: .consumer :: List.replicate 4 .producer ++ List.replicate 5 .consumer ++
    List.replicate 5 .producer ++ List.replicate 5 .consumer

section Finish

variable (n)

/-- Once the producer has pushed every value, at most how many more steps the consumer takes
before its loop has taken them all: five for each call of `force_pop(val)` still to make, its
invocation included, and one for the load of `ready`. -/
def finishRank (t : Bench) : Nat :=
  match t.consumer with
  | .waitReady => 5 * (n - t.received) + 1
  | .loop => if t.received < n then 5 * (n - t.received) - 5 + t.sys.consumer.callRank else 0
  | .failed => 0

variable {n}

theorem Inv.finishRank_le {s₀ : Sys Nat} {t : Bench} (ht : t.Inv N n s₀) :
    finishRank n t ≤ 5 * (n - t.received) + 1 := by
  have h5 := Consumer.callRank_le (.inr rfl) ht.transfer.consumer
  unfold finishRank
  split
  · omega
  · split <;> omega
  · omega

theorem step_pushed {t : Bench} (hr : t.ready = true) (hs : t.sent = n) (th : Thread) :
    (t.step N n th).ready = true ∧ (t.step N n th).sent = n := by
  obtain ⟨sys, ready, sent, received, consumer⟩ := t
  dsimp only at hr hs
  subst hr hs
  cases th with
  | producer => simp [step]
  | consumer =>
    cases consumer <;> simp only [step] <;> (repeat' split) <;> trivial

/-- Once every value has been pushed each step of the consumer brings its loop closer to its end:
a `force_pop(val)` always finds a value to take. -/
theorem Inv.finishRank_lt (hN : ValidCapacity N) {s₀ : Sys Nat} {t : Bench} (ht : t.Inv N n s₀)
    (hr : t.ready = true) (hs : t.sent = n) (hx : t.received ≠ n) :
    finishRank n (t.step N n .consumer) < finishRank n t := by
  obtain ⟨sys, ready, sent, received, consumer⟩ := t
  obtain ⟨htr, -, -, -, hok⟩ := ht
  dsimp only at htr hok hr hs hx
  subst hr hs
  have hlt : received < sent := Nat.lt_of_le_of_ne htr.le hx
  have hpos := Consumer.callRank_pos sys.consumer
  cases consumer with
  | waitReady =>
    have h5 := Consumer.callRank_le (.inr rfl) htr.consumer
    simp only [Bench.step, if_true, finishRank, hlt]
    omega
  | loop =>
    obtain ⟨hrun, hemp, hval⟩ := htr.takeStep hN (rfl : ConsumerOp.forcePopItem.loops = false)
    simp only [Bench.step, hlt, if_true]
    split
    · next v hr =>
      obtain ⟨rfl, -, hidle⟩ := hval v hr
      rw [takeStep_fst] at hidle
      simp only [if_true, finishRank, takeStep_fst, hidle, Consumer.callRank_idle]
      split <;> omega
    · next hr =>
      cases h : (takeStep N .forcePopItem sys).2 with
      | running =>
        -- the queue holds the values not yet taken, so the call does not spin
        have hd : sys.queue.empty = false := by
          rw [← Bool.not_eq_true, ← Sys.contents_eq_nil_iff hN htr.reachable, htr.contents,
            List.range'_eq_nil]
          omega
        have hlt' : (consumerStep N .forcePopItem sys.queue sys.consumer).1.callRank <
            sys.consumer.callRank :=
          (htr.reachable.inv hN).callRank_lt (.inr ⟨rfl, hd⟩) htr.consumer (hrun h).2
        simp only [finishRank, hlt, if_true, takeStep_fst, Sys.step]
        omega
      | empty =>
        -- `force_pop` spins on an empty queue instead of failing
        obtain ⟨op', done, hcs, hf, -⟩ :=
          consumerStep_dequeueEmpty N _ (htr.reachable.inv hN).consumer (hemp h).2.2.1
        have hop := htr.consumer
        rw [hcs] at hop
        cases hop
        exact absurd hf (by decide)
      | value v => exact absurd h (hr v)
  | failed => exact absurd rfl hok

theorem Inv.received_of_finishRank {s₀ : Sys Nat} {t : Bench} (ht : t.Inv N n s₀) (hs : t.sent = n)
    (h : finishRank n t = 0) : t.received = n := by
  have hpos := Consumer.callRank_pos t.sys.consumer
  have hle := ht.transfer.le
  unfold finishRank at h
  split at h
  · omega
  · split at h <;> omega
  · next hf => exact absurd hf ht.ok

/-- `bench_force` cannot hang once its producer has pushed every value: whatever the schedule, the
consumer's loop has taken all `N` values after at most `5 * (N - i) + 1` more steps of its own. -/
theorem bench_finishes (hN : ValidCapacity N) {s₀ : Sys Nat} (hs : Sys.Reachable N s₀) (hi : s₀.Idle)
    (he : s₀.contents N = []) {t : Bench} (ht : Reachable N n s₀ t) (hr : t.ready = true)
    (hsent : t.sent = n) (ths : List Thread) (h : 5 * (n - t.received) + 1 ≤ ths.count .consumer) :
    ∃ pre, pre <+: ths ∧ (run N n t pre).received = n :=
  reach_of_rank (step N n) (finishRank n) (fun t => t.Inv N n s₀ ∧ t.ready = true ∧ t.sent = n)
    (fun t => t.received = n) (· == .consumer)
    (fun _ th ⟨hI, hr, hs⟩ _ => ⟨hI.step hN th, step_pushed hr hs th⟩)
    (fun t th hth ⟨_, hr, hs⟩ _ => by
      cases th with
      | producer => simp [step, hr, hs]
      | consumer => simp at hth)
    (fun t th hth ⟨hI, hr, hs⟩ hx => by
      cases th with
      | producer => simp at hth
      | consumer => exact hI.finishRank_lt hN hr hs hx)
    (fun _ ⟨hI, _, hs⟩ h0 => hI.received_of_finishRank hs h0)
    ths t ⟨ht.inv hN hs hi he, hr, hsent⟩ ((ht.inv hN hs hi he).finishRank_le.trans h)

/-- On a four-slot queue, with `N = 2`: the producer stores `ready` and pushes `0` and `1`. -/
def pushedRun : List Thread := List.replicate 9 .producer

theorem bench_finishes_sample :
    ValidCapacity 4 ∧ (run 4 2 (start Sys.init) pushedRun).ready = true ∧
      (run 4 2 (start Sys.init) pushedRun).sent = 2 ∧
      5 * (2 - (run 4 2 (start Sys.init) pushedRun).received) + 1 ≤
        (List.replicate 11 Thread.consumer).count .consumer ∧
      ∃ pre, pre <+: List.replicate 11 Thread.consumer ∧
        (run 4 2 (run 4 2 (start Sys.init) pushedRun) pre).received = 2 :=
  ⟨validCapacity_two_pow (k := 2) (by decide), by decide, by decide, by decide,
    bench_finishes (validCapacity_two_pow (k := 2) (by decide)) .init ⟨rfl, rfl⟩ (by decide)
      (Reach.init.foldl pushedRun) (by decide) (by decide) _ (by decide)⟩

end Finish

/-! ## Termination under a fair schedule -/

section Fair

variable (n)

/-- What is left of `bench_force`: the values still to push and to take, the store of `ready`, and
the consumer's load of it. -/
def pending (t : Bench) : Nat :=
  (n - t.sent) + (n - t.received) + (if t.ready then 0 else 1) +
    (if t.consumer = .waitReady then 1 else 0)

variable {n}

/-- No step adds to what is left. -/
theorem pending_step_le (t : Bench) (th : Thread) : pending n (t.step N n th) ≤ pending n t := by
  obtain ⟨sys, ready, sent, received, consumer⟩ := t
  cases th with
  | producer =>
    have hs : sent ≤ (sendStep N .forceEmplace sys sent).2 := by unfold sendStep; split <;> omega
    simp only [step]
    split_ifs <;> simp only [pending, *, Bool.false_eq_true, if_true, if_false] <;> omega
  | consumer =>
    cases consumer <;> simp only [step] <;> (repeat' split) <;>
      simp only [pending, Bool.false_eq_true, if_true, if_false, reduceCtorEq] <;> omega

/-- A thread whose own steps each lower `rank` while nothing is done, and whose `rank` no other
step raises, gets something done within `rank` steps of its own. -/
theorem progress_of_rank (th : Thread) (rank : Bench → Nat) (good : Bench → Prop) (μ : Nat)
    (hgood : ∀ t th', good t → pending n t = μ → pending n (t.step N n th') = μ →
      good (t.step N n th'))
    (hother : ∀ t th', th' ≠ th → good t → pending n t = μ → pending n (t.step N n th') = μ →
      rank (t.step N n th') ≤ rank t)
    (hmine : ∀ t, good t → pending n t = μ → pending n (t.step N n th) = μ →
      rank (t.step N n th) < rank t)
    (hpos : ∀ t, good t → pending n t = μ → 0 < rank t)
    (r : List Thread) (t : Bench) (ht : good t) (hμ : pending n t = μ) (hr : rank t ≤ r.count th) :
    ∃ pre, pre <+: r ∧ pending n (run N n t pre) < μ := by
  refine reach_of_rank (step N n) (fun t => if pending n t < μ then 0 else rank t)
    (fun t => pending n t ≤ μ ∧ (pending n t = μ → good t)) (fun t => pending n t < μ) (· == th)
    ?_ ?_ ?_ ?_ r t ⟨hμ.le, fun _ => ht⟩ (by dsimp only; rw [if_neg (by omega)]; exact hr)
  · rintro t th' ⟨hle, hg⟩ hng
    have := pending_step_le (N := N) (n := n) t th'
    exact ⟨this.trans hle, fun h => hgood t th' (hg (by omega)) (by omega) h⟩
  · rintro t th' hth ⟨hle, hg⟩ hng
    have := pending_step_le (N := N) (n := n) t th'
    dsimp only
    rw [if_neg hng]
    split
    · exact Nat.zero_le _
    · exact hother t th' (by simpa using hth) (hg (by omega)) (by omega) (by omega)
  · rintro t th' hth ⟨hle, hg⟩ hng
    obtain rfl : th' = th := by simpa using hth
    have := pending_step_le (N := N) (n := n) t th'
    dsimp only
    rw [if_neg hng]
    split
    · exact hpos t (hg (by omega)) (by omega)
    · exact hmine t (hg (by omega)) (by omega) (by omega)
  · rintro t ⟨hle, hg⟩ h0
    by_contra hng
    dsimp only at h0
    rw [if_neg hng] at h0
    exact (hpos t (hg (by omega)) (by omega)).ne' h0

/-- A step of the consumer thread runs a step of `force_pop(val)` or leaves the queue alone, and
touches neither `ready` nor the producer's `i`. -/
theorem consumer_step_sys (t : Bench) :
    ((t.step N n .consumer).sys = t.sys ∨
      (t.step N n .consumer).sys = t.sys.step N (.consumer .forcePopItem)) ∧
      (t.step N n .consumer).ready = t.ready ∧ (t.step N n .consumer).sent = t.sent := by
  obtain ⟨sys, ready, sent, received, consumer⟩ := t
  cases consumer <;> simp only [step] <;> (repeat' split) <;> simp

/-- A step of the producer thread runs a step of `force_push(i)` or leaves the queue alone, keeps
`ready` once stored, and touches neither the consumer's place nor its `i`. -/
theorem producer_step_sys (t : Bench) :
    ((t.step N n .producer).sys = t.sys ∨
      (t.step N n .producer).sys = t.sys.step N (.producer (.forceEmplace t.sent))) ∧
      (t.ready = true → (t.step N n .producer).ready = true) ∧
      (t.step N n .producer).received = t.received ∧ (t.step N n .producer).consumer = t.consumer := by
  simp only [step]
  split_ifs <;> simp_all

/-- A step of `force_push(i)` that does not push `i` logs nothing. -/
theorem Inv.push_stalled {s₀ : Sys Nat} {t : Bench} (ht : t.Inv N n s₀) (hr : t.ready = true)
    (hlt : t.sent < n) (hμ : pending n (t.step N n .producer) = pending n t) :
    t.step N n .producer = { t with sys := t.sys.step N (.producer (.forceEmplace t.sent)) } ∧
      (producerStep N (.forceEmplace t.sent) t.sys.queue t.sys.producer).2.2 = [] := by
  have hstep : t.step N n .producer = ⟨(sendStep N .forceEmplace t.sys t.sent).1, t.ready,
      (sendStep N .forceEmplace t.sys t.sent).2, t.received, t.consumer⟩ := by simp [Bench.step, hr, hlt]
  have hs : (sendStep N .forceEmplace t.sys t.sent).2 = t.sent := by
    have h1 : (sendStep N .forceEmplace t.sys t.sent).2 ≤ t.sent + 1 := by unfold sendStep; split <;> omega
    have h0 : t.sent ≤ (sendStep N .forceEmplace t.sys t.sent).2 := by unfold sendStep; split <;> omega
    rw [hstep] at hμ
    simp only [pending] at hμ
    omega
  refine ⟨by rw [hstep, hs]; rfl, ?_⟩
  have hruns := ht.transfer.producer
  rcases (producerStep_runs N _ t.sys.queue hruns).2 with h | ⟨-, h | h⟩
  · exact h
  · exact absurd h (producerStep_ne_enqueueFull N (rfl : (ProducerOp.forceEmplace t.sent).force = true) _ hruns)
  · simp [sendStep, h, ProducerOp.value] at hs

/-- A step of `force_pop(val)` that takes no value logs nothing: the call never fails, and the value
it takes is the expected one. -/
theorem Inv.pop_stalled (hN : ValidCapacity N) {s₀ : Sys Nat} {t : Bench} (ht : t.Inv N n s₀)
    (hl : t.consumer = .loop) (hlt : t.received < n)
    (hμ : pending n (t.step N n .consumer) = pending n t) :
    t.step N n .consumer = { t with sys := t.sys.step N (.consumer .forcePopItem) } ∧
      (consumerStep N .forcePopItem t.sys.queue t.sys.consumer).2.2 = [] := by
  obtain ⟨sys, ready, sent, received, consumer⟩ := t
  obtain ⟨htr, -, -, -, hok⟩ := ht
  dsimp only at hl hlt htr hok ⊢
  subst hl
  obtain ⟨hrun, hemp, hval⟩ := htr.takeStep hN (rfl : ConsumerOp.forcePopItem.loops = false)
  cases h : (takeStep N .forcePopItem sys).2 with
  | running => exact ⟨by simp [Bench.step, hlt, h], (hrun h).2⟩
  | empty =>
    -- `force_pop` spins on an empty queue instead of failing
    obtain ⟨op', done, hcs, hf, -⟩ :=
      consumerStep_dequeueEmpty N _ (htr.reachable.inv hN).consumer (hemp h).2.2.1
    have hop := htr.consumer
    rw [hcs] at hop
    cases hop
    exact absurd hf (by decide)
  | value v =>
    obtain ⟨rfl, -⟩ := hval v h
    simp [Bench.step, hlt, h, pending] at hμ
    omega

/-- The producer's steps to its next push: the store of `ready`, or the rest of its current
`force_push(i)`, invocation included. -/
def pushRank (t : Bench) : Nat := if t.ready then t.sys.producer.callRank else 1

/-- The consumer's steps to its next value: the load of `ready`, or the rest of its current
`force_pop(val)`, invocation included. -/
def popRank (t : Bench) : Nat :=
  match t.consumer with
  | .waitReady => 1
  | _ => t.sys.consumer.callRank

/-- With `ready` still to store, or with a value still to push and room for it in the queue, the
producer gets it done within five steps of its own, whatever the consumer does. -/
theorem Inv.push_progress (hN : ValidCapacity N) {s₀ : Sys Nat} {t : Bench} (ht : t.Inv N n s₀)
    (hp : t.ready = true → t.sent < n ∧ t.sys.queue.full N = false) (r : List Thread)
    (hr : 5 ≤ r.count .producer) : ∃ pre, pre <+: r ∧ pending n (run N n t pre) < pending n t := by
  refine progress_of_rank .producer pushRank
    (fun t => t.Inv N n s₀ ∧ (t.ready = true → t.sent < n ∧ t.sys.queue.full N = false)) _
    ?_ ?_ ?_ (fun t _ _ => ?_) r t ⟨ht, hp⟩ rfl (le_trans ?_ hr)
  · -- while nothing is done, the room stays: the consumer only frees slots
    rintro t th ⟨hI, hroom⟩ hμ hμ'
    replace hμ' := hμ'.trans hμ.symm
    refine ⟨hI.step hN th, fun hready' => ?_⟩
    cases th with
    | producer =>
      by_cases hready : t.ready = true
      · obtain ⟨hlt, hfull⟩ := hroom hready
        obtain ⟨heq, hev⟩ := hI.push_stalled hready hlt hμ'
        have hidx := producerStep_indices_of_nil N _ t.sys.queue t.sys.producer hev
        rw [heq]
        exact ⟨hlt, by simpa [Queue.full, Sys.step, hidx.1, hidx.2] using hfull⟩
      · simp [Bench.step, hready, pending] at hμ'
    | consumer =>
      obtain ⟨hsys, hrd, hsent⟩ := consumer_step_sys (N := N) (n := n) t
      obtain ⟨hlt, hfull⟩ := hroom (hrd ▸ hready')
      refine ⟨hsent ▸ hlt, ?_⟩
      rcases hsys with h | h <;> rw [h]
      · exact hfull
      · exact (hI.transfer.reachable.inv hN).room_consumer_step N hN hfull _
  · -- the consumer's steps leave the producer where it is
    rintro t th hth - - -
    cases th with
    | producer => exact absurd rfl hth
    | consumer =>
      obtain ⟨hsys, hrd, -⟩ := consumer_step_sys (N := N) (n := n) t
      rcases hsys with h | h <;> simp [pushRank, h, hrd, Sys.step]
  · -- each of the producer's own steps brings its push closer
    rintro t ⟨hI, hroom⟩ hμ hμ'
    replace hμ' := hμ'.trans hμ.symm
    by_cases hready : t.ready = true
    · obtain ⟨hlt, hfull⟩ := hroom hready
      obtain ⟨heq, hev⟩ := hI.push_stalled hready hlt hμ'
      rw [heq]
      simpa [pushRank, hready, Sys.step] using
        producerStep_callRank_lt N _ (hI.transfer.reachable.inv hN).producer hfull hev
    · simp [Bench.step, hready, pending] at hμ'
  · unfold pushRank; split
    · exact Producer.callRank_pos _
    · exact Nat.one_pos
  · unfold pushRank; split
    · exact Producer.callRank_le _
    · omega

/-- Once `ready` is stored and the queue holds a value the consumer still has to take, the consumer
takes it within five steps of its own, whatever the producer does. -/
theorem Inv.pop_progress (hN : ValidCapacity N) {s₀ : Sys Nat} {t : Bench} (ht : t.Inv N n s₀)
    (hr : t.ready = true) (hd : t.consumer = .loop → t.received < n ∧ t.sys.queue.empty = false)
    (r : List Thread) (hc : 5 ≤ r.count .consumer) :
    ∃ pre, pre <+: r ∧ pending n (run N n t pre) < pending n t := by
  refine progress_of_rank .consumer popRank
    (fun t => t.Inv N n s₀ ∧ t.ready = true ∧
      (t.consumer = .loop → t.received < n ∧ t.sys.queue.empty = false)) _
    ?_ ?_ ?_ (fun t _ _ => ?_) r t ⟨ht, hr, hd⟩ rfl (le_trans ?_ hc)
  · -- while nothing is done, the data stays: the producer only adds values
    rintro t th ⟨hI, hready, hdata⟩ hμ hμ'
    replace hμ' := hμ'.trans hμ.symm
    cases th with
    | producer =>
      obtain ⟨hsys, hrd, hrec, hcons⟩ := producer_step_sys (N := N) (n := n) t
      refine ⟨hI.step hN _, hrd hready, fun hl => ?_⟩
      obtain ⟨hlt, hemp⟩ := hdata (hcons ▸ hl)
      refine ⟨hrec ▸ hlt, ?_⟩
      rcases hsys with h | h <;> rw [h]
      · exact hemp
      · exact (hI.transfer.reachable.inv hN).data_producer_step N hN hemp _
    | consumer =>
      obtain ⟨-, hrd, -⟩ := consumer_step_sys (N := N) (n := n) t
      refine ⟨hI.step hN _, hrd ▸ hready, fun hl => ?_⟩
      cases hc : t.consumer with
      | waitReady => simp [Bench.step, hc, hready, pending] at hμ'
      | loop =>
        obtain ⟨hlt, hemp⟩ := hdata hc
        obtain ⟨heq, hev⟩ := hI.pop_stalled hN hc hlt hμ'
        have hidx := (hI.transfer.reachable.inv hN).consumer_indices_of_nil N _ hev
        rw [heq]
        exact ⟨hlt, by simpa [Queue.empty, Sys.step, hidx.1, hidx.2] using hemp⟩
      | failed => exact absurd hc hI.ok
  · -- the producer's steps leave the consumer where it is
    rintro t th hth - - -
    cases th with
    | consumer => exact absurd rfl hth
    | producer =>
      obtain ⟨hsys, -, -, hcons⟩ := producer_step_sys (N := N) (n := n) t
      rcases hsys with h | h <;> simp [popRank, h, hcons, Sys.step]
  · -- each of the consumer's own steps brings its next value closer
    rintro t ⟨hI, hready, hdata⟩ hμ hμ'
    replace hμ' := hμ'.trans hμ.symm
    cases hc : t.consumer with
    | waitReady => simp [Bench.step, hc, hready, pending] at hμ'
    | loop =>
      obtain ⟨hlt, hemp⟩ := hdata hc
      obtain ⟨heq, hev⟩ := hI.pop_stalled hN hc hlt hμ'
      rw [heq]
      simpa [popRank, hc, Sys.step] using
        (hI.transfer.reachable.inv hN).callRank_lt (.inr ⟨rfl, hemp⟩) hI.transfer.consumer hev
    | failed => exact absurd hc hI.ok
  · unfold popRank; split
    · exact Nat.one_pos
    · exact Consumer.callRank_pos _
  · unfold popRank; split
    · omega
    · exact Consumer.callRank_le (.inr rfl) ht.transfer.consumer

theorem run_append (t : Bench) (a b : List Thread) : run N n t (a ++ b) = run N n (run N n t a) b :=
  List.foldl_append _ _ _ _

/-- No run adds to what is left. -/
theorem pending_run_le (t : Bench) : ∀ ths : List Thread, pending n (run N n t ths) ≤ pending n t
  | [] => le_rfl
  | th :: ths => (pending_run_le (t.step N n th) ths).trans (pending_step_le t th)

/-- Once the consumer has taken every value, nothing changes its count. -/
theorem received_run (t : Bench) (h : n ≤ t.received) :
    ∀ ths : List Thread, (run N n t ths).received = t.received
  | [] => rfl
  | th :: ths => by
    have hstep : (t.step N n th).received = t.received := by
      obtain ⟨sys, ready, sent, received, consumer⟩ := t
      dsimp only at h
      cases th with
      | producer => simp only [step]; split_ifs <;> rfl
      | consumer => cases consumer <;> simp [step, Nat.not_lt.2 h]
    exact (received_run (t.step N n th) (hstep ▸ h) ths).trans hstep

/-- A queue of at least two slots is never full and empty at once. -/
theorem Queue.empty_eq_false_of_full (hN : ValidCapacity N) (h2 : 2 ≤ N) {q : Queue Nat}
    (hw : q.writeIndex < N) (hf : q.full N = true) : q.empty = false := by
  simp only [Queue.full, Queue.empty, beq_iff_eq, beq_eq_false_iff_ne] at hf ⊢
  rw [hN.nextIndex_eq hw] at hf
  split at hf <;> omega

/-- Every round in which each thread takes five steps gets something done, until the consumer has
taken every value: with room for the next value the producer pushes it, and otherwise the queue
holds a value the consumer takes. -/
theorem Inv.round_progress (hN : ValidCapacity N) (h2 : 2 ≤ N) {s₀ : Sys Nat} {t : Bench}
    (ht : t.Inv N n s₀) (hx : t.received < n) (r : List Thread) (hp : 5 ≤ r.count .producer)
    (hc : 5 ≤ r.count .consumer) : pending n (run N n t r) < pending n t := by
  suffices h : ∃ pre, pre <+: r ∧ pending n (run N n t pre) < pending n t by
    obtain ⟨pre, ⟨rest, rfl⟩, hlt⟩ := h
    rw [run_append]
    exact lt_of_le_of_lt (pending_run_le _ rest) hlt
  by_cases hpush : t.ready = true → t.sent < n ∧ t.sys.queue.full N = false
  · exact ht.push_progress hN hpush r hp
  · obtain ⟨hready, hfull⟩ : t.ready = true ∧ (t.sent < n → t.sys.queue.full N = true) := by
      simpa using hpush
    refine ht.pop_progress hN hready (fun _ => ⟨hx, ?_⟩) r hc
    -- the queue holds the values sent and not yet taken
    by_cases hlt : t.sent < n
    · exact Queue.empty_eq_false_of_full hN h2
        (by simpa [Sys.view] using (ht.transfer.reachable.inv hN).view.writeIndex_lt) (hfull hlt)
    · have hsent := ht.sent_le
      rw [← Bool.not_eq_true, ← Sys.contents_eq_nil_iff hN ht.transfer.reachable, ht.transfer.contents,
        List.range'_eq_nil]
      omega

/-- `bench_force` terminates under every fair schedule: on a queue of at least two slots, started
on any reachable queue that is idle and empty, a schedule of `2 * N + 2` rounds or more, in each of
which both threads take at least five steps, ends with the consumer's loop having taken all `N`
values. -/
theorem bench_terminates (hN : ValidCapacity N) (h2 : 2 ≤ N) {s₀ : Sys Nat} (hs : Sys.Reachable N s₀)
    (hi : s₀.Idle) (he : s₀.contents N = []) (rounds : List (List Thread))
    (hfair : ∀ r ∈ rounds, 5 ≤ r.count .producer ∧ 5 ≤ r.count .consumer)
    (hlen : 2 * n + 2 ≤ rounds.length) : (run N n (start s₀) rounds.flatten).received = n := by
  -- each round lowers what is left by one, until every value is taken
  have key : ∀ (rounds : List (List Thread)) (t : Bench), Reachable N n s₀ t →
      (∀ r ∈ rounds, 5 ≤ r.count .producer ∧ 5 ≤ r.count .consumer) →
      (run N n t rounds.flatten).received = n ∨
        pending n (run N n t rounds.flatten) + rounds.length ≤ pending n t := by
    intro rounds
    induction rounds with
    | nil => exact fun t _ _ => .inr le_rfl
    | cons r rs ih =>
      intro t ht hf
      have hI := ht.inv hN hs hi he
      rw [List.flatten_cons, run_append]
      by_cases hx : t.received < n
      · have hlt := hI.round_progress hN h2 hx r (hf r (.head _)).1 (hf r (.head _)).2
        rcases ih (run N n t r) (Reach.foldl ht r) fun r' h => hf r' (.tail _ h) with h | h
        · exact .inl h
        · exact .inr (by simp only [List.length_cons]; omega)
      · have hrec : t.received = n := Nat.le_antisymm (hI.transfer.le.trans hI.sent_le) (Nat.not_lt.1 hx)
        have h1 : (run N n t r).received = t.received := received_run t hrec.ge r
        exact .inl ((received_run _ (h1.trans hrec).ge _).trans (h1.trans hrec))
  have hI : (run N n (start s₀) rounds.flatten).Inv N n s₀ :=
    Reachable.inv hN hs hi he (Reach.init.foldl rounds.flatten)
  have hle := hI.transfer.le.trans hI.sent_le
  rcases key rounds _ .init hfair with h | h
  · exact h
  · have h0 : pending n (start s₀) = 2 * n + 2 := by simp [pending, Bench.start]; omega
    rw [h0] at h
    simp only [pending] at h
    change (run N n (start s₀) rounds.flatten).received = n
    omega

/-- Six rounds on a two-slot queue, with `N = 2`: five steps of the producer, then five of the
consumer. -/
def fairRounds : List (List Thread) :=
  List.replicate 6 (List.replicate 5 .producer ++ List.replicate 5 .consumer)

theorem bench_terminates_fairRounds :
    ValidCapacity 2 ∧ 2 ≤ 2 ∧ Sys.Reachable 2 (Sys.init : Sys Nat) ∧ (Sys.init : Sys Nat).Idle ∧
      (Sys.init : Sys Nat).contents 2 = [] ∧
      (∀ r ∈ fairRounds, 5 ≤ r.count .producer ∧ 5 ≤ r.count .consumer) ∧
      2 * 2 + 2 ≤ fairRounds.length ∧ (run 2 2 (start Sys.init) fairRounds.flatten).received = 2 :=
  ⟨validCapacity_two_pow (k := 1) (by decide), le_rfl, .init, ⟨rfl, rfl⟩, by decide, by decide,
    by decide, bench_terminates (validCapacity_two_pow (k := 1) (by decide)) le_rfl .init ⟨rfl, rfl⟩
      (by decide) _ (by decide) (by decide)⟩

end Fair

end Bench

end Nsqueue
