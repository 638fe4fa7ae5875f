/-
The values `0, 1, …` sent through the queue by the repository's own clients, the test `stress`
and the benchmark `bench_force`. Their producer thread runs `for (i = 0; i < N; ++i)` over a call
that enqueues `i` (`sendStep`), their consumer thread takes values with a call that dequeues
(`takeStep`), and `Transfer` is what every interleaving keeps between the two: since the start the
producer has enqueued `0, …, sent - 1`, the consumer has taken `0, …, received - 1`, and the queue
holds the values in between. `Transfer.sendStep` and `Transfer.takeStep` are all the clients'
safety proofs use of the queue; a value taken is always the next one (`Transfer.takeStep`). For
their termination, `Sys.Inv.callRank_lt` bounds the steps a call of `pop(T&)`, or of
`force_pop(T&)` with data in the queue, still takes.
-/
import Nsqueue.Threads.Idle
import Nsqueue.Threads.Progress

namespace Nsqueue

/-- The thread a client's scheduler runs next. -/
inductive Thread where
  | producer
  | consumer
  deriving DecidableEq, Repr

variable {α : Type}

/-- The producer is idle or inside `op`. -/
def Producer.Runs (op : ProducerOp α) : Producer α → Prop
  | .idle => True
  | .load op' | .reload op' .. | .construct op' .. | .publish op' .. => op' = op

/-- The consumer is idle or inside `op`. -/
def Consumer.Runs (op : ConsumerOp) : Consumer α → Prop
  | .idle => True
  | .load op' _ | .reload op' .. | .take op' .. | .release op' .. => op' = op

theorem Consumer.runs_found (op : ConsumerOp) (done r : Nat) :
    (Consumer.found op done r : Consumer α).Runs op := by
  unfold Consumer.found; split <;> rfl

/-! ## One step of a call -/

section Calls

variable (N : Nat)

/-- A step of the producer inside `op` stays inside it, or returns: having logged its failure, or
its enqueue of `op.value`. -/
theorem producerStep_runs (op : ProducerOp α) (q : Queue α) {p : Producer α} (hp : p.Runs op) :
    (producerStep N op q p).1.Runs op ∧
      ((producerStep N op q p).2.2 = [] ∨ (producerStep N op q p).1 = .idle ∧
        ((producerStep N op q p).2.2 = [.enqueueFull] ∨
          (producerStep N op q p).2.2 = [.enqueue op.value])) := by
  cases p with
  | idle => exact ⟨rfl, .inl rfl⟩
  | load op' => obtain rfl : op' = op := hp; simp only [producerStep]; split <;> simp [Producer.Runs]
  | reload op' => obtain rfl : op' = op := hp; simp only [producerStep]; split_ifs <;> simp [Producer.Runs]
  | construct op' | publish op' => obtain rfl : op' = op := hp; simp [producerStep, Producer.Runs]

/-- A step of the consumer inside an `op` that makes one call stays inside it, or returns: having
logged its failure, or the dequeue of a value. -/
theorem consumerStep_runs {op : ConsumerOp} (hl : op.loops = false) (q : Queue α) {c : Consumer α}
    (hc : c.Runs op) :
    (consumerStep N op q c).1.Runs op ∧
      ((consumerStep N op q c).2.2 = [] ∨ (consumerStep N op q c).1 = .idle ∧
        ((consumerStep N op q c).2.2 = [.dequeueEmpty] ∨
          ∃ v, (consumerStep N op q c).2.2 = [.dequeue v])) := by
  cases c with
  | idle => exact ⟨rfl, .inl rfl⟩
  | load op' | reload op' =>
    obtain rfl : op' = op := hc
    simp only [consumerStep]
    split_ifs <;> simp only [Consumer.runs_found] <;> simp [Consumer.Runs]
  | take op' => obtain rfl : op' = op := hc; simp [consumerStep, Consumer.Runs]
  | release op' done r item =>
    obtain rfl : op' = op := hc
    simp only [consumerStep, Consumer.after, hl]
    cases removed item q r <;> simp [Consumer.Runs]

/-- A failing dequeue returns from its reload of `writeIndex_`, having found the queue empty, in a
call that does not spin. -/
theorem consumerStep_dequeueEmpty (op : ConsumerOp) {q : Queue α} {c : Consumer α}
    (hc : ConsumerOk q c) (he : (consumerStep N op q c).2.2 = [.dequeueEmpty]) :
    ∃ op' done, c = .reload op' done q.readIndex ∧ op'.force = false ∧ q.empty = true := by
  cases c with
  | reload op' done r =>
    change r = q.readIndex at hc
    subst hc
    simp only [consumerStep, Queue.reloadWriteIndex_writeIndexCache] at he
    split_ifs at he with h1 h2
    exact ⟨op', done, rfl, by simpa using h2, by simp [Queue.empty, h1]⟩
  | release op' done r item =>
    simp only [consumerStep] at he
    rcases h : removed item q r with _ | v <;> simp [h] at he
  | idle | take => simp [consumerStep] at he
  | load op' done => simp only [consumerStep] at he; split_ifs at he

end Calls

/-! ## How far a call of `pop(T&)` or `force_pop(T&)` is from returning -/

section CallRank

variable (N : Nat)

/-- The steps a call of `pop(T&)` or `force_pop(T&)` still takes, its invocation included. -/
def Consumer.callRank (c : Consumer α) : Nat :=
  match c with
  | .idle => 5
  | c => c.rank

@[simp] theorem Consumer.callRank_idle : (Consumer.idle : Consumer α).callRank = 5 := rfl

theorem Consumer.callRank_pos (c : Consumer α) : 0 < c.callRank := by
  cases c with
  | idle => exact Nat.succ_pos 4
  | load op done => simp only [Consumer.callRank, Consumer.rank]; split <;> omega
  | _ => simp [Consumer.callRank, Consumer.rank]

theorem Consumer.callRank_le {op : ConsumerOp} (hop : op = .popItem ∨ op = .forcePopItem)
    {c : Consumer α} (hc : c.Runs op) : c.callRank ≤ 5 := by
  cases c with
  | idle => exact le_rfl
  | load op' | reload op' | take op' | release op' =>
    obtain rfl : op' = op := hc
    rcases hop with rfl | rfl <;>
      simp [Consumer.callRank, Consumer.rank, ConsumerOp.proceeds, ConsumerOp.later]

theorem Consumer.callRank_of_ne_idle {c : Consumer α} (h : c ≠ .idle) : c.callRank = c.rank := by
  cases c with
  | idle => exact absurd rfl h
  | _ => rfl

theorem Consumer.found_ne_idle (op : ConsumerOp) (done r : Nat) :
    (Consumer.found op done r : Consumer α) ≠ .idle := by
  unfold Consumer.found; split <;> simp

/-- A call that always proceeds, run by the consumer from its load, reload or move-out, is still
running after a step that logs nothing. -/
theorem consumerStep_ne_idle {op : ConsumerOp} (hp : ∀ d, op.proceeds d = true) (q : Queue α)
    {c : Consumer α} (hc : c.Runs op) (hi : c ≠ .idle) (hrel : ∀ op' d r item, c ≠ .release op' d r item)
    (hr : (consumerStep N op q c).2.2 = []) : (consumerStep N op q c).1 ≠ .idle := by
  cases c with
  | idle => exact absurd rfl hi
  | load op' done =>
    obtain rfl : op' = op := hc
    simp only [consumerStep, hp, if_true]
    split
    · simp
    · exact Consumer.found_ne_idle _ _ _
  | reload op' done r =>
    obtain rfl : op' = op := hc
    simp only [consumerStep] at hr ⊢
    split_ifs at hr ⊢
    · simp
    · exact Consumer.found_ne_idle _ _ _
  | take => simp [consumerStep]
  | release op' d r item => exact absurd rfl (hrel op' d r item)

/-- Inside `pop(T&)`, or inside `force_pop(T&)` with data in the queue, a step of the consumer that
does not return brings the call closer to its end. -/
theorem Sys.Inv.callRank_lt {N : Nat} {s : Sys α} (hs : s.Inv N) {op : ConsumerOp}
    (hop : op = .popItem ∨ op = .forcePopItem ∧ s.queue.empty = false) (hc : s.consumer.Runs op)
    (hr : (consumerStep N op s.queue s.consumer).2.2 = []) :
    (consumerStep N op s.queue s.consumer).1.callRank < s.consumer.callRank := by
  have hp : ∀ d, op.proceeds d = true := by rcases hop with rfl | ⟨rfl, -⟩ <;> exact fun _ => rfl
  by_cases hi : s.consumer = .idle
  · rw [hi]
    rcases hop with rfl | ⟨rfl, -⟩ <;>
      simp [consumerStep, Consumer.callRank, Consumer.rank, ConsumerOp.proceeds, ConsumerOp.later]
  have hrel : ∀ op' d r item, s.consumer ≠ .release op' d r item := by
    intro op' d r item hcs
    obtain ⟨u, hu⟩ := hs.removed_eq_some hcs
    rw [hcs] at hr
    simp [consumerStep, hu] at hr
  rw [Consumer.callRank_of_ne_idle (consumerStep_ne_idle N hp s.queue hc hi hrel hr),
    Consumer.callRank_of_ne_idle hi]
  rcases hop with rfl | ⟨rfl, hd⟩
  · refine (consumerStep_rank_lt N _ s.queue hi ?_).1
    cases h : s.consumer <;> simp_all [Consumer.Runs, Consumer.bounded, ConsumerOp.bounded]
  · refine consumerStep_rank_lt_of_data N _ hs.consumer ?_ hd
    cases h : s.consumer <;> simp_all [Consumer.Runs, Consumer.forced, ConsumerOp.force]

/-- The steps a call of `force_push(i)` still takes once the queue has room, its invocation
included. -/
def Producer.callRank (p : Producer α) : Nat :=
  match p with
  | .idle => 5
  | p => p.rank

theorem Producer.callRank_pos (p : Producer α) : 0 < p.callRank := by
  cases p <;> simp [Producer.callRank, Producer.rank]

theorem Producer.callRank_le (p : Producer α) : p.callRank ≤ 5 := by
  cases p <;> simp [Producer.callRank, Producer.rank]

/-- A producer step that logs nothing leaves the producer inside a call. -/
theorem producerStep_ne_idle (op : ProducerOp α) (q : Queue α) (p : Producer α)
    (hr : (producerStep N op q p).2.2 = []) : (producerStep N op q p).1 ≠ .idle := by
  cases p with
  | idle | construct => simp [producerStep]
  | load => simp only [producerStep]; split <;> simp
  | reload => simp only [producerStep] at hr ⊢; split_ifs at hr ⊢ <;> simp_all
  | publish => simp [producerStep] at hr

/-- A producer step that logs nothing moves neither index. -/
theorem producerStep_indices_of_nil (op : ProducerOp α) (q : Queue α) (p : Producer α)
    (hr : (producerStep N op q p).2.2 = []) :
    (producerStep N op q p).2.1.readIndex = q.readIndex ∧
      (producerStep N op q p).2.1.writeIndex = q.writeIndex := by
  obtain ⟨hr', hw | ⟨-, -, -, -, -, hidle⟩⟩ := producerStep_indices N op q p
  · exact ⟨hr', hw⟩
  · exact absurd hidle (producerStep_ne_idle N op q p hr)

/-- In a reachable state a consumer step that logs nothing moves neither index: every store of
`readIndex_` logs the value it removes. -/
theorem Sys.Inv.consumer_indices_of_nil {s : Sys α} (hs : s.Inv N) (op : ConsumerOp)
    (hr : (consumerStep N op s.queue s.consumer).2.2 = []) :
    (consumerStep N op s.queue s.consumer).2.1.readIndex = s.queue.readIndex ∧
      (consumerStep N op s.queue s.consumer).2.1.writeIndex = s.queue.writeIndex := by
  obtain ⟨hw, hr' | ⟨op', done, r, item, hc, -, -⟩⟩ := consumerStep_indices N op s.queue s.consumer
  · exact ⟨hr', hw⟩
  · obtain ⟨u, hu⟩ := hs.removed_eq_some hc
    rw [hc] at hr
    simp [consumerStep, hu] at hr

/-- `force_emplace` never fails: it spins where `emplace` returns `false`. -/
theorem producerStep_ne_enqueueFull {op : ProducerOp α} (hf : op.force = true) (q : Queue α)
    {p : Producer α} (hp : p.Runs op) : (producerStep N op q p).2.2 ≠ [.enqueueFull] := by
  cases p with
  | reload op' =>
    obtain rfl : op' = op := hp
    simp only [producerStep, hf, if_true]
    split_ifs <;> simp
  | idle | load | construct | publish => simp [producerStep]

/-- With room in the queue, a step of the producer that logs nothing brings its call closer to its
end. -/
theorem producerStep_callRank_lt (op : ProducerOp α) {q : Queue α} {p : Producer α}
    (hp : ProducerOk N q p) (hroom : q.full N = false) (hr : (producerStep N op q p).2.2 = []) :
    (producerStep N op q p).1.callRank < p.callRank := by
  have hrank : (producerStep N op q p).1.callRank = (producerStep N op q p).1.rank := by
    cases h : (producerStep N op q p).1 with
    | idle => exact absurd h (producerStep_ne_idle N op q p hr)
    | _ => rfl
  rw [hrank]
  cases p with
  | idle => simp [producerStep, Producer.rank, Producer.callRank]
  | _ => exact producerStep_rank_lt_of_room N op hp (by simp) hroom

end CallRank

namespace Sys

variable {N : Nat}

/-- A step that logs nothing leaves the FIFO as it was, and one that logs `e` moves it by one step
of the FIFO. -/
theorem contents_step (hN : ValidCapacity N) {s : Sys α} (hs : Reachable N s) (c : Choice α)
    {es : List (Event α)} (hes : (s.step N c).history = s.history ++ es) :
    (es = [] → (s.step N c).contents N = s.contents N) ∧
      ∀ e, es = [e] → Fifo.Step (N - 1) (s.contents N) e ((s.step N c).contents N) := by
  have h₁ := (hs.inv hN).history
  have hs' : Reachable N (s.step N c) := .step c hs
  have h₂ := (hs'.inv hN).history
  rw [hes] at h₂
  refine ⟨fun h0 => ?_, fun e he => ?_⟩
  · subst h0
    exact (h₁.unique (by simpa using h₂)).symm
  · subst he
    obtain ⟨q, hq, hstep⟩ := h₂.snoc_inv
    exact h₁.unique hq ▸ hstep

end Sys

/-! ## The two threads of a client -/

variable (N : Nat)

/-- One step of a producer thread inside `for (i = 0; i < N; ++i)` whose body calls `send i` until
a call succeeds: the state after the step and the loop's `i`, which moves on once the call has
logged its enqueue. -/
def sendStep (send : Nat → ProducerOp Nat) (s : Sys Nat) (i : Nat) : Sys Nat × Nat :=
  (s.step N (.producer (send i)),
    if (producerStep N (send i) s.queue s.producer).2.2 = [.enqueue i] then i + 1 else i)

@[simp] theorem sendStep_fst (send : Nat → ProducerOp Nat) (s : Sys Nat) (i : Nat) :
    (sendStep N send s i).1 = s.step N (.producer (send i)) := rfl

/-- What a step of a dequeuing call returned, if it returned. -/
inductive Taken where
  /-- the call has not returned -/
  | running
  /-- the call returned `false`: the queue was empty -/
  | empty
  /-- the call returned `true`, moving out the value -/
  | value (v : Nat)

/-- One step of a consumer thread inside a call of `take`: the state after it and what the call
returned. -/
def takeStep (take : ConsumerOp) (s : Sys Nat) : Sys Nat × Taken :=
  (s.step N (.consumer take),
    match (consumerStep N take s.queue s.consumer).2.2 with
    | [] => .running
    | [.dequeue v] => .value v
    | _ => .empty)

@[simp] theorem takeStep_fst (take : ConsumerOp) (s : Sys Nat) :
    (takeStep N take s).1 = s.step N (.consumer take) := rfl

/-- What every interleaving keeps between a producer thread sending `0, 1, …` with `send` and a
consumer thread taking values with `take`, started on the queue `s₀`. -/
structure Transfer (send : Nat → ProducerOp Nat) (take : ConsumerOp) (s₀ s : Sys Nat)
    (sent received : Nat) : Prop where
  reachable : Sys.Reachable N s
  producer : s.producer.Runs (send sent)
  consumer : s.consumer.Runs take
  le : received ≤ sent
  history : ∃ h, s.history = s₀.history ++ h ∧ Fifo.enqueued h = List.range sent ∧
    Fifo.dequeued h = List.range received
  contents : s.contents N = List.range' received (sent - received)

theorem range'_append_singleton {r s : Nat} (h : r ≤ s) :
    List.range' r (s - r) ++ [s] = List.range' r (s + 1 - r) := by
  rw [show s + 1 - r = s - r + 1 by omega, List.range'_concat, Nat.one_mul, Nat.add_sub_cancel' h]

theorem range'_eq_cons {r s v : Nat} {l : List Nat} (h : List.range' r (s - r) = v :: l) :
    v = r ∧ l = List.range' (r + 1) (s - (r + 1)) := by
  obtain ⟨k, hk⟩ : ∃ k, s - r = k + 1 :=
    Nat.exists_eq_add_one.2 (Nat.pos_of_ne_zero fun h0 => by rw [h0] at h; simp at h)
  rw [hk, List.range'_succ] at h
  obtain ⟨rfl, rfl⟩ := List.cons.inj h
  exact ⟨rfl, by congr 1; omega⟩

namespace Transfer

variable {N} {send : Nat → ProducerOp Nat} {take : ConsumerOp} {s₀ s : Sys Nat} {sent received : Nat}

/-- A client starts on a reachable queue that is idle and empty. -/
theorem start (hs : Sys.Reachable N s₀) (hi : s₀.Idle) (he : s₀.contents N = []) :
    Transfer N send take s₀ s₀ 0 0 := by
  refine ⟨hs, ?_, ?_, le_rfl, ⟨[], by simp, rfl, rfl⟩, he⟩
  · rw [hi.1]; trivial
  · rw [hi.2]; trivial

/-- One step of the producer thread: it keeps the transfer, moves `i` on by at most one, and only
once the call has returned. -/
theorem sendStep (hN : ValidCapacity N) (hv : ∀ i, (send i).value = i)
    (ht : Transfer N send take s₀ s sent received) :
    Transfer N send take s₀ (sendStep N send s sent).1 (sendStep N send s sent).2 received ∧
      (sendStep N send s sent).2 ≤ sent + 1 ∧
      ((sendStep N send s sent).1.producer ≠ .idle → (sendStep N send s sent).2 = sent) := by
  obtain ⟨hs, hp, hc, hle, ⟨h, hh, hen, hde⟩, hcont⟩ := ht
  obtain ⟨hruns, hev⟩ := producerStep_runs N (send sent) s.queue hp
  have hes : (s.step N (.producer (send sent))).history =
      s.history ++ (producerStep N (send sent) s.queue s.producer).2.2 := rfl
  have hstep := Sys.contents_step hN hs _ hes
  simp only [sendStep_fst]
  rcases hev with h0 | ⟨hidle, hf | he⟩
  · -- the call goes on
    have hi : (Nsqueue.sendStep N send s sent).2 = sent := by simp [Nsqueue.sendStep, h0]
    rw [hi]
    exact ⟨⟨.step _ hs, hruns, hc, hle, ⟨h, by simp [hes, h0, hh], hen, hde⟩, (hstep.1 h0).trans hcont⟩,
      by omega, fun _ => rfl⟩
  · -- `emplace` returned `false`
    have hi : (Nsqueue.sendStep N send s sent).2 = sent := by simp [Nsqueue.sendStep, hf]
    rw [hi]
    refine ⟨⟨.step _ hs, by simp [Sys.step, hidle, Producer.Runs], hc, hle,
      ⟨h ++ [.enqueueFull], by simp [hes, hf, hh], by simpa using hen, by simpa using hde⟩,
      (hstep.2 _ hf).2.trans hcont⟩, by omega, fun _ => rfl⟩
  · -- the call returned, having enqueued `i`
    rw [hv] at he
    have hi : (Nsqueue.sendStep N send s sent).2 = sent + 1 := by simp [Nsqueue.sendStep, he]
    rw [hi]
    refine ⟨⟨.step _ hs, by simp [Sys.step, hidle, Producer.Runs], hc, by omega,
      ⟨h ++ [.enqueue sent], by simp [hes, he, hh], by simp [hen, List.range_succ],
        by simpa using hde⟩, ?_⟩, le_rfl, fun h' => absurd hidle h'⟩
    rw [(hstep.2 _ he).2, hcont, range'_append_singleton hle]

/-- One step of the consumer thread: it keeps the transfer; once the call returns the consumer is
idle, and a value it took is the next one. -/
theorem takeStep (hN : ValidCapacity N) (hl : take.loops = false)
    (ht : Transfer N send take s₀ s sent received) :
    ((takeStep N take s).2 = .running →
        Transfer N send take s₀ (takeStep N take s).1 sent received ∧
          (consumerStep N take s.queue s.consumer).2.2 = []) ∧
      ((takeStep N take s).2 = .empty →
        Transfer N send take s₀ (takeStep N take s).1 sent received ∧
          (takeStep N take s).1.consumer = .idle ∧
          (consumerStep N take s.queue s.consumer).2.2 = [.dequeueEmpty] ∧ received = sent) ∧
      ∀ v, (takeStep N take s).2 = .value v → v = received ∧
        Transfer N send take s₀ (takeStep N take s).1 sent (received + 1) ∧
          (takeStep N take s).1.consumer = .idle := by
  obtain ⟨hs, hp, hc, hle, ⟨h, hh, hen, hde⟩, hcont⟩ := ht
  obtain ⟨hruns, hev⟩ := consumerStep_runs N hl s.queue hc
  have hes : (s.step N (.consumer take)).history =
      s.history ++ (consumerStep N take s.queue s.consumer).2.2 := rfl
  have hstep := Sys.contents_step hN hs _ hes
  simp only [takeStep_fst]
  rcases hev with h0 | ⟨hidle, he | ⟨v, hv⟩⟩
  · -- the call goes on
    have hr : (Nsqueue.takeStep N take s).2 = .running := by simp [Nsqueue.takeStep, h0]
    simp only [hr, reduceCtorEq, false_implies, implies_true, and_true, true_and, true_implies]
    exact ⟨⟨.step _ hs, hp, hruns, hle, ⟨h, by simp [hes, h0, hh], hen, hde⟩, (hstep.1 h0).trans hcont⟩,
      h0⟩
  · -- the call returned `false`
    have hr : (Nsqueue.takeStep N take s).2 = .empty := by simp [Nsqueue.takeStep, he]
    simp only [hr, reduceCtorEq, false_implies, implies_true, and_true, true_and, true_implies]
    have hq := hstep.2 _ he
    -- the FIFO was empty: every value sent was taken
    have hall : received = sent := by
      have h0 : List.range' received (sent - received) = [] := hcont ▸ hq.1
      rw [List.range'_eq_nil] at h0
      omega
    exact ⟨⟨.step _ hs, hp, by simp [Sys.step, hidle, Consumer.Runs], hle,
      ⟨h ++ [.dequeueEmpty], by simp [hes, he, hh], by simpa using hen, by simpa using hde⟩,
      hq.2.trans (hq.1.symm.trans hcont)⟩, hidle, he, hall⟩
  · -- the call returned `true` with `v`, the oldest value the queue holds
    have hr : (Nsqueue.takeStep N take s).2 = .value v := by simp [Nsqueue.takeStep, hv]
    simp only [hr, reduceCtorEq, false_implies, true_and, Taken.value.injEq]
    rintro v rfl
    have hq : List.range' received (sent - received) = v :: (s.step N (.consumer take)).contents N :=
      hcont ▸ hstep.2 _ hv
    obtain ⟨rfl, hrest⟩ := range'_eq_cons hq
    refine ⟨rfl, ⟨.step _ hs, hp, by simp [Sys.step, hidle, Consumer.Runs], ?_,
      ⟨h ++ [.dequeue v], by simp [hes, hv, hh], by simpa using hen,
        by simp [hde, List.range_succ]⟩, hrest⟩, hidle⟩
    have := congrArg List.length hq
    simp only [List.length_range', List.length_cons] at this
    omega

/-- A consumer that finds the queue `empty()` has taken every value sent. -/
theorem received_eq (hN : ValidCapacity N) (ht : Transfer N send take s₀ s sent received)
    (he : s.queue.empty = true) : received = sent := by
  have h := (Sys.contents_eq_nil_iff hN ht.reachable).2 he
  rw [ht.contents, List.range'_eq_nil] at h
  have := ht.le
  omega

end Transfer

end Nsqueue
