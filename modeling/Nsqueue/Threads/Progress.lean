/-
Progress. `emplace`/`push`, `pop(T&)`, `pop()`, `consume_one` and `consume_n` are wait-free: each
rank below bounds the steps a thread still takes in its current operation, every step of its own
lowers it, and no step of the other thread or of the scheduler touches it, so under every
interleaving the thread is idle again after that many steps of its own (`producer_waitFree`,
`consumer_waitFree`). `force_emplace` and `force_pop` spin for as long as the queue is full, or
empty, but no longer: the other thread only frees slots, or adds values, so once there is room the
producer is idle again after four steps of its own (`producer_waitFree_of_room`), and once there is
data so is a consumer inside `force_pop` (`forcePop_waitFree_of_data`). `consume_all` is left out:
it keeps calling `consume_one` for as long as the producer keeps up.
-/
import Nsqueue.Threads.Invariant

namespace Nsqueue

variable {α : Type}

/-- The non-spinning consumer operations; `consume_all` keeps calling `consume_one` for as long
as the producer keeps up. -/
def ConsumerOp.bounded : ConsumerOp → Bool
  | .forcePopItem | .forcePop | .consumeAll => false
  | _ => true

/-- The steps a call of the consumer leaves for the calls after it: none for the operations of one
call, four for each further call of `consume_n` and one for its final test `m < n`. -/
def ConsumerOp.later : ConsumerOp → Nat → Nat
  | .consumeN n, done => 4 * (n - (done + 1)) + 1
  | _, _ => 0

/-- At most how many more steps of its own the producer takes before it is idle. -/
def Producer.rank : Producer α → Nat
  | .idle => 0
  | .load _ => 4
  | .reload .. => 3
  | .construct .. => 2
  | .publish .. => 1

/-- The producer does not spin: it is idle or inside `emplace`/`push`. -/
def Producer.bounded : Producer α → Bool
  | .idle => true
  | .load op | .reload op .. | .construct op .. | .publish op .. => !op.force

/-- At most how many more steps of its own the consumer takes before it is idle. -/
def Consumer.rank : Consumer α → Nat
  | .idle => 0
  | .load op done => if op.proceeds done then op.later done + 4 else 1
  | .reload op done _ => op.later done + 3
  | .take op done _ => op.later done + 2
  | .release op done _ _ => op.later done + 1

/-- The consumer does not spin: it is idle or inside a bounded operation. -/
def Consumer.bounded : Consumer α → Bool
  | .idle => true
  | .load op _ | .reload op .. | .take op .. | .release op .. => op.bounded

/-- The consumer is inside `force_pop(T&)` or `force_pop()`. -/
def Consumer.forced : Consumer α → Bool
  | .idle => false
  | .load op _ | .reload op .. | .take op .. | .release op .. => op.force

variable (N : Nat)

theorem producerStep_rank_lt (op : ProducerOp α) (q : Queue α) {p : Producer α}
    (hp : p ≠ .idle) (hb : p.bounded = true) :
    (producerStep N op q p).1.rank < p.rank ∧ (producerStep N op q p).1.bounded = true := by
  cases p with
  | idle => exact absurd rfl hp
  | load op' => simp only [producerStep]; split_ifs <;> simp_all [Producer.rank, Producer.bounded]
  | reload op' w n =>
    simp only [Producer.bounded, Bool.not_eq_true'] at hb
    simp only [producerStep]; split_ifs <;> simp_all [Producer.rank, Producer.bounded]
  | construct | publish => simp_all [producerStep, Producer.rank, Producer.bounded]

theorem Consumer.rank_found (op : ConsumerOp) (done r : Nat) :
    (Consumer.found op done r : Consumer α).rank ≤ op.later done + 2 := by
  unfold Consumer.found; split <;> simp [Consumer.rank]

theorem Consumer.bounded_found (op : ConsumerOp) (done r : Nat) :
    (Consumer.found op done r : Consumer α).bounded = op.bounded := by
  unfold Consumer.found; split <;> rfl

theorem consumerStep_rank_lt (op : ConsumerOp) (q : Queue α) {c : Consumer α}
    (hc : c ≠ .idle) (hb : c.bounded = true) :
    (consumerStep N op q c).1.rank < c.rank ∧ (consumerStep N op q c).1.bounded = true := by
  cases c with
  | idle => exact absurd rfl hc
  | load op' done =>
    simp only [Consumer.bounded] at hb
    simp only [consumerStep]
    split_ifs with h1
    · simp [Consumer.rank, Consumer.bounded, h1, hb]
    · exact ⟨Nat.lt_of_le_of_lt (Consumer.rank_found op' done _) (by simp [Consumer.rank, h1]),
        by rw [Consumer.bounded_found, hb]⟩
    · simp [Consumer.rank, Consumer.bounded, h1]
  | reload op' done r =>
    simp only [Consumer.bounded] at hb
    have hforce : op'.force = false := by
      cases op' <;> simp_all [ConsumerOp.bounded, ConsumerOp.force]
    simp only [consumerStep]
    split_ifs
    · simp [Consumer.rank, Consumer.bounded, hforce] at *
    · simp [Consumer.rank, Consumer.bounded]
    · exact ⟨Nat.lt_of_le_of_lt (Consumer.rank_found op' done r) (by simp [Consumer.rank]),
        by rw [Consumer.bounded_found, hb]⟩
  | take => simp_all [consumerStep, Consumer.rank, Consumer.bounded]
  | release op' done r item =>
    simp only [consumerStep, Consumer.after]
    cases op' with
    | consumeN n =>
      simp only [ConsumerOp.loops, if_true, Consumer.rank, Consumer.bounded, ConsumerOp.proceeds,
        ConsumerOp.later, ConsumerOp.bounded, decide_eq_true_eq, and_true]
      split_ifs <;> omega
    | _ => simp_all [Consumer.rank, Consumer.bounded, ConsumerOp.bounded, ConsumerOp.loops]

theorem Producer.rank_le (p : Producer α) : p.rank ≤ 4 := by
  cases p <;> simp [Producer.rank]

theorem Producer.eq_idle_of_rank {p : Producer α} (h : p.rank = 0) : p = .idle := by
  cases p <;> simp_all [Producer.rank]

theorem Consumer.eq_idle_of_rank {c : Consumer α} (h : c.rank = 0) : c = .idle := by
  cases c with
  | idle => rfl
  | load op done => simp only [Consumer.rank] at h; split at h <;> omega
  | _ => simp [Consumer.rank] at h

/-- A scheduler choice that runs a step of the producer. -/
def Choice.byProducer : Choice α → Bool
  | .producer _ => true
  | _ => false

/-- A scheduler choice that runs a step of the consumer. -/
def Choice.byConsumer : Choice α → Bool
  | .consumer _ => true
  | _ => false

namespace Sys

theorem step_producer_of_not_byProducer (s : Sys α) {c : Choice α} (hc : c.byProducer = false) :
    (s.step N c).producer = s.producer := by
  cases c with
  | producer => simp [Choice.byProducer] at hc
  | consumer => rfl
  | reset => simp only [step]; split <;> rfl

theorem step_consumer_of_not_byConsumer (s : Sys α) {c : Choice α} (hc : c.byConsumer = false) :
    (s.step N c).consumer = s.consumer := by
  cases c with
  | producer => rfl
  | consumer => simp [Choice.byConsumer] at hc
  | reset => simp only [step]; split <;> rfl

/-- A producer inside `emplace`/`push` stays inside it until it is idle, and each step of its own
lowers its rank. -/
theorem producer_bounded_step (s : Sys α) (c : Choice α) (hi : s.producer ≠ .idle)
    (hb : s.producer.bounded = true) :
    (s.step N c).producer.bounded = true ∧
      (c.byProducer = true → (s.step N c).producer.rank < s.producer.rank) := by
  cases hc : c.byProducer
  · rw [step_producer_of_not_byProducer N s hc]
    exact ⟨hb, fun h => absurd h Bool.false_ne_true⟩
  · cases c with
    | producer op =>
      have h := producerStep_rank_lt N op s.queue hi hb
      exact ⟨h.2, fun _ => h.1⟩
    | _ => simp [Choice.byProducer] at hc

/-- A consumer inside a bounded operation stays inside it until it is idle, and each step of its
own lowers its rank. -/
theorem consumer_bounded_step (s : Sys α) (c : Choice α) (hi : s.consumer ≠ .idle)
    (hb : s.consumer.bounded = true) :
    (s.step N c).consumer.bounded = true ∧
      (c.byConsumer = true → (s.step N c).consumer.rank < s.consumer.rank) := by
  cases hc : c.byConsumer
  · rw [step_consumer_of_not_byConsumer N s hc]
    exact ⟨hb, fun h => absurd h Bool.false_ne_true⟩
  · cases c with
    | consumer op =>
      have h := consumerStep_rank_lt N op s.queue hi hb
      exact ⟨h.2, fun _ => h.1⟩
    | _ => simp [Choice.byConsumer] at hc

/-- `emplace` and `push` are wait-free: whatever the consumer and the scheduler do, the producer
is idle again once it has taken four more steps of its own. -/
theorem producer_waitFree (s : Sys α) (hb : s.producer.bounded = true) (cs : List (Choice α))
    (h : 4 ≤ cs.countP Choice.byProducer) :
    ∃ pre, pre <+: cs ∧ (run N s pre).producer = .idle :=
  reach_of_rank (step N) (fun s => s.producer.rank) (fun s => s.producer.bounded = true)
    (fun s => s.producer = .idle) Choice.byProducer
    (fun s c hb hi => (producer_bounded_step N s c hi hb).1)
    (fun s _ hc _ _ => (congrArg Producer.rank (step_producer_of_not_byProducer N s hc)).le)
    (fun s c hc hb hi => (producer_bounded_step N s c hi hb).2 hc)
    (fun _ _ => Producer.eq_idle_of_rank) cs s hb (Nat.le_trans (Producer.rank_le _) h)

/-- `emplace(7)` invoked, then four more of its steps among steps of the consumer. -/
def producerRun : List (Choice Nat) :=
  [.consumer .pop, .producer (.emplace 8), .consumer .pop, .producer (.emplace 8),
    .consumer .popItem, .producer (.emplace 8), .producer (.emplace 8)]

theorem producer_waitFree_sample :
    (run 4 init [.producer (.emplace 7)]).producer.bounded = true ∧
      4 ≤ producerRun.countP Choice.byProducer ∧
      ∃ pre, pre <+: producerRun ∧ (run 4 (run 4 init [.producer (.emplace 7)]) pre).producer = .idle :=
  ⟨rfl, by decide, producer_waitFree 4 (run 4 init [.producer (.emplace 7)]) rfl producerRun (by decide)⟩

/-- `pop(T&)`, `pop()`, `consume_one` and `consume_n` are wait-free: whatever the producer and the
scheduler do, the consumer is idle again once it has taken `s.consumer.rank` more steps of its own
(at most four for one call, `4 * n + 1` for `consume_n(func, n)`). -/
theorem consumer_waitFree (s : Sys α) (hb : s.consumer.bounded = true) (cs : List (Choice α))
    (h : s.consumer.rank ≤ cs.countP Choice.byConsumer) :
    ∃ pre, pre <+: cs ∧ (run N s pre).consumer = .idle :=
  reach_of_rank (step N) (fun s => s.consumer.rank) (fun s => s.consumer.bounded = true)
    (fun s => s.consumer = .idle) Choice.byConsumer
    (fun s c hb hi => (consumer_bounded_step N s c hi hb).1)
    (fun s _ hc _ _ => (congrArg Consumer.rank (step_consumer_of_not_byConsumer N s hc)).le)
    (fun s c hc hb hi => (consumer_bounded_step N s c hi hb).2 hc)
    (fun _ _ => Consumer.eq_idle_of_rank) cs s hb h

/-- `consume_n(func, 2)` invoked, then one `emplace(5)` run to completion. -/
def consumerStart : List (Choice Nat) :=
  .consumer (.consumeN 2) :: List.replicate 4 (.producer (.emplace 5))

/-- Nine steps of the consumer: one value moved out, then a failing `consume_one`. -/
def consumerRun : List (Choice Nat) := List.replicate 9 (.consumer (.consumeN 2))

theorem consumer_waitFree_sample :
    (run 4 init consumerStart).consumer.bounded = true ∧
      (run 4 init consumerStart).consumer.rank ≤ consumerRun.countP Choice.byConsumer ∧
      ∃ pre, pre <+: consumerRun ∧ (run 4 (run 4 init consumerStart) pre).consumer = .idle :=
  ⟨rfl, by decide, consumer_waitFree 4 (run 4 init consumerStart) rfl consumerRun (by decide)⟩

end Sys

/-! ## The spinning operations once room or data exists -/

/-- A producer step leaves `readIndex_` alone and moves `writeIndex_` only at its store, after
which the producer is idle. -/
theorem producerStep_indices (op : ProducerOp α) (q : Queue α) (p : Producer α) :
    (producerStep N op q p).2.1.readIndex = q.readIndex ∧
      ((producerStep N op q p).2.1.writeIndex = q.writeIndex ∨
        ∃ op' w n, p = .publish op' w n ∧ (producerStep N op q p).2.1.writeIndex = n ∧
          (producerStep N op q p).1 = .idle) := by
  cases p with
  | publish op' w n => exact ⟨rfl, .inr ⟨op', w, n, rfl, rfl, rfl⟩⟩
  | load | reload => simp only [producerStep]; split_ifs <;> simp
  | idle | construct => simp [producerStep]

/-- A consumer step leaves `writeIndex_` alone and moves `readIndex_` only at its store. -/
theorem consumerStep_indices (op : ConsumerOp) (q : Queue α) (c : Consumer α) :
    (consumerStep N op q c).2.1.writeIndex = q.writeIndex ∧
      ((consumerStep N op q c).2.1.readIndex = q.readIndex ∨
        ∃ op' done r item, c = .release op' done r item ∧
          (consumerStep N op q c).2.1.readIndex = nextIndex N r ∧
          (consumerStep N op q c).1 = Consumer.after op' (done + 1)) := by
  cases c with
  | release op' done r item => exact ⟨rfl, .inr ⟨op', done, r, item, rfl, rfl, rfl⟩⟩
  | load | reload => simp only [consumerStep]; split_ifs <;> simp
  | idle | take => simp [consumerStep]

/-- With room in the queue the producer's reload finds it, so every step of its own lowers its
rank, `force_emplace`'s included. -/
theorem producerStep_rank_lt_of_room (op : ProducerOp α) {q : Queue α} {p : Producer α}
    (hp : ProducerOk N q p) (hi : p ≠ .idle) (hroom : q.full N = false) :
    (producerStep N op q p).1.rank < p.rank := by
  cases p with
  | idle => exact absurd rfl hi
  | load => simp only [producerStep]; split <;> simp [Producer.rank]
  | reload op' w n =>
    obtain ⟨rfl, rfl⟩ := hp
    have h : nextIndex N q.writeIndex ≠ q.readIndex := by simpa [Queue.full] using hroom
    simp [producerStep, h, Producer.rank]
  | construct | publish => simp [producerStep, Producer.rank]

theorem ConsumerOp.loops_of_force {op : ConsumerOp} (h : op.force = true) : op.loops = false := by
  cases op <;> simp_all [ConsumerOp.force, ConsumerOp.loops]

theorem Consumer.forced_found (op : ConsumerOp) (done r : Nat) :
    (Consumer.found op done r : Consumer α).forced = op.force := by
  unfold Consumer.found; split <;> rfl

theorem Consumer.after_of_force {op : ConsumerOp} (h : op.force = true) (done : Nat) :
    (Consumer.after op done : Consumer α) = .idle := by
  simp [Consumer.after, ConsumerOp.loops_of_force h]

theorem Consumer.rank_le_of_forced {c : Consumer α} (hf : c.forced = true) : c.rank ≤ 4 := by
  cases c with
  | idle => exact Nat.zero_le _
  | load op done | reload op done _ | take op done _ | release op done _ _ =>
    cases op <;> simp_all [Consumer.forced, ConsumerOp.force, Consumer.rank, ConsumerOp.later,
      ConsumerOp.proceeds]

/-- Inside `force_pop` every step of the consumer's own keeps it there until it is idle. -/
theorem Consumer.forced_step (op : ConsumerOp) (q : Queue α) {c : Consumer α} (hf : c.forced = true) :
    (consumerStep N op q c).1 = .idle ∨ (consumerStep N op q c).1.forced = true := by
  cases c with
  | idle => simp [Consumer.forced] at hf
  | load op' done =>
    simp only [consumerStep]
    split_ifs
    · exact .inr hf
    · exact .inr ((Consumer.forced_found op' done _).trans hf)
    · exact .inl rfl
  | reload op' done r =>
    simp only [consumerStep]
    split_ifs
    · exact .inr hf
    · exact .inl rfl
    · exact .inr ((Consumer.forced_found op' done r).trans hf)
  | take => exact .inr hf
  | release op' done r item => exact .inl (Consumer.after_of_force hf _)

/-- With data in the queue the consumer's reload finds it, so every step of its own lowers its
rank, `force_pop`'s included. -/
theorem consumerStep_rank_lt_of_data (op : ConsumerOp) {q : Queue α} {c : Consumer α}
    (hc : ConsumerOk q c) (hf : c.forced = true) (hd : q.empty = false) :
    (consumerStep N op q c).1.rank < c.rank := by
  cases c with
  | idle => simp [Consumer.forced] at hf
  | load op' done =>
    have hp : op'.proceeds done = true := by cases op' <;> simp_all [Consumer.forced, ConsumerOp.force, ConsumerOp.proceeds]
    simp only [consumerStep, hp, if_true]
    split
    · simp [Consumer.rank, hp]
    · exact Nat.lt_of_le_of_lt (Consumer.rank_found op' done _) (by simp [Consumer.rank, hp])
  | reload op' done r =>
    change r = q.readIndex at hc
    subst hc
    have h : q.readIndex ≠ q.writeIndex := Ne.symm (by simpa [Queue.empty] using hd)
    simp only [consumerStep, Queue.reloadWriteIndex_writeIndexCache, h, if_false]
    exact Nat.lt_of_le_of_lt (Consumer.rank_found op' done _) (by simp [Consumer.rank])
  | take => simp [consumerStep, Consumer.rank]
  | release op' done r item =>
    simp [consumerStep, Consumer.after_of_force hf, Consumer.rank]

namespace Sys

theorem step_reset_of_not_idle {s : Sys α} (h : ¬(s.producer = .idle ∧ s.consumer = .idle)) :
    s.step N .reset = s := by
  simp only [step]
  split
  · next hp hc => exact absurd ⟨hp, hc⟩ h
  · rfl

/-- The consumer only frees slots: none of its steps fills the queue. -/
theorem Inv.room_consumer_step (hN : ValidCapacity N) {s : Sys α} (hs : s.Inv N)
    (hroom : s.queue.full N = false) (op : ConsumerOp) : (s.step N (.consumer op)).queue.full N = false := by
  obtain ⟨hw, hr | ⟨op', done, r, item, hc, hr, -⟩⟩ := consumerStep_indices N op s.queue s.consumer
  · simpa [Queue.full, Sys.step, hr, hw] using hroom
  · -- the release stores the slot after `readIndex_`, which is not `writeIndex_`
    have hcons := hs.consumer
    rw [hc] at hcons
    obtain ⟨rfl, hne⟩ := hcons
    have hrw : s.queue.readIndex ≠ s.queue.writeIndex := by
      simpa [Sys.view] using hs.view.readIndex_ne_writeIndex (by simpa [Sys.view] using hne)
    have hrlt : s.queue.readIndex < N := by simpa [Sys.view] using hs.view.readIndex_lt
    have hwlt : s.queue.writeIndex < N := by simpa [Sys.view] using hs.view.writeIndex_lt
    simp only [Queue.full, Sys.step, hr, hw, beq_eq_false_iff_ne]
    exact fun h => hrw (hN.nextIndex_inj hrlt hwlt h.symm)

/-- While the producer is inside an operation the queue keeps its room until that operation's own
store of `writeIndex_`: the consumer only frees slots. -/
theorem Inv.room_step (hN : ValidCapacity N) {s : Sys α} (hs : s.Inv N) (hi : s.producer ≠ .idle)
    (hroom : s.queue.full N = false) (c : Choice α) (hi' : (s.step N c).producer ≠ .idle) :
    (s.step N c).queue.full N = false := by
  cases c with
  | producer op =>
    obtain ⟨hr, hw | ⟨-, -, -, -, -, hidle⟩⟩ := producerStep_indices N op s.queue s.producer
    · simpa [Queue.full, Sys.step, hr, hw] using hroom
    · exact absurd hidle hi'
  | consumer op => exact hs.room_consumer_step N hN hroom op
  | reset => rwa [step_reset_of_not_idle N fun h => hi h.1]

/-- The producer only adds values: none of its steps empties the queue. -/
theorem Inv.data_producer_step (hN : ValidCapacity N) {s : Sys α} (hs : s.Inv N)
    (hd : s.queue.empty = false) (op : ProducerOp α) : (s.step N (.producer op)).queue.empty = false := by
  obtain ⟨hr, hw | ⟨op', w, n, hp, hw, -⟩⟩ := producerStep_indices N op s.queue s.producer
  · simpa [Queue.empty, Sys.step, hr, hw] using hd
  · -- the store publishes the slot after `writeIndex_`, which is not `readIndex_`
    have hprod := hs.producer
    rw [hp] at hprod
    obtain ⟨rfl, rfl, hne, -⟩ := hprod
    have h := hs.view.nextIndex_ne_readIndex hN (by simpa [Sys.view] using hne)
    simp only [Sys.view, viewOf_writeIndex, viewOf_readIndex] at h
    simpa [Queue.empty, Sys.step, hr, hw] using h

/-- While the consumer is inside `force_pop` the queue keeps the data it holds until that call's
own store of `readIndex_`: the producer only adds values. -/
theorem Inv.data_step (hN : ValidCapacity N) {s : Sys α} (hs : s.Inv N) (hi : s.consumer ≠ .idle)
    (hf : s.consumer.forced = true) (hd : s.queue.empty = false) (c : Choice α)
    (hi' : (s.step N c).consumer ≠ .idle) :
    (s.step N c).consumer.forced = true ∧ (s.step N c).queue.empty = false := by
  cases c with
  | producer op => exact ⟨hf, hs.data_producer_step N hN hd op⟩
  | consumer op =>
    obtain ⟨hw, hr | ⟨op', done, r, item, hc, -, hafter⟩⟩ := consumerStep_indices N op s.queue s.consumer
    · refine ⟨(Consumer.forced_step N op s.queue hf).resolve_left hi', ?_⟩
      simpa [Queue.empty, Sys.step, hr, hw] using hd
    · rw [hc] at hf
      exact absurd (hafter.trans (Consumer.after_of_force hf _)) hi'
  | reset =>
    rw [step_reset_of_not_idle N fun h => hi h.2]
    exact ⟨hf, hd⟩

/-- `force_emplace`/`force_push` spins only while the queue is full: from a reachable state in
which the queue has room, the producer is idle again after at most four more steps of its own,
whatever operation it is inside and whatever the consumer and the scheduler do meanwhile. -/
theorem producer_waitFree_of_room (hN : ValidCapacity N) {s : Sys α} (hs : Reachable N s)
    (hroom : s.queue.full N = false) (cs : List (Choice α)) (h : 4 ≤ cs.countP Choice.byProducer) :
    ∃ pre, pre <+: cs ∧ (run N s pre).producer = .idle :=
  reach_of_rank (step N) (fun s => s.producer.rank)
    (fun s => Reachable N s ∧ (s.producer ≠ .idle → s.queue.full N = false))
    (fun s => s.producer = .idle) Choice.byProducer
    (fun _ c ⟨hs, hr⟩ hi => ⟨.step c hs, (hs.inv hN).room_step N hN hi (hr hi) c⟩)
    (fun s _ hc _ _ => (congrArg Producer.rank (step_producer_of_not_byProducer N s hc)).le)
    (fun s c hc ⟨hs, hr⟩ hi => by
      cases c with
      | producer op => exact producerStep_rank_lt_of_room N op (hs.inv hN).producer hi (hr hi)
      | _ => simp [Choice.byProducer] at hc)
    (fun _ _ => Producer.eq_idle_of_rank) cs s ⟨hs, fun _ => hroom⟩ (Nat.le_trans (Producer.rank_le _) h)

/-- On a two-slot queue: `emplace(7)` fills it, `force_emplace(8)` is invoked and spins once on the
full queue, then a `pop()` frees the slot. -/
def spinRoom : List (Choice Nat) :=
  List.replicate 4 (.producer (.emplace 7)) ++ List.replicate 3 (.producer (.forceEmplace 8)) ++
    List.replicate 4 (.consumer .pop)

theorem producer_waitFree_of_room_sample :
    ValidCapacity 2 ∧ (run 2 init spinRoom).producer.bounded = false ∧
      (run 2 init spinRoom).queue.full 2 = false ∧
      4 ≤ (List.replicate 4 (.producer (.forceEmplace 8)) : List (Choice Nat)).countP Choice.byProducer ∧
      ∃ pre, pre <+: List.replicate 4 (.producer (.forceEmplace 8)) ∧
        (run 2 (run 2 init spinRoom) pre).producer = .idle :=
  ⟨validCapacity_two_pow (k := 1) (by decide), by decide, by decide, by decide,
    producer_waitFree_of_room 2 (validCapacity_two_pow (k := 1) (by decide)) (reachable_run 2 spinRoom)
      (by decide) _ (by decide)⟩

/-- `force_pop(T&)`/`force_pop()` spins only while the queue is empty: from a reachable state in
which the consumer is inside one and the queue holds a value, the consumer is idle again after at
most four more steps of its own, whatever the producer and the scheduler do meanwhile. -/
theorem forcePop_waitFree_of_data (hN : ValidCapacity N) {s : Sys α} (hs : Reachable N s)
    (hf : s.consumer.forced = true) (hd : s.queue.empty = false) (cs : List (Choice α))
    (h : 4 ≤ cs.countP Choice.byConsumer) :
    ∃ pre, pre <+: cs ∧ (run N s pre).consumer = .idle :=
  reach_of_rank (step N) (fun s => s.consumer.rank)
    (fun s => Reachable N s ∧ (s.consumer ≠ .idle → s.consumer.forced = true ∧ s.queue.empty = false))
    (fun s => s.consumer = .idle) Choice.byConsumer
    (fun _ c ⟨hs, hd⟩ hi => ⟨.step c hs, (hs.inv hN).data_step N hN hi (hd hi).1 (hd hi).2 c⟩)
    (fun s _ hc _ _ => (congrArg Consumer.rank (step_consumer_of_not_byConsumer N s hc)).le)
    (fun s c hc ⟨hs, hd⟩ hi => by
      cases c with
      | consumer op => exact consumerStep_rank_lt_of_data N op (hs.inv hN).consumer (hd hi).1 (hd hi).2
      | _ => simp [Choice.byConsumer] at hc)
    (fun _ _ => Consumer.eq_idle_of_rank) cs s ⟨hs, fun _ => ⟨hf, hd⟩⟩
    (Nat.le_trans (Consumer.rank_le_of_forced hf) h)

/-- On a new queue: `force_pop(T&)` is invoked and spins once on the empty queue, then an
`emplace(7)` runs to completion. -/
def spinData : List (Choice Nat) :=
  List.replicate 3 (.consumer .forcePopItem) ++ List.replicate 4 (.producer (.emplace 7))

theorem forcePop_waitFree_of_data_sample :
    ValidCapacity 4 ∧ (run 4 init spinData).consumer.forced = true ∧
      (run 4 init spinData).queue.empty = false ∧
      4 ≤ (List.replicate 4 (.consumer .forcePopItem) : List (Choice Nat)).countP Choice.byConsumer ∧
      ∃ pre, pre <+: List.replicate 4 (.consumer .forcePopItem) ∧
        (run 4 (run 4 init spinData) pre).consumer = .idle :=
  ⟨validCapacity_two_pow (k := 2) (by decide), by decide, by decide, by decide,
    forcePop_waitFree_of_data 4 (validCapacity_two_pow (k := 2) (by decide)) (reachable_run 4 spinData)
      (by decide) (by decide) _ (by decide)⟩

end Sys

end Nsqueue
