/-
What the consumer and the spinning operations guarantee besides wait-freedom. `consume_all` calls
`consume_one` for as long as values arrive, so one of its calls has no bound on its steps, but it
is lock-free: within four steps of its own the consumer has returned or moved one more value out of
the queue, whatever the producer and the scheduler do (`consumer_lockFree`). The same bound holds
of every consumer operation but `force_pop`. It is not wait-free: a producer that refills the queue
after each value keeps one call looping for as many values as it likes (`consumeAll_unbounded`).

The spinning operations block for real: `force_emplace` on a full queue only refreshes its copy of
`readIndex_`, and `force_pop` on an empty one its copy of `writeIndex_`, so while the other thread
takes no step the call never returns, and neither the queue nor the history changes
(`forced_spin`). A full queue is never overwritten and an empty one never read. With one slot,
which the `static_assert` admits, the queue is always full and empty at once: no enqueue ever
succeeds and `force_emplace` never returns (`one_slot_holds_nothing`).
-/
import Nsqueue.Threads.Progress
import Nsqueue.Threads.Linearizable

namespace Nsqueue

variable {α : Type}

/-- At most how many more steps of its own the consumer takes before it stores `readIndex_` or
is idle: the rest of one call of the dequeue body. -/
def Consumer.toRelease : Consumer α → Nat
  | .idle => 0
  | .load op done => if op.proceeds done then 4 else 1
  | .reload .. => 3
  | .take .. => 2
  | .release .. => 1

theorem Consumer.toRelease_le (c : Consumer α) : c.toRelease ≤ 4 := by
  cases c with
  | load op done => simp only [Consumer.toRelease]; split <;> omega
  | _ => simp [Consumer.toRelease]

theorem Consumer.eq_idle_of_toRelease {c : Consumer α} (h : c.toRelease = 0) : c = .idle := by
  cases c with
  | idle => rfl
  | load op done => simp only [Consumer.toRelease] at h; split at h <;> omega
  | _ => simp [Consumer.toRelease] at h

theorem Consumer.toRelease_found (op : ConsumerOp) (done r : Nat) :
    (Consumer.found op done r : Consumer α).toRelease ≤ 2 := by
  unfold Consumer.found; split <;> simp [Consumer.toRelease]

variable (N : Nat)

/-- Outside `force_pop`, each step of the consumer stays outside it and, unless it is the store
of `readIndex_`, brings that store or the return one step closer. -/
theorem consumerStep_toRelease (op : ConsumerOp) (q : Queue α) {c : Consumer α}
    (hi : c ≠ .idle) (hf : c.forced = false) :
    (consumerStep N op q c).1.forced = false ∧ ((consumerStep N op q c).1.toRelease < c.toRelease ∨
      ∃ op' done r item, c = .release op' done r item) := by
  cases c with
  | idle => exact absurd rfl hi
  | load op' done =>
    simp only [Consumer.forced] at hf
    simp only [consumerStep]
    split_ifs with h1
    · simp [Consumer.toRelease, Consumer.forced, h1, hf]
    · exact ⟨(Consumer.forced_found op' done _).trans hf,
        .inl (Nat.lt_of_le_of_lt (Consumer.toRelease_found op' done _) (by simp [Consumer.toRelease, h1]))⟩
    · simp [Consumer.toRelease, Consumer.forced, h1]
  | reload op' done r =>
    simp only [Consumer.forced] at hf
    simp only [consumerStep, hf, Bool.false_eq_true, ↓reduceIte]
    split
    · simp [Consumer.toRelease, Consumer.forced]
    · exact ⟨(Consumer.forced_found op' done r).trans hf,
        .inl (Nat.lt_of_le_of_lt (Consumer.toRelease_found op' done r) (by simp [Consumer.toRelease]))⟩
  | take => simpa [consumerStep, Consumer.toRelease, Consumer.forced] using hf
  | release op' done r item =>
    simp only [Consumer.forced] at hf
    refine ⟨?_, .inr ⟨op', done, r, item, rfl⟩⟩
    simp only [consumerStep, Consumer.after]
    split <;> simp [Consumer.forced, hf]

namespace Sys

/-- Every step appends to the history. -/
theorem step_history (s : Sys α) (c : Choice α) : ∃ es, (s.step N c).history = s.history ++ es := by
  cases c with
  | producer | consumer => exact ⟨_, rfl⟩
  | reset =>
    simp only [step]
    split
    · exact ⟨_, rfl⟩
    · exact ⟨[], (List.append_nil _).symm⟩

theorem dequeued_length_step (s : Sys α) (c : Choice α) :
    (Fifo.dequeued s.history).length ≤ (Fifo.dequeued (s.step N c).history).length := by
  obtain ⟨es, hes⟩ := step_history N s c
  simp [hes, Fifo.dequeued, List.filterMap_append]

/-- The store of `readIndex_` logs the value it removes. -/
theorem Inv.dequeued_release {s : Sys α} (hs : s.Inv N) {op' : ConsumerOp} {done r : Nat} {item : Option α}
    (hc : s.consumer = .release op' done r item) (op : ConsumerOp) :
    (Fifo.dequeued (s.step N (.consumer op)).history).length = (Fifo.dequeued s.history).length + 1 := by
  obtain ⟨u, hu⟩ := hs.removed_eq_some hc
  simp [Sys.step, hc, consumerStep, hu, Fifo.dequeued, List.filterMap_append]

/-- A step of the consumer outside `force_pop` keeps it outside, and brings its next store of
`readIndex_` or its return closer, or is that store and logs one more dequeued value. -/
theorem Inv.consumer_toRelease_step {s : Sys α} (hs : s.Inv N) (hi : s.consumer ≠ .idle)
    (hf : s.consumer.forced = false) (op : ConsumerOp) :
    (s.step N (.consumer op)).consumer.forced = false ∧
      ((s.step N (.consumer op)).consumer.toRelease < s.consumer.toRelease ∨
        (Fifo.dequeued (s.step N (.consumer op)).history).length =
          (Fifo.dequeued s.history).length + 1) := by
  obtain ⟨hf', h | ⟨op', done, r, item, hr⟩⟩ := consumerStep_toRelease N op s.queue hi hf
  · exact ⟨hf', .inl h⟩
  · exact ⟨hf', .inr (hs.dequeued_release N hr op)⟩

/-- `consume_all` is lock-free, and so is every consumer operation but `force_pop`: from a
reachable state, whatever the producer and the scheduler do, within four steps of its own the
consumer has returned or one more value has been dequeued. -/
theorem consumer_lockFree (hN : ValidCapacity N) {s : Sys α} (hs : Reachable N s)
    (hf : s.consumer.forced = false) (cs : List (Choice α)) (h : 4 ≤ cs.countP Choice.byConsumer) :
    ∃ pre, pre <+: cs ∧ ((run N s pre).consumer = .idle ∨
      (Fifo.dequeued s.history).length < (Fifo.dequeued (run N s pre).history).length) := by
  generalize hk : (Fifo.dequeued s.history).length = k
  refine reach_of_rank (step N)
    (fun t => if k < (Fifo.dequeued t.history).length then 0 else t.consumer.toRelease)
    (fun t => Reachable N t ∧ t.consumer.forced = false ∧ k ≤ (Fifo.dequeued t.history).length)
    (fun t => t.consumer = .idle ∨ k < (Fifo.dequeued t.history).length) Choice.byConsumer
    ?_ ?_ ?_ ?_ cs s ⟨hs, hf, hk.ge⟩
    (Nat.le_trans (by dsimp only; split <;> simp [Consumer.toRelease_le]) h)
  · -- what a run keeps: reachability, staying outside `force_pop`, the values dequeued
    rintro t c ⟨ht, hf, hk⟩ hg
    refine ⟨.step c ht, ?_, hk.trans (dequeued_length_step N t c)⟩
    cases hc : c.byConsumer
    · rwa [step_consumer_of_not_byConsumer N t hc]
    cases c with
    | consumer op => exact ((ht.inv hN).consumer_toRelease_step N (fun h => hg (.inl h)) hf op).1
    | _ => simp [Choice.byConsumer] at hc
  · -- the producer's and the scheduler's steps leave the consumer where it is
    rintro t c hc - hg
    dsimp only
    rw [if_neg fun h => hg (.inr h), step_consumer_of_not_byConsumer N t hc]
    split <;> simp
  · -- each step of the consumer's own brings its store or its return closer, or makes the store
    rintro t c hc ⟨ht, hf, hk⟩ hg
    have hi : t.consumer ≠ .idle := fun h => hg (.inl h)
    have hpos := Nat.pos_of_ne_zero fun h => hi (Consumer.eq_idle_of_toRelease h)
    dsimp only
    rw [if_neg fun h => hg (.inr h)]
    cases c with
    | consumer op =>
      rcases ((ht.inv hN).consumer_toRelease_step N hi hf op).2 with h | h
      · split <;> omega
      · rw [if_pos (show k < (Fifo.dequeued (t.step N (.consumer op)).history).length by omega)]
        exact hpos
    | _ => simp [Choice.byConsumer] at hc
  · -- rank zero: the consumer has returned, or a value was dequeued
    rintro t - h0
    by_cases hlt : k < (Fifo.dequeued t.history).length
    · exact .inr hlt
    · exact .inl (Consumer.eq_idle_of_toRelease (by simpa [hlt] using h0))

/-- `consume_all(func)` invoked on a four-slot queue holding one value. -/
def consumeAllRun : List (Choice Nat) :=
  List.replicate 4 (.producer (.emplace 7)) ++ [.consumer .consumeAll]

theorem consumer_lockFree_consumeAllRun :
    ValidCapacity 4 ∧ Reachable 4 (run 4 init consumeAllRun) ∧
      (run 4 init consumeAllRun).consumer.forced = false ∧
      4 ≤ (List.replicate 4 (.consumer .consumeAll) : List (Choice Nat)).countP Choice.byConsumer ∧
      ∃ pre, pre <+: List.replicate 4 (.consumer .consumeAll) ∧
        ((run 4 (run 4 init consumeAllRun) pre).consumer = .idle ∨
          (Fifo.dequeued (run 4 init consumeAllRun).history).length <
            (Fifo.dequeued (run 4 (run 4 init consumeAllRun) pre).history).length) :=
  ⟨validCapacity_two_pow (k := 2) (by decide), reachable_run 4 _, by decide, by decide,
    consumer_lockFree 4 (validCapacity_two_pow (k := 2) (by decide)) (reachable_run 4 consumeAllRun)
      (by decide) _ (by decide)⟩

/-- One round of a `consume_all` call kept busy: on an empty queue with the producer idle, the
producer runs `emplace(v)` to completion and the consumer moves the value out, which leaves the call
at its next `consume_one` and the queue empty again. -/
theorem Inv.consumeAll_round (hN : ValidCapacity N) (h2 : 2 ≤ N) {s : Sys α} (hs : s.Inv N)
    (hp : s.producer = .idle) {d : Nat} (hc : s.consumer = .load .consumeAll d)
    (he : s.queue.empty = true) (v : α) :
    ∃ cs, (run N s cs).producer = .idle ∧ (run N s cs).consumer = .load .consumeAll (d + 1) ∧
      (run N s cs).queue.empty = true := by
  have hw : s.queue.writeIndex = s.queue.readIndex := by simpa [Queue.empty] using he
  have hlt : s.queue.readIndex < N := by simpa [Sys.view] using hs.view.readIndex_lt
  have hnr : nextIndex N s.queue.readIndex ≠ s.queue.readIndex := by
    rw [hN.nextIndex_eq hlt]; split <;> omega
  obtain ⟨⟨items, r, wc, w, rc⟩, p, c, h⟩ := s
  dsimp only at hp hc hw hnr ⊢
  subst hp hc hw
  clear hs he hlt
  -- five steps of the producer when its cache shows no room, four of the consumer when its cache
  -- shows no data
  refine ⟨List.replicate (if nextIndex N w = rc then 5 else 4) (.producer (.emplace v)) ++
    List.replicate (if w = wc then 4 else 3) (.consumer .consumeAll), ?_⟩
  rcases eq_or_ne (nextIndex N w) rc with rfl | h1 <;> rcases eq_or_ne w wc with rfl | h3 <;>
    simp [*, Ne.symm hnr, run_append, List.replicate, Sys.step, producerStep, consumerStep,
      Queue.empty, Consumer.found, Consumer.after, ConsumerOp.moves, ConsumerOp.loops,
      ConsumerOp.proceeds]

/-- `consume_all` is not wait-free: on every queue of at least two slots, for every `k` some
schedule leaves one call of `consume_all` inside its loop after `k` successful calls of
`consume_one`, so no bound on the steps of one call exists. -/
theorem consumeAll_unbounded (hN : ValidCapacity N) (h2 : 2 ≤ N) (v : α) (k : Nat) :
    ∃ cs : List (Choice α), (run N init cs).consumer = .load .consumeAll k := by
  suffices h : ∀ k, ∃ cs : List (Choice α), (run N init cs).producer = .idle ∧
      (run N init cs).consumer = .load .consumeAll k ∧ (run N init cs).queue.empty = true from
    (h k).imp fun _ h => h.2.1
  intro k
  induction k with
  | zero => exact ⟨[.consumer .consumeAll], rfl, rfl, rfl⟩
  | succ k ih =>
    obtain ⟨cs, hp, hc, he⟩ := ih
    obtain ⟨cs', h⟩ := ((reachable_run N cs).inv hN).consumeAll_round N hN h2 hp hc he v
    exact ⟨cs ++ cs', by simpa only [run_append] using h⟩

theorem consumeAll_unbounded_two :
    ValidCapacity 2 ∧ 2 ≤ 2 ∧ ∃ cs : List (Choice Nat), (run 2 init cs).consumer = .load .consumeAll 3 :=
  ⟨validCapacity_two_pow (k := 1) (by decide), Nat.le_refl 2,
    consumeAll_unbounded 2 (validCapacity_two_pow (k := 1) (by decide)) (Nat.le_refl 2) 0 3⟩

/-! ## Spinning on a full or an empty queue -/

variable {N}

/-- On a full queue the producer's copy of `readIndex_` is exact. -/
theorem Inv.readIndexCache_of_full (hN : ValidCapacity N) {s : Sys α} (hs : s.Inv N)
    (hfull : s.queue.full N = true) : s.queue.readIndexCache = s.queue.readIndex := by
  have h : nextIndex N s.queue.writeIndex = s.queue.readIndex := by simpa [Queue.full] using hfull
  by_contra hne
  exact hs.view.nextIndex_ne_readIndex hN (by simpa [Sys.view, h] using Ne.symm hne)
    (by simpa [Sys.view] using h)

/-- On an empty queue the consumer's copy of `writeIndex_` is exact. -/
theorem Inv.writeIndexCache_of_empty {s : Sys α} (hs : s.Inv N) (he : s.queue.empty = true) :
    s.queue.writeIndexCache = s.queue.readIndex := by
  have h : s.queue.writeIndex = s.queue.readIndex := by simpa [Queue.empty] using he
  by_contra hne
  exact hs.view.readIndex_ne_writeIndex (by simpa [Sys.view] using Ne.symm hne)
    (by simpa [Sys.view] using h.symm)

/-- On a full queue a producer inside `force_emplace` is at its load of `writeIndex_` or its
reload of `readIndex_`, and its step changes nothing but its program counter, which stays there. -/
theorem Inv.full_producer_step (hN : ValidCapacity N) {s : Sys α} (hs : s.Inv N)
    (hb : s.producer.bounded = false) (hfull : s.queue.full N = true) (op : ProducerOp α) :
    (s.step N (.producer op)).producer.bounded = false ∧ (s.step N (.producer op)).queue = s.queue ∧
      (s.step N (.producer op)).history = s.history := by
  have hrc := hs.readIndexCache_of_full hN hfull
  have hn : nextIndex N s.queue.writeIndex = s.queue.readIndexCache := by
    simpa [Queue.full, hrc] using hfull
  have hp := hs.producer
  obtain ⟨q, p, c, h⟩ := s
  dsimp only at hrc hn hp hb ⊢
  cases p with
  | idle => simp [Producer.bounded] at hb
  | load op' =>
    simp only [Producer.bounded, Bool.not_eq_false'] at hb
    simp [Sys.step, producerStep, hn, Producer.bounded, hb]
  | reload op' w n =>
    obtain ⟨rfl, rfl⟩ := hp
    simp only [Producer.bounded, Bool.not_eq_false'] at hb
    simp [Sys.step, producerStep, Queue.reloadReadIndex_of_eq hrc, hn, hb, Producer.bounded]
  | construct _ w n =>
    obtain ⟨rfl, rfl, hne⟩ := hp
    exact absurd hn hne
  | publish _ w n =>
    obtain ⟨rfl, rfl, hne, -⟩ := hp
    exact absurd hn hne

/-- On an empty queue a consumer inside `force_pop` is at its load of `readIndex_` or its reload
of `writeIndex_`, and its step changes nothing but its program counter, which stays there. -/
theorem Inv.empty_consumer_step {s : Sys α} (hs : s.Inv N) (hf : s.consumer.forced = true)
    (he : s.queue.empty = true) (op : ConsumerOp) :
    (s.step N (.consumer op)).consumer.forced = true ∧ (s.step N (.consumer op)).queue = s.queue ∧
      (s.step N (.consumer op)).history = s.history := by
  have hwc := hs.writeIndexCache_of_empty he
  have hw : s.queue.writeIndex = s.queue.readIndex := by simpa [Queue.empty] using he
  have hc := hs.consumer
  obtain ⟨q, p, c, h⟩ := s
  dsimp only at hwc hw hc hf ⊢
  cases c with
  | idle => simp [Consumer.forced] at hf
  | load op' done =>
    simp only [Consumer.forced] at hf
    have hp : op'.proceeds done = true := by
      cases op' <;> simp_all [ConsumerOp.force, ConsumerOp.proceeds]
    simp [Sys.step, consumerStep, hp, hwc, Consumer.forced, hf]
  | reload op' done r =>
    subst hc
    simp only [Consumer.forced] at hf
    simp [Sys.step, consumerStep, Queue.reloadWriteIndex_of_eq (hwc.trans hw.symm), hwc, hf,
      Consumer.forced]
  | take _ _ r | release _ _ r _ => exact absurd (hc.1 ▸ hwc.symm) hc.2

/-- A property that every allowed step keeps, without touching the queue or the history, holds
along every run of allowed steps, which touch neither. -/
theorem run_frame (P : Sys α → Prop) (allowed : Choice α → Bool)
    (hstep : ∀ s c, Reachable N s → P s → allowed c = true →
      P (s.step N c) ∧ (s.step N c).queue = s.queue ∧ (s.step N c).history = s.history) :
    ∀ (cs : List (Choice α)) (s : Sys α), Reachable N s → P s → (∀ c ∈ cs, allowed c = true) →
      P (run N s cs) ∧ (run N s cs).queue = s.queue ∧ (run N s cs).history = s.history
  | [], _, _, hP, _ => ⟨hP, rfl, rfl⟩
  | c :: cs, s, hs, hP, hcs => by
    obtain ⟨hP', hq, hh⟩ := hstep s c hs hP (hcs c (List.mem_cons_self c cs))
    obtain ⟨hP'', hq', hh'⟩ :=
      run_frame P allowed hstep cs _ (.step c hs) hP' fun c' hc' => hcs c' (List.mem_cons_of_mem c hc')
    exact ⟨hP'', hq'.trans hq, hh'.trans hh⟩

/-- `force_emplace`/`force_push` on a full queue and `force_pop` on an empty one block without
effect: from a reachable state, for as long as the other thread takes no step, the call does not
return and neither the queue (its slots, indices and caches) nor the history changes, so a full
queue is never overwritten and an empty one never read. -/
theorem forced_spin (hN : ValidCapacity N) {s : Sys α} (hs : Reachable N s) :
    (s.producer.bounded = false → s.queue.full N = true → ∀ cs : List (Choice α),
      (∀ c ∈ cs, c.byConsumer = false) →
      (run N s cs).producer.bounded = false ∧ (run N s cs).queue = s.queue ∧
        (run N s cs).history = s.history) ∧
    (s.consumer.forced = true → s.queue.empty = true → ∀ cs : List (Choice α),
      (∀ c ∈ cs, c.byProducer = false) →
      (run N s cs).consumer.forced = true ∧ (run N s cs).queue = s.queue ∧
        (run N s cs).history = s.history) := by
  refine ⟨fun hb hfull cs hcs => ?_, fun hf he cs hcs => ?_⟩
  · obtain ⟨⟨hb', -⟩, hq, hh⟩ := run_frame (fun t => t.producer.bounded = false ∧ t.queue.full N = true)
      (fun c => !c.byConsumer) (fun t c ht ⟨hb, hfull⟩ hc => by
        cases c with
        | producer op =>
          obtain ⟨hb', hq, hh⟩ := (ht.inv hN).full_producer_step hN hb hfull op
          exact ⟨⟨hb', hq ▸ hfull⟩, hq, hh⟩
        | consumer => simp [Choice.byConsumer] at hc
        | reset =>
          rw [step_reset_of_not_idle N fun h => by simp [h.1, Producer.bounded] at hb]
          exact ⟨⟨hb, hfull⟩, rfl, rfl⟩) cs s hs ⟨hb, hfull⟩ (by simpa using hcs)
    exact ⟨hb', hq, hh⟩
  · obtain ⟨⟨hf', -⟩, hq, hh⟩ := run_frame (fun t => t.consumer.forced = true ∧ t.queue.empty = true)
      (fun c => !c.byProducer) (fun t c ht ⟨hf, he⟩ hc => by
        cases c with
        | consumer op =>
          obtain ⟨hf', hq, hh⟩ := (ht.inv hN).empty_consumer_step hf he op
          exact ⟨⟨hf', hq ▸ he⟩, hq, hh⟩
        | producer => simp [Choice.byProducer] at hc
        | reset =>
          rw [step_reset_of_not_idle N fun h => by simp [h.2, Consumer.forced] at hf]
          exact ⟨⟨hf, he⟩, rfl, rfl⟩) cs s hs ⟨hf, he⟩ (by simpa using hcs)
    exact ⟨hf', hq, hh⟩

/-- On a two-slot queue: `emplace(7)` fills it, then `force_emplace(8)` is invoked and reaches its
loop. -/
def fullRun : List (Choice Nat) :=
  List.replicate 4 (.producer (.emplace 7)) ++ List.replicate 3 (.producer (.forceEmplace 8))

theorem forced_spin_fullRun :
    ValidCapacity 2 ∧ Reachable 2 (run 2 init fullRun) ∧ (run 2 init fullRun).producer.bounded = false ∧
      (run 2 init fullRun).queue.full 2 = true ∧
      (run 2 (run 2 init fullRun) (List.replicate 6 (.producer (.forceEmplace 8)))).queue =
        (run 2 init fullRun).queue :=
  ⟨validCapacity_two_pow (k := 1) (by decide), reachable_run 2 _, by decide, by decide,
    ((forced_spin (validCapacity_two_pow (k := 1) (by decide)) (reachable_run 2 fullRun)).1 (by decide)
      (by decide) _ (by decide)).2.1⟩

/-! ## A one-slot queue -/

/-- With one slot, the slot after any index is `0`, where every index already is. -/
theorem nextIndex_one (i : Nat) : nextIndex 1 i = 0 := by
  rw [nextIndex, show mask 1 = 0 from rfl, Nat.and_zero]

/-- On a one-slot queue the producer never passes its room test, so it never claims a slot. -/
theorem Inv.one_producer_slot {s : Sys α} (hs : s.Inv 1) : s.producer.slot = none := by
  have hrc : s.queue.readIndexCache = 0 := by
    have := hs.view.readIndexCache_lt; simp only [Sys.view, viewOf_readIndexCache] at this; omega
  have hp := hs.producer
  cases h : s.producer with
  | construct _ w n => rw [h] at hp; exact absurd (hp.2.1.trans (nextIndex_one w)) (hrc ▸ hp.2.2)
  | publish _ w n => rw [h] at hp; exact absurd (hp.2.1.trans (nextIndex_one w)) (hrc ▸ hp.2.2.1)
  | _ => rfl

/-- A consumer step logs no enqueue. -/
theorem consumerStep_enqueued (op : ConsumerOp) (q : Queue α) (c : Consumer α) :
    Fifo.enqueued (consumerStep N op q c).2.2 = [] := by
  cases c with
  | load | reload => simp only [consumerStep]; split_ifs <;> rfl
  | release op' done r item => cases h : removed item q r <;> simp [consumerStep, h, Fifo.enqueued]
  | idle | take => rfl

/-- On a one-slot queue no step logs an enqueue. -/
theorem Inv.one_enqueued_step {s : Sys α} (hs : s.Inv 1) (c : Choice α) :
    Fifo.enqueued (s.step 1 c).history = Fifo.enqueued s.history := by
  have hslot := hs.one_producer_slot
  cases c with
  | producer op =>
    suffices h : Fifo.enqueued (producerStep 1 op s.queue s.producer).2.2 = [] by
      simp [Sys.step, Fifo.enqueued, List.filterMap_append] at h ⊢; exact h
    cases hp : s.producer with
    | idle | load => rfl
    | reload => simp only [producerStep]; split_ifs <;> rfl
    | construct | publish => simp [hp, Producer.slot] at hslot
  | consumer op =>
    simpa [Sys.step, Fifo.enqueued, List.filterMap_append] using
      consumerStep_enqueued (N := 1) op s.queue s.consumer
  | reset => simp only [Sys.step]; split <;> simp [Fifo.enqueued]

/-- On a one-slot queue a producer inside `force_emplace` stays inside it, whatever is run. -/
theorem Inv.one_forced_step {s : Sys α} (hs : s.Inv 1) (hb : s.producer.bounded = false)
    (c : Choice α) : (s.step 1 c).producer.bounded = false := by
  have hslot := hs.one_producer_slot
  cases c with
  | producer op =>
    show (producerStep 1 op s.queue s.producer).1.bounded = false
    cases hp : s.producer with
    | idle => simp [hp, Producer.bounded] at hb
    | load op' =>
      rw [hp] at hb
      simp only [producerStep]
      split_ifs <;> exact hb
    | reload op' w n =>
      have hn : n = s.queue.readIndex := by
        have hpr := hs.producer
        have := hs.view.readIndex_lt
        rw [hp] at hpr
        simp only [Sys.view, viewOf_readIndex] at this
        rw [hpr.2, nextIndex_one]; omega
      rw [hp] at hb
      simp only [Producer.bounded, Bool.not_eq_false'] at hb
      simp [producerStep, hn, hb, Producer.bounded]
    | construct | publish => simp [hp, Producer.slot] at hslot
  | consumer => exact hb
  | reset => rwa [step_reset_of_not_idle 1 fun h => by simp [h.1, Producer.bounded] at hb]

/-- `spsc_queue<T, 1>` passes the `static_assert` but never holds a value: in every interleaving
no `emplace`/`push`/`force_emplace`/`force_push` succeeds, the queue stays empty, and a producer
inside `force_emplace` stays inside it whatever the consumer and the scheduler do. -/
theorem one_slot_holds_nothing {s : Sys α} (hs : Reachable 1 s) :
    Fifo.enqueued s.history = [] ∧ s.contents 1 = [] ∧
      (s.producer.bounded = false → ∀ cs : List (Choice α), (run 1 s cs).producer.bounded = false) := by
  have hN : ValidCapacity 1 := validCapacity_two_pow (k := 0) (by decide)
  refine ⟨?_, List.eq_nil_of_length_eq_zero (Nat.le_zero.1 (hs.inv hN).history.length_le), ?_⟩
  · induction hs with
    | init => rfl
    | step c ht ih => rw [(Reachable.inv hN ht).one_enqueued_step c, ih]
  · intro hb cs
    induction cs generalizing s with
    | nil => exact hb
    | cons c cs ih => exact ih (.step c hs) ((hs.inv hN).one_forced_step hb c)

/-- On a one-slot queue: `force_emplace(7)` invoked and at its room test. -/
def oneRun : List (Choice Nat) := List.replicate 2 (.producer (.forceEmplace 7))

theorem one_slot_holds_nothing_oneRun :
    Reachable 1 (run 1 init oneRun) ∧ (run 1 init oneRun).producer.bounded = false ∧
      (run 1 (run 1 init oneRun)
        (List.replicate 3 (.consumer .popItem) ++ List.replicate 3 (.producer (.forceEmplace 7)))).producer.bounded =
        false :=
  ⟨reachable_run 1 _, by decide, (one_slot_holds_nothing (reachable_run 1 oneRun)).2.2 (by decide) _⟩

end Sys

end Nsqueue
