/-
One thread running alone through the interleaving does what the whole operations of
`Nsqueue.Queue` compute. From a state where the producer is idle, `emplace(v)` run alone ends in
`Queue.emplace`'s state with its one event logged (`run_emplace`); likewise `pop(T&)`, `pop()` and
`consume_one` against `Queue.dequeue` (`run_dequeue`), and `consume_all` and `consume_n` against
their loop of `consume_one` calls (`run_consume`). The other thread may stand anywhere inside an
operation of its own.
-/
import Nsqueue.Threads.Idle

namespace Nsqueue

namespace Sys

variable {α : Type} {N : Nat}

/-! ## The producer alone -/

/-- `emplace(v)` run alone: three steps when it finds the queue full, four on the fast path, five
when it has to refresh its cache of `readIndex_`. -/
theorem run_emplace (s : Sys α) (hp : s.producer = .idle) (v : α) :
    ∃ k, run N s (List.replicate k (.producer (.emplace v))) =
      { s with queue := (s.queue.emplace N v).2,
               history := s.history ++
                 [if (s.queue.emplace N v).1 then .enqueue v else .enqueueFull] } := by
  obtain ⟨q, p, c, h⟩ := s
  change p = .idle at hp
  subst hp
  by_cases h1 : nextIndex N q.writeIndex = q.readIndexCache
  · by_cases h2 : q.readIndexCache = q.readIndex
    · exact ⟨3, by simp [List.replicate, step, producerStep, Queue.emplace, h1, h2, ProducerOp.force]⟩
    · exact ⟨5, by simp [List.replicate, step, producerStep, Queue.emplace, Queue.emplaceAt, h1, h2,
        ProducerOp.value]⟩
  · exact ⟨4, by simp [List.replicate, step, producerStep, Queue.emplace, Queue.emplaceAt, h1,
      ProducerOp.value]⟩

theorem run_emplace_again :
    (run 4 init emplaceRun).producer = .idle ∧
      ∃ k, run 4 (run 4 init emplaceRun) (List.replicate k (.producer (.emplace 8))) =
        { run 4 init emplaceRun with
          queue := ((run 4 init emplaceRun).queue.emplace 4 8).2,
          history := (run 4 init emplaceRun).history ++
            [if ((run 4 init emplaceRun).queue.emplace 4 8).1 then .enqueue 8 else .enqueueFull] } :=
  ⟨rfl, run_emplace _ rfl 8⟩

/-! ## The consumer alone -/

theorem removed_of_none {q : Queue α} {r : Nat} (item : Option α) (h : q.items r = none) :
    removed item q r = item := by
  cases item <;> simp [removed, h]

/-- One call of the dequeue body, from the consumer's load of `readIndex_`. -/
theorem run_load (s : Sys α) {op : ConsumerOp} {d : Nat} (hc : s.consumer = .load op d)
    (hp : op.proceeds d = true) (hf : op.force = false) :
    ∃ k, run N s (List.replicate k (.consumer op)) =
      { s with queue := (s.queue.dequeue N op.moves).2.2,
               consumer := if (s.queue.dequeue N op.moves).1 then .after op (d + 1) else .idle,
               history := s.history ++
                 if (s.queue.dequeue N op.moves).1 then (s.queue.items s.queue.readIndex).toList.map .dequeue
                 else [.dequeueEmpty] } := by
  obtain ⟨q, p, c, h⟩ := s
  change c = .load op d at hc
  subst hc
  by_cases h1 : q.readIndex = q.writeIndexCache
  · by_cases h2 : q.readIndex = q.writeIndex
    · exact ⟨2, by simp [List.replicate, step, consumerStep, Queue.dequeue, h1.symm, h2, hp, hf]⟩
    · cases hm : op.moves
      · exact ⟨3, by simp [List.replicate, step, consumerStep, Queue.dequeue,
          Queue.dequeueAt, Consumer.found, removed, h1.symm, h2, hp, hf, hm]⟩
      · exact ⟨4, by simp [List.replicate, step, consumerStep, Queue.dequeue,
          Queue.dequeueAt, Consumer.found, removed_of_none, h1.symm, h2, hp, hf, hm]⟩
  · cases hm : op.moves
    · exact ⟨2, by simp [List.replicate, step, consumerStep, Queue.dequeue,
        Queue.dequeueAt, Consumer.found, removed, h1, hp, hm]⟩
    · exact ⟨3, by simp [List.replicate, step, consumerStep, Queue.dequeue,
        Queue.dequeueAt, Consumer.found, removed_of_none, h1, hp, hm]⟩

theorem ConsumerOp.proceeds_of_loops {op : ConsumerOp} (h : op.loops = false) (d : Nat) :
    op.proceeds d = true := by
  cases op <;> simp_all [ConsumerOp.loops, ConsumerOp.proceeds]

/-- `pop(T&)`, `pop()` and `consume_one` run alone. -/
theorem run_dequeue (s : Sys α) (hc : s.consumer = .idle) {op : ConsumerOp}
    (hl : op.loops = false) (hf : op.force = false) :
    ∃ k, run N s (List.replicate k (.consumer op)) =
      { s with queue := (s.queue.dequeue N op.moves).2.2,
               history := s.history ++
                 if (s.queue.dequeue N op.moves).1 then (s.queue.items s.queue.readIndex).toList.map .dequeue
                 else [.dequeueEmpty] } := by
  obtain ⟨q, p, c, h⟩ := s
  change c = .idle at hc
  subst hc
  obtain ⟨k, hk⟩ := run_load (N := N) ⟨q, p, .load op 0, h⟩ rfl (ConsumerOp.proceeds_of_loops hl 0) hf
  refine ⟨k + 1, ?_⟩
  rw [List.replicate_succ, run_cons]
  simpa [step, consumerStep, Consumer.after, hl] using hk

theorem run_dequeue_popItem :
    (run 4 init emplaceRun).consumer = .idle ∧ ConsumerOp.popItem.loops = false ∧
      ConsumerOp.popItem.force = false ∧
      ∃ k, run 4 (run 4 init emplaceRun) (List.replicate k (.consumer .popItem)) =
        { run 4 init emplaceRun with
          queue := ((run 4 init emplaceRun).queue.dequeue 4 ConsumerOp.popItem.moves).2.2,
          history := (run 4 init emplaceRun).history ++
            if ((run 4 init emplaceRun).queue.dequeue 4 ConsumerOp.popItem.moves).1 then
              ((run 4 init emplaceRun).queue.items (run 4 init emplaceRun).queue.readIndex).toList.map
                .dequeue
            else [.dequeueEmpty] } :=
  ⟨rfl, rfl, rfl, run_dequeue _ rfl rfl rfl⟩

theorem consumeLoop_calls (q : Queue α) (f m : Nat) (calls : List α) :
    Queue.consumeLoop N f m calls q =
      ((Queue.consumeLoop N f m [] q).1, calls ++ (Queue.consumeLoop N f m [] q).2.1,
        (Queue.consumeLoop N f m [] q).2.2) := by
  induction f generalizing m calls q with
  | zero => simp [Queue.consumeLoop]
  | succ f ih =>
    rcases hq : Queue.consumeOne N q with ⟨_ | _, item, q'⟩
    · simp [Queue.consumeLoop, hq]
    · simp only [Queue.consumeLoop, hq]
      rw [ih q' _ (calls ++ _), ih q' _ ([] ++ _)]
      simp

theorem dequeue_item (q : Queue α) (h : (q.dequeue N true).1 = true) :
    (q.dequeue N true).2.1 = q.items q.readIndex := by
  simp only [Queue.dequeue, Queue.dequeueAt] at h ⊢
  split_ifs at h ⊢ <;> simp_all

/-- The loop of `consume_all` and `consume_n` from its call number `d`, given `f` more calls. -/
theorem run_consumeLoop (hN : ValidCapacity N) {op : ConsumerOp} (hm : op.moves = true)
    (hf : op.force = false) (hl : op.loops = true) :
    ∀ (f d : Nat) (s : Sys α), s.consumer = .load op d → s.queue.Inv N →
      (∀ j < f, op.proceeds (d + j) = true) →
      (op.proceeds (d + f) = true → (s.queue.contents N).length < f) →
      ∃ k, run N s (List.replicate k (.consumer op)) =
        { s with queue := (Queue.consumeLoop N f d [] s.queue).2.2, consumer := .idle,
                 history := s.history ++ (Queue.consumeLoop N f d [] s.queue).2.1.map .dequeue ++
                   if (Queue.consumeLoop N f d [] s.queue).1 < d + f then [.dequeueEmpty] else [] }
  | 0, d, s, hc, _, _, hlen => by
    have hp : op.proceeds d = false := by
      cases h : op.proceeds d
      · rfl
      · exact absurd (hlen (by simpa using h)) (Nat.not_lt_zero _)
    refine ⟨1, ?_⟩
    obtain ⟨q, p, c, h⟩ := s
    change c = .load op d at hc
    subst hc
    simp [List.replicate, step, consumerStep, hp, Queue.consumeLoop]
  | f + 1, d, s, hc, hq, hpro, hlen => by
    obtain ⟨k₁, hk₁⟩ := run_load s hc (by simpa using hpro 0 (Nat.succ_pos f)) hf
    rw [hm] at hk₁
    cases hb : (s.queue.dequeue N true).1
    · -- the queue is empty: the call fails and the loop ends
      refine ⟨k₁, ?_⟩
      rw [hk₁]
      rcases hd : s.queue.dequeue N true with ⟨b, item, q'⟩
      rw [hd] at hb
      subst hb
      simp [Queue.consumeLoop, Queue.consumeOne, hd]
    · -- a value: it is handed over, and the loop goes on from `d + 1`
      have he : s.queue.empty = false :=
        Bool.eq_false_iff.2 fun he => by simp [(Queue.dequeue_eq_false_iff hN hq true).2 he] at hb
      obtain ⟨v, q', hcon, hdeq, hq'⟩ := Queue.dequeue_nonempty hN hq true he
      have hv : s.queue.items s.queue.readIndex = some v := by
        rw [← dequeue_item s.queue hb, hdeq]; rfl
      let s₁ : Sys α :=
        { s with queue := q', consumer := .load op (d + 1), history := s.history ++ [.dequeue v] }
      have hk₁' : run N s (List.replicate k₁ (.consumer op)) = s₁ := by
        rw [hk₁, hdeq, hv]; simp [Consumer.after, hl, s₁]
      obtain ⟨k₂, hk₂⟩ := run_consumeLoop hN hm hf hl f (d + 1) s₁ rfl hq'
        (fun j hj => by simpa [Nat.add_assoc, Nat.add_comm 1 j] using hpro (j + 1) (by omega))
        (fun hp => by
          show (Queue.contents N q').length < f
          have := hlen (by simpa [Nat.add_assoc, Nat.add_comm 1 f] using hp)
          simp only [hcon, List.length_cons] at this
          omega)
      refine ⟨k₁ + k₂, ?_⟩
      rw [List.replicate_add, run_append, hk₁', hk₂]
      simp [s₁, Queue.consumeLoop, Queue.consumeOne, hdeq, consumeLoop_calls q' f (d + 1) [v],
        Nat.add_assoc, Nat.add_comm 1 f]

/-- `consume_all(func)` and `consume_n(func, n)` run alone from a reachable state: every value
`func` is called with is logged as a dequeue, and `consume_all`, like a `consume_n` that runs out of
values, ends with a failing `consume_one`. -/
theorem run_consume (hN : ValidCapacity N) {s : Sys α} (hs : Reachable N s)
    (hc : s.consumer = .idle) :
    (∃ k, run N s (List.replicate k (.consumer .consumeAll)) =
      { s with queue := (s.queue.consumeAll N).2.2,
               history := s.history ++ (s.queue.consumeAll N).2.1.map .dequeue ++ [.dequeueEmpty] }) ∧
    ∀ n, ∃ k, run N s (List.replicate k (.consumer (.consumeN n))) =
      { s with queue := (s.queue.consumeN N n).2.2,
               history := s.history ++ (s.queue.consumeN N n).2.1.map .dequeue ++
                 if (s.queue.consumeN N n).1 < n then [.dequeueEmpty] else [] } := by
  obtain ⟨q, p, c, h⟩ := s
  change c = .idle at hc
  subst hc
  have hq : q.Inv N := queue_inv_of_consumer_idle hN hs rfl
  have hlt : (q.contents N).length < N := by
    rw [← Queue.size_eq_length hq]; exact dist_lt hq.readIndex_lt hq.writeIndex_lt
  constructor
  · obtain ⟨k, hk⟩ := run_consumeLoop (N := N) hN (rfl : ConsumerOp.consumeAll.moves = true) rfl rfl
      N 0 ⟨q, p, .load .consumeAll 0, h⟩ rfl hq
      (fun _ _ => rfl) fun _ => hlt
    have hcount : (Queue.consumeLoop N N 0 [] q).1 < N := show (q.consumeAll N).1 < N by
      rw [(Queue.consumeAll_eq hN hq).1, Queue.size_eq_length hq]; omega
    refine ⟨k + 1, ?_⟩
    rw [List.replicate_succ, run_cons]
    simpa [step, consumerStep, Queue.consumeAll, hcount] using hk
  · intro n
    obtain ⟨k, hk⟩ := run_consumeLoop (N := N) hN (rfl : (ConsumerOp.consumeN n).moves = true) rfl rfl
      n 0 ⟨q, p, .load (.consumeN n) 0, h⟩ rfl
      hq (fun j hj => by simpa [ConsumerOp.proceeds] using hj)
      fun hp => absurd hp (by simp [ConsumerOp.proceeds])
    refine ⟨k + 1, ?_⟩
    rw [List.replicate_succ, run_cons]
    simpa [step, consumerStep, Queue.consumeN] using hk

theorem run_consume_sample :
    ValidCapacity 4 ∧ Reachable 4 (run 4 init emplaceRun) ∧ (run 4 init emplaceRun).consumer = .idle ∧
      ∃ k, run 4 (run 4 init emplaceRun) (List.replicate k (.consumer .consumeAll)) =
        { run 4 init emplaceRun with
          queue := ((run 4 init emplaceRun).queue.consumeAll 4).2.2,
          history := (run 4 init emplaceRun).history ++
            ((run 4 init emplaceRun).queue.consumeAll 4).2.1.map .dequeue ++ [.dequeueEmpty] } :=
  ⟨validCapacity_two_pow (k := 2) (by decide), reachable_run 4 _, rfl,
    (run_consume (validCapacity_two_pow (k := 2) (by decide)) (reachable_run 4 emplaceRun) rfl).1⟩

end Sys

end Nsqueue
