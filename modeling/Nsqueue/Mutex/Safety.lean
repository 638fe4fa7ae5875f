/-
What `mutex_queue<T>` guarantees under every schedule of any number of threads, each calling
`push`, `consume_one`, `pop(T&)` and `pop()` at will, with any choice of the thread `notify_one`
wakes and any spurious wakeups.
`no_lost_wakeup`: while a thread is blocked in `cv_.wait`, each value in `q_` is owed a wakeup, by
a `notify_one` still to come or by a taking call still to test `!q_.empty()`.
`never_stuck`: when no thread inside a call can take a step, every thread is idle or blocked, and
the blocked ones wait on an empty `q_`. It rests on `Locked`, that `m_` is held by exactly the
thread inside a critical section, so the holder can always move on.
-/
import Nsqueue.Mutex.Step

namespace Nsqueue

namespace MutexQueue

namespace Sys

variable {α : Type} {s s' : Sys α}

/-- `m_` is held by exactly the thread inside a critical section. -/
def Locked (s : Sys α) : Prop := ∀ u, s.owner = some u ↔ (s.thread u).holds = true

/-- While a thread is blocked, each value in `q_` is owed a wakeup by another thread. -/
def Owed (s : Sys α) : Prop :=
  0 < s.threads.countP Thread.waits → s.q.length ≤ s.threads.countP Thread.owed

/-- The invariant of every reachable state. -/
structure Inv (s : Sys α) : Prop where
  locked : s.Locked
  owed : s.Owed

theorem inv_init (k : Nat) : (init k : Sys α).Inv where
  locked u := by rw [thread_init]; simp [init, Thread.holds]
  owed h := by simp [init, List.countP_replicate, Thread.waits] at h

/-! ## The lock -/

/-- A move that keeps the holder of `m_` and whether the moving thread holds it. -/
theorem Locked.setThread {t : Nat} (h : s.Locked) (th : Thread α) (hl : t < s.threads.length)
    (hh : th.holds = (s.thread t).holds) : (s.setThread t th).Locked := by
  intro u
  rw [setThread_owner, thread_setThread s th hl, h u]
  split <;> simp_all

/-- Taking a free `m_`. -/
theorem Locked.acquire {t : Nat} (h : s.Locked) (hf : s.owner = none) (th : Thread α)
    (hl : t < s.threads.length) (hh : th.holds = true) :
    ({ s with owner := some t }.setThread t th).Locked := by
  intro u
  rw [setThread_owner, thread_setThread { s with owner := some t } th hl, thread_mk]
  by_cases hut : u = t
  · simp [hut, hh]
  · have hu : (s.thread u).holds = false := by simpa [hf] using h u
    simp [hut, Ne.symm hut, hu]

/-- Releasing `m_`, while `q_` changes as it may. -/
theorem Locked.release {t : Nat} (h : s.Locked) (ht : (s.thread t).holds = true) (q : List α)
    (th : Thread α) (hh : th.holds = false) : ((Sys.mk q none s.threads).setThread t th).Locked := by
  intro u
  have hl := lt_of_thread_ne_idle fun h0 : s.thread t = .idle => by simp [h0, Thread.holds] at ht
  have ho := (h t).2 ht
  rw [setThread_owner, thread_setThread (Sys.mk q none s.threads) th hl, thread_mk]
  by_cases hut : u = t
  · simp [hut, hh]
  · have : (s.thread u).holds = false := by
      cases hu : (s.thread u).holds
      · rfl
      · exact absurd (Option.some.inj (((h u).2 hu).symm.trans ho)) hut
    simp [hut, this]

theorem Locked.moves (h : s.Locked) (hm : Moves s s') : s'.Locked := by
  cases hm with
  | stay => exact h
  | call c ht hl => exact h.setThread _ hl (by rw [ht, Thread.holds_start]; rfl)
  | pushLock ht hf => exact h.acquire hf _ (lt_of_thread_ne_idle (by simp [ht])) rfl
  | push ht => exact h.release (by simp [ht, Thread.holds]) _ _ rfl
  | takeLock ht hf => exact h.acquire hf _ (lt_of_thread_ne_idle (by simp [ht])) rfl
  | block ht _ => exact h.release (by simp [ht, Thread.holds]) _ _ rfl
  | take ht _ => exact h.release (by simp [ht, Thread.holds]) _ _ rfl
  | @wake t w k ht hw =>
    have hlt := lt_of_thread_ne_idle (by simp [ht] : s.thread t ≠ .idle)
    have hlw := lt_of_thread_ne_idle (by simp [hw] : s.thread w ≠ .idle)
    have htw : w ≠ t := fun e => by simp [e, ht] at hw
    refine (h.setThread _ hlt (by simp [ht, Thread.holds])).setThread _ (by simpa using hlw) ?_
    simp [thread_setThread s _ hlt, htw, hw, Thread.holds]
  | notifyNone ht _ => exact h.setThread _ (lt_of_thread_ne_idle (by simp [ht])) (by simp [ht, Thread.holds])
  | spurious hw => exact h.setThread _ (lt_of_thread_ne_idle (by simp [hw])) (by simp [hw, Thread.holds])

/-! ## The wakeups -/

/-- A move of one thread keeps the wakeups owed when it empties `q_`, or when no thread waits
before or after it, or when it does not block and `q_` grows by no more than what is owed. -/
theorem Owed.setThread {t : Nat} (h : s.Owed) (q : List α) (o : Option Nat) (th : Thread α)
    (hl : t < s.threads.length)
    (hmove : q = [] ∨ th.waits = false ∧ (s.threads.countP Thread.waits = 0 ∨
      q.length + (if (s.thread t).owed then 1 else 0) ≤ s.q.length + (if th.owed then 1 else 0))) :
    ((Sys.mk q o s.threads).setThread t th).Owed := by
  intro hW
  have ew := countP_setThread (Sys.mk q o s.threads) th hl Thread.waits
  have eo := countP_setThread (Sys.mk q o s.threads) th hl Thread.owed
  simp only [thread_mk, setThread_q] at ew eo ⊢
  rcases hmove with rfl | ⟨hw, h0 | hle⟩
  · exact Nat.zero_le _
  · simp only [hw, Bool.false_eq_true, if_false] at ew; omega
  · simp only [hw, Bool.false_eq_true, if_false] at ew
    have := h (by omega)
    omega

theorem Owed.moves (h : s.Owed) (hm : Moves s s') : s'.Owed := by
  cases hm with
  | stay => exact h
  | call c ht hl =>
    exact h.setThread s.q s.owner _ hl (.inr ⟨by simp, .inr (by simp [ht, Thread.owed])⟩)
  | pushLock ht _ =>
    exact h.setThread _ _ _ (lt_of_thread_ne_idle (by simp [ht]))
      (.inr ⟨rfl, .inr (by simp [ht, Thread.owed])⟩)
  | push ht =>
    exact h.setThread _ _ _ (lt_of_thread_ne_idle (by simp [ht]))
      (.inr ⟨rfl, .inr (by simp [ht, Thread.owed])⟩)
  | takeLock ht _ =>
    exact h.setThread _ _ _ (lt_of_thread_ne_idle (by simp [ht]))
      (.inr ⟨rfl, .inr (by simp [ht, Thread.owed])⟩)
  | block ht hq => exact h.setThread _ _ _ (lt_of_thread_ne_idle (by simp [ht])) (.inl hq)
  | take ht hq =>
    exact h.setThread _ _ _ (lt_of_thread_ne_idle (by simp [ht]))
      (.inr ⟨rfl, .inr (by simp [ht, hq, Thread.owed])⟩)
  | notifyNone ht hn =>
    exact h.setThread s.q s.owner _ (lt_of_thread_ne_idle (by simp [ht]))
      (.inr ⟨rfl, .inl (List.countP_eq_zero.2 fun th hth => by simp [hn th hth])⟩)
  | spurious hw =>
    exact h.setThread s.q s.owner _ (lt_of_thread_ne_idle (by simp [hw]))
      (.inr ⟨rfl, .inr (by simp [hw, Thread.owed])⟩)
  | @wake t w k ht hw =>
    -- the notifier's debt passes to the thread it wakes
    intro hW
    have hlt := lt_of_thread_ne_idle (by simp [ht] : s.thread t ≠ .idle)
    have hlw := lt_of_thread_ne_idle (by simp [hw] : s.thread w ≠ .idle)
    have htw : w ≠ t := fun e => by simp [e, ht] at hw
    have hw' : (s.setThread t .idle).thread w = .wait k := by simp [thread_setThread s _ hlt, htw, hw]
    have e1 := countP_setThread s .idle hlt Thread.waits
    have e2 := countP_setThread s .idle hlt Thread.owed
    have e3 := countP_setThread (s.setThread t .idle) (.takeLock k) (by simpa using hlw) Thread.waits
    have e4 := countP_setThread (s.setThread t .idle) (.takeLock k) (by simpa using hlw) Thread.owed
    simp only [ht, hw', Thread.waits, Thread.owed] at e1 e2 e3 e4
    have := h (countP_pos hlw (by simp [hw, Thread.waits]))
    simp only [setThread_q] at hW ⊢
    omega

/-! ## Every reachable state -/

theorem Inv.moves (h : s.Inv) (hm : Moves s s') : s'.Inv :=
  ⟨h.locked.moves hm, h.owed.moves hm⟩

theorem Reachable.inv {k : Nat} (hs : Reachable k s) : s.Inv := by
  induction hs with
  | init => exact inv_init k
  | step c _ ih => exact ih.moves (step_moves _ c)

/-! ## The headline theorems -/

/-- Two threads: thread `0` calls `pop(T&)` on the empty queue and blocks; thread `1` calls
`push(7)`, which takes `m_` and then puts `7` into `q_` and notifies thread `0`; thread `0` takes
`m_` again and takes `7`. -/
def wakeRun : List (Choice Nat) :=
  [.call 0 (.take .popItem), .step 0, .step 0, .call 1 (.push 7), .step 1, .step 1, .notify 1 0,
    .step 0, .step 0]

/-- No wakeup is lost: under every schedule of any number of threads, while a thread is blocked
in `cv_.wait`, `q_` holds no more values than there are `notify_one` calls still to come and
taking calls still to test `!q_.empty()`. -/
theorem no_lost_wakeup {k : Nat} (hs : Reachable k s) (hw : 0 < s.threads.countP Thread.waits) :
    s.q.length ≤ s.threads.countP Thread.owed :=
  hs.inv.owed hw

theorem no_lost_wakeup_wakeRun :
    Reachable 2 (run (init 2) (wakeRun.take 6)) ∧
      0 < (run (init 2) (wakeRun.take 6)).threads.countP Thread.waits ∧
      (run (init 2) (wakeRun.take 6)).q.length ≤ (run (init 2) (wakeRun.take 6)).threads.countP Thread.owed :=
  ⟨reachable_run 2 _, by decide, no_lost_wakeup (reachable_run 2 (wakeRun.take 6)) (by decide)⟩

/-! ## No deadlock -/

/-- The thread holding `m_` can always take its next step. -/
theorem step_holder {t : Nat} (ht : (s.thread t).holds = true) :
    (s.step (.step t)).thread t ≠ s.thread t := by
  have hl := lt_of_thread_ne_idle fun h0 : s.thread t = .idle => by simp [h0, Thread.holds] at ht
  cases hth : s.thread t <;> simp [hth, Thread.holds] at ht
  · simp [step, hth, hl]
  · simp only [step, hth]
    split <;> simp [hl]

/-- A thread inside a call and not blocked can always make the state change, by a step of its
own, of the thread holding `m_`, or by its `notify_one`. -/
theorem exists_move {t : Nat} (h : s.Locked) (ht : s.thread t ≠ .idle) (hw : (s.thread t).waits = false) :
    ∃ c : Choice α, c.inCall = true ∧ s.step c ≠ s := by
  have hl := lt_of_thread_ne_idle ht
  have holder : ∀ u, (s.thread u).holds = true → ∃ c : Choice α, c.inCall = true ∧ s.step c ≠ s :=
    fun u hu => ⟨.step u, rfl, fun e => step_holder hu (by rw [e])⟩
  -- a thread at a lock takes `m_` when it is free, and otherwise the holder moves
  have locker : ∀ th, s.thread t ≠ th →
      (s.owner = none → s.step (.step t) = { s with owner := some t }.setThread t th) →
      ∃ c : Choice α, c.inCall = true ∧ s.step c ≠ s := fun th hne hstep => by
    cases ho : s.owner with
    | none => exact ⟨.step t, rfl, fun e => hne (by simpa [hstep ho, hl] using congrArg (·.thread t) e.symm)⟩
    | some u => exact holder u ((h u).1 ho)
  cases hth : s.thread t with
  | idle => exact absurd hth ht
  | wait k => simp [hth, Thread.waits] at hw
  | pushLocked item | takeLocked k => exact holder t (by simp [hth, Thread.holds])
  | pushLock item => exact locker (.pushLocked item) (by simp [hth]) fun ho => by simp [step, hth, acquire, ho]
  | takeLock k => exact locker (.takeLocked k) (by simp [hth]) fun ho => by simp [step, hth, acquire, ho]
  | notify =>
    by_cases hany : ∃ w, (s.thread w).waits = true
    · obtain ⟨w, hww⟩ := hany
      obtain ⟨k, hwk⟩ := Thread.waits_eq_true.1 hww
      have htw : w ≠ t := fun e => by simp [e, hth] at hwk
      have hlw : w < (s.setThread t .idle).threads.length := by
        simpa using lt_of_thread_ne_idle (by simp [hwk] : s.thread w ≠ .idle)
      refine ⟨.notify t w, rfl, fun e => ?_⟩
      have := congrArg (·.thread t) e
      simp [step, hth, hwk, thread_setThread _ _ hlw, Ne.symm htw, hl] at this
    · have hno : s.threads.any Thread.waits = false := List.any_eq_false.2 fun th hm hth' => by
        obtain ⟨w, rfl⟩ := exists_thread_of_mem hm
        exact hany ⟨w, hth'⟩
      refine ⟨.notify t t, rfl, fun e => ?_⟩
      have := congrArg (·.thread t) e
      simp [step, hth, hno, hl] at this

/-- `mutex_queue` never deadlocks: under every schedule of any number of threads, in a state where
no thread inside a call can take a step, every thread is idle or blocked in `cv_.wait`, and a
blocked thread waits on an empty `q_`. -/
theorem never_stuck {k : Nat} (hs : Reachable k s) (hstuck : ∀ c : Choice α, c.inCall = true → s.step c = s) :
    (∀ th ∈ s.threads, th = .idle ∨ th.waits = true) ∧ ((∃ th ∈ s.threads, th.waits = true) → s.q = []) := by
  have hI := hs.inv
  have hq : ∀ th ∈ s.threads, th = .idle ∨ th.waits = true := by
    intro th hm
    obtain ⟨t, rfl⟩ := exists_thread_of_mem hm
    by_contra hne
    push_neg at hne
    obtain ⟨c, hc, hne'⟩ := exists_move hI.locked hne.1 (by simpa using hne.2)
    exact hne' (hstuck c hc)
  refine ⟨hq, fun ⟨th, hm, hw⟩ => ?_⟩
  have ho : s.threads.countP Thread.owed = 0 :=
    List.countP_eq_zero.2 fun th hm => by
      rcases hq th hm with rfl | h
      · simp [Thread.owed]
      · obtain ⟨k, rfl⟩ := Thread.waits_eq_true.1 h
        simp [Thread.owed]
  have := hI.owed (List.countP_pos_iff.2 ⟨th, hm, hw⟩)
  exact List.eq_nil_of_length_eq_zero (by omega)

theorem never_stuck_wakeRun :
    Reachable 2 (run (init 2) (wakeRun.take 3)) ∧
      (∀ c : Choice Nat, c.inCall = true → (run (init 2) (wakeRun.take 3)).step c = run (init 2) (wakeRun.take 3)) ∧
      (∀ th ∈ (run (init 2) (wakeRun.take 3)).threads, th = .idle ∨ th.waits = true) ∧
      ((∃ th ∈ (run (init 2) (wakeRun.take 3)).threads, th.waits = true) → (run (init 2) (wakeRun.take 3)).q = []) := by
  have hstuck : ∀ c : Choice Nat, c.inCall = true →
      (run (init 2) (wakeRun.take 3)).step c = run (init 2) (wakeRun.take 3) := by
    intro c hc
    cases c with
    | call | spurious => simp [Choice.inCall] at hc
    | step t => rcases t with _ | _ | t <;> rfl
    | notify t w => rcases t with _ | _ | t <;> rfl
  exact ⟨reachable_run 2 _, hstuck, never_stuck (reachable_run 2 _) hstuck⟩

end Sys

end MutexQueue

end Nsqueue
