/-
`mutex_queue<T>`, the baseline queue of the benchmarks (`mutex/spsc_queue.h`): a `std::queue<T>`
behind a `std::mutex m_` and a `std::condition_variable cv_`, shared by any number of threads.

Each call is a sequence of steps, one for each action another thread can see: taking `m_` (the
constructor of `std::lock_guard` or `std::unique_lock`, and the reacquisition as `cv_.wait`
returns), the rest of the critical section up to the release of `m_`, and `cv_.notify_one()`.
`cv_.wait(lock, pred)` is `while (!pred()) cv_.wait(lock);`, and `cv_.wait(lock)` releases `m_` and
blocks in one step, until a `notify_one` picks this thread or it wakes spuriously; it then takes
`m_` again. `notify_one` wakes one blocked thread, any one, and none only when no thread is
blocked. The constructor's `capacity_` is stored and never read.

`Moves` lists what one step can do, with its guards (`step_moves`); the invariants of
`Nsqueue.Mutex.Safety` are proved over it.
-/
import Nsqueue.Schedule

namespace Nsqueue

namespace MutexQueue

/-- The calls that take the front value out of `q_`; they differ only in what they do with it
(hand it to `func`, store it to `item`, or drop it), which no other thread sees. -/
inductive Take where
  /-- `consume_one(func)`: `func(item)` on `q_.front()`, then `q_.pop()` -/
  | consumeOne
  /-- `pop(T& item)`: `item = q_.front()`, then `q_.pop()` -/
  | popItem
  /-- `pop()`: `q_.pop()` -/
  | pop
  deriving DecidableEq, Repr

/-- A call on the queue. -/
inductive Call (α : Type) where
  /-- `push(item)` -/
  | push (item : α)
  | take (k : Take)
  deriving DecidableEq, Repr

/-- Where a thread is. -/
inductive Thread (α : Type) where
  | idle
  /-- `push(item)`, constructing `std::lock_guard<std::mutex> lock(m_)` -/
  | pushLock (item : α)
  /-- `push(item)` holding `m_`, at `q_.push(item)`; the guard releases `m_` at the end of its
  block -/
  | pushLocked (item : α)
  /-- `push(item)` at `cv_.notify_one()` -/
  | notify
  /-- a taking call constructing `std::unique_lock<std::mutex> lock(m_)`, or taking `m_` again as
  `cv_.wait(lock)` returns -/
  | takeLock (k : Take)
  /-- a taking call holding `m_`, at the predicate `!q_.empty()` of `cv_.wait(lock, pred)` -/
  | takeLocked (k : Take)
  /-- a taking call blocked in `cv_.wait(lock)`, with `m_` released -/
  | wait (k : Take)
  deriving DecidableEq, Repr

namespace Thread

variable {α : Type}

/-- Where a call starts. -/
def start : Call α → Thread α
  | .push item => .pushLock item
  | .take k => .takeLock k

/-- Holds `m_`. -/
def holds : Thread α → Bool
  | .pushLocked _ | .takeLocked _ => true
  | _ => false

/-- Blocked in `cv_.wait(lock)`. -/
def waits : Thread α → Bool
  | .wait _ => true
  | _ => false

/-- Still owes a wakeup: about to call `cv_.notify_one()`, or a taking call that will test
`!q_.empty()` before it can block again. -/
def owed : Thread α → Bool
  | .notify | .takeLock _ | .takeLocked _ => true
  | _ => false

@[simp] theorem holds_start (c : Call α) : (start c).holds = false := by cases c <;> rfl

@[simp] theorem waits_start (c : Call α) : (start c).waits = false := by cases c <;> rfl

theorem waits_eq_true {th : Thread α} : th.waits = true ↔ ∃ k, th = .wait k := by
  cases th <;> simp [waits]

end Thread

/-- The queue's `q_`, the holder of `m_`, and each thread's place by its number. -/
structure Sys (α : Type) where
  /-- `q_` -/
  q : List α
  /-- the thread holding `m_` -/
  owner : Option Nat
  threads : List (Thread α)

/-- What the scheduler runs next. -/
inductive Choice (α : Type) where
  /-- idle thread `t` calls `c` -/
  | call (t : Nat) (c : Call α)
  /-- thread `t` takes its next step other than `cv_.notify_one()` -/
  | step (t : Nat)
  /-- thread `t` calls `cv_.notify_one()`, which wakes thread `w` if `w` is blocked -/
  | notify (t w : Nat)
  /-- thread `w`, blocked in `cv_.wait(lock)`, wakes spuriously -/
  | spurious (w : Nat)

/-- A step of a thread already inside a call, not a new call or a spurious wakeup. -/
def Choice.inCall {α : Type} : Choice α → Bool
  | .step _ | .notify _ _ => true
  | _ => false

namespace Sys

variable {α : Type}

/-- `k` idle threads and a newly constructed queue. -/
def init (k : Nat) : Sys α := ⟨[], none, List.replicate k .idle⟩

/-- Where thread `t` is; a thread that does not exist stays idle. -/
def thread (s : Sys α) (t : Nat) : Thread α := s.threads.getD t .idle

/-- Thread `t` moves to `th`. -/
def setThread (s : Sys α) (t : Nat) (th : Thread α) : Sys α := { s with threads := s.threads.set t th }

/-- Thread `t` takes `m_` and moves to `th` if `m_` is free, and keeps blocking otherwise. -/
def acquire (s : Sys α) (t : Nat) (th : Thread α) : Sys α :=
  if s.owner = none then { s with owner := some t }.setThread t th else s

/-- One scheduler step. -/
def step (s : Sys α) : Choice α → Sys α
  | .call t c =>
    match s.thread t with
    | .idle => s.setThread t (.start c)
    | _ => s
  | .step t =>
    match s.thread t with
    | .pushLock item => s.acquire t (.pushLocked item)
    | .pushLocked item => { s with q := s.q ++ [item], owner := none }.setThread t .notify
    | .takeLock k => s.acquire t (.takeLocked k)
    | .takeLocked k =>
      match s.q with
      | [] => { s with owner := none }.setThread t (.wait k)
      | _ :: rest => { s with q := rest, owner := none }.setThread t .idle
    | _ => s
  | .notify t w =>
    match s.thread t, s.thread w with
    | .notify, .wait k => (s.setThread t .idle).setThread w (.takeLock k)
    | .notify, _ => if s.threads.any Thread.waits then s else s.setThread t .idle
    | _, _ => s
  | .spurious w =>
    match s.thread w with
    | .wait k => s.setThread w (.takeLock k)
    | _ => s

/-- The state after a schedule. -/
def run (s : Sys α) (cs : List (Choice α)) : Sys α := cs.foldl step s

/-- The states some schedule of `k` threads reaches from a new queue. -/
abbrev Reachable (k : Nat) : Sys α → Prop := Reach step (init k)

theorem reachable_run (k : Nat) (cs : List (Choice α)) : Reachable k (run (init k) cs : Sys α) :=
  Reach.foldl .init cs

/-! ## Frame lemmas -/

@[simp] theorem setThread_q (s : Sys α) (t : Nat) (th : Thread α) : (s.setThread t th).q = s.q := rfl

@[simp] theorem setThread_owner (s : Sys α) (t : Nat) (th : Thread α) :
    (s.setThread t th).owner = s.owner := rfl

@[simp] theorem thread_init (k u : Nat) : (init k : Sys α).thread u = .idle := by
  simp only [init, thread, List.getD_eq_getElem?_getD, List.getElem?_replicate]
  split <;> rfl

@[simp] theorem thread_mk (s : Sys α) (q : List α) (o : Option Nat) :
    (Sys.mk q o s.threads).thread = s.thread := rfl

@[simp] theorem length_setThread (s : Sys α) (t : Nat) (th : Thread α) :
    (s.setThread t th).threads.length = s.threads.length := List.length_set _ _ _

theorem lt_of_thread_ne_idle {s : Sys α} {t : Nat} (h : s.thread t ≠ .idle) : t < s.threads.length := by
  by_contra hl
  exact h (by simp [thread, List.getElem?_eq_none (Nat.le_of_not_lt hl)])

theorem thread_setThread (s : Sys α) {t : Nat} (th : Thread α) (h : t < s.threads.length) (u : Nat) :
    (s.setThread t th).thread u = if u = t then th else s.thread u := by
  simp only [thread, setThread, List.getD_eq_getElem?_getD, List.getElem?_set]
  by_cases hu : u = t
  · simp [hu, h]
  · simp [hu, Ne.symm hu]

@[simp] theorem thread_setThread_self (s : Sys α) {t : Nat} (th : Thread α) (h : t < s.threads.length) :
    (s.setThread t th).thread t = th := by
  simp [thread_setThread s th h]

theorem exists_thread_of_mem {s : Sys α} {th : Thread α} (h : th ∈ s.threads) : ∃ t, s.thread t = th := by
  obtain ⟨t, ht, rfl⟩ := List.mem_iff_getElem.1 h
  exact ⟨t, by simp [thread, ht]⟩

theorem setThread_of_le (s : Sys α) {t : Nat} (th : Thread α) (h : s.threads.length ≤ t) :
    s.setThread t th = s := by
  simp [setThread, List.set_eq_of_length_le h]

/-- Moving thread `t` changes each count by what it leaves and what it enters. -/
theorem countP_setThread (s : Sys α) {t : Nat} (th : Thread α) (h : t < s.threads.length)
    (p : Thread α → Bool) :
    (s.setThread t th).threads.countP p + (if p (s.thread t) then 1 else 0) =
      s.threads.countP p + (if p th then 1 else 0) := by
  have hle := List.boole_getElem_le_countP p s.threads t h
  have ht : s.thread t = s.threads[t] := by simp [thread, h]
  simp only [setThread, List.countP_set p s.threads t th h, ht]
  omega

theorem countP_pos {s : Sys α} {t : Nat} {p : Thread α → Bool} (h : t < s.threads.length)
    (hp : p (s.thread t) = true) : 0 < s.threads.countP p := by
  have := List.boole_getElem_le_countP p s.threads t h
  simp only [thread, List.getD_eq_getElem?_getD, List.getElem?_eq_getElem h, Option.getD_some] at hp
  simp only [hp, if_true] at this
  exact this

/-! ## What one step does -/

/-- The moves of one step, each with its guard. -/
inductive Moves (s : Sys α) : Sys α → Prop where
  | stay : Moves s s
  | call {t : Nat} (c : Call α) : s.thread t = .idle → t < s.threads.length →
      Moves s (s.setThread t (.start c))
  | pushLock {t : Nat} {item : α} : s.thread t = .pushLock item → s.owner = none →
      Moves s ({ s with owner := some t }.setThread t (.pushLocked item))
  | push {t : Nat} {item : α} : s.thread t = .pushLocked item →
      Moves s ({ s with q := s.q ++ [item], owner := none }.setThread t .notify)
  | takeLock {t : Nat} {k : Take} : s.thread t = .takeLock k → s.owner = none →
      Moves s ({ s with owner := some t }.setThread t (.takeLocked k))
  | block {t : Nat} {k : Take} : s.thread t = .takeLocked k → s.q = [] →
      Moves s ({ s with owner := none }.setThread t (.wait k))
  | take {t : Nat} {k : Take} {v : α} {rest : List α} : s.thread t = .takeLocked k → s.q = v :: rest →
      Moves s ({ s with q := rest, owner := none }.setThread t .idle)
  | wake {t w : Nat} {k : Take} : s.thread t = .notify → s.thread w = .wait k →
      Moves s ((s.setThread t .idle).setThread w (.takeLock k))
  | notifyNone {t : Nat} : s.thread t = .notify → (∀ th ∈ s.threads, th.waits = false) →
      Moves s (s.setThread t .idle)
  | spurious {w : Nat} {k : Take} : s.thread w = .wait k → Moves s (s.setThread w (.takeLock k))

theorem step_moves (s : Sys α) (c : Choice α) : Moves s (s.step c) := by
  cases c with
  | call t c =>
    simp only [step]
    split
    · rcases Nat.lt_or_ge t s.threads.length with h | h
      · exact .call c ‹_› h
      · rw [setThread_of_le s _ h]; exact .stay
    · exact .stay
  | step t =>
    simp only [step]
    split
    · simp only [acquire]; split
      · exact .pushLock ‹_› ‹_›
      · exact .stay
    · exact .push ‹_›
    · simp only [acquire]; split
      · exact .takeLock ‹_› ‹_›
      · exact .stay
    · split
      · exact .block ‹_› ‹_›
      · exact .take ‹_› ‹_›
    · exact .stay
  | notify t w =>
    simp only [step]
    split
    · exact .wake ‹_› ‹_›
    · split
      · exact .stay
      · exact .notifyNone ‹_› (by simpa using ‹¬s.threads.any Thread.waits = true›)
    · exact .stay
  | spurious w =>
    simp only [step]
    split
    · exact .spurious ‹_›
    · exact .stay

end Sys

end MutexQueue

end Nsqueue
