/-
The sequential specification the queue is linearized against: a bounded FIFO of capacity `cap`
and the events its operations produce. A history of events is legal (`Accepts`) when the FIFO
can perform its events in order; on a legal history without `reset` the dequeued values followed
by what is still held are exactly the enqueued values (`Accepts.dequeued_append`), and the number
held is the enqueues minus the dequeues since the last `reset` (`Accepts.length_eq_count`). The
FIFO is deterministic, so a legal history fixes what it holds (`Accepts.unique`) and its last
event is a step from the state before (`Accepts.snoc_inv`).
-/
import Mathlib.Tactic.Common

namespace Nsqueue

/-- What one queue operation does to the FIFO, logged where the operation takes effect. -/
inductive Event (α : Type) where
  /-- a successful `emplace`/`push`/`force_emplace`/`force_push` of the value -/
  | enqueue (v : α)
  /-- a failing `emplace`/`push`: the queue was full -/
  | enqueueFull
  /-- a successful dequeue, removing the value -/
  | dequeue (v : α)
  /-- a failing `pop`/`consume_one`: the queue was empty -/
  | dequeueEmpty
  /-- `reset()` -/
  | reset
  deriving DecidableEq, Repr

namespace Fifo

variable {α : Type}

/-- One step of the bounded FIFO of capacity `cap`, from `q` to `q'`. -/
def Step (cap : Nat) (q : List α) : Event α → List α → Prop
  | .enqueue v, q' => q.length < cap ∧ q' = q ++ [v]
  | .enqueueFull, q' => q.length = cap ∧ q' = q
  | .dequeue v, q' => q = v :: q'
  | .dequeueEmpty, q' => q = [] ∧ q' = []
  | .reset, q' => q' = []

/-- The FIFO, started empty, performs the events of `h` in order and ends holding `q`. -/
inductive Accepts (cap : Nat) : List (Event α) → List α → Prop where
  | nil : Accepts cap [] []
  | snoc {h q e q'} : Accepts cap h q → Step cap q e q' → Accepts cap (h ++ [e]) q'

/-- The values of the successful enqueues of a history, in order. -/
def enqueued (h : List (Event α)) : List α :=
  h.filterMap fun | .enqueue v => some v | _ => none

/-- The values of the successful dequeues of a history, in order. -/
def dequeued (h : List (Event α)) : List α :=
  h.filterMap fun | .dequeue v => some v | _ => none

/-- The count after one more event: up for an enqueue, down for a dequeue, zero at `reset`. -/
def bump (c : Int) : Event α → Int
  | .enqueue _ => c + 1
  | .dequeue _ => c - 1
  | .reset => 0
  | _ => c

/-- Successful enqueues minus successful dequeues since the last `reset`. -/
def count (h : List (Event α)) : Int := h.foldl bump 0

@[simp] theorem enqueued_snoc (h : List (Event α)) (e : Event α) :
    enqueued (h ++ [e]) = enqueued h ++ (match e with | .enqueue v => [v] | _ => []) := by
  cases e <;> simp [enqueued]

@[simp] theorem dequeued_snoc (h : List (Event α)) (e : Event α) :
    dequeued (h ++ [e]) = dequeued h ++ (match e with | .dequeue v => [v] | _ => []) := by
  cases e <;> simp [dequeued]

@[simp] theorem count_snoc (h : List (Event α)) (e : Event α) : count (h ++ [e]) = bump (count h) e := by
  simp [count]

/-- On a legal history the FIFO holds as many values as the count says. -/
theorem Accepts.length_eq_count {cap : Nat} {h : List (Event α)} {q : List α} (hq : Accepts cap h q) :
    (q.length : Int) = count h := by
  induction hq with
  | nil => rfl
  | @snoc h q e q' _ hs ih =>
    rw [count_snoc, ← ih]
    cases e with
    | enqueue v => obtain ⟨-, rfl⟩ := hs; simp [bump]
    | enqueueFull => obtain ⟨-, rfl⟩ := hs; rfl
    | dequeue v => subst hs; simp [bump]
    | dequeueEmpty => obtain ⟨rfl, rfl⟩ := hs; rfl
    | reset => subst hs; rfl

/-- A legal history never holds more than `cap` values. -/
theorem Accepts.length_le {cap : Nat} {h : List (Event α)} {q : List α} (hq : Accepts cap h q) :
    q.length ≤ cap := by
  induction hq with
  | nil => exact Nat.zero_le _
  | @snoc h q e q' _ hs ih =>
    cases e with
    | enqueue v => obtain ⟨hlt, rfl⟩ := hs; simpa using hlt
    | enqueueFull => obtain ⟨-, rfl⟩ := hs; exact ih
    | dequeue v => subst hs; exact Nat.le_of_succ_le ih
    | dequeueEmpty => obtain ⟨-, rfl⟩ := hs; exact Nat.zero_le _
    | reset => subst hs; exact Nat.zero_le _

/-- The FIFO is deterministic: an event takes a state to at most one state. -/
theorem Step.unique {cap : Nat} {q q₁ q₂ : List α} {e : Event α} (h₁ : Step cap q e q₁)
    (h₂ : Step cap q e q₂) : q₁ = q₂ := by
  cases e with
  | enqueue v => exact h₁.2.trans h₂.2.symm
  | enqueueFull => exact h₁.2.trans h₂.2.symm
  | dequeue v => exact List.cons.inj (h₁.symm.trans h₂) |>.2
  | dequeueEmpty => exact h₁.2.trans h₂.2.symm
  | reset => exact h₁.trans h₂.symm

/-- The last event of a legal history is a step of the FIFO from the state before it. -/
theorem Accepts.snoc_inv {cap : Nat} {h : List (Event α)} {e : Event α} {q' : List α}
    (hq : Accepts cap (h ++ [e]) q') : ∃ q, Accepts cap h q ∧ Step cap q e q' := by
  generalize hH : h ++ [e] = H at hq
  cases hq with
  | nil => simp at hH
  | snoc hq hs =>
    obtain ⟨rfl, he⟩ := List.append_inj' hH rfl
    cases he
    exact ⟨_, hq, hs⟩

/-- A legal history determines what the FIFO holds. -/
theorem Accepts.unique {cap : Nat} {h : List (Event α)} {q₁ q₂ : List α} (h₁ : Accepts cap h q₁)
    (h₂ : Accepts cap h q₂) : q₁ = q₂ := by
  induction h₁ generalizing q₂ with
  | nil =>
    generalize hH : ([] : List (Event α)) = H at h₂
    cases h₂ with
    | nil => rfl
    | snoc => simp at hH
  | snoc _ hs ih =>
    obtain ⟨q, hq, hs'⟩ := h₂.snoc_inv
    exact hs.unique (ih hq ▸ hs')

/-- FIFO order: on a legal history without `reset`, the dequeued values followed by the values
still held are the enqueued values, in order. -/
theorem Accepts.dequeued_append {cap : Nat} {h : List (Event α)} {q : List α} (hq : Accepts cap h q)
    (hr : Event.reset ∉ h) : dequeued h ++ q = enqueued h := by
  induction hq with
  | nil => rfl
  | @snoc h q e q' _ hs ih =>
    rw [dequeued_snoc, enqueued_snoc, ← ih fun hm => hr (List.mem_append_left _ hm)]
    cases e with
    | enqueue v => obtain ⟨-, rfl⟩ := hs; simp
    | enqueueFull => obtain ⟨-, rfl⟩ := hs; simp
    | dequeue v => subst hs; simp
    | dequeueEmpty => obtain ⟨rfl, rfl⟩ := hs; rfl
    | reset => exact absurd (List.mem_append_right _ (List.mem_singleton_self _)) hr

end Fifo

end Nsqueue
