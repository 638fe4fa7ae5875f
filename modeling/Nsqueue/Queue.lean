/-
The shared state of `spsc_queue<T, N>` and each single access to it: the slots `items_`, the
reader's `readIndex_` and `writeIndexCache_`, the writer's `writeIndex_` and `readIndexCache_`;
the queries `full`, `size`, `empty`, `read_available`, `capacity` and `reset`; and the values the
ring holds from `readIndex_` up to `writeIndex_` (`contents`), with how a store to either index
changes them (`contents_publishWrite`, `contents_publishRead`).
-/
import Nsqueue.Index
import Mathlib.Data.List.Basic

namespace Nsqueue

/-- The shared state of one `spsc_queue<T, N>`. Slot `i` of `items_` is `none` while no value
lives in it (never constructed into, or moved out of) and `some v` while `v` lives in it; the
storage is read at the index the code computes, so an index past the `N` slots stays visible. -/
structure Queue (α : Type) where
  /-- `items_[i].mObj` -/
  items : Nat → Option α
  /-- `reader_.readIndex_` -/
  readIndex : Nat
  /-- `reader_.writeIndexCache_` -/
  writeIndexCache : Nat
  /-- `writer_.writeIndex_` -/
  writeIndex : Nat
  /-- `writer_.readIndexCache_` -/
  readIndexCache : Nat

namespace Queue

variable {α : Type} (N : Nat)

/-- A newly constructed queue: both indices and both caches `0`, no value in any slot. -/
def init : Queue α := ⟨fun _ => none, 0, 0, 0, 0⟩

/-! ## Single accesses -/

/-- `writer_.readIndexCache_ = reader_.readIndex_.load(std::memory_order_acquire)` -/
@[simps] def reloadReadIndex (q : Queue α) : Queue α := { q with readIndexCache := q.readIndex }

/-- `new (&items_[writeIdx].mObj) T(std::forward<Args>(args)...)` -/
@[simps] def construct (q : Queue α) (writeIdx : Nat) (v : α) : Queue α :=
  { q with items := Function.update q.items writeIdx (some v) }

/-- `writer_.writeIndex_.store(nextWriteIdx, ...)` -/
@[simps] def publishWrite (q : Queue α) (nextWriteIdx : Nat) : Queue α := { q with writeIndex := nextWriteIdx }

/-- `reader_.writeIndexCache_ = writer_.writeIndex_.load(std::memory_order_acquire)` -/
@[simps] def reloadWriteIndex (q : Queue α) : Queue α := { q with writeIndexCache := q.writeIndex }

/-- `std::move(items_[readIdx].mObj)`: the value moved out, and the slot left without one. -/
@[simps] def moveOut (q : Queue α) (readIdx : Nat) : Option α × Queue α :=
  (q.items readIdx, { q with items := Function.update q.items readIdx none })

/-- `reader_.readIndex_.store(nextReadIdx, ...)` -/
@[simps] def publishRead (q : Queue α) (nextReadIdx : Nat) : Queue α := { q with readIndex := nextReadIdx }

/-! ## Queries and `reset` -/

/-- `full()`: `(writeIdx + 1) & mask_ == readIdx`. -/
def full (q : Queue α) : Bool := nextIndex N q.writeIndex == q.readIndex

/-- `size()`: `(w >= r) ? w - r : (N - r) + w`. -/
def size (q : Queue α) : Nat := dist N q.readIndex q.writeIndex

/-- `empty()`: `writeIndex_ == readIndex_`. -/
def empty (q : Queue α) : Bool := q.writeIndex == q.readIndex

/-- `read_available()`: `size()`. -/
def readAvailable (q : Queue α) : Nat := size N q

/-- `capacity()`: `mask_`. -/
def capacity : Nat := mask N

/-- `reset()`: both caches and both indices back to `0`; the slots are not touched. -/
@[simps] def reset (q : Queue α) : Queue α :=
  { q with readIndexCache := 0, writeIndexCache := 0, readIndex := 0, writeIndex := 0 }

/-! ## The values held -/

/-- The values of the slots from `readIndex_` up to `writeIndex_`, oldest first. -/
def contents (q : Queue α) : List α :=
  (List.range (dist N q.readIndex q.writeIndex)).filterMap fun i => q.items ((q.readIndex + i) % N)

/-- Every slot from `readIndex_` up to `writeIndex_` holds a value. -/
def Live (q : Queue α) : Prop :=
  ∀ i < dist N q.readIndex q.writeIndex, (q.items ((q.readIndex + i) % N)).isSome

/-- The invariant of the shared state: all four indices inside the storage, each cache on the
ring path between the other side's index and the own index, and a value in every held slot. -/
structure Inv (q : Queue α) : Prop where
  readIndex_lt : q.readIndex < N
  writeIndex_lt : q.writeIndex < N
  readIndexCache_lt : q.readIndexCache < N
  writeIndexCache_lt : q.writeIndexCache < N
  readCache : OnPath N q.readIndexCache q.readIndex q.writeIndex
  writeCache : OnPath N q.readIndex q.writeIndexCache q.writeIndex
  live : Live N q


/-! ## How the held values change -/

variable {N}

theorem length_filterMap_range {f : Nat → Option α} :
    ∀ {n : Nat}, (∀ i < n, (f i).isSome) → ((List.range n).filterMap f).length = n
  | 0, _ => rfl
  | n + 1, h => by
    obtain ⟨v, hv⟩ := Option.isSome_iff_exists.1 (h n (Nat.lt_succ_self n))
    rw [List.range_succ, List.filterMap_append, List.length_append,
      length_filterMap_range fun i hi => h i (by omega)]
    simp [hv]

/-- Every held slot contributes one value. -/
theorem contents_length {q : Queue α} (h : Live N q) :
    (contents N q).length = dist N q.readIndex q.writeIndex :=
  length_filterMap_range h

/-- A slot at or past `writeIndex_` (seen from `readIndex_`) is not among the held slots. -/
theorem mod_ne_of_dist_le {r w j i : Nat} (hr : r < N) (hw : w < N) (hj : dist N r w ≤ dist N r j)
    (hi : i < dist N r w) : (r + i) % N ≠ j := by
  intro h
  have := dist_add_mod (i := i) hr (by have := dist_lt hr hw; omega)
  rw [h] at this; omega

/-- Writing a slot outside the held ones leaves the held values. -/
theorem contents_update (q : Queue α) {j : Nat} (x : Option α) (hr : q.readIndex < N)
    (hw : q.writeIndex < N) (hj : dist N q.readIndex q.writeIndex ≤ dist N q.readIndex j) :
    contents N { q with items := Function.update q.items j x } = contents N q :=
  List.filterMap_congr fun _ hi =>
    Function.update_noteq (mod_ne_of_dist_le hr hw hj (List.mem_range.1 hi)) _ _

theorem live_update {q : Queue α} {j : Nat} (x : Option α) (hr : q.readIndex < N)
    (hw : q.writeIndex < N) (hj : dist N q.readIndex q.writeIndex ≤ dist N q.readIndex j)
    (h : Live N q) : Live N { q with items := Function.update q.items j x } := fun i hi => by
  simpa [Function.update_noteq (mod_ne_of_dist_le hr hw hj hi)] using h i hi

/-- Publishing the slot at `writeIndex_` appends its value. -/
theorem contents_publishWrite (hN : ValidCapacity N) {q : Queue α} {v : α}
    (hr : q.readIndex < N) (hw : q.writeIndex < N) (hne : nextIndex N q.writeIndex ≠ q.readIndex)
    (hv : q.items q.writeIndex = some v) :
    contents N (q.publishWrite (nextIndex N q.writeIndex)) = contents N q ++ [v] := by
  unfold contents
  rw [publishWrite_readIndex, publishWrite_writeIndex, dist_nextIndex_right hN hr hw hne,
    List.range_succ, List.filterMap_append]
  simp [add_dist_mod hr hw, hv]

theorem live_publishWrite (hN : ValidCapacity N) {q : Queue α} (hr : q.readIndex < N)
    (hw : q.writeIndex < N) (hne : nextIndex N q.writeIndex ≠ q.readIndex)
    (hv : (q.items q.writeIndex).isSome) (h : Live N q) :
    Live N (q.publishWrite (nextIndex N q.writeIndex)) := fun i hi => by
  rw [publishWrite_readIndex, publishWrite_writeIndex, dist_nextIndex_right hN hr hw hne] at hi
  rcases Nat.lt_succ_iff_lt_or_eq.1 hi with hi | rfl
  · exact h i hi
  · simpa [add_dist_mod hr hw] using hv

/-- Publishing `readIndex_ + 1` drops the oldest value. -/
theorem contents_publishRead (hN : ValidCapacity N) {q : Queue α} {v : α}
    (hr : q.readIndex < N) (hw : q.writeIndex < N) (hne : q.readIndex ≠ q.writeIndex)
    (hv : q.items q.readIndex = some v) :
    contents N q = v :: contents N (q.publishRead (nextIndex N q.readIndex)) := by
  obtain ⟨d, hd⟩ : ∃ d, dist N q.readIndex q.writeIndex = d + 1 :=
    Nat.exists_eq_succ_of_ne_zero fun h0 => hne ((dist_eq_zero_iff hr).1 h0)
  unfold contents
  rw [publishRead_readIndex, publishRead_writeIndex, dist_nextIndex_left hN hr hw hne, hd,
    List.range_succ_eq_map, List.filterMap_cons, Nat.add_zero, Nat.mod_eq_of_lt hr, hv,
    List.filterMap_map]
  simp [Function.comp_def, nextIndex_add_mod hN hr]

theorem live_publishRead (hN : ValidCapacity N) {q : Queue α} (hr : q.readIndex < N)
    (hw : q.writeIndex < N) (hne : q.readIndex ≠ q.writeIndex) (h : Live N q) :
    Live N (q.publishRead (nextIndex N q.readIndex)) := fun i hi => by
  rw [publishRead_readIndex, publishRead_writeIndex, dist_nextIndex_left hN hr hw hne] at hi
  simpa [nextIndex_add_mod hN hr] using h (i + 1) (by omega)

/-! ## The invariant -/

theorem inv_init (hN : ValidCapacity N) : Inv N (init : Queue α) :=
  have h0 := hN.pos
  ⟨h0, h0, h0, h0, onPath_start, onPath_start, fun i hi => by simp [init, dist_self] at hi⟩

theorem Inv.reset (hN : ValidCapacity N) {q : Queue α} : Inv N q.reset :=
  have h0 := hN.pos
  ⟨h0, h0, h0, h0, onPath_start, onPath_start, fun i hi => by simp [dist_self] at hi⟩

/-- The fast-path test of the writer agrees with a fresh load: if the cached `readIndex_` leaves
room, so does the real one. -/
theorem Inv.nextIndex_ne_readIndex {q : Queue α} (hq : Inv N q) (hN : ValidCapacity N)
    (h : nextIndex N q.writeIndex ≠ q.readIndexCache) : nextIndex N q.writeIndex ≠ q.readIndex := by
  intro he
  rw [nextIndex_eq_iff_dist hN hq.readIndex_lt hq.writeIndex_lt] at he
  have hsplit := dist_add_of_onPath hq.readIndexCache_lt hq.readIndex_lt hq.writeIndex_lt hq.readCache
  have hlt := dist_lt hq.readIndexCache_lt hq.writeIndex_lt
  have hrc : q.readIndexCache = q.readIndex := (dist_eq_zero_iff hq.readIndexCache_lt).1 (by omega)
  exact h (hrc ▸ (nextIndex_eq_iff_dist hN hq.readIndex_lt hq.writeIndex_lt).2 he)

/-- The fast-path test of the reader agrees with a fresh load: if the cached `writeIndex_` shows
data, so does the real one. -/
theorem Inv.readIndex_ne_writeIndex {q : Queue α} (hq : Inv N q)
    (h : q.readIndex ≠ q.writeIndexCache) : q.readIndex ≠ q.writeIndex := by
  intro he
  have hc := hq.writeCache
  rw [OnPath, he, dist_self] at hc
  exact h (he ▸ (dist_eq_zero_iff hq.writeIndex_lt).1 (by omega))

end Queue

end Nsqueue
