/-
The operations of `spsc_queue<T, N>` run whole by one thread while the other is idle: `emplace`
(and `push`), the dequeue body shared by `pop(T&)`, `pop()` and `consume_one`, and the loop shared
by `consume_all` and `consume_n`, each the single accesses of `Nsqueue.Queue` in the order the code
makes them. From a state with `Queue.Inv` a failing call changes nothing, `emplace` fails exactly
when `full()` (`emplace_full`, `emplace_room`), a dequeue fails exactly when `empty()`
(`dequeue_empty`, `dequeue_nonempty`), and the consume loop hands over the oldest values in order
(`consumeLoop_eq`).
-/
import Nsqueue.Queue

namespace Nsqueue

namespace Queue

variable {α : Type} (N : Nat)

/-! ## The operations -/

/-- The end of `emplace` once the slot is known free: construct, then publish. -/
def emplaceAt (q : Queue α) (writeIdx nextWriteIdx : Nat) (v : α) : Queue α :=
  (q.construct writeIdx v).publishWrite nextWriteIdx

/-- `emplace(args...)`: `false` when the queue is full, after refreshing the cached `readIndex_`. -/
def emplace (q : Queue α) (v : α) : Bool × Queue α :=
  let writeIdx := q.writeIndex
  let nextWriteIdx := nextIndex N writeIdx
  if nextWriteIdx = q.readIndexCache then
    let q := q.reloadReadIndex
    if nextWriteIdx = q.readIndexCache then (false, q)
    else (true, emplaceAt q writeIdx nextWriteIdx v)
  else (true, emplaceAt q writeIdx nextWriteIdx v)

/-- `push(item)`: `emplace(item)`. -/
def push (q : Queue α) (item : α) : Bool × Queue α := emplace N q item

/-- The end of a dequeue once data is known present: the value of slot `readIdx` moved out when
`moves`, then `readIdx + 1` published. -/
def dequeueAt (moves : Bool) (q : Queue α) (readIdx : Nat) : Option α × Queue α :=
  let (item, q) := if moves then q.moveOut readIdx else (none, q)
  (item, q.publishRead (nextIndex N readIdx))

/-- The body of `pop(T&)`, `pop()` and `consume_one(func)`: `false` when the queue is empty, after
refreshing the cached `writeIndex_`; else `true` and the value moved out (when `moves`). -/
def dequeue (moves : Bool) (q : Queue α) : Bool × Option α × Queue α :=
  let readIdx := q.readIndex
  let writeIdx := q.writeIndexCache
  if readIdx = writeIdx then
    let q := q.reloadWriteIndex
    if readIdx = q.writeIndexCache then (false, none, q)
    else (true, dequeueAt N moves q readIdx)
  else (true, dequeueAt N moves q readIdx)

/-- `pop(T& item)`: on success the value moved into `item`. -/
def popItem (q : Queue α) : Bool × Option α × Queue α := dequeue N true q

/-- `pop()`: steps past the oldest value without moving it out of its slot. -/
def pop (q : Queue α) : Bool × Queue α := ((dequeue N false q).1, (dequeue N false q).2.2)

/-- `consume_one(func)`: on success the value `func` is called with. Its store of `readIndex_` is
`release` where `pop`'s is `relaxed`; both are the one store here. -/
def consumeOne (q : Queue α) : Bool × Option α × Queue α := dequeue N true q

/-- The loop of `consume_all` and `consume_n`: at most `k` more calls of `consume_one(func)`,
stopping at the first that fails; `m` counts the successful calls, `calls` the values `func` got. -/
def consumeLoop : Nat → Nat → List α → Queue α → Nat × List α × Queue α
  | 0, m, calls, q => (m, calls, q)
  | k + 1, m, calls, q =>
    match consumeOne N q with
    | (true, item, q) => consumeLoop k (m + 1) (calls ++ item.toList) q
    | (false, _, q) => (m, calls, q)

/-- `consume_all(func)`: `while (consume_one(func)) ++n; return n;`. The loop is given `N` calls:
`N` slots hold at most `N - 1` values, so the last call fails (`consumeLoop_eq`). -/
def consumeAll (q : Queue α) : Nat × List α × Queue α := consumeLoop N N 0 [] q

/-- `consume_n(func, n)`: `for (; m < n; ++m) if (!consume_one(func)) break; return m;`. -/
def consumeN (q : Queue α) (n : Nat) : Nat × List α × Queue α := consumeLoop N n 0 [] q

/-! ## What each operation does -/

variable {N} {q : Queue α}

theorem reloadReadIndex_of_eq (h : q.readIndexCache = q.readIndex) : q.reloadReadIndex = q := by
  cases q; simp_all [reloadReadIndex]

theorem reloadWriteIndex_of_eq (h : q.writeIndexCache = q.writeIndex) : q.reloadWriteIndex = q := by
  cases q; simp_all [reloadWriteIndex]

theorem Inv.reloadReadIndex (hq : Inv N q) : Inv N q.reloadReadIndex :=
  { hq with readIndexCache_lt := hq.readIndex_lt, readCache := onPath_start }

theorem Inv.reloadWriteIndex (hq : Inv N q) : Inv N q.reloadWriteIndex :=
  { hq with writeIndexCache_lt := hq.writeIndex_lt, writeCache := onPath_end }

theorem full_iff (hN : ValidCapacity N) (hq : Inv N q) :
    full N q = true ↔ dist N q.readIndex q.writeIndex = N - 1 := by
  rw [full, beq_iff_eq, nextIndex_eq_iff_dist hN hq.readIndex_lt hq.writeIndex_lt]

theorem empty_iff (hq : Inv N q) : empty q = true ↔ dist N q.readIndex q.writeIndex = 0 := by
  rw [empty, beq_iff_eq, dist_eq_zero_iff hq.readIndex_lt, eq_comm]

theorem Inv.construct (hq : Inv N q) (v : α) : Inv N (q.construct q.writeIndex v) :=
  { hq with live := live_update _ hq.readIndex_lt hq.writeIndex_lt (Nat.le_refl _) hq.live }

theorem Inv.contents_construct (hq : Inv N q) (v : α) :
    contents N (q.construct q.writeIndex v) = contents N q :=
  contents_update q _ hq.readIndex_lt hq.writeIndex_lt (Nat.le_refl _)

/-- Publishing the slot at `writeIndex_`, the cached `readIndex_` leaving room, keeps the
invariant. -/
theorem Inv.publishWrite (hN : ValidCapacity N) (hq : Inv N q)
    (hne : nextIndex N q.writeIndex ≠ q.readIndexCache) (hv : (q.items q.writeIndex).isSome) :
    Inv N (q.publishWrite (nextIndex N q.writeIndex)) :=
  have hner := hq.nextIndex_ne_readIndex hN hne
  ⟨hq.readIndex_lt, hN.nextIndex_lt hq.writeIndex_lt, hq.readIndexCache_lt, hq.writeIndexCache_lt,
    onPath_nextIndex_end hN hq.readIndexCache_lt hq.writeIndex_lt hq.readCache hne,
    onPath_nextIndex_end hN hq.readIndex_lt hq.writeIndex_lt hq.writeCache hner,
    live_publishWrite hN hq.readIndex_lt hq.writeIndex_lt hner hv hq.live⟩

/-- Publishing `readIndex_ + 1`, the cached `writeIndex_` showing data, keeps the invariant. -/
theorem Inv.publishRead (hN : ValidCapacity N) (hq : Inv N q) (hne : q.readIndex ≠ q.writeIndexCache) :
    Inv N (q.publishRead (nextIndex N q.readIndex)) :=
  have hrw := hq.readIndex_ne_writeIndex hne
  ⟨hN.nextIndex_lt hq.readIndex_lt, hq.writeIndex_lt, hq.readIndexCache_lt, hq.writeIndexCache_lt,
    onPath_nextIndex_mid hN hq.readIndexCache_lt hq.readIndex_lt hq.writeIndex_lt hq.readCache hrw,
    onPath_nextIndex_start hN hq.readIndex_lt hq.writeIndexCache_lt hq.writeIndex_lt hq.writeCache hne,
    live_publishRead hN hq.readIndex_lt hq.writeIndex_lt hrw hq.live⟩

/-- Once `readIndex_ + 1` is published, the slot left behind is outside the held ones. -/
theorem Inv.behind (hN : ValidCapacity N) (hq : Inv N q) (hne : q.readIndex ≠ q.writeIndexCache) :
    dist N (nextIndex N q.readIndex) q.writeIndex ≤ dist N (nextIndex N q.readIndex) q.readIndex := by
  have hr := hq.readIndex_lt
  have h1 := (nextIndex_eq_iff_dist hN (hN.nextIndex_lt hr) hr).1 rfl
  have h2 := dist_nextIndex_left hN hr hq.writeIndex_lt (hq.readIndex_ne_writeIndex hne)
  have h3 := dist_lt hr hq.writeIndex_lt
  omega

/-- When the cached `writeIndex_` shows data, the oldest slot holds a value. -/
theorem Inv.front (hq : Inv N q) (hne : q.readIndex ≠ q.writeIndexCache) :
    ∃ v, q.items q.readIndex = some v := by
  have hr := hq.readIndex_lt
  have hd0 : dist N q.readIndex q.writeIndex ≠ 0 := fun h =>
    hq.readIndex_ne_writeIndex hne ((dist_eq_zero_iff hr).1 h)
  exact Option.isSome_iff_exists.1 (by simpa [Nat.mod_eq_of_lt hr] using hq.live 0 (by omega))

/-- Constructing into the free slot and publishing it keeps the invariant and appends `v`. -/
theorem emplaceAt_spec (hN : ValidCapacity N) (hq : Inv N q) (v : α)
    (hne : nextIndex N q.writeIndex ≠ q.readIndexCache) :
    Inv N (emplaceAt q q.writeIndex (nextIndex N q.writeIndex) v) ∧
      contents N (emplaceAt q q.writeIndex (nextIndex N q.writeIndex) v) = contents N q ++ [v] := by
  have hr := hq.readIndex_lt
  have hw := hq.writeIndex_lt
  refine ⟨(hq.construct v).publishWrite hN hne (by simp), ?_⟩
  exact (contents_publishWrite (q := q.construct q.writeIndex v) (v := v) hN hr hw
    (hq.nextIndex_ne_readIndex hN hne) (by simp)).trans (by rw [hq.contents_construct v])

/-- `emplace` on a full queue returns `false` and changes nothing. -/
theorem emplace_full (hN : ValidCapacity N) (hq : Inv N q) (v : α) (hf : full N q = true) :
    emplace N q v = (false, q) := by
  have hnr : nextIndex N q.writeIndex = q.readIndex := by simpa [full] using hf
  have hnc : nextIndex N q.writeIndex = q.readIndexCache :=
    Classical.byContradiction fun h => hq.nextIndex_ne_readIndex hN h hnr
  simp [emplace, hnc, reloadReadIndex_of_eq (hnc.symm.trans hnr), ← hnr]

/-- `emplace` on a queue with room returns `true`, keeps the invariant and appends `v`. -/
theorem emplace_room (hN : ValidCapacity N) (hq : Inv N q) (v : α) (hf : full N q = false) :
    ∃ q', emplace N q v = (true, q') ∧ Inv N q' ∧ contents N q' = contents N q ++ [v] := by
  have hnr : nextIndex N q.writeIndex ≠ q.readIndex := by simpa [full] using hf
  dsimp only [emplace]
  split
  · have hne : nextIndex N q.writeIndex ≠ q.reloadReadIndex.readIndexCache := by simpa using hnr
    rw [if_neg hne]
    exact ⟨_, rfl, emplaceAt_spec hN hq.reloadReadIndex v hne⟩
  · exact ⟨_, rfl, emplaceAt_spec hN hq v ‹_›⟩

/-- Moving out (or stepping past) the oldest value and publishing the next read index keeps the
invariant and drops that value. -/
theorem dequeueAt_spec (hN : ValidCapacity N) (hq : Inv N q) (moves : Bool)
    (hne : q.readIndex ≠ q.writeIndexCache) :
    ∃ v, contents N q = v :: contents N (dequeueAt N moves q q.readIndex).2 ∧
      (dequeueAt N moves q q.readIndex).1 = (if moves then some v else none) ∧
      Inv N (dequeueAt N moves q q.readIndex).2 := by
  have hr := hq.readIndex_lt
  have hw := hq.writeIndex_lt
  have hrw := hq.readIndex_ne_writeIndex hne
  obtain ⟨v, hv⟩ := hq.front hne
  have hinv₁ := hq.publishRead hN hne
  have hout := hq.behind hN hne
  refine ⟨v, ?_, by cases moves <;> simp [dequeueAt, hv], ?_⟩
  · cases moves
    · exact contents_publishRead hN hr hw hrw hv
    · exact (contents_publishRead hN hr hw hrw hv).trans
        (congrArg _ (contents_update _ none hinv₁.readIndex_lt hw hout).symm)
  · cases moves
    · exact hinv₁
    · exact { hinv₁ with live := live_update none hinv₁.readIndex_lt hw hout hinv₁.live }

/-- A dequeue on an empty queue returns `false` and changes nothing. -/
theorem dequeue_empty (hq : Inv N q) (moves : Bool) (he : empty q = true) :
    dequeue N moves q = (false, none, q) := by
  have hwr : q.writeIndex = q.readIndex := by simpa [empty] using he
  have hwc : q.readIndex = q.writeIndexCache :=
    Classical.byContradiction fun h => hq.readIndex_ne_writeIndex h hwr.symm
  simp [dequeue, hwc, reloadWriteIndex_of_eq (hwc.symm.trans hwr.symm), ← hwr]

/-- A dequeue on a non-empty queue returns `true` with the oldest value (when it moves it out),
keeps the invariant and drops that value. -/
theorem dequeue_nonempty (hN : ValidCapacity N) (hq : Inv N q) (moves : Bool) (he : empty q = false) :
    ∃ v q', contents N q = v :: contents N q' ∧
      dequeue N moves q = (true, (if moves then some v else none), q') ∧ Inv N q' := by
  have hrw : q.readIndex ≠ q.writeIndex := fun h => by simp [empty, h] at he
  dsimp only [dequeue]
  split
  · have hne : q.readIndex ≠ q.reloadWriteIndex.writeIndexCache := by simpa using hrw
    rw [if_neg hne]
    obtain ⟨v, h1, h2, h3⟩ := dequeueAt_spec hN hq.reloadWriteIndex moves hne
    exact ⟨v, _, h1, by rw [← h2]; rfl, h3⟩
  · obtain ⟨v, h1, h2, h3⟩ := dequeueAt_spec hN hq moves ‹_›
    exact ⟨v, _, h1, by rw [← h2], h3⟩

/-- The consume loop run for `k` calls hands `func` the `k` oldest values (or all of them, if
fewer), counts them, and leaves the rest. -/
theorem consumeLoop_eq (hN : ValidCapacity N) :
    ∀ (k m : Nat) (calls : List α) (q : Queue α), Inv N q →
      ∃ q', consumeLoop N k m calls q =
          (m + min k (contents N q).length, calls ++ (contents N q).take k, q') ∧
        Inv N q' ∧ contents N q' = (contents N q).drop k
  | 0, m, calls, q, hq => ⟨q, by simp [consumeLoop], hq, rfl⟩
  | k + 1, m, calls, q, hq => by
    cases he : empty q
    · obtain ⟨v, q', hc, hd, hq'⟩ := dequeue_nonempty hN hq true he
      obtain ⟨q'', h1, h2, h3⟩ := consumeLoop_eq hN k (m + 1) (calls ++ [v]) q' hq'
      have hstep : consumeLoop N (k + 1) m calls q = consumeLoop N k (m + 1) (calls ++ [v]) q' := by
        simp only [consumeLoop, consumeOne, hd]; rfl
      refine ⟨q'', ?_, h2, by rw [hc, h3]; rfl⟩
      rw [hstep, h1, hc, List.length_cons, List.take_succ_cons, List.append_assoc,
        List.singleton_append, Nat.succ_min_succ, Nat.add_assoc, Nat.add_comm 1]
    · have h0 : contents N q = [] := by
        rw [← List.length_eq_zero, contents_length hq.live]; exact (empty_iff hq).1 he
      refine ⟨q, ?_, hq, by rw [h0]; rfl⟩
      simp [consumeLoop, consumeOne, dequeue_empty hq true he, h0]

theorem size_eq_length (hq : Inv N q) : size N q = (contents N q).length :=
  (contents_length hq.live).symm

/-- The next `emplace` fails exactly when `full()`. -/
theorem emplace_eq_false_iff (hN : ValidCapacity N) (hq : Inv N q) (v : α) :
    (emplace N q v).1 = false ↔ full N q = true := by
  cases hf : full N q
  · obtain ⟨q', h, -⟩ := emplace_room hN hq v hf
    simp [h]
  · simp [emplace_full hN hq v hf]

/-- The next dequeue fails exactly when `empty()`. -/
theorem dequeue_eq_false_iff (hN : ValidCapacity N) (hq : Inv N q) (moves : Bool) :
    (dequeue N moves q).1 = false ↔ empty q = true := by
  cases he : empty q
  · obtain ⟨v, q', -, h, -⟩ := dequeue_nonempty hN hq moves he
    simp [h]
  · simp [dequeue_empty hq moves he]

/-- `consume_all` hands `func` every held value, oldest first, and returns `size()`. -/
theorem consumeAll_eq (hN : ValidCapacity N) (hq : Inv N q) :
    (consumeAll N q).1 = size N q ∧ (consumeAll N q).2.1 = contents N q := by
  obtain ⟨q', h, -⟩ := consumeLoop_eq hN N 0 [] q hq
  have hlt : (contents N q).length < N := by
    rw [← size_eq_length hq]; exact dist_lt hq.readIndex_lt hq.writeIndex_lt
  rw [consumeAll, h, size_eq_length hq]
  exact ⟨by omega, by simp [List.take_of_length_le hlt.le]⟩

/-- `consume_n(func, n)` returns `min(n, size())`. -/
theorem consumeN_eq (hN : ValidCapacity N) (hq : Inv N q) (n : Nat) :
    (consumeN N q n).1 = min n (size N q) := by
  obtain ⟨q', h, -⟩ := consumeLoop_eq hN n 0 [] q hq
  rw [consumeN, h, size_eq_length hq, Nat.zero_add]

end Queue

end Nsqueue
