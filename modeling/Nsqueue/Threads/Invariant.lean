/-
The invariant of every interleaving. The shared state as the FIFO sees it (`Sys.view`: a value
the consumer has moved out but not yet released is put back into its slot) satisfies
`Queue.Inv`; each thread's program counter agrees with the shared state (`ProducerOk`,
`ConsumerOk`); and the log is a legal history of the bounded FIFO of capacity `N - 1` that ends
holding exactly the values the queue holds. `Sys.Inv.step` shows that one scheduler step keeps
it, `Sys.Reachable.inv` that every reachable state has it.
-/
import Nsqueue.Threads.Step

namespace Nsqueue

variable {α : Type} {N : Nat}

/-! ## The view of the FIFO -/

/-- The shared state with the consumer's moved-out, not yet released value put back. -/
def viewOf (q : Queue α) : Consumer α → Queue α
  | .release _ _ readIdx (some v) => { q with items := Function.update q.items readIdx (some v) }
  | _ => q

section ViewOf

variable (q : Queue α) (c : Consumer α)

@[simp] theorem viewOf_readIndex : (viewOf q c).readIndex = q.readIndex := by
  unfold viewOf; split <;> rfl
@[simp] theorem viewOf_writeIndex : (viewOf q c).writeIndex = q.writeIndex := by
  unfold viewOf; split <;> rfl
@[simp] theorem viewOf_readIndexCache : (viewOf q c).readIndexCache = q.readIndexCache := by
  unfold viewOf; split <;> rfl
@[simp] theorem viewOf_writeIndexCache : (viewOf q c).writeIndexCache = q.writeIndexCache := by
  unfold viewOf; split <;> rfl

theorem viewOf_reloadReadIndex : viewOf q.reloadReadIndex c = (viewOf q c).reloadReadIndex := by
  unfold viewOf; split <;> rfl
theorem viewOf_publishWrite (n : Nat) : viewOf (q.publishWrite n) c = (viewOf q c).publishWrite n := by
  unfold viewOf; split <;> rfl
theorem viewOf_reloadWriteIndex : viewOf q.reloadWriteIndex c = (viewOf q c).reloadWriteIndex := by
  unfold viewOf; split <;> rfl

/-- The producer's construction commutes with the view, the held slot being another. -/
theorem viewOf_construct {w : Nat} (v : α)
    (h : ∀ op done r u, c = .release op done r (some u) → r ≠ w) :
    viewOf (q.construct w v) c = (viewOf q c).construct w v := by
  unfold viewOf
  split
  · next op done r u => simp [Queue.construct, Function.update_comm (h op done r u rfl)]
  · rfl

end ViewOf

/-! ## Program counters -/

/-- What the producer's program counter records about the shared state. -/
def ProducerOk (N : Nat) (q : Queue α) : Producer α → Prop
  | .idle | .load _ => True
  | .reload _ writeIdx nextWriteIdx => writeIdx = q.writeIndex ∧ nextWriteIdx = nextIndex N writeIdx
  | .construct _ writeIdx nextWriteIdx =>
    writeIdx = q.writeIndex ∧ nextWriteIdx = nextIndex N writeIdx ∧ nextWriteIdx ≠ q.readIndexCache
  | .publish op writeIdx nextWriteIdx =>
    writeIdx = q.writeIndex ∧ nextWriteIdx = nextIndex N writeIdx ∧ nextWriteIdx ≠ q.readIndexCache ∧
      q.items writeIdx = some op.value

/-- What the consumer's program counter records about the shared state. -/
def ConsumerOk (q : Queue α) : Consumer α → Prop
  | .idle | .load _ _ => True
  | .reload _ _ readIdx => readIdx = q.readIndex
  | .take _ _ readIdx | .release _ _ readIdx _ => readIdx = q.readIndex ∧ readIdx ≠ q.writeIndexCache

theorem ProducerOk.congr {q q' : Queue α} {p : Producer α} (hp : ProducerOk N q p)
    (hw : q'.writeIndex = q.writeIndex) (hc : q'.readIndexCache = q.readIndexCache)
    (hi : q'.items q.writeIndex = q.items q.writeIndex) : ProducerOk N q' p := by
  cases p with
  | publish op w n =>
    obtain ⟨rfl, h2, h3, h4⟩ := hp
    exact ⟨hw.symm, h2, hc ▸ h3, hi.trans h4⟩
  | _ => simp only [ProducerOk, hw, hc] at hp ⊢ <;> exact hp

theorem ConsumerOk.congr {q q' : Queue α} {c : Consumer α} (hc : ConsumerOk q c)
    (hr : q'.readIndex = q.readIndex) (hwc : q'.writeIndexCache = q.writeIndexCache) :
    ConsumerOk q' c := by
  cases c with
  | idle | load => trivial
  | reload | take | release => simpa only [ConsumerOk, hr, hwc] using hc

/-- A consumer holding a moved-out value holds it from slot `readIndex_`, and that slot is not the
producer's. -/
theorem ConsumerOk.ne_writeIndex {q : Queue α} {c : Consumer α} (hc : ConsumerOk q c)
    (hv : (viewOf q c).Inv N) : ∀ op done r u, c = .release op done r (some u) → r ≠ q.writeIndex := by
  rintro op done r u rfl
  obtain ⟨rfl, hne⟩ := hc
  simpa using hv.readIndex_ne_writeIndex (by simpa using hne)

/-! ## The invariant -/

namespace Sys

/-- The shared state as the FIFO sees it. -/
def view (s : Sys α) : Queue α := viewOf s.queue s.consumer

/-- The values the queue holds, oldest first, as the FIFO sees them. -/
def contents (N : Nat) (s : Sys α) : List α := s.view.contents N

/-- The invariant of every reachable state. -/
structure Inv (N : Nat) (s : Sys α) : Prop where
  view : s.view.Inv N
  producer : ProducerOk N s.queue s.producer
  consumer : ConsumerOk s.queue s.consumer
  history : Fifo.Accepts (N - 1) s.history (s.contents N)

theorem inv_init (hN : ValidCapacity N) : (init : Sys α).Inv N :=
  ⟨Queue.inv_init hN, trivial, trivial, by
    simpa [contents, view, viewOf, init, Queue.contents, Queue.init, dist_self] using Fifo.Accepts.nil⟩

theorem Inv.mk' {q : Queue α} {p : Producer α} {c : Consumer α} {h : List (Event α)}
    (hv : (viewOf q c).Inv N) (hp : ProducerOk N q p) (hc : ConsumerOk q c)
    (hh : Fifo.Accepts (N - 1) h ((viewOf q c).contents N)) : Inv N ⟨q, p, c, h⟩ :=
  ⟨hv, hp, hc, hh⟩

/-! ## One producer step -/

theorem Inv.producer_step (hN : ValidCapacity N) {s : Sys α} (hs : s.Inv N) (op : ProducerOp α) :
    (s.step N (.producer op)).Inv N := by
  obtain ⟨q, p, c, h⟩ := s
  obtain ⟨hv, hp, hc, hh⟩ := hs
  simp only [Sys.view, Sys.contents] at hv hp hc hh
  cases p with
  | idle => simp only [step, producerStep]; exact Inv.mk' hv trivial hc (by simpa using hh)
  | load op' =>
    simp only [step, producerStep]
    split
    · exact Inv.mk' hv ⟨rfl, rfl⟩ hc (by simpa using hh)
    · exact Inv.mk' hv ⟨rfl, rfl, ‹_›⟩ hc (by simpa using hh)
  | reload op' w n =>
    obtain ⟨rfl, rfl⟩ := hp
    have hv' : (viewOf q.reloadReadIndex c).Inv N := by rw [viewOf_reloadReadIndex]; exact hv.reloadReadIndex
    have hc' : ConsumerOk q.reloadReadIndex c := hc.congr rfl rfl
    have hcont : (viewOf q.reloadReadIndex c).contents N = (viewOf q c).contents N := by
      rw [viewOf_reloadReadIndex]; rfl
    simp only [step, producerStep]
    split
    · next hfull =>
      split
      · exact Inv.mk' hv' ⟨rfl, rfl⟩ hc' (by simpa [hcont] using hh)
      · refine Inv.mk' hv' trivial hc' (hcont ▸ hh.snoc ⟨?_, rfl⟩)
        rw [Queue.contents_length hv.live]
        simpa using (nextIndex_eq_iff_dist hN hv.readIndex_lt hv.writeIndex_lt).1 (by simpa using hfull)
    · exact Inv.mk' hv' ⟨rfl, rfl, ‹_›⟩ hc' (by simpa [hcont] using hh)
  | construct op' w n =>
    obtain ⟨rfl, rfl, hne⟩ := hp
    have hcomm := viewOf_construct q c op'.value (hc.ne_writeIndex hv)
    have hv' : (viewOf (q.construct q.writeIndex op'.value) c).Inv N := by
      rw [hcomm]; simpa using hv.construct op'.value
    have hcont : (viewOf (q.construct q.writeIndex op'.value) c).contents N = (viewOf q c).contents N := by
      rw [hcomm]; simpa using hv.contents_construct op'.value
    simp only [step, producerStep]
    exact Inv.mk' hv' ⟨rfl, rfl, hne, by simp⟩ (hc.congr rfl rfl) (by simpa [hcont] using hh)
  | publish op' w n =>
    obtain ⟨rfl, rfl, hne, hval⟩ := hp
    have hvw : (viewOf q c).items q.writeIndex = some op'.value := by
      unfold viewOf; split
      · next op done r u => simp [Function.update_noteq (hc.ne_writeIndex hv op done r u rfl).symm, hval]
      · exact hval
    have hv' : (viewOf (q.publishWrite (nextIndex N q.writeIndex)) c).Inv N := by
      rw [viewOf_publishWrite]; simpa using hv.publishWrite hN (by simpa using hne) (by simp [hvw])
    have hcont : (viewOf (q.publishWrite (nextIndex N q.writeIndex)) c).contents N =
        (viewOf q c).contents N ++ [op'.value] := by
      rw [viewOf_publishWrite]
      simpa using Queue.contents_publishWrite hN hv.readIndex_lt hv.writeIndex_lt
        (by simpa using hv.nextIndex_ne_readIndex hN (by simpa using hne)) (by simpa using hvw)
    simp only [step, producerStep]
    refine Inv.mk' hv' trivial (hc.congr rfl rfl) (hcont ▸ hh.snoc ⟨?_, rfl⟩)
    have hner := hv.nextIndex_ne_readIndex hN (by simpa using hne)
    rw [Queue.contents_length hv.live]
    have h1 := dist_lt hv.readIndex_lt hv.writeIndex_lt
    have h2 := (nextIndex_eq_iff_dist hN hv.readIndex_lt hv.writeIndex_lt).not.1 hner
    simp only [viewOf_readIndex, viewOf_writeIndex] at h1 h2 ⊢; omega

/-! ## One consumer step -/

section ConsumerHelpers

variable (q : Queue α) (op : ConsumerOp) (done r : Nat)

@[simp] theorem viewOf_found : viewOf q (Consumer.found op done r) = q := by
  unfold Consumer.found; split <;> rfl

@[simp] theorem viewOf_after : viewOf q (Consumer.after op done) = q := by
  unfold Consumer.after; split <;> rfl

theorem consumerOk_after : ConsumerOk q (Consumer.after op done : Consumer α) := by
  unfold Consumer.after; split <;> trivial

theorem consumerOk_found {q : Queue α} {r : Nat} (h1 : r = q.readIndex) (h2 : r ≠ q.writeIndexCache) :
    ConsumerOk q (Consumer.found op done r : Consumer α) := by
  unfold Consumer.found; split <;> exact ⟨h1, h2⟩

/-- The view's slot `readIdx` holds the value the release removes. -/
theorem viewOf_release_items (item : Option α) :
    (viewOf q (.release op done r item)).items r = removed item q r := by
  cases item <;> simp [viewOf, removed]

/-- Releasing puts the slot's own content back in place of the held value. -/
theorem viewOf_release_publishRead (item : Option α) (n : Nat) :
    q.publishRead n = { (viewOf q (.release op done r item)).publishRead n with
      items := Function.update (viewOf q (.release op done r item)).items r (q.items r) } := by
  cases item <;> simp [viewOf, Queue.publishRead]

end ConsumerHelpers

theorem Inv.consumer_step (hN : ValidCapacity N) {s : Sys α} (hs : s.Inv N) (op : ConsumerOp) :
    (s.step N (.consumer op)).Inv N := by
  obtain ⟨q, p, c, h⟩ := s
  obtain ⟨hv, hp, hc, hh⟩ := hs
  simp only [Sys.view, Sys.contents] at hv hp hc hh
  cases c with
  | idle => simp only [step, consumerStep]; exact Inv.mk' hv hp trivial (by simpa using hh)
  | load op' done =>
    change q.Inv N at hv
    simp only [step, consumerStep]
    split
    · split
      · exact Inv.mk' hv hp rfl (by simpa using hh)
      · exact Inv.mk' (by simpa using hv) hp (consumerOk_found op' done rfl ‹_›) (by simpa using hh)
    · exact Inv.mk' hv hp trivial (by simpa using hh)
  | reload op' done r =>
    change q.Inv N at hv
    change r = q.readIndex at hc
    subst hc
    have hp' : ProducerOk N q.reloadWriteIndex p := hp.congr rfl rfl rfl
    simp only [step, consumerStep]
    split
    · next hempty =>
      split
      · exact Inv.mk' hv.reloadWriteIndex hp' rfl (by simpa using hh)
      · have h0 : q.contents N = [] := by
          rw [← List.length_eq_zero, Queue.contents_length hv.live]
          exact (dist_eq_zero_iff hv.readIndex_lt).2 (by simpa using hempty)
        exact Inv.mk' hv.reloadWriteIndex hp' trivial (hh.snoc (e := .dequeueEmpty) ⟨h0, h0⟩)
    · exact Inv.mk' (by simpa using hv.reloadWriteIndex) hp' (consumerOk_found op' done rfl ‹_›)
        (by simpa using hh)
  | take op' done r =>
    change q.Inv N at hv
    obtain ⟨rfl, hne⟩ := hc
    obtain ⟨v, hval⟩ := hv.front hne
    have hrw := hv.readIndex_ne_writeIndex hne
    have hview : viewOf (q.moveOut q.readIndex).2 (.release op' done q.readIndex (some v)) = q := by
      obtain ⟨items, r, wc, w, rc⟩ := q
      simp only at hval
      simp only [viewOf, Queue.moveOut, Function.update_idem, ← hval, Function.update_eq_self]
    simp only [step, consumerStep, Queue.moveOut_fst, hval]
    refine Inv.mk' (by rw [hview]; exact hv) (hp.congr rfl rfl ?_) ⟨rfl, hne⟩ (by rw [hview]; simpa using hh)
    simp [Function.update_noteq (Ne.symm hrw)]
  | release op' done r item =>
    obtain ⟨rfl, hne⟩ := hc
    set V := viewOf q (.release op' done q.readIndex item) with hV
    have hVr : V.readIndex = q.readIndex := viewOf_readIndex _ _
    have hne' : V.readIndex ≠ V.writeIndexCache := by simpa [hV] using hne
    obtain ⟨u, hu⟩ := hv.front hne'
    have hI := hv.publishRead hN hne'
    have hout := hv.behind hN hne'
    have e1 := Queue.contents_publishRead hN hv.readIndex_lt hv.writeIndex_lt
      (hv.readIndex_ne_writeIndex hne') hu
    rw [hVr] at hu hI hout e1
    have hrem : removed item q q.readIndex = some u := by rw [← viewOf_release_items]; exact hu
    have hq1 := viewOf_release_publishRead q op' done q.readIndex item (nextIndex N q.readIndex)
    rw [← hV] at hq1
    have e2 := Queue.contents_update _ (q.items q.readIndex) hI.readIndex_lt hI.writeIndex_lt hout
    have hv' : (q.publishRead (nextIndex N q.readIndex)).Inv N := by
      rw [hq1]; exact { hI with live := Queue.live_update _ hI.readIndex_lt hI.writeIndex_lt hout hI.live }
    have hcont : V.contents N = u :: (q.publishRead (nextIndex N q.readIndex)).contents N := by
      rw [hq1, e1]; exact congrArg _ e2.symm
    simp only [step, consumerStep, hrem, Option.toList_some, List.map_cons, List.map_nil]
    exact Inv.mk' (by simpa using hv') (hp.congr rfl rfl rfl) (consumerOk_after _ _ _)
      (by simpa using hh.snoc (e := .dequeue u) hcont)

/-! ## `reset` and the whole run -/

theorem Inv.reset_step (hN : ValidCapacity N) {s : Sys α} (hs : s.Inv N) : (s.step N .reset).Inv N := by
  obtain ⟨q, p, c, h⟩ := s
  simp only [step]
  split
  · refine Inv.mk' (Queue.Inv.reset hN) trivial trivial (hs.history.snoc ?_)
    simp [viewOf, Fifo.Step, Queue.contents, dist_self]
  · exact hs

/-- One scheduler step keeps the invariant. -/
theorem Inv.step (hN : ValidCapacity N) {s : Sys α} (hs : s.Inv N) (c : Choice α) : (s.step N c).Inv N := by
  cases c with
  | producer op => exact hs.producer_step hN op
  | consumer op => exact hs.consumer_step hN op
  | reset => exact hs.reset_step hN

/-- Every reachable state has the invariant. -/
theorem Reachable.inv (hN : ValidCapacity N) {s : Sys α} (hs : Reachable N s) : s.Inv N := by
  induction hs with
  | init => exact inv_init hN
  | step c _ ih => exact ih.step hN c

/-- A release always removes a value: the slot it stores past holds one. -/
theorem Inv.removed_eq_some {s : Sys α} (hs : s.Inv N) {op : ConsumerOp} {done r : Nat}
    {item : Option α} (hc : s.consumer = .release op done r item) : ∃ u, removed item s.queue r = some u := by
  have hcons := hs.consumer
  have hv := hs.view
  rw [hc] at hcons
  obtain ⟨rfl, hne⟩ := hcons
  rw [Sys.view, hc] at hv
  obtain ⟨u, hu⟩ := hv.front (by simpa using hne)
  exact ⟨u, by rw [← viewOf_release_items]; simpa using hu⟩

end Sys

end Nsqueue
