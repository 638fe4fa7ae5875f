/-
Index arithmetic of `spsc_queue<T, N>` in `std::size_t`: `mask_`, the `static_assert` on `N`,
the step `(i + 1) & mask_` and the wraparound difference that `size()` computes. For a power of
two `N` the step is `i + 1` wrapped at `N` (`ValidCapacity.nextIndex_eq`), and the difference
`dist N r w` is the number of steps from `r` forward to `w` along the ring of `N` slots.
-/
import Mathlib.Tactic.Common
import Mathlib.Algebra.Group.Nat.Basic

namespace Nsqueue

/-! ## The code's index arithmetic -/

/-- `mask_{N - 1}`, computed in `std::size_t`: `N = 0` wraps to `SIZE_MAX`. -/
def mask (N : Nat) : Nat := (N + (2 ^ 64 - 1)) % 2 ^ 64

/-- `static_assert((N & (N - 1)) == 0, "N must be a power of two")`. -/
def staticAssert (N : Nat) : Bool := N &&& mask N == 0

/-- The index after `i`: `(i + 1) & mask_`, with the `std::size_t` addition. -/
def nextIndex (N i : Nat) : Nat := (i + 1) % 2 ^ 64 &&& mask N

/-- `size()`'s wraparound-aware difference `(w >= r) ? w - r : (N - r) + w`. -/
def dist (N r w : Nat) : Nat := if w ≥ r then w - r else N - r + w

/-- `b` lies on the forward ring path from `a` to `c`. -/
def OnPath (N a b c : Nat) : Prop := dist N a b ≤ dist N a c

/-- The capacities the header is written for: a power of two, as a `std::size_t`. -/
structure ValidCapacity (N : Nat) : Prop where
  pow : N.isPowerOfTwo
  lt : N < 2 ^ 64

/-! ## Power-of-two capacities -/

namespace ValidCapacity

variable {N : Nat} (hN : ValidCapacity N)
include hN

theorem pos : 0 < N := Nat.pos_of_isPowerOfTwo hN.pow

theorem mask_eq : mask N = N - 1 := by
  have := hN.pos; have := hN.lt; unfold mask; omega

/-- For a power of two the mask is reduction modulo `N`: the index after `i` is `i + 1`, or
`0` past the last slot. -/
theorem nextIndex_eq {i : Nat} (hi : i < N) : nextIndex N i = if i + 1 = N then 0 else i + 1 := by
  have hlt := hN.lt
  obtain ⟨k, rfl⟩ := hN.pow
  rw [nextIndex, hN.mask_eq, Nat.mod_eq_of_lt (by omega), Nat.and_pow_two_sub_one_eq_mod]
  split
  · next h => rw [h, Nat.mod_self]
  · exact Nat.mod_eq_of_lt (by omega)

theorem nextIndex_lt {i : Nat} (hi : i < N) : nextIndex N i < N := by
  rw [hN.nextIndex_eq hi]; split <;> omega

theorem nextIndex_mod {i : Nat} (hi : i < N) : nextIndex N i = (i + 1) % N := by
  rw [hN.nextIndex_eq hi]
  split
  · next h => rw [h, Nat.mod_self]
  · exact (Nat.mod_eq_of_lt (by omega)).symm

/-- Distinct slots have distinct successors. -/
theorem nextIndex_inj {i j : Nat} (hi : i < N) (hj : j < N) (h : nextIndex N i = nextIndex N j) :
    i = j := by
  rw [hN.nextIndex_eq hi, hN.nextIndex_eq hj] at h
  split_ifs at h <;> omega

end ValidCapacity

theorem validCapacity_two_pow {k : Nat} (hk : k < 64) : ValidCapacity (2 ^ k) :=
  ⟨⟨k, rfl⟩, Nat.pow_lt_pow_of_lt (by decide) hk⟩

/-! ## Ring distance -/

section Dist

variable {N r w : Nat}

theorem mod_of_lt_two_mul {a : Nat} (h : a < 2 * N) : a % N = if a < N then a else a - N := by
  split
  · exact Nat.mod_eq_of_lt ‹_›
  · rw [Nat.mod_eq_sub_mod (by omega), Nat.mod_eq_of_lt (by omega)]

theorem dist_self : dist N r r = 0 := by simp [dist]

theorem dist_lt (hr : r < N) (hw : w < N) : dist N r w < N := by
  unfold dist; split <;> omega

theorem dist_eq_zero_iff (hr : r < N) : dist N r w = 0 ↔ r = w := by
  unfold dist; split <;> omega

/-- Walking `dist N r w` steps from `r` ends at `w`. -/
theorem add_dist_mod (hr : r < N) (hw : w < N) : (r + dist N r w) % N = w := by
  rw [mod_of_lt_two_mul (by unfold dist; split <;> omega)]
  unfold dist; split_ifs <;> omega

/-- The slot `i` steps after `r` is at distance `i`. -/
theorem dist_add_mod {i : Nat} (hr : r < N) (hi : i < N) : dist N r ((r + i) % N) = i := by
  rw [mod_of_lt_two_mul (by omega)]
  unfold dist; split_ifs <;> omega

theorem dist_nextIndex_right (hN : ValidCapacity N) (hr : r < N) (hw : w < N)
    (h : nextIndex N w ≠ r) : dist N r (nextIndex N w) = dist N r w + 1 := by
  rw [hN.nextIndex_eq hw] at h ⊢
  unfold dist; split_ifs at h ⊢ <;> omega

theorem nextIndex_eq_iff_dist (hN : ValidCapacity N) (hr : r < N) (hw : w < N) :
    nextIndex N w = r ↔ dist N r w = N - 1 := by
  rw [hN.nextIndex_eq hw]; unfold dist; split_ifs <;> omega

theorem dist_nextIndex_left (hN : ValidCapacity N) (hr : r < N) (hw : w < N) (h : r ≠ w) :
    dist N (nextIndex N r) w = dist N r w - 1 := by
  rw [hN.nextIndex_eq hr]; unfold dist; split_ifs <;> omega

theorem nextIndex_add_mod (hN : ValidCapacity N) (hr : r < N) (i : Nat) :
    (nextIndex N r + i) % N = (r + (i + 1)) % N := by
  rw [hN.nextIndex_mod hr, Nat.add_mod, Nat.mod_mod, ← Nat.add_mod, Nat.add_assoc, Nat.add_comm 1]

end Dist

/-! ## Ring paths -/

section OnPath

variable {N a b c : Nat}

/-- A point on the path from `a` to `c` splits the path in two. -/
theorem dist_add_of_onPath (ha : a < N) (hb : b < N) (hc : c < N) (h : OnPath N a b c) :
    dist N a c = dist N a b + dist N b c := by
  unfold OnPath dist at *; split_ifs at * <;> omega

theorem onPath_start : OnPath N a a c := by simp [OnPath, dist_self]

theorem onPath_end : OnPath N a c c := Nat.le_refl _

/-- Moving the end forward keeps a point on the path, unless the end comes round to the start. -/
theorem onPath_nextIndex_end (hN : ValidCapacity N) (ha : a < N) (hc : c < N)
    (h : OnPath N a b c) (hne : nextIndex N c ≠ a) : OnPath N a b (nextIndex N c) := by
  unfold OnPath at *; rw [dist_nextIndex_right hN ha hc hne]; omega

/-- Moving a point forward keeps it on the path, unless it is already at the end. -/
theorem onPath_nextIndex_mid (hN : ValidCapacity N) (ha : a < N) (hb : b < N) (hc : c < N)
    (h : OnPath N a b c) (hne : b ≠ c) : OnPath N a (nextIndex N b) c := by
  have hsplit := dist_add_of_onPath ha hb hc h
  have hbc : dist N b c ≠ 0 := fun h0 => hne ((dist_eq_zero_iff hb).1 h0)
  have hlt := dist_lt ha hc
  have hne' : nextIndex N b ≠ a := fun he => by
    rw [nextIndex_eq_iff_dist hN ha hb] at he; omega
  unfold OnPath; rw [dist_nextIndex_right hN ha hb hne']; omega

/-- Moving the start forward keeps a point on the path, unless the point is the start. -/
theorem onPath_nextIndex_start (hN : ValidCapacity N) (ha : a < N) (hb : b < N) (hc : c < N)
    (h : OnPath N a b c) (hne : a ≠ b) : OnPath N (nextIndex N a) b c := by
  have hab : dist N a b ≠ 0 := fun h0 => hne ((dist_eq_zero_iff ha).1 h0)
  have hac : a ≠ c := by
    rintro rfl; unfold OnPath at h; rw [dist_self] at h; omega
  unfold OnPath at *; rw [dist_nextIndex_left hN ha hb hne, dist_nextIndex_left hN ha hc hac]; omega

end OnPath

end Nsqueue
