/-
Schedules of a state machine given by one step function `next : σ → χ → σ`, where a choice `χ`
says which thread moves. Every interleaving of this development is an instance: the two threads
of `spsc_queue` (`Sys.Reachable`), the test `stress` and the benchmark `bench_force` over them, and
the threads of `mutex_queue`.
`Reach next s₀` is the set of states the schedules reach from `s₀`, and `Reach.foldl` runs a
schedule inside it. `reach_of_rank` is the progress argument used for every bound on the steps of
one thread: a rank that the thread's own steps lower, and that no other step raises, brings its goal
within that many of its own steps, whatever the schedule.
-/
import Mathlib.Tactic.Common

namespace Nsqueue

variable {σ χ : Type}

/-- The states the schedules of `next` reach from `s₀`, one step at a time. -/
inductive Reach (next : σ → χ → σ) (s₀ : σ) : σ → Prop where
  | init : Reach next s₀ s₀
  | step {s : σ} (c : χ) : Reach next s₀ s → Reach next s₀ (next s c)

theorem Reach.foldl {next : σ → χ → σ} {s₀ s : σ} (h : Reach next s₀ s) :
    ∀ cs : List χ, Reach next s₀ (cs.foldl next s)
  | [] => h
  | c :: cs => (h.step c).foldl cs

/-- A rank that each step of one party lowers and no other step raises, while `good` holds and the
goal is not reached, brings the goal within as many steps of that party as the rank, whatever the
other steps. -/
theorem reach_of_rank (step : σ → χ → σ) (rank : σ → Nat) (good goal : σ → Prop)
    (mine : χ → Bool)
    (hgood : ∀ s c, good s → ¬goal s → good (step s c))
    (hother : ∀ s c, mine c = false → good s → ¬goal s → rank (step s c) ≤ rank s)
    (hmine : ∀ s c, mine c = true → good s → ¬goal s → rank (step s c) < rank s)
    (hzero : ∀ s, good s → rank s = 0 → goal s) :
    ∀ (cs : List χ) (s : σ), good s → rank s ≤ cs.countP mine →
      ∃ pre, pre <+: cs ∧ goal (pre.foldl step s)
  | [], s, hg, h => ⟨[], List.prefix_refl _, hzero s hg (by simpa using h)⟩
  | c :: cs, s, hg, h => by
    by_cases hs : goal s
    · exact ⟨[], List.nil_prefix, hs⟩
    have hrank : rank (step s c) ≤ cs.countP mine := by
      rw [List.countP_cons] at h
      cases hc : mine c
      · have := hother s c hc hg hs
        simp [hc] at h
        omega
      · have := hmine s c hc hg hs
        simp [hc] at h
        omega
    obtain ⟨pre, hpre, hgoal⟩ :=
      reach_of_rank step rank good goal mine hgood hother hmine hzero cs _ (hgood s c hg hs) hrank
    exact ⟨c :: pre, List.cons_prefix_cons.2 ⟨rfl, hpre⟩, hgoal⟩

end Nsqueue
