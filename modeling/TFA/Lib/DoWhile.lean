/-
  Loops whose condition compares the states before and after a round.

  `Run body again k x y` is a run of `k` rounds, of which all but the last one ask for
  another.

  If every round that asks for another takes `d` from a number `n`, no more than `n / d`
  rounds do (`exists_break`), and the loop can be run to its end (`exists_run`).
-/
import Mathlib.Data.Nat.Notation
import Mathlib.Tactic.Ring

namespace TFA.DoWhile

variable {σ : Type*}

/-- A run of so many rounds. -/
inductive Run (body again : σ → σ → Prop) : ℕ → σ → σ → Prop
  | last {x y} : body x y → ¬ again x y → Run body again 1 x y
  | more {k x y z} : body x y → again x y → Run body again k y z → Run body again (k + 1) x z

/-- A round that asks for another takes `d` from the number. -/
def Takes (body again : σ → σ → Prop) (μ : σ → ℕ) (d : ℕ) : Prop :=
  ∀ x y, body x y → again x y → μ y + d ≤ μ x

section
variable {body again : σ → σ → Prop} {μ : σ → ℕ} {d k : ℕ} {x y : σ}

/-- What is left of the number after so many rounds that ask for another. -/
theorem Takes.add_le (h : Takes body again μ d) {f : ℕ → σ} {n : ℕ}
    (hf : ∀ i < n, body (f i) (f (i + 1)) ∧ again (f i) (f (i + 1))) :
    μ (f n) + n * d ≤ μ (f 0) := by
  induction n with
  | zero => omega
  | succ n ih =>
    have hbefore := ih fun i hi => hf i (by omega)
    have hround := h _ _ (hf n (by omega)).1 (hf n (by omega)).2
    rw [Nat.succ_mul]
    omega

/-- **No loop goes on for ever.** -/
theorem exists_break (h : Takes body again μ d) (hd : 0 < d) {f : ℕ → σ}
    (hf : ∀ n, body (f n) (f (n + 1))) : ∃ n ≤ μ (f 0) / d, ¬ again (f n) (f (n + 1)) := by
  by_contra hno
  push Not at hno
  have hle := h.add_le (f := f) (n := μ (f 0) / d + 1)
    fun i hi => ⟨hf i, hno i (Nat.lt_succ_iff.1 hi)⟩
  have hlt : μ (f 0) < (μ (f 0) / d + 1) * d := by
    rw [mul_comm]
    exact Nat.lt_mul_div_succ _ hd
  omega

/-- A loop can be run to its end if a round can be performed in every state. -/
theorem exists_run {I : σ → Prop} (h : Takes body again μ d) (hd : 0 < d)
    (hstep : ∀ x, I x → ∃ y, body x y ∧ I y) (hx : I x) : ∃ k y, Run body again k x y := by
  induction hn : μ x using Nat.strong_induction_on generalizing x with
  | _ n ih =>
    obtain ⟨y, hbody, hy⟩ := hstep x hx
    by_cases hagain : again x y
    · have hlt := h x y hbody hagain
      obtain ⟨k, z, hrun⟩ := ih (μ y) (by omega) hy rfl
      exact ⟨k + 1, z, .more hbody hagain hrun⟩
    · exact ⟨1, y, .last hbody hagain⟩

end

end TFA.DoWhile
