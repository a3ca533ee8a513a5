/-
  Decimal numbers that stand next to each other without a separator.

  * `toDigits_append`: two decimals in a row are the decimal of one number;
  * `eq_toDigits_of_append`: what a decimal starts with is the decimal of a quotient;
  * `toDigits_append_eq_iff`: two pairs of numbers are written alike exactly if they are
    equal, or one has digits in the first number that the other has in the second one
    (`Extends`);
  * `append_cons_inj`: the end of a list up to the last element that is no digit.
-/
import Mathlib.Data.List.Induction
import Mathlib.Tactic.Ring

namespace TFA

namespace Decimals

/-- The number of decimal digits. -/
def width (n : ℕ) : ℕ := (Nat.toDigits 10 n).length

/-- The digits of `d` follow `l` in `l'`, and stand in front of `i'` in `i`. -/
def Extends (l i l' i' : ℕ) : Prop :=
  0 < l ∧ ∃ d, 0 < d ∧ l' = l * 10 ^ width d + d ∧ i = d * 10 ^ width i' + i'

section
variable {l i l' i' n d : ℕ} {as bs : List Char}

theorem toDigits_inj (h : Nat.toDigits 10 l = Nat.toDigits 10 l') : l = l' := by
  have hval := congrArg (fun cs => Nat.ofDigitChars 10 cs 0) h
  simpa using hval

theorem width_of_le (h : 10 ≤ d) : width d = width (d / 10) + 1 := by
  rw [width, Nat.toDigits_of_base_le (by omega) h, List.length_append, List.length_singleton, width]

/-- Two decimals in a row. -/
theorem toDigits_append (hn : 0 < n) (d : ℕ) :
    Nat.toDigits 10 n ++ Nat.toDigits 10 d = Nat.toDigits 10 (n * 10 ^ width d + d) := by
  induction d using Nat.strong_induction_on with
  | _ d ih =>
    by_cases hd : d < 10
    · have hone : width d = 1 := by rw [width, Nat.toDigits_of_lt_base hd]; rfl
      rw [hone, pow_one, Nat.mul_comm]
      exact Nat.toDigits_append_toDigits (by omega) hn hd
    · have hd' : 10 ≤ d := by omega
      have hfirst := ih (d / 10) (by omega)
      have hlast := Nat.toDigits_append_toDigits (b := 10) (n := n * 10 ^ width (d / 10) + d / 10)
        (d := d % 10) (by omega) (by omega) (by omega)
      have hsplit : Nat.toDigits 10 d = Nat.toDigits 10 (d / 10) ++ Nat.toDigits 10 (d % 10) := by
        rw [Nat.toDigits_append_toDigits (by omega) (by omega) (by omega), Nat.div_add_mod]
      have hvalue : 10 * (n * 10 ^ width (d / 10) + d / 10) + d % 10 = n * 10 ^ width d + d := by
        have hdiv := Nat.div_add_mod d 10
        rw [width_of_le hd', pow_succ]
        calc 10 * (n * 10 ^ width (d / 10) + d / 10) + d % 10
            = n * (10 ^ width (d / 10) * 10) + (10 * (d / 10) + d % 10) := by ring
          _ = n * (10 ^ width (d / 10) * 10) + d := by rw [hdiv]
      rw [hsplit, ← List.append_assoc, hfirst, hlast, hvalue]

/-- What a decimal starts with. -/
theorem eq_toDigits_of_append (h : Nat.toDigits 10 n = as ++ bs) (has : as ≠ []) :
    as = Nat.toDigits 10 (n / 10 ^ bs.length) := by
  induction bs using List.reverseRecOn generalizing n with
  | nil => simpa using h.symm
  | append_singleton bs c ih =>
    have hlen : 1 < (Nat.toDigits 10 n).length := by
      have has' := List.length_pos_iff.2 has
      rw [h]
      simp only [List.length_append, List.length_singleton]
      omega
    have hn : 10 ≤ n := by
      by_contra hlt
      have hone := (Nat.length_toDigits_le_iff (b := 10) (n := n) (k := 1) (by omega) (by omega)).2
        (by omega)
      omega
    rw [Nat.toDigits_of_base_le (by omega) hn, ← List.append_assoc] at h
    have hfirst := (List.append_inj' h rfl).1
    rw [ih hfirst, List.length_append, List.length_singleton, Nat.div_div_eq_div_mul,
      ← pow_succ', Nat.add_comm]

/-- Nor is it a leading zero. -/
theorem div_pos_of_append (h : Nat.toDigits 10 n = as ++ bs) (has : as ≠ []) (hbs : bs ≠ []) :
    0 < n / 10 ^ bs.length := by
  have has' := List.length_pos_iff.2 has
  have hlen : ¬ (Nat.toDigits 10 n).length ≤ bs.length := by
    rw [h, List.length_append]
    omega
  rw [Nat.length_toDigits_le_iff (by omega) (List.length_pos_iff.2 hbs)] at hlen
  exact Nat.div_pos (by omega) (Nat.pow_pos (by omega))

/-- The first number of one pair is longer. -/
theorem extends_of_append (has : as ≠ []) (hl : Nat.toDigits 10 l' = Nat.toDigits 10 l ++ as)
    (hi : Nat.toDigits 10 i = as ++ Nat.toDigits 10 i') : Extends l i l' i' := by
  have hd := eq_toDigits_of_append hi has
  have hpos := div_pos_of_append hi has Nat.toDigits_ne_nil
  have hlpos := div_pos_of_append hl Nat.toDigits_ne_nil has
  have hl' := toDigits_inj (eq_toDigits_of_append hl Nat.toDigits_ne_nil)
  rw [← hl'] at hlpos
  rw [hd] at hl hi
  rw [toDigits_append hlpos] at hl
  rw [toDigits_append hpos] at hi
  exact ⟨hlpos, _, hpos, toDigits_inj hl, toDigits_inj hi⟩

theorem Extends.append_eq (h : Extends l i l' i') :
    Nat.toDigits 10 l ++ Nat.toDigits 10 i = Nat.toDigits 10 l' ++ Nat.toDigits 10 i' := by
  obtain ⟨hl, d, hd, rfl, rfl⟩ := h
  rw [← toDigits_append hl, ← toDigits_append hd, List.append_assoc]

/-- **Pairs of numbers without a separator.** -/
theorem toDigits_append_eq_iff :
    Nat.toDigits 10 l ++ Nat.toDigits 10 i = Nat.toDigits 10 l' ++ Nat.toDigits 10 i' ↔
      l = l' ∧ i = i' ∨ Extends l i l' i' ∨ Extends l' i' l i := by
  constructor
  · intro h
    rcases List.append_eq_append_iff.1 h with ⟨as, hl, hi⟩ | ⟨as, hl, hi⟩
    · by_cases has : as = []
      · subst has
        rw [List.append_nil] at hl
        exact Or.inl ⟨(toDigits_inj hl).symm, toDigits_inj hi⟩
      · exact Or.inr (Or.inl (extends_of_append has hl hi))
    · by_cases has : as = []
      · subst has
        rw [List.append_nil] at hl
        exact Or.inl ⟨toDigits_inj hl, (toDigits_inj hi).symm⟩
      · exact Or.inr (Or.inr (extends_of_append has hl hi))
  · rintro (⟨rfl, rfl⟩ | h | h)
    · rfl
    · exact h.append_eq
    · exact h.append_eq.symm

end

/-- The last element without a property is at one place. -/
theorem append_cons_inj {α : Type*} {p : α → Prop} {X Y U V : List α} {c c' : α} (hc : ¬ p c)
    (hc' : ¬ p c') (hU : ∀ a ∈ U, p a) (hV : ∀ a ∈ V, p a) (h : X ++ c :: U = Y ++ c' :: V) :
    X = Y ∧ U = V := by
  rcases List.append_eq_append_iff.1 h with ⟨as, rfl, hcons⟩ | ⟨as, rfl, hcons⟩
  · cases as with
    | nil => exact ⟨by simp, (List.cons.inj hcons).2⟩
    | cons a as =>
      obtain ⟨-, rfl⟩ := List.cons.inj hcons
      exact absurd (hU c' (by simp)) hc'
  · cases as with
    | nil => exact ⟨by simp, (List.cons.inj hcons).2.symm⟩
    | cons a as =>
      obtain ⟨-, rfl⟩ := List.cons.inj hcons
      exact absurd (hV c (by simp)) hc

/-- A list with an element without a property, split at the last one. -/
theorem exists_last {α : Type*} {p : α → Prop} {S : List α} (h : ∃ a ∈ S, ¬ p a) :
    ∃ S₁ c S₂, S = S₁ ++ c :: S₂ ∧ ¬ p c ∧ ∀ a ∈ S₂, p a := by
  induction S with
  | nil => simp at h
  | cons b S ih =>
    by_cases hS : ∃ a ∈ S, ¬ p a
    · obtain ⟨S₁, c, S₂, rfl, hc, hS₂⟩ := ih hS
      exact ⟨b :: S₁, c, S₂, rfl, hc, hS₂⟩
    · push Not at hS
      obtain ⟨a, ha, hpa⟩ := h
      rcases List.mem_cons.1 ha with rfl | ha
      · exact ⟨[], a, S, rfl, hpa, hS⟩
      · exact absurd (hS a ha) hpa

/-- A middle part with such an element separates what is before it from an end without
    one. -/
theorem append_append_inj {α : Type*} {p : α → Prop} {A B S U V : List α} (hS : ∃ a ∈ S, ¬ p a)
    (hU : ∀ a ∈ U, p a) (hV : ∀ a ∈ V, p a) : A ++ S ++ U = B ++ S ++ V ↔ A = B ∧ U = V := by
  constructor
  · intro h
    obtain ⟨S₁, c, S₂, rfl, hc, hS₂⟩ := exists_last hS
    have hend : ∀ {W : List α}, (∀ a ∈ W, p a) → ∀ a ∈ S₂ ++ W, p a := by
      intro W hW a ha
      exact (List.mem_append.1 ha).elim (hS₂ a) (hW a)
    have hsplit : (A ++ S₁) ++ c :: (S₂ ++ U) = (B ++ S₁) ++ c :: (S₂ ++ V) := by
      simpa using h
    obtain ⟨hAB, hUV⟩ := append_cons_inj hc hc (hend hU) (hend hV) hsplit
    exact ⟨List.append_cancel_right hAB, List.append_cancel_left hUV⟩
  · rintro ⟨rfl, rfl⟩
    rfl

end Decimals

end TFA
