/-
  Rings indexed by free-running counters. Positions count up without bound; position `p` is kept
  in slot `p % n` of an array, and a 64-bit counter holds `p` modulo `2^64`. `Window n a p xs`
  says that the array holds `xs` from position `p` on. As long as a window is no longer than the
  ring, its slots are different ones (`slot_ne`), so it can grow at the back and shrink at the
  front.

  With `n` a power of two the slot is the counter masked with `n - 1`, also after the counter has
  wrapped (`mask_word`), and the difference of two counters is the distance of their positions
  (`word_sub`).
-/
import Mathlib.Data.Nat.ModEq
import Mathlib.Logic.Function.Basic

namespace LiteExchange.Lib

/-! ## Counters -/

/-- The distance of two positions, read off their counters. -/
theorem word_sub (p d : Nat) (hd : d < 2 ^ 64) :
    (UInt64.ofNat (p + d) - UInt64.ofNat p).toNat = d := by
  have hword : UInt64.ofNat (p + d) - UInt64.ofNat p = UInt64.ofNat d := by
    rw [UInt64.ofNat_add, UInt64.add_comm, UInt64.add_sub_cancel]
  rw [hword]
  exact UInt64.toNat_ofNat_of_lt' hd

theorem word_succ (p : Nat) : UInt64.ofNat p + 1 = UInt64.ofNat (p + 1) :=
  (UInt64.ofNat_add p 1).symm

/-- Counters of different positions closer than `2^64` differ. -/
theorem word_inj {p d : Nat} (hd : d < 2 ^ 64) (h : UInt64.ofNat (p + d) = UInt64.ofNat p) :
    d = 0 := by
  have hsub := word_sub p d hd
  rw [h, UInt64.sub_self] at hsub
  exact hsub.symm

/-- A counter some steps ago. -/
theorem word_back (p k : Nat) : UInt64.ofNat (p + k) - UInt64.ofNat k = UInt64.ofNat p := by
  rw [UInt64.ofNat_add, UInt64.add_sub_cancel]

/-- The distance to what a counter was `k` steps ago. -/
theorem word_sub_lag (p d k : Nat) (hd : d + k < 2 ^ 64) :
    (UInt64.ofNat (p + d) - (UInt64.ofNat p - UInt64.ofNat k)).toNat = d + k := by
  have hword : UInt64.ofNat (p + d) - (UInt64.ofNat p - UInt64.ofNat k) =
      UInt64.ofNat (d + k) := by
    rw [UInt64.ofNat_add, UInt64.ofNat_add]
    grind
  rw [hword]
  exact UInt64.toNat_ofNat_of_lt' hd

/-- Masking a counter gives the slot of its position. -/
theorem mask_word {k : Nat} (hk : k ≤ 64) (p : Nat) :
    (UInt64.ofNat p &&& (UInt64.ofNat (2 ^ k) - 1)).toNat = p % 2 ^ k := by
  have hmask : (UInt64.ofNat (2 ^ k) - 1).toNat = 2 ^ k - 1 := by
    have hpos := Nat.two_pow_pos k
    have hle := Nat.pow_le_pow_right (show 0 < 2 by decide) hk
    rw [UInt64.toNat_sub, UInt64.toNat_ofNat', UInt64.toNat_one]
    rcases Nat.lt_or_eq_of_le hle with hlt | heq
    · rw [Nat.mod_eq_of_lt hlt]
      omega
    · rw [heq]
  rw [UInt64.toNat_and, hmask, Nat.and_two_pow_sub_one_eq_mod, UInt64.toNat_ofNat']
  exact Nat.mod_mod_of_dvd p (Nat.pow_dvd_pow 2 hk)

/-! ## Windows -/

/-- Positions closer than the size of the ring have different slots. -/
theorem slot_ne {n p d : Nat} (h0 : 0 < d) (hd : d < n) : (p + d) % n ≠ p % n := by
  intro h
  have hdvd : n ∣ d := by
    have hmod : p + d ≡ p + 0 [MOD n] := h
    exact (Nat.modEq_zero_iff_dvd).mp (Nat.ModEq.add_left_cancel' p hmod)
  exact absurd (Nat.le_of_dvd h0 hdvd) (by omega)

variable {α : Type} {n p : Nat} {a : Nat → α} {xs : List α} {x : α}

/-- The array holds `xs` from position `p` on. -/
def Window (n : Nat) (a : Nat → α) (p : Nat) (xs : List α) : Prop :=
  ∀ j x, xs[j]? = some x → a ((p + j) % n) = x

theorem window_nil : Window n a p [] := by
  intro j x hx
  cases hx

/-- Writing behind the window leaves it alone. -/
theorem Window.write (h : Window n a p xs) (hlen : xs.length < n) (x : α) :
    Window n (Function.update a ((p + xs.length) % n) x) p xs := by
  intro j y hy
  have hj := (List.getElem?_eq_some_iff.mp hy).1
  have hne : (p + xs.length) % n ≠ (p + j) % n := by
    have hslot := slot_ne (p := p + j) (show 0 < xs.length - j by omega)
      (show xs.length - j < n by omega)
    rwa [show p + j + (xs.length - j) = p + xs.length by omega] at hslot
  rw [Function.update_of_ne hne.symm]
  exact h j y hy

/-- The value behind the window joins it. -/
theorem Window.snoc (h : Window n a p xs) (hx : a ((p + xs.length) % n) = x) :
    Window n a p (xs ++ [x]) := by
  intro j y hy
  rcases Nat.lt_or_ge j xs.length with hj | hj
  · rw [List.getElem?_append_left hj] at hy
    exact h j y hy
  · rw [List.getElem?_append_right hj, List.getElem?_singleton] at hy
    split at hy
    · obtain rfl : j = xs.length := by omega
      exact hx.trans (Option.some_inj.mp hy)
    · cases hy

theorem Window.head (h : Window n a p (x :: xs)) : a (p % n) = x := h 0 x rfl

theorem Window.tail (h : Window n a p (x :: xs)) : Window n a (p + 1) xs := by
  intro j y hy
  have hslot := h (j + 1) y hy
  rwa [show p + (j + 1) = p + 1 + j by omega] at hslot

end LiteExchange.Lib
