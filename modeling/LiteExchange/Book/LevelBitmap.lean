/-
  The occupancy bitmap over the price ladder (`book/level_bitmap.hpp`): `N` bits in 64-bit
  words, `idx >> 6` being the word and `idx & 63` the bit.

  `bit b i` is what the bitmap says of index `i`. `set_spec` and `clear_spec` change one bit;
  `nextUp_spec` and `nextDown_spec` say that the word scans find the nearest set bit at or
  above, at or below a position, or `NULL_IDX` when there is none. Both scans read only words
  below `NUM_WORDS`. `scans_find_last_set` says this of every run of `set` and `clear`.

  `NUM_WORDS` is `(N + 63) / 64` in 32-bit arithmetic. From `N = 2^32 - 63` on the sum wraps
  and `words_` would be an array of no elements, which the build refuses (`-Wpedantic
  -Werror`); the results assume `N + 63 < 2^32`.
-/
import LiteExchange.Book.Pool

namespace LiteExchange.Book

open Lib

structure LevelBitmap where
  words : Nat → BitVec 64

/-- `words_[NUM_WORDS]{}`. -/
def LevelBitmap.init : LevelBitmap := ⟨fun _ => 0⟩

/-- `NUM_WORDS`. -/
def numWords (N : Nat) : Nat := (N + 63) % 2 ^ 32 / 64

def LevelBitmap.set (N : Nat) (b : LevelBitmap) (idx : Nat) : Except Fault LevelBitmap := do
  let w ← fetch (numWords N) b.words (idx / 64)
  let words ← store (numWords N) b.words (idx / 64) (w ||| (1#64 <<< (idx % 64)))
  return ⟨words⟩

def LevelBitmap.clear (N : Nat) (b : LevelBitmap) (idx : Nat) : Except Fault LevelBitmap := do
  let w ← fetch (numWords N) b.words (idx / 64)
  let words ← store (numWords N) b.words (idx / 64) (w &&& ~~~(1#64 <<< (idx % 64)))
  return ⟨words⟩

/-- The `while (true)` of `next_up`, standing at word `w`. -/
def scanUp (n : Nat) (words : Nat → BitVec 64) : Nat → Nat → BitVec 64 → Except Fault Nat
  | 0, _, _ => .error .diverged
  | fuel + 1, w, bits =>
    if bits ≠ 0 then .ok (w * 64 + bits.ctz.toNat)
    else if n ≤ w + 1 then .ok nullIdx
    else do
      let bits ← fetch n words (w + 1)
      scanUp n words fuel (w + 1) bits

/-- `next_up(from)`: lowest set bit at or above `from`, else `NULL_IDX`. -/
def LevelBitmap.nextUp (N : Nat) (b : LevelBitmap) (start : Nat) : Except Fault Nat :=
  if N ≤ start then .ok nullIdx
  else do
    let x ← fetch (numWords N) b.words (start / 64)
    scanUp (numWords N) b.words (numWords N) (start / 64)
      (x &&& (BitVec.allOnes 64 <<< (start % 64)))

/-- The `while (true)` of `next_down`, standing at word `w`. -/
def scanDown (n : Nat) (words : Nat → BitVec 64) : Nat → BitVec 64 → Except Fault Nat
  | 0, bits => if bits ≠ 0 then .ok (63 - bits.clz.toNat) else .ok nullIdx
  | w + 1, bits =>
    if bits ≠ 0 then .ok ((w + 1) * 64 + (63 - bits.clz.toNat))
    else do
      let bits ← fetch n words w
      scanDown n words w bits

/-- `next_down(from)`: highest set bit at or below `from`, else `NULL_IDX`. -/
def LevelBitmap.nextDown (N : Nat) (b : LevelBitmap) (start : Nat) : Except Fault Nat :=
  if N ≤ start then .ok nullIdx
  else do
    let x ← fetch (numWords N) b.words (start / 64)
    scanDown (numWords N) b.words (start / 64)
      (x &&& (BitVec.allOnes 64 >>> (63 - start % 64)))

/-! ## Bits -/

/-- `test(idx)`. -/
def bit (b : LevelBitmap) (i : Nat) : Bool := (b.words (i / 64)).getLsbD (i % 64)

theorem bit_init (i : Nat) : bit LevelBitmap.init i = false := by simp [bit, LevelBitmap.init]

theorem word_lt {N i : Nat} (hN : N + 63 < 2 ^ 32) (h : i < N) : i / 64 < numWords N := by
  unfold numWords
  omega

theorem bit_word (b : LevelBitmap) (w : Nat) {i : Nat} (hi : i < 64) :
    bit b (w * 64 + i) = (b.words w).getLsbD i := by
  unfold bit
  rw [show (w * 64 + i) / 64 = w by omega, show (w * 64 + i) % 64 = i by omega]

/-- Two positions are equal exactly when they share the word and the bit. -/
theorem pos_eq_iff {i j : Nat} : j = i ↔ j / 64 = i / 64 ∧ j % 64 = i % 64 := by omega

theorem set_spec {N : Nat} (hN : N + 63 < 2 ^ 32) (b : LevelBitmap) {i : Nat} (hi : i < N) :
    ∃ b', b.set N i = .ok b' ∧ ∀ j, bit b' j = (bit b j || decide (j = i)) := by
  have hw := word_lt hN hi
  refine ⟨_, by rw [LevelBitmap.set, fetch_of_lt _ hw, ok_bind, store_of_lt _ _ hw, ok_bind]; rfl,
    fun j => ?_⟩
  have hj : j % 64 < 64 := by omega
  simp only [bit, pos_eq_iff (i := i)]
  by_cases hjw : j / 64 = i / 64
  · rw [hjw, Function.update_self]
    simp [hj]
    grind
  · rw [Function.update_of_ne hjw]
    simp [hjw]

theorem clear_spec {N : Nat} (hN : N + 63 < 2 ^ 32) (b : LevelBitmap) {i : Nat} (hi : i < N) :
    ∃ b', b.clear N i = .ok b' ∧ ∀ j, bit b' j = (bit b j && decide (j ≠ i)) := by
  have hw := word_lt hN hi
  refine ⟨_, by rw [LevelBitmap.clear, fetch_of_lt _ hw, ok_bind, store_of_lt _ _ hw, ok_bind]; rfl,
    fun j => ?_⟩
  have hj : j % 64 < 64 := by omega
  simp only [bit, ne_eq, pos_eq_iff (i := i)]
  by_cases hjw : j / 64 = i / 64
  · rw [hjw, Function.update_self]
    simp [hj]
    grind
  · rw [Function.update_of_ne hjw]
    simp [hjw]

/-! ## The scans -/

/-- `r` is the nearest index at or above `start` with `P`, or the sentinel. -/
def NearestUp (P : Nat → Prop) (start r : Nat) : Prop :=
  (P r ∧ start ≤ r ∧ ∀ j, start ≤ j → j < r → ¬ P j) ∨ (r = nullIdx ∧ ∀ j, start ≤ j → ¬ P j)

/-- `r` is the nearest index at or below `start` with `P`, or the sentinel. -/
def NearestDown (P : Nat → Prop) (start r : Nat) : Prop :=
  (P r ∧ r ≤ start ∧ ∀ j, j ≤ start → r < j → ¬ P j) ∨ (r = nullIdx ∧ ∀ j, j ≤ start → ¬ P j)

/-- The lowest set bit of a word. -/
theorem ctz_spec {x : BitVec 64} (hx : x ≠ 0) : x.ctz.toNat < 64 ∧
    x.getLsbD x.ctz.toNat = true ∧ ∀ i < x.ctz.toNat, x.getLsbD i = false := by
  have hset := BitVec.getLsbD_true_ctz_of_ne_zero hx
  exact ⟨BitVec.lt_of_getLsbD hset, hset, fun i hi => BitVec.getLsbD_false_of_lt_ctz hi⟩

/-- The highest set bit of a word. -/
theorem clz_spec {x : BitVec 64} (hx : x ≠ 0) :
    x.getLsbD (63 - x.clz.toNat) = true ∧ ∀ i, 63 - x.clz.toNat < i → x.getLsbD i = false := by
  refine ⟨BitVec.getLsbD_true_clz_of_ne_zero (by decide) hx, fun i hi => ?_⟩
  have hlt : x.toNat < 2 ^ (64 - x.clz.toNat) := BitVec.toNat_lt_two_pow_sub_clz
  rw [← BitVec.testBit_toNat]
  exact Nat.testBit_lt_two_pow (lt_of_lt_of_le hlt (Nat.pow_le_pow_right (by decide) (by omega)))

theorem word_eq_zero_iff {x : BitVec 64} : x = 0 ↔ ∀ i < 64, x.getLsbD i = false := by
  constructor
  · rintro rfl i _; simp
  · intro h
    apply BitVec.eq_of_getLsbD_eq
    intro i hi
    rw [h i hi]; simp

/-- The loop of `next_up`: `bits` are the bits of word `w` at or above `start`, and nothing is
    set between `start` and word `w`. -/
theorem scanUp_spec {n : Nat} {b : LevelBitmap} {start : Nat}
    (hn : ∀ j, bit b j = true → j / 64 < n) (fuel w : Nat) (bits : BitVec 64)
    (hf : n ≤ w + fuel) (hw : w < n) (hstart : start < w * 64 + 64)
    (hbits : ∀ i < 64, bits.getLsbD i = (bit b (w * 64 + i) && decide (start ≤ w * 64 + i)))
    (hbelow : ∀ j, start ≤ j → j < w * 64 → bit b j = false) :
    ∃ r, scanUp n b.words fuel w bits = .ok r ∧ NearestUp (fun j => bit b j = true) start r := by
  induction fuel generalizing w bits with
  | zero => omega
  | succ fuel ih =>
    by_cases hz : bits = 0
    · have hnone : ∀ j, start ≤ j → j < w * 64 + 64 → bit b j = false := by
        intro j hj hlt
        by_cases hjw : j < w * 64
        · exact hbelow j hj hjw
        · have h1 := hbits (j - w * 64) (by omega)
          rw [word_eq_zero_iff.mp hz _ (by omega), show w * 64 + (j - w * 64) = j by omega,
            decide_eq_true hj, Bool.and_true] at h1
          exact h1.symm
      by_cases hend : n ≤ w + 1
      · refine ⟨nullIdx, by rw [scanUp, if_neg (not_not_intro hz), if_pos hend],
          Or.inr ⟨rfl, fun j hj hbit => ?_⟩⟩
        have := hn j hbit
        have hbit' := hnone j hj (by omega)
        rw [hbit] at hbit'
        cases hbit'
      · have hnext : ∀ i < 64, (b.words (w + 1)).getLsbD i =
            (bit b ((w + 1) * 64 + i) && decide (start ≤ (w + 1) * 64 + i)) := by
          intro i hi
          have hle : start ≤ (w + 1) * 64 + i := by omega
          rw [bit_word b (w + 1) hi, decide_eq_true hle, Bool.and_true]
        obtain ⟨r, hr, hspec⟩ := ih (w + 1) (b.words (w + 1)) (by omega) (by omega) (by omega)
          hnext (fun j hj hlt => hnone j hj (by omega))
        refine ⟨r, ?_, hspec⟩
        have hlt : w + 1 < n := by omega
        rw [scanUp, if_neg (not_not_intro hz), if_neg hend, fetch_of_lt _ hlt, ok_bind, hr]
    · obtain ⟨hlt, hset, hlow⟩ := ctz_spec hz
      refine ⟨w * 64 + bits.ctz.toNat, by rw [scanUp, if_pos hz], Or.inl ?_⟩
      have h1 := hbits _ hlt
      rw [hset, eq_comm, Bool.and_eq_true, decide_eq_true_eq] at h1
      refine ⟨h1.1, h1.2, fun j hj hjr hbit => ?_⟩
      replace hbit : bit b j = true := hbit
      by_cases hjw : j < w * 64
      · rw [hbelow j hj hjw] at hbit; cases hbit
      · have h3 := hbits (j - w * 64) (by omega)
        rw [hlow _ (by omega), show w * 64 + (j - w * 64) = j by omega, decide_eq_true hj,
          Bool.and_true] at h3
        rw [← h3] at hbit; cases hbit

/-- The loop of `next_down`: `bits` are the bits of word `w` at or below `start`, and nothing is
    set between word `w` and `start`. -/
theorem scanDown_spec {n : Nat} {b : LevelBitmap} {start : Nat} :
    ∀ (w : Nat) (bits : BitVec 64), w < n → w * 64 ≤ start →
      (∀ i < 64, bits.getLsbD i = (bit b (w * 64 + i) && decide (w * 64 + i ≤ start))) →
      (∀ j, j ≤ start → (w + 1) * 64 ≤ j → bit b j = false) →
      ∃ r, scanDown n b.words w bits = .ok r ∧ NearestDown (fun j => bit b j = true) start r
  | w, bits, hw, hstart, hbits, habove => by
    by_cases hz : bits = 0
    · have hnone : ∀ j, j ≤ start → w * 64 ≤ j → bit b j = false := by
        intro j hj hlt
        by_cases hjw : (w + 1) * 64 ≤ j
        · exact habove j hj hjw
        · have h1 := hbits (j - w * 64) (by omega)
          rw [word_eq_zero_iff.mp hz _ (by omega), show w * 64 + (j - w * 64) = j by omega,
            decide_eq_true hj, Bool.and_true] at h1
          exact h1.symm
      cases w with
      | zero =>
        refine ⟨nullIdx, by rw [scanDown, if_neg (by simpa using hz)], Or.inr ⟨rfl, ?_⟩⟩
        intro j hj hbit
        rw [hnone j hj (by omega)] at hbit
        cases hbit
      | succ w =>
        have hnext : ∀ i < 64, (b.words w).getLsbD i =
            (bit b (w * 64 + i) && decide (w * 64 + i ≤ start)) := by
          intro i hi
          have hle : w * 64 + i ≤ start := by omega
          rw [bit_word b w hi, decide_eq_true hle, Bool.and_true]
        obtain ⟨r, hr, hspec⟩ := scanDown_spec (n := n) w (b.words w) (by omega) (by omega)
          hnext hnone
        refine ⟨r, ?_, hspec⟩
        rw [scanDown, if_neg (by simpa using hz), fetch_of_lt _ (by omega), ok_bind, hr]
    · obtain ⟨hset, hhigh⟩ := clz_spec hz
      have hrun : scanDown n b.words w bits = .ok (w * 64 + (63 - bits.clz.toNat)) := by
        cases w with
        | zero => rw [scanDown, if_pos (by simpa using hz)]; simp
        | succ w => rw [scanDown, if_pos (by simpa using hz)]
      refine ⟨_, hrun, Or.inl ?_⟩
      have h1 := hbits (63 - bits.clz.toNat) (by omega)
      rw [hset, eq_comm, Bool.and_eq_true, decide_eq_true_eq] at h1
      refine ⟨h1.1, h1.2, fun j hj hjr hbit => ?_⟩
      replace hbit : bit b j = true := hbit
      by_cases hjw : (w + 1) * 64 ≤ j
      · rw [habove j hj hjw] at hbit; cases hbit
      · have h3 := hbits (j - w * 64) (by omega)
        rw [hhigh _ (by omega), show w * 64 + (j - w * 64) = j by omega, decide_eq_true hj,
          Bool.and_true] at h3
        rw [← h3] at hbit; cases hbit

/-- `next_up` on a bitmap whose set bits lie below `N`. -/
theorem nextUp_spec {N : Nat} (hN : N + 63 < 2 ^ 32) {b : LevelBitmap}
    (hb : ∀ j, bit b j = true → j < N) (start : Nat) :
    ∃ r, b.nextUp N start = .ok r ∧ NearestUp (fun j => bit b j = true) start r := by
  unfold LevelBitmap.nextUp
  by_cases hs : N ≤ start
  · refine ⟨nullIdx, if_pos hs, Or.inr ⟨rfl, fun j hj hbit => ?_⟩⟩
    have := hb j hbit
    omega
  · have hw := word_lt hN (by omega : start < N)
    rw [if_neg hs, fetch_of_lt _ hw, ok_bind]
    refine scanUp_spec (fun j hj => word_lt hN (hb j hj)) _ _ _ (by omega) hw (by omega)
      (fun i hi => ?_) (fun j hj hlt => absurd hlt (by omega))
    rw [bit_word b _ hi]
    have h3 : decide (start ≤ start / 64 * 64 + i) = decide (start % 64 ≤ i) := by
      apply decide_eq_decide.mpr; omega
    rw [h3]
    have h4 : (BitVec.allOnes 64 <<< (start % 64)).getLsbD i = decide (start % 64 ≤ i) := by
      rw [BitVec.getLsbD_shiftLeft, BitVec.getLsbD_allOnes]
      by_cases hle : start % 64 ≤ i
      · simp [hi, hle]; omega
      · simp [hle]
    rw [BitVec.getLsbD_and, h4]

/-- `next_down` on a bitmap whose set bits lie below `N`, from a position on the ladder. -/
theorem nextDown_spec {N : Nat} (hN : N + 63 < 2 ^ 32) (b : LevelBitmap) {start : Nat}
    (hs : start < N) :
    ∃ r, b.nextDown N start = .ok r ∧ NearestDown (fun j => bit b j = true) start r := by
  have hw := word_lt hN hs
  unfold LevelBitmap.nextDown
  rw [if_neg (by omega), fetch_of_lt _ hw, ok_bind]
  refine scanDown_spec _ _ hw (by omega) (fun i hi => ?_) (fun j hj hlt => absurd hlt (by omega))
  rw [bit_word b _ hi]
  have h3 : decide (start / 64 * 64 + i ≤ start) = decide (i ≤ start % 64) := by
    apply decide_eq_decide.mpr; omega
  rw [h3]
  have h4 : (BitVec.allOnes 64 >>> (63 - start % 64)).getLsbD i = decide (i ≤ start % 64) := by
    rw [BitVec.getLsbD_ushiftRight, BitVec.getLsbD_allOnes]
    apply decide_eq_decide.mpr; omega
  rw [BitVec.getLsbD_and, h4]

/-! ## Runs of set and clear -/

/-- One write to the bitmap. -/
inductive BitOp where
  | set (idx : Nat)
  | clear (idx : Nat)
  deriving DecidableEq, Repr

def BitOp.idx : BitOp → Nat
  | .set idx => idx
  | .clear idx => idx

def LevelBitmap.apply (N : Nat) (b : LevelBitmap) : BitOp → Except Fault LevelBitmap
  | .set idx => b.set N idx
  | .clear idx => b.clear N idx

/-- The last operation on index `i` was `set`. -/
def lastSet (ops : List BitOp) (i : Nat) : Prop :=
  ops.reverse.find? (fun op => decide (op.idx = i)) = some (.set i)

theorem lastSet_nil (i : Nat) : ¬ lastSet [] i := by
  intro h
  cases h

theorem lastSet_snoc (ops : List BitOp) (op : BitOp) (i : Nat) :
    lastSet (ops ++ [op]) i ↔ if op.idx = i then op = .set i else lastSet ops i := by
  unfold lastSet
  rw [List.reverse_append, List.reverse_singleton, List.singleton_append, List.find?_cons]
  by_cases h : op.idx = i
  · rw [if_pos h, decide_eq_true h]
    exact Option.some_inj
  · rw [if_neg h, decide_eq_false h]

/-- An operation in range succeeds, and `lastSet` keeps step with the bits. -/
theorem apply_spec {N : Nat} (hN : N + 63 < 2 ^ 32) {b : LevelBitmap} {ops : List BitOp}
    {op : BitOp} (hop : op.idx < N) (hb : ∀ j, bit b j = true ↔ lastSet ops j) :
    ∃ b', b.apply N op = .ok b' ∧ ∀ j, bit b' j = true ↔ lastSet (ops ++ [op]) j := by
  cases op with
  | set i =>
    obtain ⟨b', hrun, hbits⟩ := set_spec hN b hop
    refine ⟨b', hrun, fun j => ?_⟩
    rw [hbits, lastSet_snoc, Bool.or_eq_true, decide_eq_true_eq, hb]
    by_cases h : i = j
    · simp [BitOp.idx, h]
    · simp [BitOp.idx, h, Ne.symm h]
  | clear i =>
    obtain ⟨b', hrun, hbits⟩ := clear_spec hN b hop
    refine ⟨b', hrun, fun j => ?_⟩
    rw [hbits, lastSet_snoc, Bool.and_eq_true, decide_eq_true_eq, hb]
    by_cases h : i = j
    · simp [BitOp.idx, h]
    · simp [BitOp.idx, h, Ne.symm h]

/-- After any run of operations in range, a bit is set exactly when its last operation
    set it. -/
theorem run_apply_spec {N : Nat} (hN : N + 63 < 2 ^ 32) {ops : List BitOp}
    (hops : ∀ op ∈ ops, op.idx < N) :
    ∃ b, run (LevelBitmap.apply N) LevelBitmap.init ops = .ok b ∧
      ∀ j, bit b j = true ↔ lastSet ops j := by
  induction ops using List.reverseRecOn with
  | nil =>
    refine ⟨LevelBitmap.init, rfl, fun j => ?_⟩
    rw [bit_init]
    simp [lastSet_nil]
  | append_singleton ops op ih =>
    obtain ⟨b, hrun, hb⟩ := ih fun o ho => hops o (List.mem_append_left _ ho)
    obtain ⟨b', hrun', hb'⟩ := apply_spec hN (hops op (by simp)) hb
    exact ⟨b', by rw [run_snoc hrun, hrun'], hb'⟩

/-- Only indices in range have been set. -/
theorem lastSet_lt {N : Nat} {ops : List BitOp} (hops : ∀ op ∈ ops, op.idx < N) {i : Nat}
    (h : lastSet ops i) : i < N :=
  hops (.set i) (List.mem_reverse.mp (List.mem_of_find?_eq_some h))

/-- From the empty bitmap, after any operations in range: neither they nor the scans leave the
    words, the scans end, and they find the nearest index whose last operation was `set`. -/
theorem scans_find_last_set (N : Nat) (hN : 1 ≤ N ∧ N ≤ 2 ^ 32 - 64) (ops : List BitOp)
    (hops : ∀ op ∈ ops, op.idx < N) :
    ∃ b, run (LevelBitmap.apply N) LevelBitmap.init ops = .ok b ∧
      (∀ start < N, (∃ r, b.nextUp N start = .ok r ∧ NearestUp (lastSet ops) start r) ∧
        ∃ r, b.nextDown N start = .ok r ∧ NearestDown (lastSet ops) start r) ∧
      ∀ start, N ≤ start → b.nextUp N start = .ok nullIdx ∧ b.nextDown N start = .ok nullIdx := by
  have hfit : N + 63 < 2 ^ 32 := by omega
  obtain ⟨b, hrun, hb⟩ := run_apply_spec hfit hops
  have hset : (fun j => bit b j = true) = lastSet ops := funext fun j => propext (hb j)
  have hlt : ∀ j, bit b j = true → j < N := fun j hj => lastSet_lt hops ((hb j).mp hj)
  refine ⟨b, hrun, ?_, ?_⟩
  · intro start hs
    rw [← hset]
    exact ⟨nextUp_spec hfit hlt start, nextDown_spec hfit b hs⟩
  · intro start hs
    exact ⟨if_pos hs, if_pos hs⟩

/-- A ladder of 70 levels: index 3 set and cleared again, 65 set. -/
theorem scans_find_last_set_seventy : ∃ b,
    run (LevelBitmap.apply 70) LevelBitmap.init [.set 3, .set 65, .clear 3] = .ok b ∧
      ∃ r, b.nextUp 70 2 = .ok r ∧ NearestUp (lastSet [.set 3, .set 65, .clear 3]) 2 r := by
  obtain ⟨b, hrun, hin, -⟩ := scans_find_last_set 70 (by decide) [.set 3, .set 65, .clear 3]
    (by decide)
  exact ⟨b, hrun, (hin 2 (by decide)).1⟩

end LiteExchange.Book
