/-
  The single-producer single-consumer ring (`queue/spsc.hpp`). `push` and `pop` are given twice:
  as functions on the ring, and as the steps of two threads that share it, one step per atomic
  load or store and one for the copy of the value.

  * `SpscRep d q p xs`: the ring holds `xs`, oldest first, from position `p` on. `push_spec` and
    `pop_spec`: on such a ring the two functions are those of a FIFO of `N` places.
  * `SpscInv`: what every interleaving of the two threads keeps. `spsc_fifo`: the values popped
    are a prefix of the values pushed, at most `N` are in flight and all of these are intact in
    their slots, a call fails only on a full or an empty ring, and the two threads never touch one
    slot.
-/
import LiteExchange.Lib.Ring

namespace LiteExchange.Queue

open Lib

/-! ## The ring -/

/-- The size of a ring, a power of two up to `2^31`. -/
structure Depth where
  log : Nat
  fits : log ≤ 31

/-- `N`. -/
def Depth.n (d : Depth) : Nat := 2 ^ d.log

/-- The two counters and the slots. -/
structure Spsc (α : Type) where
  head : UInt64
  tail : UInt64
  slots : Nat → α

/-- `i & kMask`. -/
def Depth.slot (d : Depth) (i : UInt64) : Nat := (i &&& (UInt64.ofNat d.n - 1)).toNat

variable {α : Type}

/-- `push(val)`. -/
def Spsc.push (d : Depth) (q : Spsc α) (val : α) : Spsc α × Bool :=
  let next := q.head + 1
  if (next - q.tail).toNat > d.n then (q, false)
  else ({ q with head := next, slots := Function.update q.slots (d.slot q.head) val }, true)

/-- `pop(val)`, which delivers a value or returns false. -/
def Spsc.pop (d : Depth) (q : Spsc α) : Spsc α × Option α :=
  if q.head = q.tail then (q, none)
  else ({ q with tail := q.tail + 1 }, some (q.slots (d.slot q.tail)))

/-- A new ring, its counters at zero. -/
def Spsc.init (slots : Nat → α) : Spsc α := ⟨0, 0, slots⟩

/-- The values between `tail` and `head`, oldest first. -/
def Spsc.contents (d : Depth) (q : Spsc α) : List α :=
  (List.range (q.head - q.tail).toNat).map fun j => q.slots (d.slot (q.tail + UInt64.ofNat j))

theorem Depth.n_le (d : Depth) : d.n ≤ 2 ^ 31 := Nat.pow_le_pow_right (by decide) d.fits

theorem Depth.slot_word (d : Depth) (p : Nat) : d.slot (UInt64.ofNat p) = p % d.n :=
  mask_word (d.fits.trans (by decide)) p

/-! ## As a FIFO -/

/-- The ring holds `xs` from position `p` on. -/
structure SpscRep (d : Depth) (q : Spsc α) (p : Nat) (xs : List α) : Prop where
  tail : q.tail = UInt64.ofNat p
  head : q.head = UInt64.ofNat (p + xs.length)
  fits : xs.length ≤ d.n
  window : Window d.n q.slots p xs

theorem spscRep_init (d : Depth) (slots : Nat → α) : SpscRep d (Spsc.init slots) 0 [] where
  tail := rfl
  head := rfl
  fits := Nat.zero_le _
  window := window_nil

section Rep

variable {d : Depth} {q : Spsc α} {p : Nat} {xs : List α} {val : α}

/-- The distance `push` computes is one more than the number of values. -/
theorem SpscRep.next_sub (h : SpscRep d q p xs) : (q.head + 1 - q.tail).toNat = xs.length + 1 := by
  have hfits := h.fits
  have hn := d.n_le
  rw [h.head, h.tail, word_succ, Nat.add_assoc]
  exact word_sub p _ (by omega)

theorem SpscRep.empty_iff (h : SpscRep d q p xs) : q.head = q.tail ↔ xs = [] := by
  have hfits := h.fits
  have hn := d.n_le
  rw [h.head, h.tail]
  constructor
  · intro he
    exact List.length_eq_zero_iff.mp (word_inj (by omega) he)
  · intro he
    rw [he]
    rfl

theorem SpscRep.slot_head (h : SpscRep d q p xs) : d.slot q.head = (p + xs.length) % d.n := by
  rw [h.head, d.slot_word]

theorem SpscRep.slot_tail (h : SpscRep d q p xs) : d.slot q.tail = p % d.n := by
  rw [h.tail, d.slot_word]

theorem SpscRep.contents_eq (h : SpscRep d q p xs) : q.contents d = xs := by
  have hfits := h.fits
  have hn := d.n_le
  unfold Spsc.contents
  rw [h.head, h.tail, word_sub p _ (by omega)]
  refine List.ext_getElem (by simp) fun j hj hj' => ?_
  rw [List.getElem_map, List.getElem_range, ← UInt64.ofNat_add, d.slot_word]
  exact h.window j _ (List.getElem?_eq_getElem hj')

/-- The slot `push` writes holds none of the values. -/
theorem SpscRep.write (h : SpscRep d q p xs) (hroom : xs.length < d.n) (val : α) :
    SpscRep d { q with slots := Function.update q.slots (d.slot q.head) val } p xs := by
  refine ⟨h.tail, h.head, h.fits, ?_⟩
  rw [h.slot_head]
  exact h.window.write hroom val

/-- Moving `head` on hands the value behind the others over. -/
theorem SpscRep.publish (h : SpscRep d q p xs) (hroom : xs.length < d.n)
    (hval : q.slots (d.slot q.head) = val) :
    SpscRep d { q with head := q.head + 1 } p (xs ++ [val]) := by
  refine ⟨h.tail, ?_, ?_, ?_⟩
  · rw [h.head, word_succ, List.length_append, List.length_singleton, Nat.add_assoc]
  · rw [List.length_append, List.length_singleton]
    exact hroom
  · rw [h.slot_head] at hval
    exact h.window.snoc hval

theorem SpscRep.front (h : SpscRep d q p (val :: xs)) : q.slots (d.slot q.tail) = val := by
  rw [h.slot_tail]
  exact h.window.head

/-- Moving `tail` on drops the oldest value. -/
theorem SpscRep.release (h : SpscRep d q p (val :: xs)) :
    SpscRep d { q with tail := q.tail + 1 } (p + 1) xs := by
  refine ⟨?_, ?_, Nat.le_of_succ_le h.fits, h.window.tail⟩
  · rw [h.tail, word_succ]
  · rw [h.head, List.length_cons]
    congr 1
    omega

/-- Between a full and an empty ring the slots of the two ends differ. -/
theorem SpscRep.slots_ne (h : SpscRep d q p xs) (hroom : xs.length < d.n) (hne : xs ≠ []) :
    d.slot q.head ≠ d.slot q.tail := by
  rw [h.slot_head, h.slot_tail]
  exact slot_ne (List.length_pos_iff.mpr hne) hroom

/-- `push` is the push of a FIFO with `N` places. -/
theorem push_spec (h : SpscRep d q p xs) (val : α) :
    (xs.length < d.n ∧ (q.push d val).2 = true ∧ SpscRep d (q.push d val).1 p (xs ++ [val])) ∨
      (xs.length = d.n ∧ q.push d val = (q, false)) := by
  have hfits := h.fits
  have hsub := h.next_sub
  unfold Spsc.push
  dsimp only
  rcases Nat.lt_or_eq_of_le hfits with hlt | heq
  · left
    rw [if_neg (by omega)]
    refine ⟨hlt, rfl, ?_⟩
    exact (h.write hlt val).publish hlt (Function.update_self ..)
  · right
    rw [if_pos (by omega)]
    exact ⟨heq, rfl⟩

/-- `pop` is the pop of a FIFO. -/
theorem pop_spec (h : SpscRep d q p xs) :
    (xs = [] ∧ q.pop d = (q, none)) ∨
      ∃ val ys, xs = val :: ys ∧ (q.pop d).2 = some val ∧ SpscRep d (q.pop d).1 (p + 1) ys := by
  have hempty := h.empty_iff
  unfold Spsc.pop
  cases xs with
  | nil =>
    left
    rw [if_pos (hempty.mpr rfl)]
    exact ⟨rfl, rfl⟩
  | cons val ys =>
    right
    rw [if_neg fun he => List.cons_ne_nil _ _ (hempty.mp he)]
    refine ⟨val, ys, rfl, ?_, h.release⟩
    exact congrArg some h.front

end Rep

/-! ## Two threads -/

/-- How far the producer is in `push(val)`: it has loaded `head`; it has loaded `tail` and found
    room; it has written the slot. -/
inductive Producer (α : Type) where
  | idle
  | gotHead (val : α) (head : UInt64)
  | room (val : α) (head : UInt64)
  | written (val : α) (head : UInt64)

/-- How far the consumer is in `pop`: it has loaded `tail`; it has loaded `head` and found a
    value; it has read the slot. -/
inductive Consumer (α : Type) where
  | idle
  | gotTail (tail : UInt64)
  | item (tail : UInt64)
  | copied (tail : UInt64) (val : α)

/-- The ring with its two threads, and the values of the calls that have returned true. -/
structure Pair (α : Type) where
  q : Spsc α
  prod : Producer α
  cons : Consumer α
  pushed : List α
  popped : List α

/-- An empty ring whose counters stand at `x`. -/
def Pair.init (x : UInt64) (slots : Nat → α) : Pair α := ⟨⟨x, x, slots⟩, .idle, .idle, [], []⟩

/-- The producer's next step, and what `push` returns if it returns. An idle producer calls
    `push(val)`. -/
def Pair.produce (d : Depth) (s : Pair α) (val : α) : Pair α × Option Bool :=
  match s.prod with
  | .idle => ({ s with prod := .gotHead val s.q.head }, none)
  | .gotHead v head =>
    if (head + 1 - s.q.tail).toNat > d.n then ({ s with prod := .idle }, some false)
    else ({ s with prod := .room v head }, none)
  | .room v head =>
    ({ s with
        q := { s.q with slots := Function.update s.q.slots (d.slot head) v }
        prod := .written v head }, none)
  | .written v head =>
    ({ s with
        q := { s.q with head := head + 1 }
        prod := .idle
        pushed := s.pushed ++ [v] }, some true)

/-- The consumer's next step, and what `pop` delivers if it returns. -/
def Pair.consume (d : Depth) (s : Pair α) : Pair α × Option (Option α) :=
  match s.cons with
  | .idle => ({ s with cons := .gotTail s.q.tail }, none)
  | .gotTail tail =>
    if s.q.head = tail then ({ s with cons := .idle }, some none)
    else ({ s with cons := .item tail }, none)
  | .item tail => ({ s with cons := .copied tail (s.q.slots (d.slot tail)) }, none)
  | .copied tail v =>
    ({ s with
        q := { s.q with tail := tail + 1 }
        cons := .idle
        popped := s.popped ++ [v] }, some (some v))

/-- A step of one of the threads. -/
inductive Act (α : Type) where
  | produce (val : α)
  | consume

def Pair.step (d : Depth) (s : Pair α) : Act α → Pair α
  | .produce val => (s.produce d val).1
  | .consume => (s.consume d).1

/-- An interleaving. -/
def Pair.run (d : Depth) (s : Pair α) (acts : List (Act α)) : Pair α := acts.foldl (Pair.step d) s

/-- The slot a push that has found room writes. -/
def Producer.slot (d : Depth) : Producer α → Option Nat
  | .room _ head => some (d.slot head)
  | .written _ head => some (d.slot head)
  | _ => none

/-- The slot a pop that has found a value reads. -/
def Consumer.slot (d : Depth) : Consumer α → Option Nat
  | .item tail => some (d.slot tail)
  | .copied tail _ => some (d.slot tail)
  | _ => none

/-- Nobody but the producer moves `head`, and the room it found stays. -/
def ProducerOk (d : Depth) (q : Spsc α) (xs : List α) : Producer α → Prop
  | .idle => True
  | .gotHead _ head => head = q.head
  | .room _ head => head = q.head ∧ xs.length < d.n
  | .written v head => head = q.head ∧ xs.length < d.n ∧ q.slots (d.slot head) = v

/-- Nobody but the consumer moves `tail`, and the value it found stays in front. -/
def ConsumerOk (q : Spsc α) (xs : List α) : Consumer α → Prop
  | .idle => True
  | .gotTail tail => tail = q.tail
  | .item tail => tail = q.tail ∧ xs ≠ []
  | .copied tail v => tail = q.tail ∧ ∃ ys, xs = v :: ys

/-- The ring, whose counters started at `x`, holds the values pushed and not yet popped. -/
structure SpscInv (d : Depth) (x : Nat) (s : Pair α) (xs : List α) : Prop where
  rep : SpscRep d s.q (x + s.popped.length) xs
  queue : s.pushed = s.popped ++ xs
  prod : ProducerOk d s.q xs s.prod
  cons : ConsumerOk s.q xs s.cons

section Threads

variable {d : Depth} {x : Nat} {s : Pair α} {xs : List α}

theorem spscInv_init (d : Depth) (x : UInt64) (slots : Nat → α) :
    SpscInv d x.toNat (Pair.init x slots) [] where
  rep := ⟨UInt64.ofNat_toNat.symm, UInt64.ofNat_toNat.symm, Nat.zero_le _, window_nil⟩
  queue := rfl
  prod := trivial
  cons := trivial

/-- The consumer does not notice a value joining behind. -/
theorem ConsumerOk.snoc {q : Spsc α} {c : Consumer α} (h : ConsumerOk q xs c) (v : α)
    (head : UInt64) : ConsumerOk { q with head := head } (xs ++ [v]) c := by
  cases c with
  | idle => trivial
  | gotTail tail => exact h
  | item tail => exact ⟨h.1, List.append_ne_nil_of_left_ne_nil h.2 _⟩
  | copied tail w =>
    obtain ⟨htail, ys, rfl⟩ := h
    exact ⟨htail, ys ++ [v], rfl⟩

/-- The producer does not notice the oldest value leaving. -/
theorem ProducerOk.tail {q : Spsc α} {v : α} {c : Producer α} (h : ProducerOk d q (v :: xs) c)
    (tail : UInt64) : ProducerOk d { q with tail := tail } xs c := by
  cases c with
  | idle => trivial
  | gotHead w head => exact h
  | room w head => exact ⟨h.1, Nat.lt_of_succ_lt h.2⟩
  | written w head => exact ⟨h.1, Nat.lt_of_succ_lt h.2.1, h.2.2⟩

/-- A step of the producer. If `push` returns false, the ring is full. -/
theorem SpscInv.produce (h : SpscInv d x s xs) (val : α) :
    (∃ ys, SpscInv d x (s.produce d val).1 ys) ∧
      ((s.produce d val).2 = some false → xs.length = d.n) := by
  obtain ⟨q, prod, cons, pushed, popped⟩ := s
  obtain ⟨hrep, hqueue, hprod, hcons⟩ := h
  unfold Pair.produce
  cases prod with
  | idle => exact ⟨⟨xs, hrep, hqueue, rfl, hcons⟩, nofun⟩
  | gotHead v head =>
    obtain rfl : head = q.head := hprod
    have hsub : (q.head + 1 - q.tail).toNat = xs.length + 1 := hrep.next_sub
    have hfits := hrep.fits
    dsimp only
    split
    · exact ⟨⟨xs, hrep, hqueue, trivial, hcons⟩, fun _ => by omega⟩
    · exact ⟨⟨xs, hrep, hqueue, ⟨rfl, by omega⟩, hcons⟩, nofun⟩
  | room v head =>
    obtain ⟨rfl, hroom⟩ : head = q.head ∧ xs.length < d.n := hprod
    refine ⟨⟨xs, hrep.write hroom v, hqueue, ⟨rfl, hroom, Function.update_self ..⟩, ?_⟩, nofun⟩
    cases cons <;> exact hcons
  | written v head =>
    obtain ⟨rfl, hroom, hval⟩ : head = q.head ∧ xs.length < d.n ∧ q.slots (d.slot head) = v :=
      hprod
    refine ⟨⟨xs ++ [v], hrep.publish hroom hval, ?_, trivial, hcons.snoc v _⟩, nofun⟩
    dsimp only at hqueue ⊢
    rw [hqueue, List.append_assoc]

/-- A step of the consumer. If `pop` returns false, the ring is empty. -/
theorem SpscInv.consume (h : SpscInv d x s xs) :
    (∃ ys, SpscInv d x (s.consume d).1 ys) ∧ ((s.consume d).2 = some none → xs = []) := by
  obtain ⟨q, prod, cons, pushed, popped⟩ := s
  obtain ⟨hrep, hqueue, hprod, hcons⟩ := h
  unfold Pair.consume
  cases cons with
  | idle => exact ⟨⟨xs, hrep, hqueue, hprod, rfl⟩, nofun⟩
  | gotTail tail =>
    obtain rfl : tail = q.tail := hcons
    have hempty : q.head = q.tail ↔ xs = [] := hrep.empty_iff
    dsimp only
    split
    · rename_i he
      exact ⟨⟨xs, hrep, hqueue, hprod, trivial⟩, fun _ => hempty.mp he⟩
    · rename_i he
      exact ⟨⟨xs, hrep, hqueue, hprod, rfl, fun hnil => he (hempty.mpr hnil)⟩, nofun⟩
  | item tail =>
    obtain ⟨rfl, hne⟩ : tail = q.tail ∧ xs ≠ [] := hcons
    obtain ⟨v, ys, rfl⟩ := List.exists_cons_of_ne_nil hne
    exact ⟨⟨v :: ys, hrep, hqueue, hprod, rfl, ys, by rw [show _ = v from hrep.front]⟩, nofun⟩
  | copied tail v =>
    obtain ⟨rfl, ys, rfl⟩ : tail = q.tail ∧ ∃ ys, xs = v :: ys := hcons
    refine ⟨⟨ys, ?_, ?_, hprod.tail _, trivial⟩, nofun⟩
    · have hrel := hrep.release
      rw [Nat.add_assoc] at hrel
      rw [List.length_append, List.length_singleton]
      exact hrel
    · dsimp only at hqueue ⊢
      rw [hqueue, List.append_assoc]
      rfl

theorem SpscInv.step (h : SpscInv d x s xs) (a : Act α) : ∃ ys, SpscInv d x (s.step d a) ys := by
  cases a with
  | produce val => exact (h.produce val).1
  | consume => exact h.consume.1

theorem SpscInv.run (h : SpscInv d x s xs) (acts : List (Act α)) :
    ∃ ys, SpscInv d x (s.run d acts) ys := by
  induction acts generalizing s xs with
  | nil => exact ⟨xs, h⟩
  | cons a acts ih =>
    obtain ⟨ys, h'⟩ := h.step a
    exact ih h'

/-- The slots of two unfinished calls. -/
theorem SpscInv.slots_ne (h : SpscInv d x s xs) {i j : Nat} (hi : s.prod.slot d = some i)
    (hj : s.cons.slot d = some j) : i ≠ j := by
  have hprod : i = d.slot s.q.head ∧ xs.length < d.n := by
    have hok := h.prod
    cases hp : s.prod with
    | idle => rw [hp] at hi; cases hi
    | gotHead v head => rw [hp] at hi; cases hi
    | room v head => rw [hp] at hi hok; cases hi; exact ⟨by rw [hok.1], hok.2⟩
    | written v head => rw [hp] at hi hok; cases hi; exact ⟨by rw [hok.1], hok.2.1⟩
  have hcons : j = d.slot s.q.tail ∧ xs ≠ [] := by
    have hok := h.cons
    cases hc : s.cons with
    | idle => rw [hc] at hj; cases hj
    | gotTail tail => rw [hc] at hj; cases hj
    | item tail => rw [hc] at hj hok; cases hj; exact ⟨by rw [hok.1], hok.2⟩
    | copied tail v =>
      rw [hc] at hj hok
      cases hj
      obtain ⟨htail, ys, rfl⟩ := hok
      exact ⟨by rw [htail], List.cons_ne_nil _ _⟩
  rw [hprod.1, hcons.1]
  exact h.rep.slots_ne hprod.2 hcons.2

/-- Without the other thread the producer's steps are the call of `push`. -/
theorem produce_alone (d : Depth) (s : Pair α) (hidle : s.prod = .idle) (val : α) :
    ((s.q.push d val).2 = true ∧ s.run d (List.replicate 4 (.produce val)) =
        { s with q := (s.q.push d val).1, pushed := s.pushed ++ [val] }) ∨
      ((s.q.push d val).2 = false ∧ s.run d (List.replicate 2 (.produce val)) = s) := by
  obtain ⟨q, prod, cons, pushed, popped⟩ := s
  obtain rfl : prod = .idle := hidle
  unfold Spsc.push
  dsimp only [Pair.run, List.replicate, List.foldl_cons, List.foldl_nil, Pair.step, Pair.produce]
  split
  · exact Or.inr ⟨rfl, rfl⟩
  · exact Or.inl ⟨rfl, rfl⟩

/-- Without the other thread the consumer's steps are the call of `pop`. -/
theorem consume_alone (d : Depth) (s : Pair α) (hidle : s.cons = .idle) :
    (∃ val, (s.q.pop d).2 = some val ∧ s.run d (List.replicate 4 .consume) =
        { s with q := (s.q.pop d).1, popped := s.popped ++ [val] }) ∨
      ((s.q.pop d).2 = none ∧ s.run d (List.replicate 2 .consume) = s) := by
  obtain ⟨q, prod, cons, pushed, popped⟩ := s
  obtain rfl : cons = .idle := hidle
  unfold Spsc.pop
  dsimp only [Pair.run, List.replicate, List.foldl_cons, List.foldl_nil, Pair.step, Pair.consume]
  split
  · exact Or.inr ⟨rfl, rfl⟩
  · exact Or.inl ⟨_, rfl, rfl⟩

end Threads

/-- The pair is a bounded FIFO: what was popped was pushed first, in the same order; at most `N`
    values are in flight, and these are intact in their slots; a call returns false only when it
    finds the ring full or empty; and unfinished calls are at different slots. -/
structure Pair.Fifo (d : Depth) (s : Pair α) : Prop where
  in_order : s.popped <+: s.pushed
  bounded : s.pushed.length ≤ s.popped.length + d.n
  intact : ∀ j v, (s.pushed.drop s.popped.length)[j]? = some v →
    s.q.slots (d.slot (s.q.tail + UInt64.ofNat j)) = v
  full : ∀ val, (s.produce d val).2 = some false → s.pushed.length = s.popped.length + d.n
  empty : (s.consume d).2 = some none → s.pushed.length = s.popped.length
  apart : ∀ i j, s.prod.slot d = some i → s.cons.slot d = some j → i ≠ j

/-- Every interleaving of one producer and one consumer, from any value of the counters. -/
theorem spsc_fifo (d : Depth) (x : UInt64) (slots : Nat → α) (acts : List (Act α)) :
    ((Pair.init x slots).run d acts).Fifo d := by
  obtain ⟨xs, h⟩ := (spscInv_init d x slots).run acts
  generalize (Pair.init x slots).run d acts = s at h
  have hlen : s.pushed.length = s.popped.length + xs.length := by
    rw [h.queue, List.length_append]
  have hfits := h.rep.fits
  refine ⟨⟨xs, h.queue.symm⟩, by omega, ?_, ?_, ?_, fun i j => h.slots_ne⟩
  · intro j v hv
    rw [h.queue, List.drop_left] at hv
    rw [h.rep.tail, ← UInt64.ofNat_add, d.slot_word]
    exact h.rep.window j v hv
  · intro val hfalse
    rw [hlen, (h.produce val).2 hfalse]
  · intro hnone
    rw [hlen, h.consume.2 hnone]
    rfl

end LiteExchange.Queue
