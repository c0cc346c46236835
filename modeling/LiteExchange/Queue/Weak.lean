/-
  The ring when loads may be late. An acquire load of the other thread's counter need not see the
  last store to it: it sees some store, never an older one than the same thread has seen before,
  and with it everything the other thread did before that store. `Weak` is the pair of threads of
  `Pair` in which such a load may lag behind by any number of the stores not seen so far.

  * `weak_fifo`: the ring is a bounded FIFO for every such lag. What a lag can do is to make a call
    return false although there is room or a value by now, and the lag says how far off it was.
  * `weak_atomic`: the calls, in the order in which they return, are calls of the functions `push`
    and `pop` one after the other, but for the refusals due to a lag. Without lags, each call is
    such a call at the moment it returns.
-/
import LiteExchange.Queue.Spsc

namespace LiteExchange.Queue

open Lib

variable {α : Type}

/-! ## The threads -/

/-- The pair, with the number of stores to each counter that the other thread has not seen. -/
structure Weak (α : Type) extends Pair α where
  unseenPushes : Nat
  unseenPops : Nat

def Weak.init (x : UInt64) (slots : Nat → α) : Weak α := ⟨Pair.init x slots, 0, 0⟩

/-- How a call returns. A call that returns false has loaded a counter that was behind by `lag`. -/
inductive Outcome (α : Type) where
  | pushed (val : α)
  | refused (val : α) (lag : Nat)
  | popped (val : α)
  | empty (lag : Nat)

/-- The producer's next step. The load of `tail` lags, as far as it can, by `lag` stores. -/
def Weak.produce (d : Depth) (s : Weak α) (val : α) (lag : Nat) : Weak α × Option (Outcome α) :=
  match s.prod with
  | .gotHead v head =>
    let k := min lag s.unseenPops
    if (head + 1 - (s.q.tail - UInt64.ofNat k)).toNat > d.n then
      ({ s with prod := .idle, unseenPops := k }, some (.refused v k))
    else ({ s with prod := .room v head, unseenPops := k }, none)
  | .written v _ =>
    ({ s with toPair := (s.toPair.produce d val).1, unseenPushes := s.unseenPushes + 1 },
      some (.pushed v))
  | _ => ({ s with toPair := (s.toPair.produce d val).1 }, none)

/-- The consumer's next step. The load of `head` lags, as far as it can, by `lag` stores. -/
def Weak.consume (d : Depth) (s : Weak α) (lag : Nat) : Weak α × Option (Outcome α) :=
  match s.cons with
  | .gotTail tail =>
    let k := min lag s.unseenPushes
    if s.q.head - UInt64.ofNat k = tail then
      ({ s with cons := .idle, unseenPushes := k }, some (.empty k))
    else ({ s with cons := .item tail, unseenPushes := k }, none)
  | .copied _ v =>
    ({ s with toPair := (s.toPair.consume d).1, unseenPops := s.unseenPops + 1 },
      some (.popped v))
  | _ => ({ s with toPair := (s.toPair.consume d).1 }, none)

/-- A step of one of the threads, with the lag of its load if it makes one. -/
inductive WeakAct (α : Type) where
  | produce (val : α) (lag : Nat)
  | consume (lag : Nat)

def Weak.step (d : Depth) (s : Weak α) : WeakAct α → Weak α × Option (Outcome α)
  | .produce val lag => s.produce d val lag
  | .consume lag => s.consume d lag

/-- An interleaving, with the outcomes of the calls in the order in which they return. -/
def Weak.run (d : Depth) : Weak α → List (WeakAct α) → Weak α × List (Outcome α)
  | s, [] => (s, [])
  | s, a :: acts =>
    (((s.step d a).1.run d acts).1, (s.step d a).2.toList ++ ((s.step d a).1.run d acts).2)

/-! ## A FIFO that may refuse -/

/-- What a return does to a FIFO of `n` places that holds `xs`. A push is refused when the FIFO
    would be full with the `lag` values last taken from it still there, a pop when it would be empty
    without the `lag` values last put into it. -/
inductive Moves (n : Nat) : List α → Option (Outcome α) → List α → Prop where
  | none {xs : List α} : Moves n xs none xs
  | pushed {xs : List α} {v : α} (room : xs.length < n) : Moves n xs (some (.pushed v)) (xs ++ [v])
  | refused {xs : List α} {v : α} {lag : Nat} (full : xs.length + lag = n) :
      Moves n xs (some (.refused v lag)) xs
  | popped {xs : List α} {v : α} : Moves n (v :: xs) (some (.popped v)) xs
  | empty {xs : List α} {lag : Nat} (empty : xs.length = lag) : Moves n xs (some (.empty lag)) xs

/-! ## What the threads know -/

/-- A push that has found room counts on one place. -/
def Producer.claims : Producer α → Nat
  | .room _ _ => 1
  | .written _ _ => 1
  | _ => 0

/-- A pop that has found a value counts on one value. -/
def Consumer.claims : Consumer α → Nat
  | .item _ => 1
  | .copied _ _ => 1
  | _ => 0

/-- Besides the invariant of the pair: the ring would not be over-full even if it held what the
    producer does not know to be popped, and the values the consumer knows of are enough. -/
structure WeakInv (d : Depth) (x : Nat) (s : Weak α) (xs : List α) : Prop where
  pair : SpscInv d x s.toPair xs
  ahead : s.pushed.length + s.unseenPops + s.prod.claims ≤ s.popped.length + d.n
  behind : s.popped.length + s.unseenPushes + s.cons.claims ≤ s.pushed.length

section Threads

variable {d : Depth} {x : Nat} {s : Weak α} {xs : List α}

theorem weakInv_init (d : Depth) (x : UInt64) (slots : Nat → α) :
    WeakInv d x.toNat (Weak.init x slots) [] where
  pair := spscInv_init d x slots
  ahead := Nat.zero_le _
  behind := Nat.zero_le _

theorem SpscInv.length {s : Pair α} (h : SpscInv d x s xs) :
    s.pushed.length = s.popped.length + xs.length := by
  rw [h.queue, List.length_append]

/-- The distance `push` computes with a `tail` that is `k` behind. -/
theorem SpscRep.next_sub_lag {q : Spsc α} {p k : Nat} (h : SpscRep d q p xs)
    (hk : xs.length + k ≤ d.n) :
    (q.head + 1 - (q.tail - UInt64.ofNat k)).toNat = xs.length + 1 + k := by
  have hn := d.n_le
  rw [h.head, h.tail, word_succ, Nat.add_assoc]
  exact word_sub_lag p _ k (by omega)

/-- A `head` that is `k` behind looks like an empty ring if the ring holds `k` values. -/
theorem SpscRep.empty_iff_lag {q : Spsc α} {p k : Nat} (h : SpscRep d q p xs)
    (hk : k ≤ xs.length) : q.head - UInt64.ofNat k = q.tail ↔ xs.length = k := by
  have hfits := h.fits
  have hn := d.n_le
  have hpos : p + xs.length = p + (xs.length - k) + k := by omega
  rw [h.head, h.tail, hpos, word_back]
  constructor
  · intro he
    have := word_inj (by omega) he
    omega
  · intro he
    rw [he, Nat.sub_self, Nat.add_zero]

/-- Steps other than the two loads are those of the pair. -/
theorem WeakInv.produce (h : WeakInv d x s xs) (val : α) (lag : Nat) :
    ∃ ys, WeakInv d x (s.produce d val lag).1 ys ∧ Moves d.n xs (s.produce d val lag).2 ys := by
  obtain ⟨⟨q, prod, cons, pushed, popped⟩, unseenPushes, unseenPops⟩ := s
  obtain ⟨⟨hrep, hqueue, hprod, hcons⟩, hahead, hbehind⟩ := h
  have hlen : pushed.length = popped.length + xs.length := by
    rw [show pushed = popped ++ xs from hqueue, List.length_append]
  unfold Weak.produce
  cases prod with
  | idle => exact ⟨xs, ⟨⟨hrep, hqueue, rfl, hcons⟩, hahead, hbehind⟩, .none⟩
  | gotHead v head =>
    obtain rfl : head = q.head := hprod
    dsimp only [Producer.claims] at hahead hbehind ⊢
    have hmin : min lag unseenPops ≤ unseenPops := Nat.min_le_right _ _
    have hsub : (q.head + 1 - (q.tail - UInt64.ofNat (min lag unseenPops))).toNat =
        xs.length + 1 + min lag unseenPops := hrep.next_sub_lag (by omega)
    split
    · refine ⟨xs, ⟨⟨hrep, hqueue, trivial, hcons⟩, ?_, hbehind⟩, .refused (by omega)⟩
      dsimp only [Producer.claims]
      omega
    · refine ⟨xs, ⟨⟨hrep, hqueue, ⟨rfl, by omega⟩, hcons⟩, ?_, hbehind⟩, .none⟩
      dsimp only [Producer.claims]
      omega
  | room v head =>
    obtain ⟨rfl, hroom⟩ : head = q.head ∧ xs.length < d.n := hprod
    refine ⟨xs, ⟨⟨hrep.write hroom v, hqueue, ⟨rfl, hroom, Function.update_self ..⟩, ?_⟩, hahead,
      hbehind⟩, .none⟩
    cases cons <;> exact hcons
  | written v head =>
    obtain ⟨rfl, hroom, hval⟩ : head = q.head ∧ xs.length < d.n ∧ q.slots (d.slot head) = v :=
      hprod
    refine ⟨xs ++ [v], ⟨⟨hrep.publish hroom hval, ?_, trivial, hcons.snoc v _⟩, ?_, ?_⟩,
      .pushed hroom⟩
    · dsimp only [Pair.produce] at hqueue ⊢
      rw [hqueue, List.append_assoc]
    all_goals
      dsimp only [Pair.produce, Producer.claims] at hahead hbehind ⊢
      rw [List.length_append, List.length_singleton]
      omega

theorem WeakInv.consume (h : WeakInv d x s xs) (lag : Nat) :
    ∃ ys, WeakInv d x (s.consume d lag).1 ys ∧ Moves d.n xs (s.consume d lag).2 ys := by
  obtain ⟨⟨q, prod, cons, pushed, popped⟩, unseenPushes, unseenPops⟩ := s
  obtain ⟨⟨hrep, hqueue, hprod, hcons⟩, hahead, hbehind⟩ := h
  have hlen : pushed.length = popped.length + xs.length := by
    rw [show pushed = popped ++ xs from hqueue, List.length_append]
  unfold Weak.consume
  cases cons with
  | idle => exact ⟨xs, ⟨⟨hrep, hqueue, hprod, rfl⟩, hahead, hbehind⟩, .none⟩
  | gotTail tail =>
    obtain rfl : tail = q.tail := hcons
    dsimp only [Consumer.claims] at hahead hbehind ⊢
    have hmin : min lag unseenPushes ≤ unseenPushes := Nat.min_le_right _ _
    have hempty : q.head - UInt64.ofNat (min lag unseenPushes) = q.tail ↔
        xs.length = min lag unseenPushes := hrep.empty_iff_lag (by omega)
    split
    · rename_i he
      refine ⟨xs, ⟨⟨hrep, hqueue, hprod, trivial⟩, hahead, ?_⟩, .empty (hempty.mp he)⟩
      dsimp only [Consumer.claims]
      omega
    · rename_i he
      have hne := mt hempty.mpr he
      refine ⟨xs, ⟨⟨hrep, hqueue, hprod, rfl, ?_⟩, hahead, ?_⟩, .none⟩
      · rw [← List.length_pos_iff]
        omega
      · dsimp only [Consumer.claims]
        omega
  | item tail =>
    obtain ⟨rfl, hne⟩ : tail = q.tail ∧ xs ≠ [] := hcons
    obtain ⟨v, ys, rfl⟩ := List.exists_cons_of_ne_nil hne
    have hfront : q.slots (d.slot q.tail) = v := hrep.front
    exact ⟨v :: ys, ⟨⟨hrep, hqueue, hprod, rfl, ys, by rw [hfront]⟩, hahead, hbehind⟩, .none⟩
  | copied tail v =>
    obtain ⟨rfl, ys, rfl⟩ : tail = q.tail ∧ ∃ ys, xs = v :: ys := hcons
    refine ⟨ys, ⟨⟨?_, ?_, hprod.tail _, trivial⟩, ?_, ?_⟩, .popped⟩
    · have hrel := hrep.release
      rw [Nat.add_assoc] at hrel
      dsimp only [Pair.consume]
      rw [List.length_append, List.length_singleton]
      exact hrel
    · dsimp only [Pair.consume] at hqueue ⊢
      rw [hqueue, List.append_assoc]
      rfl
    all_goals
      dsimp only [Pair.consume, Consumer.claims] at hahead hbehind ⊢
      rw [List.length_append, List.length_singleton]
      omega

theorem WeakInv.step (h : WeakInv d x s xs) (a : WeakAct α) :
    ∃ ys, WeakInv d x (s.step d a).1 ys ∧ Moves d.n xs (s.step d a).2 ys := by
  cases a with
  | produce val lag => exact h.produce val lag
  | consume lag => exact h.consume lag

end Threads

/-! ## Calls one after the other -/

/-- The outcomes are those of calls of the two functions, made one after the other. -/
inductive Replays (d : Depth) : Spsc α → List (Outcome α) → Spsc α → Prop where
  | nil {q : Spsc α} : Replays d q [] q
  | pushed {q q' : Spsc α} {v : α} {os : List (Outcome α)} (done : (q.push d v).2 = true)
      (rest : Replays d (q.push d v).1 os q') : Replays d q (.pushed v :: os) q'
  | refused {q q' : Spsc α} {v : α} {os : List (Outcome α)} (done : q.push d v = (q, false))
      (rest : Replays d q os q') : Replays d q (.refused v 0 :: os) q'
  | popped {q q' : Spsc α} {v : α} {os : List (Outcome α)} (done : (q.pop d).2 = some v)
      (rest : Replays d (q.pop d).1 os q') : Replays d q (.popped v :: os) q'
  | empty {q q' : Spsc α} {os : List (Outcome α)} (done : q.pop d = (q, none))
      (rest : Replays d q os q') : Replays d q (.empty 0 :: os) q'

/-- The return is no refusal due to a lag. -/
def Outcome.prompt : Outcome α → Bool
  | .refused _ lag => lag == 0
  | .empty lag => lag == 0
  | _ => true

section Runs

variable {d : Depth} {x : Nat} {s : Weak α} {xs : List α}

/-- A ring that holds `xs` has the same outcome when it is called, unless the outcome is a refusal
    due to a lag. -/
theorem Moves.replay {o : Option (Outcome α)} {ys : List α} {q : Spsc α} {p : Nat}
    (h : Moves d.n xs o ys) (hq : SpscRep d q p xs) :
    ∃ q₁ p₁, SpscRep d q₁ p₁ ys ∧ ∀ os q', Replays d q₁ os q' →
      Replays d q (o.toList.filter Outcome.prompt ++ os) q' := by
  cases h with
  | none => exact ⟨q, p, hq, fun os q' hrest => hrest⟩
  | @pushed _ v hroom =>
    obtain ⟨-, hdone, hrep⟩ | ⟨hfull, -⟩ := push_spec hq v
    · exact ⟨_, p, hrep, fun os q' hrest => .pushed hdone hrest⟩
    · omega
  | @refused _ v lag hfull =>
    refine ⟨q, p, hq, fun os q' hrest => ?_⟩
    cases lag with
    | zero =>
      obtain ⟨hroom, -⟩ | ⟨-, hdone⟩ := push_spec hq v
      · omega
      · exact .refused hdone hrest
    | succ lag => exact hrest
  | @popped _ v =>
    obtain ⟨hnil, -⟩ | ⟨w, zs, hcons, hdone, hrep⟩ := pop_spec hq
    · cases hnil
    · cases hcons
      exact ⟨_, p + 1, hrep, fun os q' hrest => .popped hdone hrest⟩
  | @empty _ lag hempty =>
    refine ⟨q, p, hq, fun os q' hrest => ?_⟩
    cases lag with
    | zero =>
      obtain ⟨-, hdone⟩ | ⟨w, zs, rfl, -⟩ := pop_spec hq
      · exact .empty hdone hrest
      · cases hempty
    | succ lag => exact hrest

theorem WeakInv.run (h : WeakInv d x s xs) {q : Spsc α} {p : Nat} (hq : SpscRep d q p xs)
    (acts : List (WeakAct α)) : ∃ ys q' p', WeakInv d x (s.run d acts).1 ys ∧
      SpscRep d q' p' ys ∧ Replays d q ((s.run d acts).2.filter Outcome.prompt) q' := by
  induction acts generalizing s xs q p with
  | nil => exact ⟨xs, q, p, h, hq, .nil⟩
  | cons a acts ih =>
    obtain ⟨ys, h₁, hmoves⟩ := h.step a
    obtain ⟨q₁, p₁, hq₁, hreplay⟩ := hmoves.replay hq
    obtain ⟨zs, q', p', h', hq', hrest⟩ := ih h₁ hq₁
    refine ⟨zs, q', p', h', hq', ?_⟩
    unfold Weak.run
    dsimp only
    rw [List.filter_append]
    exact hreplay _ _ hrest

end Runs

/-- A bounded FIFO, whatever the loads see: what was popped was pushed first, in the same order; at
    most `N` values are in flight, and these are intact in their slots; unfinished calls are at
    different slots; and a call returns false only if, with the stores it has missed undone, the
    ring is full or empty. -/
structure Weak.Fifo (d : Depth) (s : Weak α) : Prop where
  in_order : s.popped <+: s.pushed
  bounded : s.pushed.length ≤ s.popped.length + d.n
  intact : ∀ j v, (s.pushed.drop s.popped.length)[j]? = some v →
    s.q.slots (d.slot (s.q.tail + UInt64.ofNat j)) = v
  apart : ∀ i j, s.prod.slot d = some i → s.cons.slot d = some j → i ≠ j
  full : ∀ val lag v k, (s.produce d val lag).2 = some (.refused v k) →
    s.pushed.length + k = s.popped.length + d.n
  empty : ∀ lag k, (s.consume d lag).2 = some (.empty k) →
    s.pushed.length = s.popped.length + k

/-- Every interleaving and every lag, from any value of the counters. -/
theorem weak_fifo (d : Depth) (x : UInt64) (slots : Nat → α) (acts : List (WeakAct α)) :
    ((Weak.init x slots).run d acts).1.Fifo d := by
  have hinit := weakInv_init d x slots
  obtain ⟨xs, q', p', h, -, -⟩ := hinit.run hinit.pair.rep acts
  generalize ((Weak.init x slots).run d acts).1 = s at h
  have hlen := h.pair.length
  have hfits := h.pair.rep.fits
  refine ⟨⟨xs, h.pair.queue.symm⟩, by omega, ?_, fun i j => h.pair.slots_ne, ?_, ?_⟩
  · intro j v hv
    rw [h.pair.queue, List.drop_left] at hv
    rw [h.pair.rep.tail, ← UInt64.ofNat_add, d.slot_word]
    exact h.pair.rep.window j v hv
  · intro val lag v k hrefused
    obtain ⟨ys, -, hmoves⟩ := h.produce val lag
    rw [hrefused] at hmoves
    cases hmoves with
    | refused hfull => omega
  · intro lag k hempty
    obtain ⟨ys, -, hmoves⟩ := h.consume lag
    rw [hempty] at hmoves
    cases hmoves with
    | empty hnone => omega

/-- Every interleaving and every lag: the calls that are not refused because of a lag have, in the
    order in which they return, the outcomes of the functions `push` and `pop` called one after the
    other, and leave the ring with the same values. -/
theorem weak_atomic (d : Depth) (x : UInt64) (slots : Nat → α) (acts : List (WeakAct α)) :
    ∃ q, Replays d ⟨x, x, slots⟩ (((Weak.init x slots).run d acts).2.filter Outcome.prompt) q ∧
      q.contents d = ((Weak.init x slots).run d acts).1.q.contents d := by
  have hinit := weakInv_init d x slots
  obtain ⟨xs, q, p, h, hq, hreplays⟩ := hinit.run hinit.pair.rep acts
  exact ⟨q, hreplays, hq.contents_eq.trans h.pair.rep.contents_eq.symm⟩

end LiteExchange.Queue
