/-
  The router in front of the shards (`engine/shard_router.hpp`). A new order goes to the shard of
  its symbol, a cancel to the shard its token names, each into the inbound ring of that shard.

  `RingsRep`: what a shard has popped and what is still in its ring are together the accepted
  messages meant for it, in the order of acceptance. Pushes and pops keep this, whichever shards
  pop and whatever a full ring refuses.
-/
import LiteExchange.Book.OrderBook
import LiteExchange.Queue.Spsc

namespace LiteExchange.Engine

open Lib Proto Book Queue

/-- The shard of a message among `n`. -/
def target (n : Nat) : InboundMsg → Option Nat
  | .newOrder m => some (m.symbolId.toNat % n)
  | .cancel m => some ((OrderHandle.tokenShard m.orderToken).toNat % n)
  | .other _ => none

/-- The inbound rings, with the messages each shard has popped. -/
structure Rings where
  ring : Nat → Spsc InboundMsg
  popped : Nat → List InboundMsg

def Rings.init (slots : Nat → Nat → InboundMsg) : Rings := ⟨fun i => Spsc.init (slots i), fun _ => []⟩

/-- `ShardRouter::push(msg)`. -/
def Rings.push (n : Nat) (d : Depth) (r : Rings) (msg : InboundMsg) : Rings × Bool :=
  match target n msg with
  | none => (r, true)
  | some s =>
    ({ r with ring := Function.update r.ring s ((r.ring s).push d msg).1 },
      ((r.ring s).push d msg).2)

/-- `inbound_.pop(msg)` by shard `i`. -/
def Rings.pop (d : Depth) (r : Rings) (i : Nat) : Rings where
  ring := Function.update r.ring i ((r.ring i).pop d).1
  popped := Function.update r.popped i (r.popped i ++ ((r.ring i).pop d).2.toList)

theorem Rings.push_popped (n : Nat) (d : Depth) (r : Rings) (msg : InboundMsg) :
    (r.push n d msg).1.popped = r.popped := by
  unfold Rings.push
  split <;> rfl

/-- The rings when the messages `acc` have been accepted. -/
def RingsRep (n : Nat) (d : Depth) (r : Rings) (acc : List InboundMsg) : Prop :=
  ∀ i, ∃ p xs, SpscRep d (r.ring i) p xs ∧
    r.popped i ++ xs = acc.filter fun x => target n x = some i

section Rings

variable {n : Nat} {d : Depth} {r : Rings} {acc : List InboundMsg}

theorem ringsRep_init (n : Nat) (d : Depth) (slots : Nat → Nat → InboundMsg) :
    RingsRep n d (Rings.init slots) [] :=
  fun i => ⟨0, [], spscRep_init d (slots i), rfl⟩

/-- A message for another shard leaves a shard's share as it is. -/
theorem filter_target_ne {i : Nat} {msg : InboundMsg} (h : target n msg ≠ some i) :
    (acc ++ [msg]).filter (fun x => target n x = some i) =
      acc.filter fun x => target n x = some i := by
  rw [List.filter_append, List.filter_cons_of_neg (by simpa using h), List.filter_nil,
    List.append_nil]

theorem filter_target_self {i : Nat} {msg : InboundMsg} (h : target n msg = some i) :
    (acc ++ [msg]).filter (fun x => target n x = some i) =
      (acc.filter fun x => target n x = some i) ++ [msg] := by
  rw [List.filter_append, List.filter_cons_of_pos (by simpa using h), List.filter_nil]

theorem RingsRep.push (h : RingsRep n d r acc) (msg : InboundMsg) :
    RingsRep n d (r.push n d msg).1 (if (r.push n d msg).2 then acc ++ [msg] else acc) := by
  unfold Rings.push
  cases htarget : target n msg with
  | none =>
    intro i
    obtain ⟨p, xs, hrep, hshare⟩ := h i
    refine ⟨p, xs, hrep, ?_⟩
    dsimp only
    rw [if_pos rfl, filter_target_ne (by rw [htarget]; simp), hshare]
  | some s =>
    intro i
    obtain ⟨p, xs, hrep, hshare⟩ := h i
    dsimp only
    rcases eq_or_ne i s with rfl | hne
    · rw [Function.update_self]
      obtain ⟨-, hok, hrep'⟩ | ⟨-, hfull⟩ := push_spec hrep msg
      · refine ⟨p, xs ++ [msg], hrep', ?_⟩
        rw [hok, if_pos rfl, filter_target_self htarget, ← hshare, List.append_assoc]
      · simp only [hfull]
        exact ⟨p, xs, hrep, hshare⟩
    · rw [Function.update_of_ne hne]
      refine ⟨p, xs, hrep, ?_⟩
      rw [hshare]
      split
      · rw [filter_target_ne (by rw [htarget]; simpa using hne.symm)]
      · rfl

theorem RingsRep.pop (h : RingsRep n d r acc) (i : Nat) : RingsRep n d (r.pop d i) acc := by
  intro j
  obtain ⟨p, xs, hrep, hshare⟩ := h j
  unfold Rings.pop
  dsimp only
  rcases eq_or_ne j i with rfl | hne
  · rw [Function.update_self, Function.update_self]
    obtain ⟨-, hempty⟩ | ⟨val, ys, rfl, hval, hrep'⟩ := pop_spec hrep
    · rw [hempty]
      refine ⟨p, xs, hrep, ?_⟩
      rw [Option.toList_none, List.append_nil, hshare]
    · refine ⟨p + 1, ys, hrep', ?_⟩
      rw [hval, Option.toList_some, List.append_assoc, List.singleton_append, hshare]
  · rw [Function.update_of_ne hne, Function.update_of_ne hne]
    exact ⟨p, xs, hrep, hshare⟩

theorem RingsRep.pops (h : RingsRep n d r acc) (is : List Nat) :
    RingsRep n d (is.foldl (Rings.pop d) r) acc := by
  induction is generalizing r with
  | nil => exact h
  | cons i is ih => exact ih (h.pop i)

theorem RingsRep.share (h : RingsRep n d r acc) (i : Nat) :
    r.popped i ++ (r.ring i).contents d = acc.filter fun x => target n x = some i := by
  obtain ⟨p, xs, hrep, hshare⟩ := h i
  rw [hrep.contents_eq, hshare]

end Rings

end LiteExchange.Engine
