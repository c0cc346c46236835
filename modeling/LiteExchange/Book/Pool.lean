/-
  The order record and the slot arena (`book/order.hpp`, `book/pool.hpp`). A pool of `N` slots
  keeps the records, a stack of free slot numbers in `freeList[0 .. freeTop)`, and a
  generation counter per slot that `free` increments.

  The arena's pages come zeroed from `mmap`, so a record that was never written is all zero
  bytes, links included. Slot numbers and stack positions are `Nat`: every value they take
  comes from the free list or is the sentinel `UINT32_MAX`.
-/
import LiteExchange.Lib.Checked
import LiteExchange.Proto.Messages

namespace LiteExchange.Book

open Lib Proto

/-- `NULL_IDX`, which is also `Pool::INVALID_IDX` and `OrderHandle::INVALID`. -/
def nullIdx : Nat := 2 ^ 32 - 1

structure Order where
  orderId : UInt64
  price : Int64
  qty : UInt32
  nextIdx : Nat
  prevIdx : Nat
  symbol : UInt16
  side : Side
  tif : TimeInForce
  deriving DecidableEq, Repr

/-- A record in a page no one has written to. -/
def Order.zero : Order := ⟨0, 0, 0, 0, 0, 0, ⟨0⟩, ⟨0⟩⟩

structure Pool where
  slots : Nat → Order
  freeList : Nat → Nat
  gen : Nat → UInt32
  freeTop : Nat

/-- `Pool()`. -/
def Pool.init (N : Nat) : Pool :=
  { slots := fun _ => Order.zero, freeList := fun i => i, gen := fun _ => 0, freeTop := N }

/-- `alloc`: the slot on top of the free stack, or `INVALID_IDX` when there is none. -/
def Pool.alloc (N : Nat) (p : Pool) : Except Fault (Nat × Pool) :=
  if p.freeTop = 0 then .ok (nullIdx, p)
  else do
    let slot ← fetch N p.freeList (p.freeTop - 1)
    return (slot, { p with freeTop := p.freeTop - 1 })

/-- `free`: the generation moves on and the slot goes back on the stack. -/
def Pool.free (N : Nat) (p : Pool) (idx : Nat) : Except Fault Pool := do
  let g ← fetch N p.gen idx
  let gen ← store N p.gen idx (g + 1)
  let freeList ← store N p.freeList p.freeTop idx
  return { p with gen := gen, freeList := freeList, freeTop := p.freeTop + 1 }

/-- The slot on top of the free stack. -/
def Pool.top (p : Pool) : Nat := p.freeList (p.freeTop - 1)

theorem Pool.alloc_of_pos {N : Nat} {p : Pool} (h : 0 < p.freeTop) (hN : p.freeTop ≤ N) :
    p.alloc N = .ok (p.top, { p with freeTop := p.freeTop - 1 }) := by
  rw [Pool.alloc, if_neg (by omega), fetch_of_lt _ (by omega), ok_bind, pure_eq_ok, Pool.top]

/-- The arena after `free` of `idx`. -/
def Pool.freed (p : Pool) (idx : Nat) : Pool :=
  { p with
    gen := Function.update p.gen idx (p.gen idx + 1)
    freeList := Function.update p.freeList p.freeTop idx
    freeTop := p.freeTop + 1 }

@[simp] theorem Pool.freed_slots (p : Pool) (idx : Nat) : (p.freed idx).slots = p.slots := rfl

@[simp] theorem Pool.freed_gen_self (p : Pool) (idx : Nat) :
    (p.freed idx).gen idx = p.gen idx + 1 := Function.update_self ..

theorem Pool.freed_gen_of_ne (p : Pool) {idx s : Nat} (h : s ≠ idx) :
    (p.freed idx).gen s = p.gen s := Function.update_of_ne h ..

theorem Pool.free_of_lt {N : Nat} {p : Pool} {idx : Nat} (h : idx < N) (ht : p.freeTop < N) :
    p.free N idx = .ok (p.freed idx) := by
  rw [Pool.free, fetch_of_lt _ h, ok_bind, store_of_lt _ _ h, ok_bind, store_of_lt _ _ ht,
    ok_bind, pure_eq_ok, Pool.freed]

end LiteExchange.Book
