/-
  Cancel tokens (`OrderHandle::to_token`). A token holds the shard id in its top 8 bits, the
  generation in the next 32 and the slot in the low 24. Packing keeps the whole handle when the
  slot has at most 24 bits (`fromToken_toToken`), and the shard id always (`tokenShard_toToken`).
-/
import LiteExchange.Book.OrderBook

namespace LiteExchange.Book

theorem OrderHandle.toToken_toNat (h : OrderHandle) (shard : UInt8) : (h.toToken shard).toNat =
    shard.toNat * 2 ^ 56 + h.gen.toNat * 2 ^ 24 + h.slot % 2 ^ 24 := by
  have hshard := shard.toNat_lt
  have hgen := h.gen.toNat_lt
  have hlow : h.slot % 2 ^ 24 < 2 ^ 24 := Nat.mod_lt _ (by decide)
  have hslot : (UInt64.ofNat h.slot &&& 0xFFFFFF).toNat = h.slot % 2 ^ 24 := by
    rw [UInt64.toNat_and, UInt64.toNat_ofNat']
    change h.slot % 2 ^ 64 &&& (2 ^ 24 - 1) = _
    rw [Nat.and_two_pow_sub_one_eq_mod]
    omega
  rw [OrderHandle.toToken, UInt64.toNat_or, UInt64.toNat_or, hslot, UInt64.toNat_shiftLeft,
    UInt64.toNat_shiftLeft, UInt8.toNat_toUInt64, UInt32.toNat_toUInt64]
  change shard.toNat <<< 56 % 2 ^ 64 ||| h.gen.toNat <<< 24 % 2 ^ 64 ||| h.slot % 2 ^ 24 = _
  -- neither shift overflows, and the three fields do not overlap
  have hfit : shard.toNat <<< 56 % 2 ^ 64 = shard.toNat <<< 56 := by
    rw [Nat.shiftLeft_eq]
    omega
  have hfit' : h.gen.toNat <<< 24 % 2 ^ 64 = h.gen.toNat <<< 24 := by
    rw [Nat.shiftLeft_eq]
    omega
  have hmid : h.gen.toNat <<< 24 < 2 ^ 56 := by
    rw [Nat.shiftLeft_eq]
    omega
  have hhigh : shard.toNat <<< 56 + h.gen.toNat <<< 24 =
      (shard.toNat * 2 ^ 32 + h.gen.toNat) <<< 24 := by
    simp only [Nat.shiftLeft_eq]
    omega
  rw [hfit, hfit', ← Nat.shiftLeft_add_eq_or_of_lt hmid, hhigh,
    ← Nat.shiftLeft_add_eq_or_of_lt hlow, ← hhigh, Nat.shiftLeft_eq, Nat.shiftLeft_eq]

theorem OrderHandle.fromToken_slot (token : UInt64) :
    (OrderHandle.fromToken token).slot = token.toNat % 2 ^ 24 := by
  rw [OrderHandle.fromToken, UInt64.toNat_toUInt32, UInt64.toNat_and]
  change (token.toNat &&& (2 ^ 24 - 1)) % 2 ^ 32 = _
  rw [Nat.and_two_pow_sub_one_eq_mod]
  omega

theorem OrderHandle.fromToken_gen (token : UInt64) :
    (OrderHandle.fromToken token).gen.toNat = token.toNat / 2 ^ 24 % 2 ^ 32 := by
  rw [OrderHandle.fromToken, UInt64.toNat_toUInt32, UInt64.toNat_and, UInt64.toNat_shiftRight]
  change (token.toNat >>> 24 &&& (2 ^ 32 - 1)) % 2 ^ 32 = _
  rw [Nat.and_two_pow_sub_one_eq_mod, Nat.shiftRight_eq_div_pow, Nat.mod_mod]

/-- A token names the slot and generation it was made from. -/
theorem OrderHandle.fromToken_toToken {h : OrderHandle} (hs : h.slot < 2 ^ 24) (shard : UInt8) :
    OrderHandle.fromToken (h.toToken shard) = h := by
  have hgen := h.gen.toNat_lt
  have hnat := h.toToken_toNat shard
  have hslot : (OrderHandle.fromToken (h.toToken shard)).slot = h.slot := by
    rw [OrderHandle.fromToken_slot, hnat]
    omega
  have hgen' : (OrderHandle.fromToken (h.toToken shard)).gen = h.gen := by
    rw [← UInt32.toNat_inj, OrderHandle.fromToken_gen, hnat]
    omega
  cases h with
  | mk slot gen => exact congrArg₂ OrderHandle.mk hslot hgen'

/-- A token names the shard it was made on. -/
theorem OrderHandle.tokenShard_toToken (h : OrderHandle) (shard : UInt8) :
    OrderHandle.tokenShard (h.toToken shard) = shard := by
  have hshard := shard.toNat_lt
  have hgen := h.gen.toNat_lt
  rw [← UInt8.toNat_inj, OrderHandle.tokenShard, UInt64.toNat_toUInt8, UInt64.toNat_shiftRight,
    h.toToken_toNat]
  change (shard.toNat * 2 ^ 56 + h.gen.toNat * 2 ^ 24 + h.slot % 2 ^ 24) >>> 56 % 2 ^ 8 = _
  rw [Nat.shiftRight_eq_div_pow]
  omega

/-- A token with its generation set to 0. -/
def OrderHandle.eraseGen (token : UInt64) : UInt64 :=
  OrderHandle.toToken ⟨(OrderHandle.fromToken token).slot, 0⟩ (OrderHandle.tokenShard token)

/-- Apart from the generation, a token is made from the slot alone. -/
theorem OrderHandle.eraseGen_toToken {h h' : OrderHandle} (hs : h'.slot = h.slot) (shard : UInt8) :
    OrderHandle.eraseGen (h'.toToken shard) = OrderHandle.eraseGen (h.toToken shard) := by
  have hslot : (OrderHandle.fromToken (h'.toToken shard)).slot =
      (OrderHandle.fromToken (h.toToken shard)).slot := by
    rw [OrderHandle.fromToken_slot, OrderHandle.fromToken_slot, h.toToken_toNat, h'.toToken_toNat,
      hs]
    omega
  unfold OrderHandle.eraseGen
  rw [hslot, OrderHandle.tokenShard_toToken, OrderHandle.tokenShard_toToken]

end LiteExchange.Book
