/-
  The structs of `proto/messages.hpp` as bytes. Their members stand one after the other without
  padding between them, which the source checks with `static_assert`s, so a struct is a list of
  widths and values (`pack`), and a member is read back from its offset (`field_pack`).

  `NewOrder.ofBytes_pack`, `CancelOrder.ofBytes_pack`, `OutboundMsg.ofFrame_frame`: what is read from
  the bytes of a struct is the struct. `whole_replies`: `tryDecode` takes the frames of messages
  that say their own length and type apart again.
-/
import LiteExchange.Lib.Framing
import LiteExchange.Proto.Codec

namespace LiteExchange.Proto

open Lib

/-! ## Packed members -/

/-- Members one after the other, each with its width and value. -/
def pack (ms : List (Nat × Nat)) : List UInt8 := ms.flatMap fun m => leBytes m.1 m.2

/-- Where the `i`-th member starts. -/
def offset (ms : List (Nat × Nat)) (i : Nat) : Nat := ((ms.take i).map Prod.fst).sum

theorem length_leBytes (n v : Nat) : (leBytes n v).length = n := by
  induction n generalizing v with
  | zero => rfl
  | succ n ih => rw [leBytes, List.length_cons, ih]

theorem leNat_leBytes (n v : Nat) : leNat (leBytes n v) = v % 256 ^ n := by
  induction n generalizing v with
  | zero => rw [Nat.pow_zero, Nat.mod_one]; rfl
  | succ n ih =>
    rw [leBytes, leNat, ih, Nat.pow_succ', Nat.mod_mul]
    rfl

theorem length_pack (ms : List (Nat × Nat)) : (pack ms).length = (ms.map Prod.fst).sum := by
  induction ms with
  | nil => rfl
  | cons m ms ih =>
    rw [pack, List.flatMap_cons, List.length_append, length_leBytes, List.map_cons, List.sum_cons]
    exact congrArg _ ih

/-- A member is read back, as far as its width goes. -/
theorem field_pack {ms : List (Nat × Nat)} (i : Nat) {w v : Nat} (h : ms[i]? = some (w, v)) :
    field (pack ms) (offset ms i) w = v % 256 ^ w := by
  obtain ⟨hi, hget⟩ := List.getElem?_eq_some_iff.mp h
  have hsplit : pack ms = pack (ms.take i) ++ (leBytes w v ++ pack (ms.drop (i + 1))) := by
    conv_lhs => rw [← List.take_append_drop i ms, List.drop_eq_getElem_cons hi, hget]
    unfold pack
    rw [List.flatMap_append, List.flatMap_cons]
  have hoff : (pack (ms.take i)).length = offset ms i := length_pack _
  unfold field
  rw [hsplit, List.drop_left' hoff, List.take_left' (length_leBytes _ _), leNat_leBytes]

/-- Words fit into their members. -/
theorem word8_mod (x : UInt8) : x.toNat % 256 ^ 1 = x.toNat := Nat.mod_eq_of_lt x.toNat_lt

theorem word16_mod (x : UInt16) : x.toNat % 256 ^ 2 = x.toNat := Nat.mod_eq_of_lt x.toNat_lt

theorem word32_mod (x : UInt32) : x.toNat % 256 ^ 4 = x.toNat := Nat.mod_eq_of_lt x.toNat_lt

theorem word64_mod (x : UInt64) : x.toNat % 256 ^ 8 = x.toNat := Nat.mod_eq_of_lt x.toNat_lt

/-! ## Headers -/

/-- The members of a header. -/
def Header.members (h : Header) : List (Nat × Nat) :=
  [(2, h.len.toNat), (1, h.type.toByte.toNat), (1, h.flags.toNat), (4, h.sessionId.toNat)]

theorem leBytes_one (b : UInt8) : leBytes 1 b.toNat = [b] := by
  rw [leBytes, leBytes, UInt8.ofNat_toNat]

theorem Header.bytes_eq (h : Header) : h.bytes = pack h.members := by
  simp only [Header.bytes, Header.members, pack, List.flatMap_cons, List.flatMap_nil, leBytes_one,
    List.append_assoc, List.cons_append, List.nil_append, List.append_nil]

theorem MsgType.ofByte_toByte (t : MsgType) : MsgType.ofByte t.toByte.toNat = some t := by
  cases t <;> rfl

/-- A struct that starts with a header and has the length written there. -/
structure Framed (h : Header) (bs : List UInt8) : Prop where
  members : ∃ ms, bs = pack (h.members ++ ms)
  len : bs.length = h.len.toNat
  fits : h.len.toNat ≤ 256

/-- `tryDecode` finds it. -/
theorem Framed.decode {h : Header} {bs : List UInt8} (hf : Framed h bs) :
    decode bs = .ok h.type bs.length := by
  obtain ⟨ms, hms⟩ := hf.members
  have hlen := hf.len
  have hfits := hf.fits
  have hlong : 8 ≤ bs.length := by
    rw [hms, length_pack, List.map_append, List.sum_append]
    exact Nat.le_add_right _ _
  have hfield : field bs 0 2 = h.len.toNat % 256 ^ 2 := by
    rw [hms]
    exact field_pack 0 rfl
  have htype : field bs 2 1 = h.type.toByte.toNat % 256 ^ 1 := by
    rw [hms]
    exact field_pack 1 rfl
  refine decode_ok_of hlong (Nat.le_refl _) (by omega) ?_ ?_
  · rw [hfield, hlen, word16_mod]
  · rw [htype, word8_mod]
    exact h.type.ofByte_toByte

/-- The header is read back. -/
theorem Header.ofBytes_pack (h : Header) (ms : List (Nat × Nat)) :
    Header.ofBytes h.type (pack (h.members ++ ms)) = h := by
  have hlen : field (pack (h.members ++ ms)) 0 2 = h.len.toNat % 256 ^ 2 :=
    field_pack 0 rfl
  have hflags : field (pack (h.members ++ ms)) 3 1 = h.flags.toNat % 256 ^ 1 :=
    field_pack 2 rfl
  have hsession : field (pack (h.members ++ ms)) 4 4 = h.sessionId.toNat % 256 ^ 4 :=
    field_pack 3 rfl
  unfold Header.ofBytes
  rw [hlen, hflags, hsession, word16_mod, word8_mod, word32_mod, UInt16.ofNat_toNat,
    UInt8.ofNat_toNat, UInt32.ofNat_toNat]

/-! ## What clients send -/

structure Logon where
  hdr : Header
  padding : UInt64
  deriving DecidableEq, Repr

/-- The structs a client sends. -/
inductive ClientMsg where
  | newOrder (m : NewOrder)
  | cancel (m : CancelOrder)
  | logon (m : Logon)
  deriving DecidableEq, Repr

def ClientMsg.hdr : ClientMsg → Header
  | .newOrder m => m.hdr
  | .cancel m => m.hdr
  | .logon m => m.hdr

def NewOrder.members (m : NewOrder) : List (Nat × Nat) :=
  [(8, m.orderId.toNat), (8, m.price.toUInt64.toNat), (4, m.qty.toNat), (2, m.symbolId.toNat),
    (1, m.side.val.toNat), (1, m.tif.val.toNat)]

def ClientMsg.members : ClientMsg → List (Nat × Nat)
  | .newOrder m => m.hdr.members ++ m.members
  | .cancel m => m.hdr.members ++ [(8, m.orderToken.toNat)]
  | .logon m => m.hdr.members ++ [(8, m.padding.toNat)]

/-- The bytes of the struct. -/
def ClientMsg.bytes (m : ClientMsg) : List UInt8 := pack m.members

/-- The header says the type and the size of the struct. -/
def ClientMsg.Sound : ClientMsg → Prop
  | .newOrder m => m.hdr.type = .newOrder ∧ m.hdr.len = 32
  | .cancel m => m.hdr.type = .cancelOrder ∧ m.hdr.len = 16
  | .logon m => m.hdr.type = .logon ∧ m.hdr.len = 16

instance ClientMsg.decidableSound : ∀ m : ClientMsg, Decidable m.Sound
  | .newOrder _ => inferInstanceAs (Decidable (_ ∧ _))
  | .cancel _ => inferInstanceAs (Decidable (_ ∧ _))
  | .logon _ => inferInstanceAs (Decidable (_ ∧ _))

theorem NewOrder.ofBytes_pack {m : NewOrder} (h : m.hdr.type = .newOrder) :
    NewOrder.ofBytes (pack (m.hdr.members ++ m.members)) = m := by
  have hhdr := m.hdr.ofBytes_pack m.members
  have horderId : field (pack (m.hdr.members ++ m.members)) 8 8 = m.orderId.toNat % 256 ^ 8 :=
    field_pack 4 rfl
  have hprice : field (pack (m.hdr.members ++ m.members)) 16 8 =
      m.price.toUInt64.toNat % 256 ^ 8 := field_pack 5 rfl
  have hqty : field (pack (m.hdr.members ++ m.members)) 24 4 = m.qty.toNat % 256 ^ 4 :=
    field_pack 6 rfl
  have hsymbol : field (pack (m.hdr.members ++ m.members)) 28 2 = m.symbolId.toNat % 256 ^ 2 :=
    field_pack 7 rfl
  have hside : field (pack (m.hdr.members ++ m.members)) 30 1 = m.side.val.toNat % 256 ^ 1 :=
    field_pack 8 rfl
  have htif : field (pack (m.hdr.members ++ m.members)) 31 1 = m.tif.val.toNat % 256 ^ 1 :=
    field_pack 9 rfl
  rw [h] at hhdr
  unfold NewOrder.ofBytes
  rw [hhdr, horderId, hprice, hqty, hsymbol, hside, htif, word64_mod, word64_mod, word32_mod,
    word16_mod, word8_mod, word8_mod]
  simp only [UInt64.ofNat_toNat, UInt32.ofNat_toNat, UInt16.ofNat_toNat, UInt8.ofNat_toNat]
  rfl

theorem CancelOrder.ofBytes_pack {m : CancelOrder} (h : m.hdr.type = .cancelOrder) :
    CancelOrder.ofBytes (pack (m.hdr.members ++ [(8, m.orderToken.toNat)])) = m := by
  have hhdr := m.hdr.ofBytes_pack [(8, m.orderToken.toNat)]
  have htoken : field (pack (m.hdr.members ++ [(8, m.orderToken.toNat)])) 8 8 =
      m.orderToken.toNat % 256 ^ 8 :=
    field_pack 4 rfl
  rw [h] at hhdr
  unfold CancelOrder.ofBytes
  rw [hhdr, htoken, word64_mod, UInt64.ofNat_toNat]

/-- A struct of `n` bytes whose header says so. -/
theorem framed_pack {h : Header} {ms : List (Nat × Nat)} {n : UInt16} (hlen : h.len = n)
    (hsum : ((h.members ++ ms).map Prod.fst).sum = n.toNat) (hfits : n.toNat ≤ 256) :
    Framed h (pack (h.members ++ ms)) :=
  ⟨⟨ms, rfl⟩, by rw [length_pack, hsum, hlen], by rw [hlen]; exact hfits⟩

theorem ClientMsg.Sound.framed {m : ClientMsg} (h : m.Sound) : Framed m.hdr m.bytes := by
  cases m with
  | newOrder m => exact framed_pack h.2 rfl (by decide)
  | cancel m => exact framed_pack h.2 rfl (by decide)
  | logon m => exact framed_pack h.2 rfl (by decide)

/-! ## What clients get -/

def RejectReason.ofByte : Nat → Option RejectReason
  | 0 => some .unknownSymbol
  | 1 => some .invalidPrice
  | 2 => some .invalidQty
  | 3 => some .unknownOrder
  | _ => none

/-- The struct in a frame, by its type and size. -/
def OutboundMsg.ofFrame (type : MsgType) (bs : List UInt8) : Option OutboundMsg :=
  if type = .ack ∧ bs.length = 24 then
    some (.ack ⟨Header.ofBytes .ack bs, UInt64.ofNat (field bs 8 8), UInt64.ofNat (field bs 16 8)⟩)
  else if type = .reject ∧ bs.length = 24 then
    (RejectReason.ofByte (field bs 16 1)).map fun reason =>
      .reject ⟨Header.ofBytes .reject bs, UInt64.ofNat (field bs 8 8), reason⟩
  else if type = .fill ∧ bs.length = 40 then
    some (.fill ⟨Header.ofBytes .fill bs, UInt64.ofNat (field bs 8 8), UInt64.ofNat (field bs 16 8),
      (UInt64.ofNat (field bs 24 8)).toInt64, UInt32.ofNat (field bs 32 4)⟩)
  else none

/-- The header says the type and the size of the struct. -/
def OutboundMsg.Sound : OutboundMsg → Prop
  | .ack m => m.hdr.type = .ack ∧ m.hdr.len = 24
  | .reject m => m.hdr.type = .reject ∧ m.hdr.len = 24
  | .fill m => m.hdr.type = .fill ∧ m.hdr.len = 40

/-- The members after the header. -/
def OutboundMsg.members : OutboundMsg → List (Nat × Nat)
  | .ack m => [(8, m.orderId.toNat), (8, m.orderToken.toNat)]
  | .reject m => [(8, m.orderId.toNat), (1, m.reason.toByte.toNat), (7, 0)]
  | .fill m => [(8, m.aggressorId.toNat), (8, m.restingId.toNat), (8, m.price.toUInt64.toNat),
      (4, m.qty.toNat), (4, 0)]

theorem pack_append (ms ms' : List (Nat × Nat)) : pack (ms ++ ms') = pack ms ++ pack ms' :=
  List.flatMap_append

theorem OutboundMsg.member_eq (m : OutboundMsg) :
    m.member = pack (m.hdr.members ++ m.members) := by
  rw [pack_append, ← Header.bytes_eq]
  cases m with
  | ack m =>
    simp only [OutboundMsg.member, OutboundMsg.members, OutboundMsg.hdr, pack, List.flatMap_cons,
      List.flatMap_nil, List.append_assoc, List.append_nil]
  | reject m =>
    simp only [OutboundMsg.member, OutboundMsg.members, OutboundMsg.hdr, pack, List.flatMap_cons,
      List.flatMap_nil, List.append_assoc, List.append_nil, leBytes_one]
  | fill m =>
    simp only [OutboundMsg.member, OutboundMsg.members, OutboundMsg.hdr, pack, List.flatMap_cons,
      List.flatMap_nil, List.append_assoc, List.append_nil]

theorem OutboundMsg.Sound.framed {m : OutboundMsg} (h : m.Sound) :
    Framed m.hdr (pack (m.hdr.members ++ m.members)) := by
  cases m with
  | ack m => exact framed_pack h.2 rfl (by decide)
  | reject m => exact framed_pack h.2 rfl (by decide)
  | fill m => exact framed_pack h.2 rfl (by decide)

/-- A gateway sends the whole struct. -/
theorem OutboundMsg.Sound.frame_eq {m : OutboundMsg} (h : m.Sound) :
    m.frame = pack (m.hdr.members ++ m.members) := by
  unfold OutboundMsg.frame
  rw [OutboundMsg.member_eq, ← h.framed.len, List.take_length]

theorem OutboundMsg.ofFrame_ack {m : Ack} (h : (OutboundMsg.ack m).Sound) :
    OutboundMsg.ofFrame m.hdr.type (pack (m.hdr.members ++ (OutboundMsg.ack m).members)) =
      some (.ack m) := by
  have hhdr := m.hdr.ofBytes_pack (OutboundMsg.ack m).members
  have horderId : field (pack (m.hdr.members ++ (OutboundMsg.ack m).members)) 8 8 =
      m.orderId.toNat % 256 ^ 8 := field_pack 4 rfl
  have htoken : field (pack (m.hdr.members ++ (OutboundMsg.ack m).members)) 16 8 =
      m.orderToken.toNat % 256 ^ 8 := field_pack 5 rfl
  have hlen : (pack (m.hdr.members ++ (OutboundMsg.ack m).members)).length = 24 := length_pack _
  rw [h.1] at hhdr ⊢
  unfold OutboundMsg.ofFrame
  rw [if_pos ⟨rfl, hlen⟩, hhdr, horderId, htoken, word64_mod, word64_mod, UInt64.ofNat_toNat,
    UInt64.ofNat_toNat]

theorem RejectReason.ofByte_toByte (r : RejectReason) :
    RejectReason.ofByte r.toByte.toNat = some r := by
  cases r <;> rfl

theorem OutboundMsg.ofFrame_reject {m : Reject} (h : (OutboundMsg.reject m).Sound) :
    OutboundMsg.ofFrame m.hdr.type (pack (m.hdr.members ++ (OutboundMsg.reject m).members)) =
      some (.reject m) := by
  have hhdr := m.hdr.ofBytes_pack (OutboundMsg.reject m).members
  have horderId : field (pack (m.hdr.members ++ (OutboundMsg.reject m).members)) 8 8 =
      m.orderId.toNat % 256 ^ 8 := field_pack 4 rfl
  have hreason : field (pack (m.hdr.members ++ (OutboundMsg.reject m).members)) 16 1 =
      m.reason.toByte.toNat % 256 ^ 1 := field_pack 5 rfl
  have hlen : (pack (m.hdr.members ++ (OutboundMsg.reject m).members)).length = 24 := length_pack _
  rw [h.1] at hhdr ⊢
  unfold OutboundMsg.ofFrame
  rw [if_neg (by simp), if_pos ⟨rfl, hlen⟩, hhdr, horderId, hreason, word64_mod, word8_mod,
    RejectReason.ofByte_toByte, UInt64.ofNat_toNat]
  rfl

theorem OutboundMsg.ofFrame_fill {m : Fill} (h : (OutboundMsg.fill m).Sound) :
    OutboundMsg.ofFrame m.hdr.type (pack (m.hdr.members ++ (OutboundMsg.fill m).members)) =
      some (.fill m) := by
  have hhdr := m.hdr.ofBytes_pack (OutboundMsg.fill m).members
  have haggressor : field (pack (m.hdr.members ++ (OutboundMsg.fill m).members)) 8 8 =
      m.aggressorId.toNat % 256 ^ 8 := field_pack 4 rfl
  have hresting : field (pack (m.hdr.members ++ (OutboundMsg.fill m).members)) 16 8 =
      m.restingId.toNat % 256 ^ 8 := field_pack 5 rfl
  have hprice : field (pack (m.hdr.members ++ (OutboundMsg.fill m).members)) 24 8 =
      m.price.toUInt64.toNat % 256 ^ 8 := field_pack 6 rfl
  have hqty : field (pack (m.hdr.members ++ (OutboundMsg.fill m).members)) 32 4 =
      m.qty.toNat % 256 ^ 4 := field_pack 7 rfl
  have hlen : (pack (m.hdr.members ++ (OutboundMsg.fill m).members)).length = 40 := length_pack _
  rw [h.1] at hhdr ⊢
  unfold OutboundMsg.ofFrame
  rw [if_neg (by simp), if_neg (by simp), if_pos ⟨rfl, hlen⟩, hhdr, haggressor, hresting, hprice,
    hqty, word64_mod, word64_mod, word64_mod, word32_mod]
  simp only [UInt64.ofNat_toNat, UInt32.ofNat_toNat]
  rfl

/-- What a client reads in the frame of a message is the message. -/
theorem OutboundMsg.Sound.ofFrame_frame {m : OutboundMsg} (h : m.Sound) :
    OutboundMsg.ofFrame m.hdr.type m.frame = some m := by
  rw [h.frame_eq]
  cases m with
  | ack m => exact OutboundMsg.ofFrame_ack h
  | reject m => exact OutboundMsg.ofFrame_reject h
  | fill m => exact OutboundMsg.ofFrame_fill h

/-- What a client finds at the front of the bytes it has got. -/
def replyAt (bs : List UInt8) : Verdict OutboundMsg :=
  match decode bs with
  | .needMore => .more
  | .invalid => .bad
  | .ok type len => .frame len (OutboundMsg.ofFrame type (bs.take len))

theorem replyAt_frame {bs : List UInt8} {n : Nat} {x : Option OutboundMsg}
    (h : replyAt bs = .frame n x) :
    ∃ type, decode bs = .ok type n ∧ x = OutboundMsg.ofFrame type (bs.take n) := by
  unfold replyAt at h
  split at h
  · cases h
  · cases h
  · rename_i type len hdec
    cases h
    exact ⟨type, hdec, rfl⟩

/-- A client that takes the frames apart with `tryDecode`. -/
def replies : Framer UInt8 OutboundMsg where
  next := replyAt
  pos := by
    intro bs n x h
    obtain ⟨type, hdec, -⟩ := replyAt_frame h
    exact Nat.lt_of_lt_of_le (by decide) (decode_ok hdec).1
  le := by
    intro bs n x h
    obtain ⟨type, hdec, -⟩ := replyAt_frame h
    exact (decode_ok hdec).2.1
  stable := by
    intro bs n x h more
    obtain ⟨type, hdec, rfl⟩ := replyAt_frame h
    have htake : (bs.take n).length = n := List.length_take_of_le (decode_ok hdec).2.1
    unfold replyAt
    rw [decode_stable hdec more]
    dsimp only
    rw [List.take_left' htake]
  bad_stable := by
    intro bs h more
    unfold replyAt at h ⊢
    cases hdec : decode bs with
    | needMore => rw [hdec] at h; cases h
    | ok type len => rw [hdec] at h; cases h
    | invalid => rw [decode_invalid hdec more]

theorem OutboundMsg.Sound.whole {m : OutboundMsg} (h : m.Sound) : replies.Whole m.frame [m] := by
  have hnext : replies.next m.frame = .frame m.frame.length (some m) := by
    have hdec : decode m.frame = .ok m.hdr.type m.frame.length := by
      rw [h.frame_eq]
      exact h.framed.decode
    have hframe := h.ofFrame_frame
    change replyAt m.frame = _
    unfold replyAt
    rw [hdec]
    dsimp only
    rw [List.take_length, hframe]
  have hwhole := Framer.whole_frame hnext
  rwa [List.take_length] at hwhole

/-- Frame after frame, the client reads the messages that were sent. -/
theorem whole_replies {ms : List OutboundMsg} (h : ∀ m ∈ ms, m.Sound) :
    replies.Whole (ms.flatMap OutboundMsg.frame) ms := by
  induction ms with
  | nil => exact Framer.whole_nil
  | cons m ms ih =>
    rw [List.flatMap_cons]
    exact (h m List.mem_cons_self).whole.append (ih fun x hx => h x (List.mem_cons_of_mem _ hx))

end LiteExchange.Proto
