/-
  The receive buffer of a session as memory (`net/session.hpp`): the array `recv_buf_`, the
  32-bit `recv_len_`, and the copies in, out and within the array. A copy into the array is
  checked against `RECV_BUF_SIZE`, a read of received bytes against `recv_len_`, and both
  subtractions `recv_len_ - consumed` against underflow; what would fail such a check faults.
  The loop of `consume` may make `recv_len_ / 8 + 1` rounds and faults when it needs more.

  `BufferRep raw s`: the bytes of `raw` below `recv_len_` are those of the session `s`. On
  represented sessions every call does in memory what `Session` does on lists
  (`BufferRep.append`, `BufferRep.consume`), and so no call faults
  (`framing_stays_in_buffer`).
-/
import LiteExchange.Net.Session

namespace LiteExchange.Net

open Lib Proto

/-! ## The code -/

structure RawSession where
  sessionId : UInt32
  recvBuf : Nat → UInt8
  recvLen : UInt32
  closed : Bool

def RawSession.init (sid : UInt32) : RawSession := ⟨sid, fun _ => 0, 0, false⟩

/-- `memcpy(recv_buf_ + off, data, len)`. -/
def copyIn (buf : Nat → UInt8) (off : Nat) (data : Nat → UInt8) (len : Nat) :
    Except Fault (Nat → UInt8) :=
  if off + len ≤ recvBufSize then
    .ok fun i => if off ≤ i ∧ i < off + len then data (i - off) else buf i
  else .error .outOfRange

/-- `append(data, len)`. -/
def RawSession.append (s : RawSession) (data : Nat → UInt8) (len : UInt32) :
    Except Fault RawSession := do
  let space := UInt32.ofNat recvBufSize - s.recvLen
  let len := if space < len then space else len
  let buf ← copyIn s.recvBuf s.recvLen.toNat data len.toNat
  return { s with recvBuf := buf, recvLen := s.recvLen + len }

/-- The `n` bytes at `recv_buf_ + off`. -/
def RawSession.load (s : RawSession) (off n : Nat) : Except Fault (List UInt8) :=
  if off + n ≤ s.recvLen.toNat then .ok ((List.range n).map fun i => s.recvBuf (off + i))
  else .error .outOfRange

/-- `tryDecode(recv_buf_ + off, avail, type, frame_len)`. -/
def RawSession.tryDecode (s : RawSession) (off avail : Nat) : Except Fault DecodeResult := do
  if avail < minFrameLen then
    return .needMore
  let len := leNat (← s.load off 2)
  if len < minFrameLen ∨ maxFrameLen < len then
    return .invalid
  let type := leNat (← s.load (off + 2) 1)
  match MsgType.ofByte type with
  | none => return .invalid
  | some type =>
    if avail < len then
      return .needMore
    return .ok type len

/-- The copies of `consume` into an `InboundMsg`. -/
def RawSession.loadMessage (s : RawSession) (type : MsgType) (frameLen off : Nat) :
    Except Fault (Option InboundMsg) := do
  if type = .newOrder ∧ frameLen = sizeofNewOrder then
    let m := NewOrder.ofBytes (← s.load off sizeofNewOrder)
    return some (.newOrder { m with hdr := { m.hdr with sessionId := s.sessionId } })
  else if type = .cancelOrder ∧ frameLen = sizeofCancelOrder then
    let m := CancelOrder.ofBytes (← s.load off sizeofCancelOrder)
    return some (.cancel { m with hdr := { m.hdr with sessionId := s.sessionId } })
  else
    return none

variable {σ : Type}

structure RawProgress (σ : Type) where
  queue : σ
  consumed : UInt32
  count : UInt32
  closed : Bool

/-- The loop of `consume`, for at most `fuel` rounds. -/
def RawSession.consumeLoop (push : σ → InboundMsg → σ × Bool) (s : RawSession) :
    Nat → UInt32 → UInt32 → σ → Except Fault (RawProgress σ)
  | 0, _, _, _ => .error .diverged
  | fuel + 1, consumed, count, q => do
    if s.recvLen < consumed then
      .error .outOfRange
    match ← s.tryDecode consumed.toNat (s.recvLen - consumed).toNat with
    | .needMore => return ⟨q, consumed, count, false⟩
    | .invalid => return ⟨q, consumed, count, true⟩
    | .ok type frameLen =>
      match ← s.loadMessage type frameLen consumed.toNat with
      | none => s.consumeLoop push fuel (consumed + UInt32.ofNat frameLen) (count + 1) q
      | some msg =>
        if (push q msg).2 then
          s.consumeLoop push fuel (consumed + UInt32.ofNat frameLen) (count + 1) (push q msg).1
        else
          return ⟨(push q msg).1, consumed, count, false⟩

/-- `memmove(recv_buf_, recv_buf_ + consumed, recv_len_ - consumed)` and the new length. -/
def RawSession.advance (s : RawSession) (consumed : UInt32) : Except Fault RawSession :=
  if 0 < consumed then
    if s.recvLen < consumed then .error .outOfRange
    else .ok
      { s with
        recvBuf := fun i =>
          if i < (s.recvLen - consumed).toNat then s.recvBuf (consumed.toNat + i) else s.recvBuf i
        recvLen := s.recvLen - consumed }
  else .ok s

/-- `consume(q)`. -/
def RawSession.consume (push : σ → InboundMsg → σ × Bool) (s : RawSession) (q : σ) :
    Except Fault (RawSession × σ × UInt32) := do
  if s.closed then
    return (s, q, 0)
  let p ← s.consumeLoop push (s.recvLen.toNat / minFrameLen + 1) 0 0 q
  let s ← { s with closed := p.closed }.advance p.consumed
  return (s, p.queue, p.count)

/-! ## The bytes received -/

/-- `recv_buf_[0..recv_len_)`. -/
def RawSession.bytes (s : RawSession) : List UInt8 := (List.range s.recvLen.toNat).map s.recvBuf

section Reads

variable {s : RawSession} {off n : Nat}

theorem RawSession.length_bytes (s : RawSession) : s.bytes.length = s.recvLen.toNat := by
  unfold RawSession.bytes
  rw [List.length_map, List.length_range]

theorem RawSession.load_eq (h : off + n ≤ s.recvLen.toNat) :
    s.load off n = .ok ((s.bytes.drop off).take n) := by
  unfold RawSession.load
  rw [if_pos h]
  congr 1
  apply List.ext_getElem
  · rw [List.length_map, List.length_range, List.length_take, List.length_drop, s.length_bytes]
    omega
  · intro i _ _
    simp [RawSession.bytes]

/-- In memory and on the list, decoding finds the same. -/
theorem RawSession.tryDecode_eq (h : off ≤ s.recvLen.toNat) :
    s.tryDecode off (s.recvLen.toNat - off) = .ok (decode (s.bytes.drop off)) := by
  have hlen : (s.bytes.drop off).length = s.recvLen.toNat - off := by
    rw [List.length_drop, s.length_bytes]
  unfold RawSession.tryDecode decode
  rw [hlen]
  split
  · rfl
  · rename_i hmin
    unfold minFrameLen at hmin
    have htype : leNat (((s.bytes.drop (off + 2)).take 1)) = field (s.bytes.drop off) 2 1 := by
      rw [field, List.drop_drop]
    have hfield : leNat ((s.bytes.drop off).take 2) = field (s.bytes.drop off) 0 2 := rfl
    rw [RawSession.load_eq (by omega), ok_bind]
    dsimp only
    rw [hfield]
    split
    · rfl
    · rw [RawSession.load_eq (by omega), ok_bind, htype]
      cases MsgType.ofByte (field (s.bytes.drop off) 2 1) with
      | none => rfl
      | some type =>
        dsimp only
        split <;> rfl

theorem RawSession.loadMessage_eq {type : MsgType} (h : off + n ≤ s.recvLen.toNat) :
    s.loadMessage type n off = .ok (message s.sessionId type n (s.bytes.drop off)) := by
  unfold RawSession.loadMessage message
  split
  · rename_i hnew
    rw [RawSession.load_eq (hnew.2 ▸ h)]
    rfl
  · split
    · rename_i hcancel
      rw [RawSession.load_eq (hcancel.2 ▸ h)]
      rfl
    · rfl

end Reads

/-! ## Memory and lists -/

/-- The session in memory stands for the session on lists. -/
structure BufferRep (raw : RawSession) (s : Session) : Prop where
  id : raw.sessionId = s.sessionId
  bytes : raw.bytes = s.recv
  closed : raw.closed = s.closed

/-- The locals of the loop in memory. -/
def Progress.machine (p : Progress σ) : RawProgress σ :=
  ⟨p.queue, UInt32.ofNat p.consumed, UInt32.ofNat p.count, p.closed⟩

section Rep

variable {raw : RawSession} {s : Session} {push : σ → InboundMsg → σ × Bool} {q : σ}

theorem bufferRep_init (sid : UInt32) : BufferRep (RawSession.init sid) (Session.init sid) :=
  ⟨rfl, rfl, rfl⟩

theorem BufferRep.length_eq (h : BufferRep raw s) : s.recv.length = raw.recvLen.toNat := by
  rw [← h.bytes, raw.length_bytes]

/-- `recv_len_ <= RECV_BUF_SIZE`. -/
theorem BufferRep.fits (h : BufferRep raw s) : raw.recvLen.toNat ≤ recvBufSize := by
  rw [← h.length_eq]
  exact s.fits

/-- `RECV_BUF_SIZE - recv_len_` does not wrap. -/
theorem BufferRep.space_eq (h : BufferRep raw s) :
    (UInt32.ofNat recvBufSize - raw.recvLen).toNat = s.space := by
  have hle : raw.recvLen ≤ UInt32.ofNat recvBufSize := UInt32.le_iff_toNat_le.mpr h.fits
  rw [UInt32.toNat_sub_of_le _ _ hle, Session.space, h.length_eq]
  rfl

/-- `append` copies what fits behind the bytes it has. -/
theorem BufferRep.append (h : BufferRep raw s) (data : Nat → UInt8) (len : UInt32) :
    ∃ raw', raw.append data len = .ok raw' ∧
      BufferRep raw' (s.append ((List.range len.toNat).map data)) := by
  have hfits := h.fits
  have hspace := h.space_eq
  obtain ⟨k, hk⟩ : ∃ k, (if UInt32.ofNat recvBufSize - raw.recvLen < len then
    UInt32.ofNat recvBufSize - raw.recvLen else len) = k := ⟨_, rfl⟩
  have hkn : k.toNat = min s.space len.toNat := by
    rw [← hk, ← hspace]
    split
    · rename_i hlt
      rw [UInt32.lt_iff_toNat_lt] at hlt
      omega
    · rename_i hge
      rw [UInt32.lt_iff_toNat_lt] at hge
      omega
  have hroom : raw.recvLen.toNat + k.toNat ≤ recvBufSize := by
    rw [hkn, Session.space, h.length_eq]
    omega
  have hsum : (raw.recvLen + k).toNat = raw.recvLen.toNat + k.toNat := by
    rw [UInt32.toNat_add, Nat.mod_eq_of_lt]
    unfold recvBufSize at hroom
    omega
  unfold RawSession.append copyIn
  dsimp only
  rw [hk, if_pos hroom, ok_bind]
  refine ⟨_, rfl, h.id, ?_, h.closed⟩
  unfold RawSession.bytes Session.append
  dsimp only
  rw [hsum, List.range_add, List.map_append, ← h.bytes]
  refine congrArg₂ HAppend.hAppend ?_ ?_
  · apply List.map_congr_left
    intro i hi
    rw [List.mem_range] at hi
    exact if_neg fun hc => absurd hc.1 (by omega)
  · rw [List.map_map, ← List.map_take, List.take_range, ← hkn]
    apply List.map_congr_left
    intro i hi
    rw [List.mem_range] at hi
    simp only [Function.comp_apply]
    rw [if_pos ⟨by omega, by omega⟩, Nat.add_sub_cancel_left]

/-- One round of the loop in memory. -/
theorem RawSession.consumeLoop_succ (push : σ → InboundMsg → σ × Bool) (q : σ) (fuel : Nat)
    (count : UInt32) {consumed : UInt32} (hle : consumed ≤ raw.recvLen) :
    raw.consumeLoop push (fuel + 1) consumed count q =
      match decode (raw.bytes.drop consumed.toNat) with
      | .needMore => .ok ⟨q, consumed, count, false⟩
      | .invalid => .ok ⟨q, consumed, count, true⟩
      | .ok type len =>
        match message raw.sessionId type len (raw.bytes.drop consumed.toNat) with
        | none => raw.consumeLoop push fuel (consumed + UInt32.ofNat len) (count + 1) q
        | some x =>
          if (push q x).2 then
            raw.consumeLoop push fuel (consumed + UInt32.ofNat len) (count + 1) (push q x).1
          else .ok ⟨(push q x).1, consumed, count, false⟩ := by
  have hle' := UInt32.le_iff_toNat_le.mp hle
  conv_lhs => unfold RawSession.consumeLoop
  rw [if_neg (UInt32.not_lt.mpr hle), UInt32.toNat_sub_of_le _ _ hle,
    RawSession.tryDecode_eq hle']
  cases hdec : decode (raw.bytes.drop consumed.toNat) with
  | needMore => rfl
  | invalid => rfl
  | ok type len =>
    have hend := (decode_ok hdec).2.1
    rw [List.length_drop, raw.length_bytes] at hend
    have hload : raw.loadMessage type len consumed.toNat =
        .ok (message raw.sessionId type len (raw.bytes.drop consumed.toNat)) :=
      RawSession.loadMessage_eq (by omega)
    simp only [ok_bind, hload]
    rfl

/-- The loops do the same, round by round. -/
theorem BufferRep.consumeLoop (h : BufferRep raw s) {fuel consumed count : Nat} {p : Progress σ}
    (hrun : s.consumeLoop push fuel consumed count q = .ok p) :
    raw.consumeLoop push fuel (UInt32.ofNat consumed) (UInt32.ofNat count) q = .ok p.machine := by
  induction fuel generalizing consumed count q with
  | zero => cases hrun
  | succ fuel ih =>
    have hstart := Session.consumeLoop_le hrun
    have hlt : consumed < 2 ^ 32 :=
      Nat.lt_of_le_of_lt hstart (h.length_eq ▸ raw.recvLen.toNat_lt)
    have hcons : (UInt32.ofNat consumed).toNat = consumed := UInt32.toNat_ofNat_of_lt' hlt
    have hle : UInt32.ofNat consumed ≤ raw.recvLen := by
      rw [UInt32.le_iff_toNat_le, hcons, ← h.length_eq]
      exact hstart
    -- the counters of the next round are the images of the next counters
    have hnext : ∀ {len : Nat} {q : σ},
        s.consumeLoop push fuel (consumed + len) (count + 1) q = .ok p →
        raw.consumeLoop push fuel (UInt32.ofNat consumed + UInt32.ofNat len)
          (UInt32.ofNat count + 1) q = .ok p.machine := by
      intro len q hrun
      have hih := ih hrun
      rwa [UInt32.ofNat_add, UInt32.ofNat_add] at hih
    rw [Session.consumeLoop_succ push q fuel count hstart] at hrun
    rw [RawSession.consumeLoop_succ push q fuel _ hle, hcons, h.bytes, h.id]
    cases hd : decode (s.recv.drop consumed) with
    | needMore =>
      rw [hd] at hrun
      cases hrun
      rfl
    | invalid =>
      rw [hd] at hrun
      cases hrun
      rfl
    | ok type len =>
      rw [hd] at hrun
      dsimp only at hrun ⊢
      cases hm : message s.sessionId type len (s.recv.drop consumed) with
      | none =>
        rw [hm] at hrun
        exact hnext hrun
      | some x =>
        rw [hm] at hrun
        dsimp only at hrun ⊢
        cases hpush : (push q x).2 with
        | true =>
          rw [if_pos hpush] at hrun
          exact hnext hrun
        | false =>
          rw [hpush] at hrun
          cases hrun
          rfl

/-- The loop ends within its bound, and `consumed` does not pass the bytes received. -/
theorem BufferRep.loop_ends (h : BufferRep raw s) (push : σ → InboundMsg → σ × Bool) (q : σ) :
    ∃ p, s.consumeLoop push (raw.recvLen.toNat / minFrameLen + 1) 0 0 q = .ok p ∧
      p.consumed ≤ raw.recvLen.toNat ∧
      raw.consumeLoop push (raw.recvLen.toNat / minFrameLen + 1) 0 0 q = .ok p.machine := by
  have hlen := h.length_eq
  have hfuel : (s.recv.length - 0) / minFrameLen < raw.recvLen.toNat / minFrameLen + 1 := by
    rw [hlen, Nat.sub_zero]
    omega
  obtain ⟨p, hp, -, hle, -⟩ := Session.consumeLoop_spec push q 0 (Nat.zero_le s.recv.length) hfuel
  exact ⟨p, hp, by omega, h.consumeLoop hp⟩

theorem BufferRep.advance (h : BufferRep raw s) {consumed : Nat} (closed : Bool)
    (hle : consumed ≤ raw.recvLen.toNat) :
    ∃ raw', { raw with closed := closed }.advance (UInt32.ofNat consumed) = .ok raw' ∧
      BufferRep raw' (s.advance consumed closed) := by
  have hcons : (UInt32.ofNat consumed).toNat = consumed :=
    UInt32.toNat_ofNat_of_lt' (Nat.lt_of_le_of_lt hle raw.recvLen.toNat_lt)
  have hle' : UInt32.ofNat consumed ≤ raw.recvLen := by
    rw [UInt32.le_iff_toNat_le, hcons]
    exact hle
  unfold RawSession.advance
  split
  · refine ⟨_, if_neg (UInt32.not_lt.mpr hle'), h.id, ?_, rfl⟩
    unfold RawSession.bytes Session.advance
    dsimp only
    rw [← h.bytes, RawSession.bytes, UInt32.toNat_sub_of_le _ _ hle', hcons]
    apply List.ext_getElem
    · rw [List.length_map, List.length_drop, List.length_map, List.length_range, List.length_range]
    · intro i hi _
      rw [List.length_map, List.length_range] at hi
      simp [hi]
  · rename_i hzero
    rw [UInt32.lt_iff_toNat_lt, hcons] at hzero
    have hnone : consumed = 0 := Nat.eq_zero_of_not_pos hzero
    refine ⟨_, rfl, h.id, ?_, rfl⟩
    rw [hnone]
    exact h.bytes

/-- `consume` takes the same frames off in memory. -/
theorem BufferRep.consume (h : BufferRep raw s) (push : σ → InboundMsg → σ × Bool) (q : σ) :
    ∃ raw' s' q' count, raw.consume push q = .ok (raw', q', UInt32.ofNat count) ∧
      s.consume push q = .ok (s', q', count) ∧ BufferRep raw' s' := by
  unfold RawSession.consume Session.consume
  rw [h.closed]
  cases hclosed : s.closed with
  | true => exact ⟨raw, s, q, 0, rfl, rfl, h⟩
  | false =>
    obtain ⟨p, hp, hle, hraw⟩ := h.loop_ends push q
    obtain ⟨raw', hadv, hrep⟩ := h.advance p.closed hle
    have hmore : raw.recvLen.toNat / minFrameLen + 1 ≤ s.recv.length + 1 := by
      rw [h.length_eq]
      exact Nat.succ_le_succ (Nat.div_le_self _ _)
    refine ⟨raw', s.advance p.consumed p.closed, p.queue, p.count, ?_, ?_, hrep⟩
    · simp only [hraw, ok_bind, Progress.machine, hadv]
      rfl
    · have hend : ¬ s.recv.length < p.consumed := by
        rw [h.length_eq]
        exact Nat.not_lt.mpr hle
      simp only [Session.consumeLoop_more hp hmore, ok_bind, if_neg hend]
      rfl

end Rep

/-! ## Runs -/

/-- A call of the gateway: any bytes, any length argument. -/
inductive RawCall where
  | append (data : Nat → UInt8) (len : UInt32)
  | consume

def RawSession.step (push : σ → InboundMsg → σ × Bool) (st : RawSession × σ) :
    RawCall → Except Fault (RawSession × σ)
  | .append data len => do
    let s ← st.1.append data len
    return (s, st.2)
  | .consume => do
    let (s, q, _) ← st.1.consume push st.2
    return (s, q)

/-- No call faults on a represented session, and it stays represented. -/
theorem BufferRep.step {raw : RawSession} {s : Session} (h : BufferRep raw s)
    (push : σ → InboundMsg → σ × Bool) (q : σ) (call : RawCall) :
    ∃ raw' q' s', RawSession.step push (raw, q) call = .ok (raw', q') ∧ BufferRep raw' s' := by
  unfold RawSession.step
  cases call with
  | append data len =>
    obtain ⟨raw', hrun, hrep⟩ := h.append data len
    dsimp only
    rw [hrun]
    exact ⟨raw', q, _, rfl, hrep⟩
  | consume =>
    obtain ⟨raw', s', q', count, hrun, -, hrep⟩ := h.consume push q
    dsimp only
    rw [hrun]
    exact ⟨raw', q', s', rfl, hrep⟩

/-- Over any calls with any bytes, lengths and answers of the queue: no access leaves its range,
    `recv_len_` stays within the buffer, and the loop of `consume`, whatever the queue answers,
    ends after at most `recv_len_ / 8 + 1` rounds with `consumed` at most `recv_len_`. -/
theorem framing_stays_in_buffer (push : σ → InboundMsg → σ × Bool) (sid : UInt32) (q : σ)
    (calls : List RawCall) :
    ∃ raw q', run (RawSession.step push) (RawSession.init sid, q) calls = .ok (raw, q') ∧
      raw.recvLen.toNat ≤ recvBufSize ∧
      ∀ q, ∃ p, raw.consumeLoop push (raw.recvLen.toNat / minFrameLen + 1) 0 0 q = .ok p ∧
        p.consumed ≤ raw.recvLen := by
  have hstep : ∀ (st : RawSession × σ) call, (∃ s, BufferRep st.1 s) →
      ∃ st', RawSession.step push st call = .ok st' ∧ ∃ s, BufferRep st'.1 s := by
    intro st call hrep
    obtain ⟨s, hs⟩ := hrep
    obtain ⟨raw', q', s', hrun, hs'⟩ := hs.step push st.2 call
    exact ⟨(raw', q'), hrun, s', hs'⟩
  have hinit : ∃ s, BufferRep (RawSession.init sid, q).1 s :=
    ⟨Session.init sid, bufferRep_init sid⟩
  obtain ⟨⟨raw, q'⟩, hrun, s, hs⟩ := run_keeps hstep hinit calls
  refine ⟨raw, q', hrun, hs.fits, ?_⟩
  intro q
  obtain ⟨p, -, hle, hloop⟩ := hs.loop_ends push q
  refine ⟨p.machine, hloop, ?_⟩
  rw [UInt32.le_iff_toNat_le]
  exact Nat.le_trans (Nat.le_of_eq (UInt32.toNat_ofNat_of_lt'
    (Nat.lt_of_le_of_lt hle raw.recvLen.toNat_lt))) hle

end LiteExchange.Net
