/-
  A client session (`net/session.hpp`): the bytes received and not yet used, and the loop that
  takes frames off them into a queue. `recv` is `recv_buf_[0..recv_len_)`; the queue is any type
  with a `push` that may refuse.

  * `Session.consume_spec`: a call of `consume` uses whole frames from the front of the buffer,
    every message in them accepted by the queue, and stops where more bytes are needed, where no
    frame can start, or before a message the queue refuses.
  * `session_framing`: over any calls of `append` and `consume`, the messages accepted and what
    decoding finds in the buffer are together what decoding finds in all the bytes stored.
-/
import LiteExchange.Lib.Framing
import LiteExchange.Proto.Codec

namespace LiteExchange.Net

open Lib Proto

/-! ## The code -/

/-- `RECV_BUF_SIZE`. -/
def recvBufSize : Nat := 4096

structure Session where
  sessionId : UInt32
  recv : List UInt8
  closed : Bool
  fits : recv.length ≤ recvBufSize

/-- `Session(fd, sid)`. -/
def Session.init (sid : UInt32) : Session := ⟨sid, [], false, Nat.zero_le _⟩

/-- `space`, the free end of the buffer. -/
def Session.space (s : Session) : Nat := recvBufSize - s.recv.length

/-- `append(data, len)`: what does not fit is cut off. -/
def Session.append (s : Session) (data : List UInt8) : Session where
  sessionId := s.sessionId
  recv := s.recv ++ data.take s.space
  closed := s.closed
  fits := by
    have h := s.fits
    rw [List.length_append, List.length_take]
    unfold Session.space
    omega

/-- The message `consume` copies out of a frame, its session id overwritten; the other frames are
    skipped. -/
def loadMessage (sid : UInt32) (type : MsgType) (frameLen : Nat) (buf : List UInt8) :
    Except Fault (Option InboundMsg) := do
  if type = .newOrder ∧ frameLen = sizeofNewOrder then
    let m := NewOrder.ofBytes (← loadBytes buf sizeofNewOrder)
    return some (.newOrder { m with hdr := { m.hdr with sessionId := sid } })
  else if type = .cancelOrder ∧ frameLen = sizeofCancelOrder then
    let m := CancelOrder.ofBytes (← loadBytes buf sizeofCancelOrder)
    return some (.cancel { m with hdr := { m.hdr with sessionId := sid } })
  else
    return none

variable {σ : Type}

/-- The locals of `consume` and the queue. -/
structure Progress (σ : Type) where
  queue : σ
  consumed : Nat
  count : Nat
  closed : Bool

/-- The loop of `consume`. -/
def Session.consumeLoop (push : σ → InboundMsg → σ × Bool) (s : Session) :
    Nat → Nat → Nat → σ → Except Fault (Progress σ)
  | 0, _, _, _ => .error .diverged
  | fuel + 1, consumed, count, q => do
    -- `recv_len_ - consumed` is unsigned
    if s.recv.length < consumed then
      .error .outOfRange
    match ← tryDecode (s.recv.drop consumed) with
    | .needMore => return ⟨q, consumed, count, false⟩
    | .invalid => return ⟨q, consumed, count, true⟩
    | .ok type frameLen =>
      match ← loadMessage s.sessionId type frameLen (s.recv.drop consumed) with
      | none => s.consumeLoop push fuel (consumed + frameLen) (count + 1) q
      | some msg =>
        if (push q msg).2 then
          s.consumeLoop push fuel (consumed + frameLen) (count + 1) (push q msg).1
        else
          return ⟨(push q msg).1, consumed, count, false⟩

/-- The buffer moved down by the bytes used. -/
def Session.advance (s : Session) (consumed : Nat) (closed : Bool) : Session where
  sessionId := s.sessionId
  recv := s.recv.drop consumed
  closed := closed
  fits := by
    have h := s.fits
    rw [List.length_drop]
    omega

/-- `consume(q)`, with the number of frames it returns. -/
def Session.consume (push : σ → InboundMsg → σ × Bool) (s : Session) (q : σ) :
    Except Fault (Session × σ × Nat) := do
  if s.closed then
    return (s, q, 0)
  let p ← s.consumeLoop push (s.recv.length + 1) 0 0 q
  if s.recv.length < p.consumed then
    .error .outOfRange
  return (s.advance p.consumed p.closed, p.queue, p.count)

/-! ## Frames -/

/-- The message of a frame. -/
def message (sid : UInt32) (type : MsgType) (frameLen : Nat) (buf : List UInt8) :
    Option InboundMsg :=
  if type = .newOrder ∧ frameLen = sizeofNewOrder then
    let m := NewOrder.ofBytes (buf.take sizeofNewOrder)
    some (.newOrder { m with hdr := { m.hdr with sessionId := sid } })
  else if type = .cancelOrder ∧ frameLen = sizeofCancelOrder then
    let m := CancelOrder.ofBytes (buf.take sizeofCancelOrder)
    some (.cancel { m with hdr := { m.hdr with sessionId := sid } })
  else none

section Message

variable {sid : UInt32} {type : MsgType} {len : Nat} {buf : List UInt8}

/-- The copies stay within the frame. -/
theorem loadMessage_eq (h : len ≤ buf.length) :
    loadMessage sid type len buf = .ok (message sid type len buf) := by
  unfold loadMessage message
  split
  · rename_i hnew
    rw [loadBytes_of_le (hnew.2 ▸ h)]
    rfl
  · split
    · rename_i hcancel
      rw [loadBytes_of_le (hcancel.2 ▸ h)]
      rfl
    · rfl

theorem message_stable (h : len ≤ buf.length) (more : List UInt8) :
    message sid type len (buf.take len ++ more) = message sid type len buf := by
  have htake : (buf.take len ++ more).take len = buf.take len := by
    rw [List.take_append_of_le_length (by rw [List.length_take_of_le h]), List.take_take,
      Nat.min_self]
  unfold message
  split
  · rename_i hnew
    rw [← hnew.2, htake]
  · split
    · rename_i hcancel
      rw [← hcancel.2, htake]
    · rfl

/-- Messages carry the id of the session. -/
theorem message_stamped {x : InboundMsg} (h : message sid type len buf = some x) :
    x.hdr.sessionId = sid := by
  unfold message at h
  split at h
  · cases h
    rfl
  · split at h
    · cases h
      rfl
    · cases h

end Message

/-- What `consume` finds at the front of its buffer. -/
def verdict (sid : UInt32) (buf : List UInt8) : Verdict InboundMsg :=
  match decode buf with
  | .needMore => .more
  | .invalid => .bad
  | .ok type len => .frame len (message sid type len buf)

theorem verdict_frame {sid : UInt32} {buf : List UInt8} {n : Nat} {x : Option InboundMsg}
    (h : verdict sid buf = .frame n x) :
    ∃ type, decode buf = .ok type n ∧ x = message sid type n buf := by
  unfold verdict at h
  split at h
  · cases h
  · cases h
  · rename_i type len hdec
    cases h
    exact ⟨type, hdec, rfl⟩

/-- The frames of a session's stream. -/
def frames (sid : UInt32) : Framer UInt8 InboundMsg where
  next := verdict sid
  pos := by
    intro buf n x h
    obtain ⟨type, hdec, -⟩ := verdict_frame h
    exact Nat.lt_of_lt_of_le (by decide) (decode_ok hdec).1
  le := by
    intro buf n x h
    obtain ⟨type, hdec, -⟩ := verdict_frame h
    exact (decode_ok hdec).2.1
  stable := by
    intro buf n x h more
    obtain ⟨type, hdec, rfl⟩ := verdict_frame h
    unfold verdict
    rw [decode_stable hdec more]
    dsimp only
    rw [message_stable (decode_ok hdec).2.1]
  bad_stable := by
    intro buf h more
    unfold verdict at h ⊢
    cases hdec : decode buf with
    | needMore => rw [hdec] at h; cases h
    | ok type len => rw [hdec] at h; cases h
    | invalid => rw [decode_invalid hdec more]

/-- `tryDecode` again and again: the messages of the frames, and whether it ends in `INVALID`. -/
def decodeAll (sid : UInt32) (bytes : List UInt8) : List InboundMsg × Bool :=
  (frames sid).readAll bytes

/-! ## One call of `consume` -/

/-- The queue takes `xs` one after the other. -/
inductive Feeds (push : σ → InboundMsg → σ × Bool) : σ → List InboundMsg → σ → Prop where
  | nil (q : σ) : Feeds push q [] q
  | cons {q q' : σ} {x : InboundMsg} {xs : List InboundMsg} (accepted : (push q x).2 = true)
      (rest : Feeds push (push q x).1 xs q') : Feeds push q (x :: xs) q'

/-- Why the loop stops before the bytes `rest`, with the queue at `q`; and the queue and `closed_`
    it leaves. -/
inductive Halts (push : σ → InboundMsg → σ × Bool) (sid : UInt32) (q : σ) (rest : List UInt8) :
    σ → Bool → Prop where
  | more (h : (frames sid).next rest = .more) : Halts push sid q rest q false
  | bad (h : (frames sid).next rest = .bad) : Halts push sid q rest q true
  | refused {n : Nat} {x : InboundMsg} (h : (frames sid).next rest = .frame n (some x))
      (full : (push q x).2 = false) : Halts push sid q rest (push q x).1 false

/-- From `buf` and `q`: the bytes `used` are taken off and their messages `xs` accepted. -/
structure Takes (push : σ → InboundMsg → σ × Bool) (sid : UInt32) (buf : List UInt8) (q : σ)
    (used : List UInt8) (xs : List InboundMsg) (rest : List UInt8) (q' : σ) (closed : Bool) :
    Prop where
  split : buf = used ++ rest
  whole : (frames sid).Whole used xs
  stamped : ∀ x ∈ xs, x.hdr.sessionId = sid
  halts : ∃ q₁, Feeds push q xs q₁ ∧ Halts push sid q₁ rest q' closed

section Consume

variable {push : σ → InboundMsg → σ × Bool} {s : Session} {q : σ}

theorem Feeds.append {q₁ q₂ : σ} {xs ys : List InboundMsg} (h : Feeds push q xs q₁)
    (h' : Feeds push q₁ ys q₂) : Feeds push q (xs ++ ys) q₂ := by
  induction h with
  | nil q => exact h'
  | cons haccepted _ ih => exact .cons haccepted (ih h')

theorem Feeds.split {q₂ : σ} {xs ys : List InboundMsg} (h : Feeds push q (xs ++ ys) q₂) :
    ∃ q₁, Feeds push q xs q₁ ∧ Feeds push q₁ ys q₂ := by
  induction xs generalizing q with
  | nil => exact ⟨q, .nil q, h⟩
  | cons x xs ih =>
    cases h with
    | cons haccepted hrest =>
      obtain ⟨q₁, hxs, hys⟩ := ih hrest
      exact ⟨q₁, .cons haccepted hxs, hys⟩

/-- The queue ends up in one state. -/
theorem Feeds.unique {q₁ q₂ : σ} {xs : List InboundMsg} (h₁ : Feeds push q xs q₁)
    (h₂ : Feeds push q xs q₂) : q₁ = q₂ := by
  induction h₁ with
  | nil q => cases h₂; rfl
  | cons _ _ ih =>
    cases h₂ with
    | cons _ hrest => exact ih hrest

theorem takes_nil {sid : UInt32} {buf : List UInt8} {q' : σ} {closed : Bool}
    (h : Halts push sid q buf q' closed) : Takes push sid buf q [] [] buf q' closed :=
  ⟨rfl, Framer.whole_nil, fun _ hx => absurd hx List.not_mem_nil, q, .nil q, h⟩

/-- One more frame in front. -/
theorem Takes.cons {sid : UInt32} {buf used rest : List UInt8} {n : Nat} {x : Option InboundMsg}
    {xs : List InboundMsg} {q₁ q' : σ} {closed : Bool}
    (hframe : (frames sid).next buf = .frame n x) (hfeed : Feeds push q x.toList q₁)
    (h : Takes push sid (buf.drop n) q₁ used xs rest q' closed) :
    Takes push sid buf q (buf.take n ++ used) (x.toList ++ xs) rest q' closed := by
  obtain ⟨q₂, hfeeds, hhalts⟩ := h.halts
  refine ⟨?_, (Framer.whole_frame hframe).append h.whole, ?_, q₂, hfeed.append hfeeds, hhalts⟩
  · rw [List.append_assoc, ← h.split, List.take_append_drop]
  · intro y hy
    obtain ⟨type, -, rfl⟩ := verdict_frame hframe
    rcases List.mem_append.mp hy with hy | hy
    · exact message_stamped (Option.mem_toList.mp hy)
    · exact h.stamped y hy

/-- What every push keeps, `consume` keeps. -/
theorem Takes.keeps {sid : UInt32} {buf used rest : List UInt8} {xs : List InboundMsg} {q' : σ}
    {closed : Bool} {J : σ → Prop} (hpush : ∀ q x, J q → J (push q x).1)
    (h : Takes push sid buf q used xs rest q' closed) (hq : J q) : J q' := by
  obtain ⟨q₁, hfeeds, hhalts⟩ := h.halts
  have hq₁ : J q₁ := by
    clear h hhalts
    induction hfeeds with
    | nil q => exact hq
    | cons _ _ ih => exact ih (hpush _ _ hq)
  cases hhalts with
  | more => exact hq₁
  | bad => exact hq₁
  | refused => exact hpush _ _ hq₁

/-- What the loop does from `consumed` on. -/
def Session.LoopTakes (push : σ → InboundMsg → σ × Bool) (s : Session) (consumed : Nat) (q : σ)
    (p : Progress σ) : Prop :=
  consumed ≤ p.consumed ∧ p.consumed ≤ s.recv.length ∧ ∃ used xs,
    Takes push s.sessionId (s.recv.drop consumed) q used xs (s.recv.drop p.consumed) p.queue
      p.closed

theorem Session.LoopTakes.halt {consumed count : Nat} {q' : σ} {closed : Bool}
    (hle : consumed ≤ s.recv.length)
    (h : Halts push s.sessionId q (s.recv.drop consumed) q' closed) :
    s.LoopTakes push consumed q ⟨q', consumed, count, closed⟩ :=
  ⟨le_refl _, hle, [], [], takes_nil h⟩

theorem Session.LoopTakes.frame {consumed n : Nat} {x : Option InboundMsg} {q₁ : σ}
    {p : Progress σ} (hframe : (frames s.sessionId).next (s.recv.drop consumed) = .frame n x)
    (hfeed : Feeds push q x.toList q₁) (h : s.LoopTakes push (consumed + n) q₁ p) :
    s.LoopTakes push consumed q p := by
  obtain ⟨hge, hle, used, xs, htakes⟩ := h
  rw [← List.drop_drop] at htakes
  exact ⟨by omega, hle, _, _, htakes.cons hframe hfeed⟩

/-- One round of the loop. -/
theorem Session.consumeLoop_succ (push : σ → InboundMsg → σ × Bool) (q : σ) (fuel count : Nat)
    {consumed : Nat} (hle : consumed ≤ s.recv.length) :
    s.consumeLoop push (fuel + 1) consumed count q =
      match decode (s.recv.drop consumed) with
      | .needMore => .ok ⟨q, consumed, count, false⟩
      | .invalid => .ok ⟨q, consumed, count, true⟩
      | .ok type len =>
        match message s.sessionId type len (s.recv.drop consumed) with
        | none => s.consumeLoop push fuel (consumed + len) (count + 1) q
        | some x =>
          if (push q x).2 then s.consumeLoop push fuel (consumed + len) (count + 1) (push q x).1
          else .ok ⟨(push q x).1, consumed, count, false⟩ := by
  conv_lhs => unfold Session.consumeLoop
  rw [if_neg (Nat.not_lt.mpr hle), tryDecode_eq]
  cases hdec : decode (s.recv.drop consumed) with
  | needMore => rfl
  | invalid => rfl
  | ok type len =>
    simp only [ok_bind, loadMessage_eq (decode_ok hdec).2.1]
    rfl

/-- The loop does not start beyond the bytes received. -/
theorem Session.consumeLoop_le {fuel consumed count : Nat} {p : Progress σ}
    (h : s.consumeLoop push (fuel + 1) consumed count q = .ok p) : consumed ≤ s.recv.length := by
  refine Nat.le_of_not_lt fun hlt => ?_
  unfold Session.consumeLoop at h
  rw [if_pos hlt] at h
  cases h

/-- More rounds than the loop makes change nothing. -/
theorem Session.consumeLoop_more {fuel fuel' consumed count : Nat} {p : Progress σ}
    (h : s.consumeLoop push fuel consumed count q = .ok p) (hle : fuel ≤ fuel') :
    s.consumeLoop push fuel' consumed count q = .ok p := by
  induction fuel generalizing fuel' consumed count q with
  | zero => cases h
  | succ fuel ih =>
    obtain ⟨fuel', rfl⟩ := Nat.exists_eq_add_one_of_ne_zero (show fuel' ≠ 0 by omega)
    have hstart := Session.consumeLoop_le h
    rw [Session.consumeLoop_succ push q _ _ hstart] at h ⊢
    split at h
    · exact h
    · exact h
    · split at h
      · exact ih h (by omega)
      · split at h
        · rename_i hpush
          rw [if_pos hpush]
          exact ih h (by omega)
        · rename_i hpush
          rw [if_neg hpush]
          exact h

/-- Every round uses at least a header, so the rounds are bounded. -/
theorem Session.consumeLoop_spec (push : σ → InboundMsg → σ × Bool) (q : σ)
    {fuel consumed : Nat} (count : Nat) (hle : consumed ≤ s.recv.length)
    (hfuel : (s.recv.length - consumed) / minFrameLen < fuel) :
    ∃ p, s.consumeLoop push fuel consumed count q = .ok p ∧ s.LoopTakes push consumed q p := by
  induction fuel generalizing consumed count q with
  | zero => exact absurd hfuel (Nat.not_lt_zero _)
  | succ fuel ih =>
    rw [Session.consumeLoop_succ push q fuel count hle]
    cases hdec : decode (s.recv.drop consumed) with
    | needMore =>
      have hmore : (frames s.sessionId).next (s.recv.drop consumed) = .more := by
        simp only [frames, verdict, hdec]
      exact ⟨_, rfl, .halt hle (.more hmore)⟩
    | invalid =>
      have hbad : (frames s.sessionId).next (s.recv.drop consumed) = .bad := by
        simp only [frames, verdict, hdec]
      exact ⟨_, rfl, .halt hle (.bad hbad)⟩
    | ok type len =>
      obtain ⟨h8, hlen, -⟩ := decode_ok hdec
      have hframe : (frames s.sessionId).next (s.recv.drop consumed) =
          .frame len (message s.sessionId type len (s.recv.drop consumed)) := by
        simp only [frames, verdict, hdec]
      rw [List.length_drop] at hlen
      have hfuel' : (s.recv.length - (consumed + len)) / minFrameLen < fuel := by
        unfold minFrameLen at hfuel ⊢
        omega
      dsimp only
      cases hmsg : message s.sessionId type len (s.recv.drop consumed) with
      | none =>
        rw [hmsg] at hframe
        obtain ⟨p, hp, htakes⟩ := ih _ _ (by omega) hfuel'
        exact ⟨p, hp, .frame hframe (.nil q) htakes⟩
      | some x =>
        rw [hmsg] at hframe
        dsimp only
        cases hpush : (push q x).2 with
        | false => exact ⟨_, rfl, .halt hle (.refused hframe hpush)⟩
        | true =>
          obtain ⟨p, hp, htakes⟩ := ih _ _ (by omega) hfuel'
          exact ⟨p, hp, .frame hframe (.cons hpush (.nil _)) htakes⟩

/-- A closed session is left alone; otherwise frames are taken off the buffer. -/
theorem Session.consume_spec (push : σ → InboundMsg → σ × Bool) (s : Session) (q : σ) :
    ∃ s' q' count, s.consume push q = .ok (s', q', count) ∧ s'.sessionId = s.sessionId ∧
      ((s.closed = true ∧ s' = s ∧ q' = q) ∨ (s.closed = false ∧ ∃ used xs,
        Takes push s.sessionId s.recv q used xs s'.recv q' s'.closed)) := by
  unfold Session.consume
  cases hclosed : s.closed with
  | true => exact ⟨s, q, 0, rfl, rfl, .inl ⟨rfl, rfl, rfl⟩⟩
  | false =>
    have hfuel : (s.recv.length - 0) / minFrameLen < s.recv.length + 1 := by
      unfold minFrameLen
      omega
    obtain ⟨p, hp, -, hle, used, xs, htakes⟩ :=
      Session.consumeLoop_spec push q 0 (Nat.zero_le _) hfuel
    refine ⟨s.advance p.consumed p.closed, p.queue, p.count, ?_, rfl, .inr ⟨rfl, used, xs, ?_⟩⟩
    · simp only [hp, ok_bind, if_neg (Nat.not_lt.mpr hle)]
      rfl
    · rw [List.drop_zero] at htakes
      exact htakes

end Consume

/-! ## Runs of a session -/

/-- The queue with the messages it has accepted. -/
def logged (push : σ → InboundMsg → σ × Bool) (q : σ × List InboundMsg) (x : InboundMsg) :
    (σ × List InboundMsg) × Bool :=
  (((push q.1 x).1, if (push q.1 x).2 then q.2 ++ [x] else q.2), (push q.1 x).2)

theorem feeds_logged {push : σ → InboundMsg → σ × Bool} {q q' : σ × List InboundMsg}
    {xs : List InboundMsg} (h : Feeds (logged push) q xs q') : q'.2 = q.2 ++ xs := by
  induction h with
  | nil q => rw [List.append_nil]
  | cons haccepted _ ih =>
    rw [ih]
    unfold logged at haccepted ⊢
    dsimp only at haccepted ⊢
    rw [if_pos haccepted, List.append_assoc, List.singleton_append]

theorem Feeds.of_logged {push : σ → InboundMsg → σ × Bool} {q q' : σ × List InboundMsg}
    {xs : List InboundMsg} (h : Feeds (logged push) q xs q') : Feeds push q.1 xs q'.1 := by
  induction h with
  | nil q => exact .nil _
  | cons haccepted _ ih => exact .cons haccepted ih

theorem halts_logged {push : σ → InboundMsg → σ × Bool} {sid : UInt32}
    {q q' : σ × List InboundMsg} {rest : List UInt8} {closed : Bool}
    (h : Halts (logged push) sid q rest q' closed) : q'.2 = q.2 := by
  cases h with
  | more => rfl
  | bad => rfl
  | refused _ hfull =>
    unfold logged at hfull ⊢
    dsimp only at hfull ⊢
    rw [hfull]
    rfl

/-- The accepted messages are those of the bytes used. -/
theorem Takes.accepted {push : σ → InboundMsg → σ × Bool} {sid : UInt32}
    {q q' : σ × List InboundMsg} {buf used rest : List UInt8} {xs : List InboundMsg}
    {closed : Bool} (h : Takes (logged push) sid buf q used xs rest q' closed) :
    q'.2 = q.2 ++ xs := by
  obtain ⟨q₁, hfeeds, hhalts⟩ := h.halts
  rw [halts_logged hhalts, feeds_logged hfeeds]

/-- A queue with room for the messages in the front part of a buffer gets them all. -/
theorem Takes.all_accepted {push : σ → InboundMsg → σ × Bool} {sid : UInt32} {q q₁ : σ}
    {q' : σ × List InboundMsg} {buf more used rest : List UInt8} {msgs : List InboundMsg}
    {closed : Bool}
    (h : Takes (logged push) sid (buf ++ more) (q, []) used msgs rest q' closed)
    (hroom : Feeds push q (decodeAll sid buf).1 q₁) : (decodeAll sid buf).1 <+: msgs := by
  have hall : (decodeAll sid buf).1 <+: msgs ++ (decodeAll sid rest).1 := by
    have hmono := (frames sid).readAll_mono buf more
    rw [h.split, h.whole] at hmono
    exact hmono
  obtain ⟨q₂, hfeeds, hhalts⟩ := h.halts
  cases hhalts with
  | more hmore =>
    unfold decodeAll at hall ⊢
    rwa [Framer.readAll_more hmore, List.append_nil] at hall
  | bad hbad =>
    unfold decodeAll at hall ⊢
    rwa [Framer.readAll_bad hbad, List.append_nil] at hall
  | @refused n x hframe hfull =>
    have hrest : (decodeAll sid rest).1 = x :: ((frames sid).readAll (rest.drop n)).1 := by
      unfold decodeAll
      rw [Framer.readAll_frame hframe]
      rfl
    rw [hrest] at hall
    rcases Nat.lt_or_ge msgs.length (decodeAll sid buf).1.length with hlt | hge
    · -- the refused message would be one of those there is room for
      have hpre : msgs ++ [x] <+: (decodeAll sid buf).1 :=
        List.prefix_of_prefix_length_le ⟨_, by rw [List.append_assoc]; rfl⟩ hall
          (by rw [List.length_append]; exact hlt)
      obtain ⟨more, hmore⟩ := hpre
      rw [← hmore, List.append_assoc] at hroom
      obtain ⟨q₃, hmsgs, hx⟩ := hroom.split
      obtain rfl := hmsgs.unique hfeeds.of_logged
      cases hx with
      | cons haccepted _ => exact absurd (haccepted.symm.trans hfull) (by decide)
    · exact List.prefix_of_prefix_length_le hall (List.prefix_append _ _) hge

theorem Takes.closed {push : σ → InboundMsg → σ × Bool} {sid : UInt32} {q q' : σ}
    {buf used rest : List UInt8} {xs : List InboundMsg}
    (h : Takes push sid buf q used xs rest q' true) : (frames sid).next rest = .bad := by
  obtain ⟨q₁, -, hhalts⟩ := h.halts
  cases hhalts with
  | bad h => exact h

/-- A call on a session. -/
inductive Call where
  | append (data : List UInt8)
  | consume

/-- A session and its queue, with the bytes that were stored and the messages accepted. -/
structure Stream (σ : Type) where
  session : Session
  queue : σ
  stored : List UInt8
  accepted : List InboundMsg

def Stream.init (sid : UInt32) (q : σ) : Stream σ := ⟨Session.init sid, q, [], []⟩

def Stream.step (push : σ → InboundMsg → σ × Bool) (st : Stream σ) :
    Call → Except Fault (Stream σ)
  | .append data => .ok
    { st with
      session := st.session.append data
      stored := st.stored ++ data.take st.session.space }
  | .consume => do
    let (session, q, _) ← st.session.consume (logged push) (st.queue, st.accepted)
    return { st with session := session, queue := q.1, accepted := q.2 }

/-- The bytes stored are those of the accepted messages and the buffer. -/
structure StreamInv (sid : UInt32) (st : Stream σ) : Prop where
  id : st.session.sessionId = sid
  split : ∃ used, st.stored = used ++ st.session.recv ∧ (frames sid).Whole used st.accepted
  closed : st.session.closed = true → (frames sid).next st.session.recv = .bad

section Stream

variable {push : σ → InboundMsg → σ × Bool} {sid : UInt32} {st : Stream σ}

theorem streamInv_init (sid : UInt32) (q : σ) : StreamInv sid (Stream.init sid q) where
  id := rfl
  split := ⟨[], rfl, Framer.whole_nil⟩
  closed := nofun

theorem StreamInv.step (h : StreamInv sid st) (call : Call) :
    ∃ st', st.step push call = .ok st' ∧ StreamInv sid st' := by
  obtain ⟨used, hsplit, hwhole⟩ := h.split
  cases call with
  | append data =>
    refine ⟨_, rfl, h.id, ⟨used, ?_, hwhole⟩, fun hclosed => ?_⟩
    · rw [hsplit, List.append_assoc]
      rfl
    · exact (frames sid).bad_stable (h.closed hclosed) _
  | consume =>
    obtain ⟨s', q', count, heq, hid, ⟨hclosed, rfl, rfl⟩ | ⟨-, used', xs, htakes⟩⟩ :=
      st.session.consume_spec (logged push) (st.queue, st.accepted)
    · refine ⟨st, ?_, h⟩
      unfold Stream.step
      rw [heq]
      rfl
    · refine ⟨{ st with session := s', queue := q'.1, accepted := q'.2 }, ?_, ?_⟩
      · unfold Stream.step
        rw [heq]
        rfl
      · rw [h.id] at hid htakes
        refine ⟨hid, ⟨used ++ used', ?_, ?_⟩, fun hclosed => ?_⟩
        · rw [List.append_assoc, ← htakes.split]
          exact hsplit
        · dsimp only
          rw [htakes.accepted]
          exact hwhole.append htakes.whole
        · rw [show s'.closed = true from hclosed] at htakes
          exact htakes.closed

/-- A closed session, its queue at `q`. -/
def Stream.Shut (st : Stream σ) (q : σ) (accepted : List InboundMsg) : Prop :=
  st.session.closed = true ∧ st.queue = q ∧ st.accepted = accepted

/-- Once closed, nothing is pushed. -/
theorem Stream.Shut.step {q : σ} {accepted : List InboundMsg} (h : st.Shut q accepted)
    (push : σ → InboundMsg → σ × Bool) (call : Call) :
    ∃ st', st.step push call = .ok st' ∧ st'.Shut q accepted := by
  cases call with
  | append data => exact ⟨_, rfl, h⟩
  | consume =>
    refine ⟨st, ?_, h⟩
    unfold Stream.step Session.consume
    rw [if_pos h.1]
    rfl

end Stream

/-- The session takes the stream apart as decoding all of it at once does, whatever the chunks and
    the answers of the queue; it closes only on a stream that ends in no frame, and pushes nothing
    from then on. -/
theorem session_framing (push : σ → InboundMsg → σ × Bool) (sid : UInt32) (q : σ)
    (calls : List Call) :
    ∃ st, run (Stream.step push) (Stream.init sid q) calls = .ok st ∧
      st.accepted ++ (decodeAll sid st.session.recv).1 = (decodeAll sid st.stored).1 ∧
      (st.session.closed = true → (decodeAll sid st.stored).2 = true ∧ ∀ later,
        ∃ st', run (Stream.step push) st later = .ok st' ∧ st'.queue = st.queue ∧
          st'.accepted = st.accepted) := by
  obtain ⟨st, hrun, hinv⟩ := run_keeps (fun st call (h : StreamInv sid st) => h.step call)
    (streamInv_init sid q) calls
  obtain ⟨used, hsplit, hwhole⟩ := hinv.split
  refine ⟨st, hrun, ?_, fun hclosed => ⟨?_, fun later => ?_⟩⟩
  · unfold decodeAll
    rw [hsplit, hwhole]
  · unfold decodeAll
    rw [hsplit, hwhole, Framer.readAll_bad (hinv.closed hclosed)]
  · obtain ⟨st', hrun', hshut⟩ := run_keeps
      (fun _ call (h : Stream.Shut _ _ _) => h.step push call) ⟨hclosed, rfl, rfl⟩ later
    exact ⟨st', hrun', hshut.2⟩

end LiteExchange.Net
