/-
  The io_uring reactor (`net/uring_gateway.hpp`). Sends are prepared as entries of the submission
  queue that point into a pool of slots; when no slot is free a message is sent at once instead.

  The kernel takes the entries when they are submitted, or, on a ring with `sqpoll`, lets a thread
  take them some time later. It looks the descriptor of an entry up when it takes it. A send that
  was taken is executed some time later, with the frame that stands in the slot by then, and may
  send a part of it only. The reactor looks neither at the result of an entry nor at that of a
  `send`.

  * `UringGateway.out_cases`, `UringGateway.handleCqe_spec`, `UringGateway.kernel_cases`: what a
    message popped, a completion and the kernel can do.
  * `Slots`: every slot is either on the free list, or in one entry, or in one completion that is
    still to be handled. So no entry's frame is overwritten.
-/
import LiteExchange.Net.Connections

namespace LiteExchange.Net

open Lib Proto

variable {σ : Type}

/-! ## The code -/

/-- `RING_DEPTH`. -/
def ringDepth : Nat := 2048

/-- `SEND_SLOTS`. -/
def sendSlots : Nat := 512

/-- An entry of the submission queue. -/
inductive Sqe where
  | accept
  | recv (fd : Nat)
  | send (fd slot len : Nat)

/-- A send the kernel has taken, with the connection it is for. -/
structure Entry where
  conn : Option Nat
  slot : Nat
  len : Nat

/-- The tables, the shard, whether the ring was set up with `sqpoll`, the pool of slots and the
    entries still to be taken; and in the kernel the sends that wait and the slots of those executed
    whose completions are still to be handled. -/
structure UringGateway (σ : Type) extends Host where
  shard : σ
  sqpoll : Bool
  freeSlots : Nat → Nat
  freeTop : Nat
  sendPool : Nat → OutboundMsg
  sq : List Sqe
  inflight : List Entry
  done : List Nat

/-- `send_pool_` starts zeroed, `OutboundMsg{}`. -/
def UringGateway.init (q : σ) (sqpoll : Bool) : UringGateway σ where
  toHost := Host.init
  shard := q
  sqpoll := sqpoll
  freeSlots := fun i => i
  freeTop := sendSlots
  sendPool := fun _ => .ack ⟨⟨0, .ack, 0, 0⟩, 0, 0⟩
  sq := []
  inflight := []
  done := []

/-- What the kernel makes of an entry when it takes it. -/
def Sqe.entry (w : Wire) : Sqe → Option Entry
  | .send fd slot len => some ⟨w.onFd fd, slot, len⟩
  | _ => none

/-- The kernel takes the first `n` entries. -/
def UringGateway.take (u : UringGateway σ) (n : Nat) : UringGateway σ :=
  { u with
    sq := u.sq.drop n
    inflight := u.inflight ++ (u.sq.take n).filterMap (Sqe.entry u.wire) }

/-- `io_uring_submit`. With `sqpoll` it only tells the thread that there are entries. -/
def UringGateway.submit (u : UringGateway σ) : UringGateway σ :=
  if u.sqpoll then u else u.take u.sq.length

/-- The loop of `get_sqe()`. With `sqpoll` it ends when the thread has taken an entry. -/
def UringGateway.makeRoom (u : UringGateway σ) : UringGateway σ :=
  if u.sq.length < ringDepth then u
  else if u.sqpoll then u.take 1
  else u.submit

/-- `get_sqe()` and the preparation of the entry. -/
def UringGateway.prep (u : UringGateway σ) (sqe : Sqe) : UringGateway σ :=
  { u.makeRoom with sq := u.makeRoom.sq ++ [sqe] }

/-- `alloc_send_slot()`. -/
def UringGateway.allocSendSlot (u : UringGateway σ) :
    Except Fault (UringGateway σ × Option Nat) := do
  if u.freeTop = 0 then
    return (u, none)
  let slot ← fetch sendSlots u.freeSlots (u.freeTop - 1)
  return ({ u with freeTop := u.freeTop - 1 }, some slot)

/-- `free_send_slot(slot)`. -/
def UringGateway.freeSendSlot (u : UringGateway σ) (slot : Nat) :
    Except Fault (UringGateway σ) := do
  let freeSlots ← store sendSlots u.freeSlots u.freeTop slot
  return { u with freeSlots := freeSlots, freeTop := u.freeTop + 1 }

/-- The body of `drain_outbound` for a message that was popped. A `send` at the call, if there is
    one, takes `n` bytes. -/
def UringGateway.out (u : UringGateway σ) (m : OutboundMsg) (n : Nat) :
    Except Fault (UringGateway σ) :=
  let u := { u with wire := u.wire.pop m }
  match u.conns.sidToFd m.hdr.sessionId with
  | none => .ok u
  | some fd => do
    match ← u.allocSendSlot with
    | (u, none) => return { u with wire := u.wire.send fd (m.frame.take n) }
    | (u, some slot) =>
      let sendPool ← store sendSlots u.sendPool slot m
      return { u with sendPool := sendPool }.prep (.send fd slot m.hdr.len.toNat)

/-- A completion: of the accept, with the descriptor if it succeeded and whether more will follow;
    of a recv, with the chunk unless the peer has closed or there was an error; of a send. -/
inductive Cqe where
  | accept (fd : Option Nat) (more : Bool)
  | recv (fd : Nat) (chunk : Option Chunk)
  | send (slot : Nat)

/-- `on_accept(cqe)`. -/
def UringGateway.onAccept (u : UringGateway σ) (fd : Option Nat) (more : Bool) :
    UringGateway σ :=
  let u := match fd with
    | none => u
    | some fd => { u with toHost := u.toHost.accept fd }.prep (.recv fd)
  if more then u else u.prep .accept

/-- `close_conn(fd)`. -/
def UringGateway.closeConn (u : UringGateway σ) (fd : Nat) : UringGateway σ :=
  { u with toHost := u.toHost.close fd }

/-- `on_recv(fd, res)`. -/
def UringGateway.onRecv (push : σ → InboundMsg → σ × Bool) (u : UringGateway σ) (fd : Nat)
    (chunk : Option Chunk) : Except Fault (UringGateway σ) :=
  match u.conns.sessions fd, chunk with
  | none, _ => .ok u
  | some _, none => .ok (u.closeConn fd)
  | some _, some chunk => do
    let (h, q) ← u.toHost.read push fd chunk.bytes u.shard
    let u := { u with toHost := h, shard := q }
    if (u.conns.sessions fd).any Session.closed then
      return u.closeConn fd
    return u.prep (.recv fd)

/-- `handle_cqe(cqe)`. -/
def UringGateway.handleCqe (push : σ → InboundMsg → σ × Bool) (u : UringGateway σ) :
    Cqe → Except Fault (UringGateway σ)
  | .accept fd more => .ok (u.onAccept fd more)
  | .recv fd chunk => u.onRecv push fd chunk
  | .send slot => { u with done := u.done.erase slot }.freeSendSlot slot

/-! ## The kernel -/

/-- The frame of an entry. -/
def UringGateway.frame (u : UringGateway σ) (e : Entry) : List UInt8 :=
  (u.sendPool e.slot).member.take e.len

/-- A connection gets bytes. -/
def Wire.give (w : Wire) (k : Nat) (bytes : List UInt8) : Wire :=
  { w with peer := Function.update w.peer k { w.peer k with got := (w.peer k).got ++ [bytes] } }

/-- The kernel executes the `i`-th send that waits, which takes `n` bytes. -/
def UringGateway.exec (u : UringGateway σ) (i n : Nat) : UringGateway σ :=
  match u.inflight[i]? with
  | none => u
  | some e =>
    { u with
      wire := match e.conn with
        | none => u.wire
        | some k => u.wire.give k ((u.frame e).take n)
      inflight := u.inflight.eraseIdx i
      done := u.done ++ [e.slot] }

/-- What the kernel does by itself: its thread takes entries, or a send is executed. -/
inductive KernelAct where
  | take (n : Nat)
  | exec (i n : Nat)

def UringGateway.kernel (u : UringGateway σ) : KernelAct → UringGateway σ
  | .take n => if u.sqpoll then u.take n else u
  | .exec i n => u.exec i n

/-- A message popped by `drain_outbound`, with what a `send` at the call takes; the submission after
    it; a completion; or the kernel does something. -/
inductive UringAct where
  | out (m : OutboundMsg) (n : Nat)
  | submit
  | cqe (c : Cqe)
  | kernel (a : KernelAct)

def UringGateway.step (push : σ → InboundMsg → σ × Bool) (u : UringGateway σ) :
    UringAct → Except Fault (UringGateway σ)
  | .out m n => u.out m n
  | .submit => .ok u.submit
  | .cqe c => u.handleCqe push c
  | .kernel a => .ok (u.kernel a)

/-- What happens in one turn: the messages the ring delivers, each with what a `send` of it would
    take, and the completions; and what the kernel does after each of them and after the
    submission. -/
structure UringPoll where
  outs : List ((OutboundMsg × Nat) × List KernelAct)
  submitted : List KernelAct
  cqes : List (Cqe × List KernelAct)

def UringPoll.acts (p : UringPoll) : List UringAct :=
  (p.outs.flatMap fun x => .out x.1.1 x.1.2 :: x.2.map .kernel) ++
    (.submit :: (p.submitted.map .kernel ++
      p.cqes.flatMap fun x => .cqe x.1 :: x.2.map .kernel))

/-- `poll_once(timeout_ms)`. -/
def UringGateway.pollOnce (push : σ → InboundMsg → σ × Bool) (u : UringGateway σ)
    (p : UringPoll) : Except Fault (UringGateway σ) :=
  run (UringGateway.step push) u p.acts

/-- `accept` returns descriptors that are not open, and a send is completed once, after it was
    executed. -/
def UringGateway.KernelOk (u : UringGateway σ) : UringAct → Prop
  | .cqe (.accept fd _) => ∀ fd' ∈ fd, u.wire.onFd fd' = none
  | .cqe (.send slot) => slot ∈ u.done
  | _ => True

instance UringGateway.decidableKernelOk (u : UringGateway σ) : ∀ act, Decidable (u.KernelOk act)
  | .cqe (.accept fd _) => inferInstanceAs (Decidable (∀ fd' ∈ fd, u.wire.onFd fd' = none))
  | .cqe (.send slot) => inferInstanceAs (Decidable (slot ∈ u.done))
  | .cqe (.recv _ _) => isTrue trivial
  | .out _ _ => isTrue trivial
  | .submit => isTrue trivial
  | .kernel _ => isTrue trivial

/-- The descriptor of a send leads to a connection. -/
def Sqe.Open (w : Wire) : Sqe → Prop
  | .send fd _ _ => w.onFd fd ≠ none
  | _ => True

instance Sqe.decidableOpen (w : Wire) : ∀ sqe : Sqe, Decidable (sqe.Open w)
  | .send fd _ _ => inferInstanceAs (Decidable (w.onFd fd ≠ none))
  | .accept => isTrue trivial
  | .recv _ => isTrue trivial

/-- No descriptor is closed while a send on it is still to be taken. -/
def UringGateway.InTime (push : σ → InboundMsg → σ × Bool) (u : UringGateway σ) : UringAct → Prop
  | .cqe c => ∀ u' ∈ (u.handleCqe push c).toOption, ∀ sqe ∈ u.sq, sqe.Open u'.wire
  | _ => True

instance UringGateway.decidableInTime (push : σ → InboundMsg → σ × Bool) (u : UringGateway σ) :
    ∀ act, Decidable (u.InTime push act)
  | .cqe c => inferInstanceAs
      (Decidable (∀ u' ∈ (u.handleCqe push c).toOption, ∀ sqe ∈ u.sq, sqe.Open u'.wire))
  | .out _ _ => isTrue trivial
  | .submit => isTrue trivial
  | .kernel _ => isTrue trivial

/-! ## The sends that wait -/

section Queued

variable {u u' : UringGateway σ} {w : Wire}

/-- The sends to be executed, with the connections their descriptors lead to. -/
def UringGateway.queuedOn (u : UringGateway σ) (w : Wire) : List Entry :=
  u.inflight ++ u.sq.filterMap (Sqe.entry w)

def UringGateway.queued (u : UringGateway σ) : List Entry := u.queuedOn u.wire

/-- The slot of an entry. -/
def Sqe.slot : Sqe → Option Nat
  | .send _ slot _ => some slot
  | _ => none

/-- The slots that wait do not depend on the connections. -/
theorem UringGateway.queuedOn_slots (u : UringGateway σ) (w : Wire) :
    (u.queuedOn w).map Entry.slot = u.inflight.map Entry.slot ++ u.sq.filterMap Sqe.slot := by
  unfold UringGateway.queuedOn
  rw [List.map_append, List.map_filterMap]
  congr 1
  refine List.filterMap_congr fun sqe _ => ?_
  cases sqe <;> rfl

theorem UringGateway.take_queued (u : UringGateway σ) (n : Nat) : (u.take n).queued = u.queued := by
  change u.inflight ++ (u.sq.take n).filterMap (Sqe.entry u.wire) ++
    (u.sq.drop n).filterMap (Sqe.entry u.wire) = _
  rw [List.append_assoc, ← List.filterMap_append, List.take_append_drop]
  rfl

theorem UringGateway.submit_queued (u : UringGateway σ) : u.submit.queued = u.queued := by
  unfold UringGateway.submit
  split
  · rfl
  · exact u.take_queued _

/-- The kernel takes entries. -/
structure SameButQueue (u u' : UringGateway σ) : Prop where
  toHost : u'.toHost = u.toHost
  shard : u'.shard = u.shard
  sqpoll : u'.sqpoll = u.sqpoll
  freeSlots : u'.freeSlots = u.freeSlots
  freeTop : u'.freeTop = u.freeTop
  sendPool : u'.sendPool = u.sendPool
  done : u'.done = u.done

theorem SameButQueue.refl (u : UringGateway σ) : SameButQueue u u :=
  ⟨rfl, rfl, rfl, rfl, rfl, rfl, rfl⟩

theorem UringGateway.take_same (u : UringGateway σ) (n : Nat) : SameButQueue u (u.take n) :=
  ⟨rfl, rfl, rfl, rfl, rfl, rfl, rfl⟩

theorem UringGateway.submit_same (u : UringGateway σ) : SameButQueue u u.submit := by
  unfold UringGateway.submit
  split
  · exact .refl u
  · exact u.take_same _

theorem UringGateway.makeRoom_spec (u : UringGateway σ) :
    SameButQueue u u.makeRoom ∧ u.makeRoom.queued = u.queued := by
  unfold UringGateway.makeRoom
  split
  · exact ⟨.refl u, rfl⟩
  · split
    · exact ⟨u.take_same 1, u.take_queued 1⟩
    · exact ⟨u.submit_same, u.submit_queued⟩

/-- Preparing an entry changes the queue only. -/
theorem UringGateway.prep_same (u : UringGateway σ) (sqe : Sqe) : SameButQueue u (u.prep sqe) := by
  obtain ⟨hsame, -⟩ := u.makeRoom_spec
  exact ⟨hsame.toHost, hsame.shard, hsame.sqpoll, hsame.freeSlots, hsame.freeTop, hsame.sendPool,
    hsame.done⟩

theorem UringGateway.prep_queued (u : UringGateway σ) (sqe : Sqe) :
    (u.prep sqe).queued = u.queued ++ (sqe.entry u.wire).toList := by
  obtain ⟨hsame, hqueued⟩ := u.makeRoom_spec
  have hone : [sqe].filterMap (Sqe.entry u.wire) = (sqe.entry u.wire).toList := by
    cases h : sqe.entry u.wire with
    | none => rw [List.filterMap_cons_none h]; rfl
    | some e => rw [List.filterMap_cons_some h]; rfl
  have hwire : u.makeRoom.wire = u.wire := by rw [hsame.toHost]
  rw [← hqueued, ← hone, ← hwire]
  change u.makeRoom.inflight ++ (u.makeRoom.sq ++ [sqe]).filterMap (Sqe.entry u.makeRoom.wire) = _
  rw [List.filterMap_append, ← List.append_assoc]
  rfl

/-- Nothing changes for the sends but where descriptors lead. -/
structure SameSends (u u' : UringGateway σ) : Prop where
  sqpoll : u'.sqpoll = u.sqpoll
  freeSlots : u'.freeSlots = u.freeSlots
  freeTop : u'.freeTop = u.freeTop
  sendPool : u'.sendPool = u.sendPool
  done : u'.done = u.done
  queued : u'.queued = u.queuedOn u'.wire

theorem sameSends_host (u : UringGateway σ) (h : Host) (q : σ) :
    SameSends u { u with toHost := h, shard := q } := ⟨rfl, rfl, rfl, rfl, rfl, rfl⟩

theorem SameSends.refl (u : UringGateway σ) : SameSends u u := sameSends_host u u.toHost u.shard

theorem SameSends.prep (hs : SameSends u u') {sqe : Sqe} (hsqe : ∀ w, sqe.entry w = none) :
    SameSends u (u'.prep sqe) := by
  have hsame := u'.prep_same sqe
  refine ⟨hsame.sqpoll.trans hs.sqpoll, hsame.freeSlots.trans hs.freeSlots,
    hsame.freeTop.trans hs.freeTop, hsame.sendPool.trans hs.sendPool, hsame.done.trans hs.done, ?_⟩
  rw [UringGateway.prep_queued, hsqe, Option.toList_none, List.append_nil, hs.queued, hsame.toHost]

theorem SameSends.slots_eq (hs : SameSends u u') :
    u'.queued.map Entry.slot = u.queued.map Entry.slot := by
  rw [hs.queued, UringGateway.queuedOn_slots]
  exact (u.queuedOn_slots u.wire).symm

end Queued

/-! ## Completions of accepts and recvs -/

section Cqe

variable {push : σ → InboundMsg → σ × Bool} {u : UringGateway σ}

theorem UringGateway.onAccept_spec (u : UringGateway σ) (fd : Option Nat) (more : Bool) :
    SameSends u (u.onAccept fd more) ∧ (u.onAccept fd more).shard = u.shard ∧
      ((u.onAccept fd more).toHost = u.toHost ∨
        ∃ fd', fd = some fd' ∧ (u.onAccept fd more).toHost = u.toHost.accept fd') := by
  unfold UringGateway.onAccept
  cases fd with
  | none =>
    have hsame := SameSends.refl u
    have hprep := u.prep_same .accept
    cases more with
    | true => exact ⟨hsame, rfl, .inl rfl⟩
    | false => exact ⟨hsame.prep fun _ => rfl, hprep.shard, .inl hprep.toHost⟩
  | some fd' =>
    have hsame : SameSends u ({ u with toHost := u.toHost.accept fd' }.prep (.recv fd')) :=
      (sameSends_host u (u.toHost.accept fd') u.shard).prep fun _ => rfl
    have hrecv := UringGateway.prep_same { u with toHost := u.toHost.accept fd' } (.recv fd')
    cases more with
    | true => exact ⟨hsame, hrecv.shard, .inr ⟨fd', rfl, hrecv.toHost⟩⟩
    | false =>
      have hprep := UringGateway.prep_same
        ({ u with toHost := u.toHost.accept fd' }.prep (.recv fd')) .accept
      exact ⟨hsame.prep fun _ => rfl, hprep.shard.trans hrecv.shard,
        .inr ⟨fd', rfl, hprep.toHost.trans hrecv.toHost⟩⟩

/-- A recv reads the chunk, and perhaps closes. -/
theorem UringGateway.onRecv_spec (push : σ → InboundMsg → σ × Bool) (u : UringGateway σ) (fd : Nat)
    (chunk : Option Chunk) : ∃ u', u.onRecv push fd chunk = .ok u' ∧ SameSends u u' ∧
      ((u'.shard = u.shard ∧ (u'.toHost = u.toHost ∨ u'.toHost = u.toHost.close fd)) ∨
        ∃ c h, chunk = some c ∧ u.toHost.read push fd c.bytes u.shard = .ok (h, u'.shard) ∧
          (u'.toHost = h ∨ u'.toHost = h.close fd)) := by
  unfold UringGateway.onRecv
  split
  · exact ⟨u, rfl, .refl u, .inl ⟨rfl, .inl rfl⟩⟩
  · exact ⟨_, rfl, sameSends_host u (u.toHost.close fd) u.shard, .inl ⟨rfl, .inr rfl⟩⟩
  · rename_i c hs
    obtain ⟨h, q, heq⟩ := u.toHost.read_ok push fd c.bytes u.shard
    rw [heq, ok_bind]
    dsimp only
    split
    · exact ⟨_, rfl, sameSends_host u (h.close fd) q, .inr ⟨c, h, rfl, heq, .inr rfl⟩⟩
    · have hprep := UringGateway.prep_same { u with toHost := h, shard := q } (.recv fd)
      exact ⟨_, rfl, (sameSends_host u h q).prep fun _ => rfl,
        .inr ⟨c, h, rfl, heq.trans (by rw [hprep.shard]), .inl hprep.toHost⟩⟩

/-- What accepts, reads and closes keep, a completion that is not of a send keeps. -/
theorem UringGateway.handleCqe_spec (push : σ → InboundMsg → σ × Bool) {c : Cqe}
    (hc : ∀ slot, c ≠ .send slot) (hk : u.KernelOk (.cqe c)) :
    ∃ u', u.handleCqe push c = .ok u' ∧ SameSends u u' ∧ ∀ I : Host → σ → Prop,
      I u.toHost u.shard → (∀ fd, u.wire.onFd fd = none → I (u.toHost.accept fd) u.shard) →
      (∀ fd chunk h q, c = .recv fd (some chunk) →
        u.toHost.read push fd chunk.bytes u.shard = .ok (h, q) → I h q) →
      (∀ h q fd, I h q → I (h.close fd) q) → I u'.toHost u'.shard := by
  cases c with
  | send slot => exact absurd rfl (hc slot)
  | accept fd more =>
    obtain ⟨hsame, hshard, hhost⟩ := u.onAccept_spec fd more
    refine ⟨_, rfl, hsame, fun I hI haccept _ _ => ?_⟩
    rw [hshard]
    obtain hhost | ⟨fd', rfl, hhost⟩ := hhost
    · rw [hhost]
      exact hI
    · rw [hhost]
      exact haccept fd' (hk fd' rfl)
  | recv fd chunk =>
    obtain ⟨u', heq, hsame, hcase⟩ := UringGateway.onRecv_spec push u fd chunk
    refine ⟨u', heq, hsame, fun I hI _ hread hclose => ?_⟩
    -- what was there before, or what was read, is kept or closed
    have hends : ∀ h, I h u'.shard → u'.toHost = h ∨ u'.toHost = h.close fd →
        I u'.toHost u'.shard := by
      rintro h hIh (hhost | hhost)
      · rw [hhost]
        exact hIh
      · rw [hhost]
        exact hclose h _ fd hIh
    obtain ⟨hshard, hhost⟩ | ⟨c, h, rfl, hreads, hhost⟩ := hcase
    · exact hends u.toHost (hshard ▸ hI) hhost
    · exact hends h (hread fd c h _ rfl hreads) hhost

end Cqe

/-! ## The pool -/

section Slots

variable {u u' : UringGateway σ} {fd : Nat} {m : OutboundMsg} {n : Nat}

/-- Each slot is in one place. -/
def Slots (u : UringGateway σ) : Prop :=
  ((List.range u.freeTop).map u.freeSlots ++ (u.queued.map Entry.slot ++ u.done)).Perm
    (List.range sendSlots)

theorem slots_init (q : σ) (sqpoll : Bool) : Slots (UringGateway.init q sqpoll) := by
  unfold Slots
  show ((List.range sendSlots).map (fun i => i) ++ []).Perm _
  rw [List.map_id', List.append_nil]

/-- The next free slot exists, and no entry uses it. -/
theorem Slots.next (hs : Slots u) {top : Nat} (htop : u.freeTop = top + 1) :
    top < sendSlots ∧ u.freeSlots top < sendSlots ∧ ∀ e ∈ u.queued, e.slot ≠ u.freeSlots top := by
  have hlen := hs.length_eq
  have hmem : u.freeSlots top ∈ (List.range u.freeTop).map u.freeSlots :=
    List.mem_map_of_mem (List.mem_range.mpr (by omega))
  have hnd := hs.nodup_iff.mpr List.nodup_range
  simp only [List.length_append, List.length_map, List.length_range] at hlen
  refine ⟨by omega, ?_, fun e he heq => ?_⟩
  · exact List.mem_range.mp (hs.subset (List.mem_append_left _ hmem))
  · have he' : e.slot ∈ u.queued.map Entry.slot ++ u.done :=
      List.mem_append_left _ (List.mem_map_of_mem he)
    exact List.disjoint_of_nodup_append hnd hmem (heq ▸ he')

/-- A message has been put into a slot and its send prepared. -/
structure Prepared (u : UringGateway σ) (fd : Nat) (m : OutboundMsg) (u' : UringGateway σ) :
    Prop where
  toHost : u'.toHost = ⟨u.conns, u.wire.pop m⟩
  shard : u'.shard = u.shard
  sqpoll : u'.sqpoll = u.sqpoll
  freeSlots : u'.freeSlots = u.freeSlots
  freeTop : u.freeTop = u'.freeTop + 1
  sendPool : u'.sendPool = Function.update u.sendPool (u.freeSlots u'.freeTop) m
  done : u'.done = u.done
  queued : u'.queued =
    u.queued ++ [⟨u.wire.onFd fd, u.freeSlots u'.freeTop, m.hdr.len.toNat⟩]

theorem UringGateway.prepared_of_store {sendPool : Nat → OutboundMsg} {top : Nat}
    (htop : u.freeTop = top + 1)
    (hstore : sendPool = Function.update u.sendPool (u.freeSlots top) m) :
    Prepared u fd m
      (({ u with wire := u.wire.pop m, freeTop := top, sendPool := sendPool }).prep
        (.send fd (u.freeSlots top) m.hdr.len.toNat)) := by
  have hsame := UringGateway.prep_same
    { u with wire := u.wire.pop m, freeTop := top, sendPool := sendPool }
    (.send fd (u.freeSlots top) m.hdr.len.toNat)
  refine ⟨hsame.toHost, hsame.shard, hsame.sqpoll, hsame.freeSlots, ?_, ?_, hsame.done, ?_⟩
  · rw [hsame.freeTop, htop]
  · rw [hsame.freeTop, hsame.sendPool]
    exact hstore
  · rw [hsame.freeTop]
    exact UringGateway.prep_queued _ _

/-- A message popped is dropped, or sent at once if no slot is free, or prepared. -/
theorem UringGateway.out_cases (hout : u.out m n = .ok u') :
    (u.conns.sidToFd m.hdr.sessionId = none ∧ u' = { u with wire := u.wire.pop m }) ∨
      ∃ fd, u.conns.sidToFd m.hdr.sessionId = some fd ∧
        ((u.freeTop = 0 ∧ u' = { u with wire := (u.wire.pop m).send fd (m.frame.take n) }) ∨
          Prepared u fd m u') := by
  unfold UringGateway.out at hout
  dsimp only at hout
  split at hout
  · rename_i hroute
    cases hout
    exact .inl ⟨hroute, rfl⟩
  · rename_i fd hroute
    refine .inr ⟨fd, hroute, ?_⟩
    obtain ⟨⟨u₁, slot⟩, halloc, hout⟩ := bind_eq_ok hout
    unfold UringGateway.allocSendSlot at halloc
    split at halloc
    · rename_i hfull
      cases halloc
      cases hout
      exact .inl ⟨hfull, rfl⟩
    · rename_i hfree
      obtain ⟨slot', hfetch, hret⟩ := bind_eq_ok halloc
      cases hret
      obtain ⟨sendPool, hstore, hret⟩ := bind_eq_ok hout
      cases hret
      obtain ⟨-, rfl⟩ := fetch_eq_ok hfetch
      exact .inr (UringGateway.prepared_of_store (Nat.succ_pred hfree).symm
        (store_eq_ok hstore).2.symm)

theorem Slots.out_ok (hs : Slots u) (m : OutboundMsg) (n : Nat) : ∃ u', u.out m n = .ok u' := by
  unfold UringGateway.out
  dsimp only
  cases u.conns.sidToFd m.hdr.sessionId with
  | none => exact ⟨_, rfl⟩
  | some fd =>
    dsimp only [UringGateway.allocSendSlot]
    cases htop : u.freeTop with
    | zero => exact ⟨_, rfl⟩
    | succ top =>
      obtain ⟨hlt, hslot, -⟩ := hs.next htop
      rw [if_neg (Nat.succ_ne_zero top), Nat.add_sub_cancel, fetch_of_lt _ hlt, ok_bind]
      dsimp only [pure, Except.pure]
      rw [ok_bind]
      dsimp only
      rw [store_of_lt _ _ hslot, ok_bind]
      exact ⟨_, rfl⟩

theorem Slots.prepared (hs : Slots u) (hp : Prepared u fd m u') : Slots u' := by
  unfold Slots at hs ⊢
  rw [hp.freeTop, List.range_succ, List.map_append, List.append_assoc] at hs
  rw [hp.freeSlots, hp.queued, hp.done, List.map_append]
  refine List.Perm.trans ?_ hs
  -- the slot moves from the end of the free list to the end of the queue
  refine List.Perm.append_left _ ?_
  rw [List.append_assoc]
  exact List.perm_middle

/-- The kernel has executed the `i`-th entry, which took `n` bytes. -/
structure Executed (u : UringGateway σ) (i n : Nat) (e : Entry) (u' : UringGateway σ) : Prop where
  waited : u.inflight[i]? = some e
  conns : u'.conns = u.conns
  shard : u'.shard = u.shard
  wire : u'.wire = match e.conn with
    | none => u.wire
    | some k => u.wire.give k ((u.frame e).take n)
  sqpoll : u'.sqpoll = u.sqpoll
  freeSlots : u'.freeSlots = u.freeSlots
  freeTop : u'.freeTop = u.freeTop
  sendPool : u'.sendPool = u.sendPool
  done : u'.done = u.done ++ [e.slot]
  queued : ∃ es es', u.queued = es ++ e :: es' ∧ u'.queued = es ++ es' ∧ (i = 0 → es = [])

theorem UringGateway.exec_spec (u : UringGateway σ) (i n : Nat) :
    u.exec i n = u ∨ ∃ e, Executed u i n e (u.exec i n) := by
  unfold UringGateway.exec
  split
  · exact .inl rfl
  · rename_i e he
    refine .inr ⟨e, he, rfl, rfl, rfl, rfl, rfl, rfl, rfl, rfl, ?_⟩
    obtain ⟨hlt, hget⟩ := List.getElem?_eq_some_iff.mp he
    refine ⟨u.inflight.take i, u.inflight.drop (i + 1) ++ u.sq.filterMap (Sqe.entry u.wire), ?_, ?_,
      fun h => by rw [h, List.take_zero]⟩
    · change u.inflight ++ _ = _
      rw [← hget, ← List.cons_append, ← List.drop_eq_getElem_cons hlt, ← List.append_assoc,
        List.take_append_drop]
    · change u.inflight.eraseIdx i ++ _ = _
      rw [List.eraseIdx_eq_take_drop_succ, List.append_assoc]
      cases e.conn <;> rfl

theorem Wire.same_give (w : Wire) (k : Nat) (bytes : List UInt8) : w.Same (w.give k bytes) := by
  refine ⟨rfl, rfl, fun j => ?_, fun j => ?_⟩
  all_goals
    unfold Wire.give
    dsimp only
    rcases eq_or_ne j k with rfl | hne
    · rw [Function.update_self]
    · rw [Function.update_of_ne hne]

theorem Executed.same {i : Nat} {e : Entry} (he : Executed u i n e u') :
    u.wire.Same u'.wire := by
  rw [he.wire]
  split
  · exact .refl _
  · exact u.wire.same_give _ _

/-- What the kernel can do by itself. -/
theorem UringGateway.kernel_cases (u : UringGateway σ) (a : KernelAct) :
    (SameButQueue u (u.kernel a) ∧ (u.kernel a).queued = u.queued) ∨
      ∃ i n e, a = .exec i n ∧ Executed u i n e (u.kernel a) := by
  cases a with
  | take n =>
    refine .inl ?_
    unfold UringGateway.kernel
    dsimp only
    split
    · exact ⟨u.take_same n, u.take_queued n⟩
    · exact ⟨.refl u, rfl⟩
  | exec i n =>
    change (SameButQueue u (u.exec i n) ∧ _) ∨ ∃ i' n' e, _ ∧ Executed u i' n' e (u.exec i n)
    obtain hnone | ⟨e, he⟩ := u.exec_spec i n
    · refine .inl ?_
      change SameButQueue u (u.exec i n) ∧ (u.exec i n).queued = _
      rw [hnone]
      exact ⟨.refl u, rfl⟩
    · exact .inr ⟨i, n, e, rfl, he⟩

theorem Slots.executed (hs : Slots u) {i : Nat} {e : Entry} (he : Executed u i n e u') :
    Slots u' := by
  obtain ⟨es, es', hbefore, hafter, -⟩ := he.queued
  unfold Slots at hs ⊢
  rw [hbefore, List.map_append, List.map_cons] at hs
  rw [he.freeSlots, he.freeTop, he.done, hafter, List.map_append]
  refine List.Perm.trans (List.Perm.append_left _ ?_) hs
  rw [List.append_assoc, List.append_assoc]
  refine List.Perm.append_left _ ?_
  rw [← List.append_assoc, List.cons_append]
  exact List.perm_append_singleton _ _

/-- A completion gives the slot of its send back. -/
theorem Slots.free (hs : Slots u) {slot : Nat} (hslot : slot ∈ u.done) :
    ∃ u', UringGateway.freeSendSlot { u with done := u.done.erase slot } slot = .ok u' ∧
      u'.toHost = u.toHost ∧ u'.shard = u.shard ∧ u'.sendPool = u.sendPool ∧
      u'.queued = u.queued ∧ Slots u' := by
  have hlen := hs.length_eq
  simp only [List.length_append, List.length_map, List.length_range] at hlen
  have hpos := List.length_pos_of_mem hslot
  have htop : u.freeTop < sendSlots := by omega
  unfold UringGateway.freeSendSlot
  rw [store_of_lt _ _ htop, ok_bind]
  refine ⟨_, rfl, rfl, rfl, rfl, rfl, List.Perm.trans ?_ hs⟩
  have hfree : (List.range (u.freeTop + 1)).map (Function.update u.freeSlots u.freeTop slot) =
      (List.range u.freeTop).map u.freeSlots ++ [slot] := by
    rw [List.range_succ, List.map_append, List.map_singleton, Function.update_self]
    refine congrArg (· ++ [slot]) (List.map_congr_left fun i hi => ?_)
    exact Function.update_of_ne (Nat.ne_of_lt (List.mem_range.mp hi)) ..
  have hback : ([slot] ++ (u.queued.map Entry.slot ++ u.done.erase slot)).Perm
      (u.queued.map Entry.slot ++ u.done) := by
    rw [List.singleton_append]
    exact List.perm_middle.symm.trans (List.Perm.append_left _ (List.perm_cons_erase hslot).symm)
  dsimp only
  rw [hfree, List.append_assoc]
  exact List.Perm.append_left _ hback

theorem SameSends.slots (hsame : SameSends u u') (hs : Slots u) : Slots u' := by
  unfold Slots
  rw [hsame.freeSlots, hsame.freeTop, hsame.slots_eq, hsame.done]
  exact hs

/-- Taking entries leaves the slots where they are. -/
theorem SameButQueue.slots (hsame : SameButQueue u u') (hqueued : u'.queued = u.queued)
    (hs : Slots u) : Slots u' := by
  unfold Slots
  rw [hsame.freeSlots, hsame.freeTop, hqueued, hsame.done]
  exact hs

theorem Sqe.entry_same {w w' : Wire} (hsame : w.Same w') : Sqe.entry w' = Sqe.entry w := by
  funext sqe
  cases sqe with
  | send fd slot len =>
    unfold Sqe.entry
    rw [hsame.onFd]
  | accept => rfl
  | recv fd => rfl

theorem UringGateway.queued_same {w : Wire} (hsame : u.wire.Same w) :
    UringGateway.queued { u with wire := w } = u.queued := by
  change u.inflight ++ u.sq.filterMap (Sqe.entry w) = _
  rw [Sqe.entry_same hsame]
  rfl

theorem Slots.same {w : Wire} (hs : Slots u) (hsame : u.wire.Same w) :
    Slots { u with wire := w } := by
  unfold Slots
  rw [UringGateway.queued_same hsame]
  exact hs

end Slots

end LiteExchange.Net
