/-
  Who owns the buffers of the io_uring reactor (`net/uring_gateway.hpp`). A recv is armed with the
  `buf` of the connection found under its descriptor, a send with a slot of the pool, and both
  with a tag that the completion brings back: the operation in the top byte, the descriptor or the
  slot below. The handler has nothing but the tag to go by.

  `Reactor` is the gateway together with the recvs that are out, each with the connection whose
  buffer it was given, and what the kernel put into the buffers. Its completions come as the ring
  delivers them, with a tag and a result, and are dispatched on the tag. Handled so, they do to the
  gateway what `UringGateway.handleCqe` does, which is told the operation (`ReactorInv.refines`).

  Here completions, drains, submissions and the work of the kernel come in any order; the turns of
  `poll_once` are not used. The kernel is assumed to complete a recv or a send that is out, once,
  and to accept on descriptors that are not open (`Reactor.KernelOk`).
-/
import LiteExchange.Net.UringGateway

namespace LiteExchange.Net

open Lib Proto

variable {σ : Type}

/-! ## Tags -/

/-- `Op`. -/
inductive Op where
  | accept
  | recv
  | send
  deriving DecidableEq, Repr

def Op.code : Op → UInt64
  | .accept => 0
  | .recv => 1
  | .send => 2

/-- `tag(op, payload)`. -/
def tag (op : Op) (payload : UInt64) : UInt64 := (op.code <<< 56) ||| payload

/-- `tag_op(d)`; the switch has no case for other values. -/
def tagOp (d : UInt64) : Option Op :=
  match (d >>> 56).toNat with
  | 0 => some .accept
  | 1 => some .recv
  | 2 => some .send
  | _ => none

/-- `tag_payload(d)`. -/
def tagPayload (d : UInt64) : UInt64 := d &&& 0x00FFFFFFFFFFFFFF

theorem tag_toNat (op : Op) {payload : UInt64} (h : payload.toNat < 2 ^ 56) :
    (tag op payload).toNat = op.code.toNat * 2 ^ 56 + payload.toNat := by
  have hcode : op.code.toNat < 3 := by cases op <;> decide
  have hfit : op.code.toNat <<< 56 % 2 ^ 64 = op.code.toNat <<< 56 := by
    rw [Nat.shiftLeft_eq]
    omega
  rw [tag, UInt64.toNat_or, UInt64.toNat_shiftLeft]
  change op.code.toNat <<< 56 % 2 ^ 64 ||| payload.toNat = _
  rw [hfit, ← Nat.shiftLeft_add_eq_or_of_lt h, Nat.shiftLeft_eq]

theorem tagOp_tag (op : Op) {payload : UInt64} (h : payload.toNat < 2 ^ 56) :
    tagOp (tag op payload) = some op := by
  have hcode : op.code.toNat < 3 := by cases op <;> decide
  have htop : (tag op payload >>> 56).toNat = op.code.toNat := by
    rw [UInt64.toNat_shiftRight, tag_toNat op h]
    change (op.code.toNat * 2 ^ 56 + payload.toNat) >>> 56 = _
    rw [Nat.shiftRight_eq_div_pow]
    omega
  unfold tagOp
  rw [htop]
  cases op <;> rfl

theorem tagPayload_tag (op : Op) {payload : UInt64} (h : payload.toNat < 2 ^ 56) :
    tagPayload (tag op payload) = payload := by
  rw [← UInt64.toNat_inj, tagPayload, UInt64.toNat_and, tag_toNat op h]
  change (op.code.toNat * 2 ^ 56 + payload.toNat) &&& (2 ^ 56 - 1) = _
  rw [Nat.and_two_pow_sub_one_eq_mod]
  omega

/-- Small numbers go through a tag unharmed. -/
theorem tag_roundtrip (op : Op) {n : Nat} (h : n < 2 ^ 32) :
    tagOp (tag op (UInt64.ofNat n)) = some op ∧
      (tagPayload (tag op (UInt64.ofNat n))).toUInt32.toNat = n := by
  have hn : (UInt64.ofNat n).toNat = n := UInt64.toNat_ofNat_of_lt' (show n < 2 ^ 64 by omega)
  have hlow : (UInt64.ofNat n).toNat < 2 ^ 56 := by omega
  refine ⟨tagOp_tag op hlow, ?_⟩
  rw [tagPayload_tag op hlow, UInt64.toNat_toUInt32, hn, Nat.mod_eq_of_lt h]

/-! ## The code -/

/-- A recv that is out: the descriptor in its tag and the connection whose `buf` it was given. -/
structure Recv where
  fd : Nat
  conn : Nat
  deriving DecidableEq, Repr

/-- The gateway, what stands in the buffers of its connections, and the recvs that are out. -/
structure Reactor (σ : Type) extends UringGateway σ where
  bufs : Nat → List UInt8
  recvs : List Recv

def Reactor.init (q : σ) (sqpoll : Bool) : Reactor σ :=
  ⟨UringGateway.init q sqpoll, fun _ => [], []⟩

/-- `arm_recv(fd)`; `conns_.at(fd)` throws if there is no connection. -/
def Reactor.armRecv (r : Reactor σ) (fd : Nat) : Except Fault (Reactor σ) :=
  match r.conns.sessions fd, r.wire.onFd fd with
  | some _, some k =>
    .ok { r with toUringGateway := r.prep (.recv fd), recvs := r.recvs ++ [⟨fd, k⟩] }
  | _, _ => .error .outOfRange

/-- A completion as the ring delivers it: `user_data`, `res` and `IORING_CQE_F_MORE`. -/
structure RawCqe where
  data : UInt64
  res : Int32
  more : Bool

/-- `on_accept(cqe)`. -/
def Reactor.onAccept (r : Reactor σ) (res : Int32) (more : Bool) : Except Fault (Reactor σ) := do
  let r ← (if 0 ≤ res then
      { r with toHost := r.toHost.accept res.toNatClampNeg }.armRecv res.toNatClampNeg
    else .ok r)
  return if more then r else { r with toUringGateway := r.prep .accept }

def Reactor.closeConn (r : Reactor σ) (fd : Nat) : Reactor σ :=
  { r with toUringGateway := r.toUringGateway.closeConn fd }

/-- The first `n` bytes of `conn.buf`, for the connection under `fd`. -/
def Reactor.received (r : Reactor σ) (fd n : Nat) : List UInt8 :=
  match r.wire.onFd fd with
  | none => []
  | some k => (r.bufs k).take n

/-- `on_recv(fd, res)`. -/
def Reactor.onRecv (push : σ → InboundMsg → σ × Bool) (r : Reactor σ) (fd : Nat) (res : Int32) :
    Except Fault (Reactor σ) :=
  match r.conns.sessions fd with
  | none => .ok r
  | some _ =>
    if res ≤ 0 then .ok (r.closeConn fd)
    else do
      let (h, q) ← r.toHost.read push fd (r.received fd res.toNatClampNeg) r.shard
      let r := { r with toHost := h, shard := q }
      if (r.conns.sessions fd).any Session.closed then
        return r.closeConn fd
      r.armRecv fd

/-- `free_send_slot(slot)`. -/
def Reactor.freeSlot (r : Reactor σ) (slot : Nat) : Except Fault (Reactor σ) := do
  let u ← r.toUringGateway.freeSendSlot slot
  return { r with toUringGateway := u }

/-- `handle_cqe(cqe)`. -/
def Reactor.handleCqe (push : σ → InboundMsg → σ × Bool) (r : Reactor σ) (cqe : RawCqe) :
    Except Fault (Reactor σ) :=
  match tagOp cqe.data with
  | some .accept => r.onAccept cqe.res cqe.more
  | some .recv => r.onRecv push (tagPayload cqe.data).toUInt32.toNat cqe.res
  | some .send => r.freeSlot (tagPayload cqe.data).toUInt32.toNat
  | none => .ok r

/-! ## The kernel -/

/-- What the kernel completes: an accept; a recv, with the bytes it put into the buffer; a recv
    whose peer has closed or that failed; a send. -/
inductive Completion where
  | accept (res : Int32) (more : Bool)
  | recv (op : Recv) (chunk : Chunk)
  | closed (op : Recv) (res : Int32)
  | send (slot : Nat)

/-- The tag is the one the entry was given. -/
def Completion.cqe : Completion → RawCqe
  | .accept res more => ⟨tag .accept 0, res, more⟩
  | .recv op chunk => ⟨tag .recv (UInt64.ofNat op.fd), Int32.ofNat chunk.bytes.length, false⟩
  | .closed op res => ⟨tag .recv (UInt64.ofNat op.fd), res, false⟩
  | .send slot => ⟨tag .send (UInt64.ofNat slot), 0, false⟩

/-- The kernel is done with the operation; a recv has filled the buffer it was given. -/
def Reactor.deliver (r : Reactor σ) : Completion → Reactor σ
  | .accept _ _ => r
  | .recv op chunk =>
    { r with
      recvs := r.recvs.erase op
      bufs := Function.update r.bufs op.conn chunk.bytes }
  | .closed op _ => { r with recvs := r.recvs.erase op }
  | .send slot => { r with done := r.done.erase slot }

/-- A message popped by `drain_outbound`, with what a `send` at the call takes; a submission; the
    kernel takes entries or executes a send; or a completion is delivered and handled. -/
inductive ReactorAct where
  | out (m : OutboundMsg) (n : Nat)
  | submit
  | kernel (a : KernelAct)
  | complete (c : Completion)

def Reactor.step (push : σ → InboundMsg → σ × Bool) (r : Reactor σ) :
    ReactorAct → Except Fault (Reactor σ)
  | .out m n => do
    let u ← r.toUringGateway.out m n
    return { r with toUringGateway := u }
  | .submit => .ok { r with toUringGateway := r.submit }
  | .kernel a => .ok { r with toUringGateway := r.toUringGateway.kernel a }
  | .complete c => (r.deliver c).handleCqe push c.cqe

/-- `accept` returns a descriptor that is not open, and the kernel completes recvs and sends that
    are out. -/
def Reactor.KernelOk (r : Reactor σ) : ReactorAct → Prop
  | .complete (.accept res _) => 0 ≤ res → r.wire.onFd res.toNatClampNeg = none
  | .complete (.recv op _) => op ∈ r.recvs
  | .complete (.closed op res) => op ∈ r.recvs ∧ res ≤ 0
  | .complete (.send slot) => slot ∈ r.done
  | _ => True

/-- The slots of the sends that are out. -/
def Reactor.outstanding (r : Reactor σ) : List Nat := r.queued.map Entry.slot ++ r.done

/-! ## Slots that are out -/

section Fresh

variable {u : UringGateway σ}

/-- The next free slot is not out. -/
theorem Slots.fresh (hs : Slots u) {top : Nat} (htop : u.freeTop = top + 1) :
    u.freeSlots top ∉ u.queued.map Entry.slot ++ u.done := by
  have hmem : u.freeSlots top ∈ (List.range u.freeTop).map u.freeSlots :=
    List.mem_map_of_mem (List.mem_range.mpr (by omega))
  have hnd := hs.nodup_iff.mpr List.nodup_range
  exact List.disjoint_of_nodup_append hnd hmem

theorem Slots.top_le (hs : Slots u) : u.freeTop ≤ sendSlots := by
  have hlen := hs.length_eq
  simp only [List.length_append, List.length_map, List.length_range] at hlen
  omega

theorem Slots.out_lt (hs : Slots u) {slot : Nat}
    (h : slot ∈ u.queued.map Entry.slot ++ u.done) : slot < sendSlots :=
  List.mem_range.mp (hs.subset (List.mem_append_right _ h))

end Fresh

/-! ## The recvs that are out -/

/-- Every open descriptor but `skip` has one recv out, with the buffer of the connection on it. -/
structure Armed (r : Reactor σ) (skip : Option Nat) : Prop where
  nodup : r.recvs.Nodup
  mem : ∀ op, op ∈ r.recvs ↔ r.wire.onFd op.fd = some op.conn ∧ skip ≠ some op.fd
  small : ∀ fd k, r.wire.onFd fd = some k → fd < 2 ^ 31

section Armed

variable {r r' : Reactor σ} {fd k : Nat}

theorem Armed.of_eq {skip : Option Nat} (h : Armed r skip) (hrecvs : r'.recvs = r.recvs)
    (hfd : r'.wire.onFd = r.wire.onFd) : Armed r' skip where
  nodup := hrecvs ▸ h.nodup
  mem := by
    rw [hrecvs, hfd]
    exact h.mem
  small := by
    rw [hfd]
    exact h.small

/-- One recv has been taken off. -/
theorem Armed.erase (h : Armed r none) {op : Recv} (hop : op ∈ r.recvs)
    (hrecvs : r'.recvs = r.recvs.erase op) (hfd : r'.wire.onFd = r.wire.onFd) :
    Armed r' (some op.fd) := by
  obtain ⟨hon, -⟩ := (h.mem op).mp hop
  refine ⟨hrecvs ▸ h.nodup.erase op, fun op' => ?_, hfd ▸ h.small⟩
  rw [hrecvs, h.nodup.mem_erase_iff, h.mem, hfd]
  constructor
  · intro ⟨hne, hon', _⟩
    refine ⟨hon', fun heq => hne ?_⟩
    have hfds : op.fd = op'.fd := Option.some_inj.mp heq
    rw [← hfds, hon, Option.some_inj] at hon'
    cases op
    cases op'
    cases hfds
    cases hon'
    rfl
  · intro ⟨hon', hne⟩
    exact ⟨fun heq => hne (by rw [heq]), hon', nofun⟩

/-- The descriptor without a recv gets one. -/
theorem Armed.arm (h : Armed r (some fd)) (hk : r.wire.onFd fd = some k)
    (hs : r.conns.sessions fd ≠ none) :
    ∃ r', r.armRecv fd = .ok r' ∧ r'.toUringGateway = r.prep (.recv fd) ∧ Armed r' none := by
  obtain ⟨s, hs⟩ := Option.ne_none_iff_exists'.mp hs
  have hhost := (r.prep_same (.recv fd)).toHost
  unfold Reactor.armRecv
  rw [hs, hk]
  refine ⟨_, rfl, rfl, ?_, fun op => ?_, ?_⟩
  · refine List.nodup_append.mpr ⟨h.nodup, List.nodup_singleton _, ?_⟩
    intro op hop op' hop' heq
    rw [List.mem_singleton.mp hop'] at heq
    exact ((h.mem op).mp hop).2 (by rw [heq])
  · dsimp only
    rw [hhost, List.mem_append, List.mem_singleton, h.mem]
    constructor
    · intro hop
      rcases hop with hop | hop
      · exact ⟨hop.1, nofun⟩
      · rw [hop]
        exact ⟨hk, nofun⟩
    · intro hop
      by_cases heq : op.fd = fd
      · refine .inr ?_
        have hconn := hop.1
        rw [heq, hk, Option.some_inj] at hconn
        cases op
        cases heq
        cases hconn
        rfl
      · exact .inl ⟨hop.1, fun he => heq (Option.some_inj.mp he).symm⟩
  · dsimp only
    rw [hhost]
    exact h.small

/-- The descriptor without a recv is closed. -/
theorem Armed.close (h : Armed r (some fd)) : Armed (r.closeConn fd) none := by
  unfold Reactor.closeConn UringGateway.closeConn Host.close
  refine ⟨h.nodup, fun op => ?_, fun fd' k hk => ?_⟩
  · dsimp only
    rw [h.mem, Wire.close_onFd]
    constructor
    · intro hop
      exact ⟨⟨fun he => hop.2 (by rw [he]), hop.1⟩, nofun⟩
    · intro hop
      exact ⟨hop.1.2, fun he => hop.1.1 (Option.some_inj.mp he).symm⟩
  · exact h.small fd' k (Wire.close_onFd.mp hk).2

/-- A new connection has no recv yet. -/
theorem Armed.accept (h : Armed r none) (hfd : r.wire.onFd fd = none) (hsmall : fd < 2 ^ 31) :
    Armed { r with toHost := r.toHost.accept fd } (some fd) := by
  refine ⟨h.nodup, fun op => ?_, fun fd' k hk => ?_⟩
  · dsimp only [Host.accept]
    rw [h.mem, Wire.accept_onFd]
    constructor
    · intro hop
      have hne : op.fd ≠ fd := by
        intro he
        rw [he, hfd] at hop
        cases hop.1
      exact ⟨.inr ⟨hne, hop.1⟩, fun he => hne (Option.some_inj.mp he).symm⟩
    · intro hop
      rcases hop.1 with hnew | hold
      · exact absurd (congrArg some hnew.1.symm) hop.2
      · exact ⟨hold.2, nofun⟩
  · rcases Wire.accept_onFd.mp hk with hnew | hold
    · rw [hnew.1]
      exact hsmall
    · exact h.small fd' k hold.2

end Armed

/-! ## The invariant -/

structure ReactorInv (r : Reactor σ) : Prop where
  tracks : Tracks r.toHost
  slots : Slots r.toUringGateway
  armed : Armed r none

theorem reactorInv_init (q : σ) (sqpoll : Bool) : ReactorInv (Reactor.init q sqpoll) where
  tracks := tracks_init
  slots := slots_init q sqpoll
  armed := ⟨List.nodup_nil, fun _ => ⟨nofun, fun h => nomatch h.1⟩, nofun⟩

section Handlers

variable {push : σ → InboundMsg → σ × Bool} {r : Reactor σ} {fd k : Nat}

/-- A handler did to the gateway what `gw` does, and left the sends alone. -/
structure Handles (r : Reactor σ) (gw : Except Fault (UringGateway σ)) (r' : Reactor σ) : Prop where
  gateway : gw = .ok r'.toUringGateway
  sends : SameSends r.toUringGateway r'.toUringGateway
  inv : ReactorInv r'

theorem ReactorInv.prep (hinv : ReactorInv r) {sqe : Sqe} (hsqe : ∀ w, sqe.entry w = none) :
    ReactorInv { r with toUringGateway := r.prep sqe } := by
  have hhost := (r.prep_same sqe).toHost
  refine ⟨?_, ((SameSends.refl _).prep hsqe).slots hinv.slots, hinv.armed.of_eq rfl ?_⟩
  · dsimp only
    rw [hhost]
    exact hinv.tracks
  · dsimp only
    rw [hhost]

/-- The recv of a connection without one is armed. -/
theorem Armed.rearm (h : Armed r (some fd)) (htracks : Tracks r.toHost)
    (hslots : Slots r.toUringGateway) (hk : r.wire.onFd fd = some k) :
    ∃ r', r.armRecv fd = .ok r' ∧ r'.toUringGateway = r.prep (.recv fd) ∧ ReactorInv r' := by
  have hopen : r.conns.sessions fd ≠ none := by
    intro hnone
    rw [(htracks.open_iff fd).mpr hnone] at hk
    cases hk
  obtain ⟨r', hrun, hgw, harmed⟩ := h.arm hk hopen
  refine ⟨r', hrun, hgw, ?_, ?_, harmed⟩
  · rw [hgw, (r.prep_same (.recv fd)).toHost]
    exact htracks
  · rw [hgw]
    exact ((SameSends.refl _).prep fun _ => rfl).slots hslots

/-- The connection without a recv is closed. -/
theorem Armed.closed (h : Armed r (some fd)) (htracks : Tracks r.toHost)
    (hslots : Slots r.toUringGateway) : ReactorInv (r.closeConn fd) :=
  ⟨htracks.close fd, (sameSends_host _ _ _).slots hslots, h.close⟩

theorem ReactorInv.onAccept (hinv : ReactorInv r) {res : Int32} (more : Bool)
    (hfd : 0 ≤ res → r.wire.onFd res.toNatClampNeg = none) :
    ∃ r', r.onAccept res more = .ok r' ∧ Handles r
      (.ok (r.toUringGateway.onAccept (if 0 ≤ res then some res.toNatClampNeg else none) more))
      r' := by
  -- the part before the test of `IORING_CQE_F_MORE`
  have hfirst : ∃ r₁, (if 0 ≤ res then
        { r with toHost := r.toHost.accept res.toNatClampNeg }.armRecv res.toNatClampNeg
      else .ok r) = .ok r₁ ∧ r₁.toUringGateway =
        r.toUringGateway.onAccept (if 0 ≤ res then some res.toNatClampNeg else none) true ∧
      SameSends r.toUringGateway r₁.toUringGateway ∧ ReactorInv r₁ := by
    by_cases hres : 0 ≤ res
    · rw [if_pos hres, if_pos hres]
      have hnew := hfd hres
      have harmed := hinv.armed.accept hnew res.toNatClampNeg_lt
      have hhost := sameSends_host r.toUringGateway (r.toHost.accept res.toNatClampNeg) r.shard
      obtain ⟨r₁, hrun, hgw, hinv₁⟩ := harmed.rearm (hinv.tracks.accept hnew)
        (hhost.slots hinv.slots) (Wire.accept_onFd.mpr (.inl ⟨rfl, rfl⟩))
      refine ⟨r₁, hrun, hgw, ?_, hinv₁⟩
      rw [hgw]
      exact hhost.prep fun _ => rfl
    · rw [if_neg hres, if_neg hres]
      exact ⟨r, rfl, rfl, SameSends.refl _, hinv⟩
  obtain ⟨r₁, hrun, hgw, hsame, hinv₁⟩ := hfirst
  unfold Reactor.onAccept
  rw [hrun, ok_bind]
  cases more with
  | true => exact ⟨r₁, rfl, congrArg Except.ok hgw.symm, hsame, hinv₁⟩
  | false =>
    refine ⟨_, rfl, ?_, hsame.prep fun _ => rfl, hinv₁.prep fun _ => rfl⟩
    exact congrArg (fun u => Except.ok (UringGateway.prep u .accept)) hgw.symm

theorem Armed.onRecv_closed (push : σ → InboundMsg → σ × Bool) (h : Armed r (some fd))
    (htracks : Tracks r.toHost) (hslots : Slots r.toUringGateway) (hk : r.wire.onFd fd = some k)
    {res : Int32} (hres : res ≤ 0) :
    ∃ r', r.onRecv push fd res = .ok r' ∧ Handles r (r.toUringGateway.onRecv push fd none) r' := by
  obtain ⟨s, hs, -⟩ := htracks.exists_session hk
  unfold Reactor.onRecv UringGateway.onRecv
  rw [hs]
  dsimp only
  rw [if_pos hres]
  exact ⟨_, rfl, rfl, sameSends_host _ _ _, h.closed htracks hslots⟩

theorem Armed.onRecv_data (push : σ → InboundMsg → σ × Bool) (h : Armed r (some fd))
    (htracks : Tracks r.toHost) (hslots : Slots r.toUringGateway) (hk : r.wire.onFd fd = some k)
    {res : Int32} (hres : ¬ res ≤ 0) {chunk : Chunk}
    (hchunk : r.received fd res.toNatClampNeg = chunk.bytes) :
    ∃ r', r.onRecv push fd res = .ok r' ∧
      Handles r (r.toUringGateway.onRecv push fd (some chunk)) r' := by
  obtain ⟨s, hs, -⟩ := htracks.exists_session hk
  obtain ⟨h₁, q₁, hread⟩ := r.toHost.read_ok push fd chunk.bytes r.shard
  have hwire := Host.read_same hread
  have htracks₁ := htracks.read hread
  have hsame := sameSends_host r.toUringGateway h₁ q₁
  have harmed₁ : Armed { r with toHost := h₁, shard := q₁ } (some fd) := h.of_eq rfl hwire.onFd
  have hk₁ : h₁.wire.onFd fd = some k := by
    rw [hwire.onFd]
    exact hk
  unfold Reactor.onRecv UringGateway.onRecv
  rw [hs]
  dsimp only
  rw [if_neg hres, hchunk, hread, ok_bind, ok_bind]
  dsimp only
  split
  · exact ⟨_, rfl, rfl, sameSends_host r.toUringGateway (h₁.close fd) q₁,
      harmed₁.closed htracks₁ (hsame.slots hslots)⟩
  · obtain ⟨r', hrun, hgw, hinv'⟩ := harmed₁.rearm htracks₁ (hsame.slots hslots) hk₁
    refine ⟨r', hrun, ?_, ?_, hinv'⟩
    · rw [hgw]
      rfl
    · rw [hgw]
      exact hsame.prep fun _ => rfl

end Handlers

/-! ## Completions -/

/-- A completion of the reactor for the gateway. -/
def Completion.plain : Completion → Cqe
  | .accept res more => .accept (if 0 ≤ res then some res.toNatClampNeg else none) more
  | .recv op chunk => .recv op.fd (some chunk)
  | .closed op _ => .recv op.fd none
  | .send slot => .send slot

def ReactorAct.plain : ReactorAct → UringAct
  | .out m n => .out m n
  | .submit => .submit
  | .kernel a => .kernel a
  | .complete c => .cqe c.plain

/-- The handler is called for whoever issued the operation: a recv for the descriptor of its own
    connection, where it finds the bytes the kernel put into that connection's buffer; a send for
    its own slot. -/
def Reactor.Dispatched (push : σ → InboundMsg → σ × Bool) (r : Reactor σ) (c : Completion) : Prop :=
  match c with
  | .accept res more => (r.deliver c).handleCqe push c.cqe = (r.deliver c).onAccept res more
  | .recv op chunk => r.wire.onFd op.fd = some op.conn ∧
      (r.deliver c).handleCqe push c.cqe = (r.deliver c).onRecv push op.fd c.cqe.res ∧
      (r.deliver c).received op.fd c.cqe.res.toNatClampNeg = chunk.bytes
  | .closed op res => r.wire.onFd op.fd = some op.conn ∧
      (r.deliver c).handleCqe push c.cqe = (r.deliver c).onRecv push op.fd res
  | .send slot => slot ∈ r.outstanding ∧
      (r.deliver c).handleCqe push c.cqe = (r.deliver c).freeSlot slot

section Complete

variable {r : Reactor σ}

theorem ReactorInv.on_own_fd (hinv : ReactorInv r) {op : Recv} (hop : op ∈ r.recvs) :
    r.wire.onFd op.fd = some op.conn ∧ op.fd < 2 ^ 31 := by
  have hon := ((hinv.armed.mem op).mp hop).1
  exact ⟨hon, hinv.armed.small _ _ hon⟩

theorem chunk_res (chunk : Chunk) : ¬ Int32.ofNat chunk.bytes.length ≤ 0 ∧
    (Int32.ofNat chunk.bytes.length).toNatClampNeg = chunk.bytes.length := by
  have hfits := chunk.fits
  have hpos := List.length_pos_iff.mpr chunk.pos
  have hlt : chunk.bytes.length < 2 ^ 31 := by omega
  refine ⟨?_, Int32.toNatClampNeg_ofNat_of_lt hlt⟩
  rw [Int32.le_iff_toInt_le, Int32.toInt_ofNat_of_lt hlt]
  change ¬ (chunk.bytes.length : Int) ≤ 0
  omega

/-- Tags lead back to their issuer. -/
theorem ReactorInv.dispatched (push : σ → InboundMsg → σ × Bool) (hinv : ReactorInv r)
    {c : Completion} (hk : r.KernelOk (.complete c)) : r.Dispatched push c := by
  cases c with
  | accept res more =>
    unfold Reactor.Dispatched Reactor.handleCqe
    dsimp only [Completion.cqe]
    rw [tagOp_tag .accept (by decide)]
  | recv op chunk =>
    obtain ⟨hon, hlt⟩ := hinv.on_own_fd hk
    obtain ⟨htag, hpayload⟩ := tag_roundtrip .recv (show op.fd < 2 ^ 32 by omega)
    refine ⟨hon, ?_, ?_⟩
    · unfold Reactor.handleCqe
      dsimp only [Completion.cqe]
      rw [htag, hpayload]
    · unfold Reactor.received
      dsimp only [Completion.cqe, Reactor.deliver]
      rw [hon, (chunk_res chunk).2]
      dsimp only
      rw [Function.update_self, List.take_length]
  | closed op res =>
    obtain ⟨hon, hlt⟩ := hinv.on_own_fd hk.1
    obtain ⟨htag, hpayload⟩ := tag_roundtrip .recv (show op.fd < 2 ^ 32 by omega)
    refine ⟨hon, ?_⟩
    unfold Reactor.handleCqe
    dsimp only [Completion.cqe]
    rw [htag, hpayload]
  | send slot =>
    have hout : slot ∈ r.outstanding := List.mem_append_right _ hk
    have hlt := hinv.slots.out_lt hout
    unfold sendSlots at hlt
    obtain ⟨htag, hpayload⟩ := tag_roundtrip .send (show slot < 2 ^ 32 by omega)
    refine ⟨hout, ?_⟩
    unfold Reactor.handleCqe
    dsimp only [Completion.cqe]
    rw [htag, hpayload]

/-- What a step of the reactor does: the step of the gateway, without touching the frame of a send
    that is out. -/
structure Reacts (push : σ → InboundMsg → σ × Bool) (r : Reactor σ) (act : ReactorAct)
    (r' : Reactor σ) : Prop where
  gateway : r.toUringGateway.step push act.plain = .ok r'.toUringGateway
  held : ∀ slot ∈ r.outstanding, r'.sendPool slot = r.sendPool slot
  inv : ReactorInv r'

/-- A completion is handled as the gateway handles it. -/
theorem ReactorInv.complete (push : σ → InboundMsg → σ × Bool) (hinv : ReactorInv r)
    {c : Completion} (hk : r.KernelOk (.complete c)) :
    ∃ r', r.step push (.complete c) = .ok r' ∧ Reacts push r (.complete c) r' := by
  have hdisp := hinv.dispatched push hk
  unfold Reactor.step
  cases c with
  | accept res more =>
    obtain ⟨r', hrun, hgw, hsame, hinv'⟩ := hinv.onAccept more hk
    exact ⟨r', hdisp.trans hrun, hgw, fun slot _ => congrFun hsame.sendPool slot, hinv'⟩
  | recv op chunk =>
    have harmed : Armed (r.deliver (.recv op chunk)) (some op.fd) := hinv.armed.erase hk rfl rfl
    obtain ⟨r', hrun, hgw, hsame, hinv'⟩ := harmed.onRecv_data push hinv.tracks hinv.slots hdisp.1
      (chunk_res chunk).1 hdisp.2.2
    exact ⟨r', hdisp.2.1.trans hrun, hgw, fun slot _ => congrFun hsame.sendPool slot, hinv'⟩
  | closed op res =>
    have harmed : Armed (r.deliver (.closed op res)) (some op.fd) := hinv.armed.erase hk.1 rfl rfl
    obtain ⟨r', hrun, hgw, hsame, hinv'⟩ := harmed.onRecv_closed push hinv.tracks hinv.slots hdisp.1
      hk.2
    exact ⟨r', hdisp.2.trans hrun, hgw, fun slot _ => congrFun hsame.sendPool slot, hinv'⟩
  | send slot =>
    obtain ⟨u', hfree, hhost, -, hpool, -, hslots⟩ := hinv.slots.free hk
    refine ⟨{ r with toUringGateway := u' }, ?_, hfree, fun s _ => congrFun hpool s, ?_, hslots, ?_⟩
    · refine hdisp.2.trans ?_
      unfold Reactor.freeSlot
      dsimp only [Reactor.deliver]
      rw [hfree]
      rfl
    · dsimp only
      rw [hhost]
      exact hinv.tracks
    · refine hinv.armed.of_eq rfl ?_
      dsimp only
      rw [hhost]

end Complete

/-! ## Steps and runs -/

section Run

variable {r : Reactor σ}

theorem ReactorInv.same (hinv : ReactorInv r) {u : UringGateway σ} (hconns : u.conns = r.conns)
    (hsame : r.wire.Same u.wire) (hslots : Slots u) :
    ReactorInv { r with toUringGateway := u } := by
  refine ⟨?_, hslots, hinv.armed.of_eq rfl hsame.onFd⟩
  have htracks := hinv.tracks.same hsame
  rw [← hconns] at htracks
  exact htracks

theorem ReactorInv.out (push : σ → InboundMsg → σ × Bool) (hinv : ReactorInv r) (m : OutboundMsg)
    (n : Nat) : ∃ r', r.step push (.out m n) = .ok r' ∧ Reacts push r (.out m n) r' := by
  have hpop := r.wire.same_pop m
  obtain ⟨u', heq⟩ := hinv.slots.out_ok m n
  refine ⟨{ r with toUringGateway := u' }, ?_, heq, ?_, ?_⟩
  · unfold Reactor.step
    dsimp only
    rw [heq]
    rfl
  · intro slot hslot
    obtain ⟨-, rfl⟩ | ⟨fd, -, ⟨-, rfl⟩ | hp⟩ := UringGateway.out_cases heq
    · rfl
    · rfl
    · -- the slot of the message was free
      dsimp only
      rw [hp.sendPool]
      refine Function.update_of_ne (fun he => ?_) ..
      exact hinv.slots.fresh hp.freeTop (he ▸ hslot)
  · obtain ⟨-, rfl⟩ | ⟨fd, -, ⟨-, rfl⟩ | hp⟩ := UringGateway.out_cases heq
    · exact hinv.same rfl hpop (hinv.slots.same hpop)
    · have hsend := hpop.trans ((r.wire.pop m).same_send fd (m.frame.take n))
      exact hinv.same rfl hsend (hinv.slots.same hsend)
    · refine hinv.same ?_ ?_ (hinv.slots.prepared hp)
      · rw [hp.toHost]
      · rw [hp.toHost]
        exact hpop

/-- Taking entries leaves the frames where they are. -/
theorem ReactorInv.taken (hinv : ReactorInv r) {u : UringGateway σ}
    (hsame : SameButQueue r.toUringGateway u) (hqueued : u.queued = r.queued) :
    (∀ slot ∈ r.outstanding, u.sendPool slot = r.sendPool slot) ∧
      ReactorInv { r with toUringGateway := u } := by
  refine ⟨fun slot _ => congrFun hsame.sendPool slot, hinv.same ?_ ?_ ?_⟩
  · rw [hsame.toHost]
  · rw [hsame.toHost]
    exact .refl _
  · exact hsame.slots hqueued hinv.slots

/-- Whatever happens next, no step faults, the invariant stays, and the frames that are out are not
    touched. -/
theorem ReactorInv.step (push : σ → InboundMsg → σ × Bool) (hinv : ReactorInv r) {act : ReactorAct}
    (hk : r.KernelOk act) : ∃ r', r.step push act = .ok r' ∧ Reacts push r act r' := by
  cases act with
  | out m n => exact hinv.out push m n
  | submit =>
    obtain ⟨hheld, hinv'⟩ := hinv.taken r.submit_same r.submit_queued
    exact ⟨_, rfl, rfl, hheld, hinv'⟩
  | kernel a =>
    obtain ⟨hsame, hqueued⟩ | ⟨i, n, e, -, he⟩ := r.kernel_cases a
    · obtain ⟨hheld, hinv'⟩ := hinv.taken hsame hqueued
      exact ⟨_, rfl, rfl, hheld, hinv'⟩
    · refine ⟨_, rfl, rfl, fun slot _ => congrFun he.sendPool slot, ?_⟩
      exact hinv.same he.conns he.same (hinv.slots.executed he)
  | complete c => exact hinv.complete push hk

/-- The reactor runs as the gateway does. -/
theorem ReactorInv.refines (push : σ → InboundMsg → σ × Bool) (hinv : ReactorInv r)
    {acts : List ReactorAct} (hk : Along (Reactor.step push) Reactor.KernelOk r acts) :
    ∃ r', run (Reactor.step push) r acts = .ok r' ∧ ReactorInv r' ∧
      run (UringGateway.step push) r.toUringGateway (acts.map ReactorAct.plain) =
        .ok r'.toUringGateway := by
  induction acts generalizing r with
  | nil => exact ⟨r, rfl, hinv, rfl⟩
  | cons act acts ih =>
    obtain ⟨r₁, hstep, hreacts⟩ := hinv.step push hk.1
    obtain ⟨r', hrun, hinv', hgw⟩ := ih hreacts.inv (hk.2 r₁ hstep)
    refine ⟨r', by rw [run, hstep, ok_bind, hrun], hinv', ?_⟩
    rw [List.map_cons, run, hreacts.gateway, ok_bind, hgw]

/-- Every buffer has one owner. -/
structure Owned (r : Reactor σ) : Prop where
  partition : ((List.range r.freeTop).map r.freeSlots ++ r.outstanding).Perm (List.range sendSlots)
  top_le : r.freeTop ≤ sendSlots
  live : ∀ fd, r.conns.sessions fd ≠ none ↔ ∃ k, r.wire.onFd fd = some k
  one_recv : ∀ fd k, r.wire.onFd fd = some k →
    (r.recvs.filter fun op => op.conn = k) = [⟨fd, k⟩]
  no_stray : ∀ op ∈ r.recvs, r.wire.onFd op.fd = some op.conn

theorem ReactorInv.exclusive (hinv : ReactorInv r) : Owned r where
  partition := hinv.slots
  top_le := hinv.slots.top_le
  live := fun fd => by
    rw [ne_eq, ← hinv.tracks.open_iff, ← ne_eq, Option.ne_none_iff_exists']
  one_recv := fun fd k hk => by
    have hmem : (⟨fd, k⟩ : Recv) ∈ r.recvs := (hinv.armed.mem _).mpr ⟨hk, nofun⟩
    refine List.perm_singleton.mp ((List.perm_ext_iff_of_nodup (hinv.armed.nodup.filter _)
      (List.nodup_singleton _)).mpr fun op => ?_)
    rw [List.mem_filter, List.mem_singleton, decide_eq_true_eq]
    constructor
    · intro hop
      obtain ⟨hon, -⟩ := (hinv.armed.mem op).mp hop.1
      have hfd : op.fd = fd := hinv.tracks.inj _ _ k (hop.2 ▸ hon) hk
      cases op
      cases hfd
      cases hop.2
      rfl
    · intro hop
      rw [hop]
      exact ⟨hmem, rfl⟩
  no_stray := fun op hop => ((hinv.armed.mem op).mp hop).1

/-- In every interleaving: no step faults, each buffer has one owner, a step leaves the frames of
    the sends that are out alone, and a completion is dispatched to whoever issued it. -/
theorem buffers_exclusively_owned (push : σ → InboundMsg → σ × Bool) (q : σ) (sqpoll : Bool)
    (acts : List ReactorAct)
    (hk : Along (Reactor.step push) Reactor.KernelOk (Reactor.init q sqpoll) acts) :
    ∃ r, run (Reactor.step push) (Reactor.init q sqpoll) acts = .ok r ∧ Owned r ∧
      (∀ act, r.KernelOk act → ∃ r', r.step push act = .ok r' ∧
        ∀ slot ∈ r.outstanding, r'.sendPool slot = r.sendPool slot) ∧
      ∀ c, r.KernelOk (.complete c) → r.Dispatched push c := by
  obtain ⟨r, hrun, hinv, -⟩ := (reactorInv_init q sqpoll).refines push hk
  refine ⟨r, hrun, hinv.exclusive, ?_, ?_⟩
  · intro act hact
    obtain ⟨r', hstep, hreacts⟩ := hinv.step push hact
    exact ⟨r', hstep, hreacts.held⟩
  · intro c hc
    exact hinv.dispatched push hc

instance Reactor.decidableKernelOk (r : Reactor σ) : ∀ act, Decidable (r.KernelOk act)
  | .complete (.accept res _) =>
    inferInstanceAs (Decidable (0 ≤ res → r.wire.onFd res.toNatClampNeg = none))
  | .complete (.recv op _) => inferInstanceAs (Decidable (op ∈ r.recvs))
  | .complete (.closed op res) => inferInstanceAs (Decidable (op ∈ r.recvs ∧ res ≤ 0))
  | .complete (.send slot) => inferInstanceAs (Decidable (slot ∈ r.done))
  | .out _ _ => isTrue trivial
  | .submit => isTrue trivial
  | .kernel _ => isTrue trivial

/-- A client connects on descriptor 5 and sends a byte; an ack for it is prepared, the client's
    recv fails, its descriptor is given to another client, and then the send completes. -/
def reusedDescriptor : List ReactorAct :=
  [.complete (.accept 5 true), .complete (.recv ⟨5, 0⟩ (.single 24)),
    .out firstAck 0, .submit, .complete (.closed ⟨5, 0⟩ 0),
    .complete (.accept 5 false), .kernel (.exec 0 24), .complete (.send 511)]

theorem buffers_exclusively_owned_reused_descriptor :
    ∃ r, run (Reactor.step fun (n : Nat) _ => (n + 1, true)) (Reactor.init 0 false)
      reusedDescriptor = .ok r ∧ Owned r := by
  obtain ⟨r, hrun, howned, -⟩ := buffers_exclusively_owned (fun (n : Nat) _ => (n + 1, true)) 0
    false reusedDescriptor (along_of_check (p := fun r act => decide (r.KernelOk act))
      (fun _ _ h => of_decide_eq_true h) (by decide +kernel))
  exact ⟨r, hrun, howned⟩

end Run

end LiteExchange.Net
