/-
  What the two gateways have in common: the table of sessions by descriptor, the map from session
  ids back to descriptors, the counter of ids, and the reading of a chunk into a session
  (`net/gateway.hpp`, `net/uring_gateway.hpp`).

  Beside the tables stands the `Wire`, the record of an observer at the sockets. It numbers the
  connections as they are accepted, so that a descriptor used again is a different connection, and
  keeps what each of them sent and got. No code reads it.

  `Tracks`: the tables agree with the wire. Accepting, reading and closing keep this
  (`Tracks.accept`, `Tracks.close`, `Tracks.put`).
-/
import LiteExchange.Net.Session

namespace LiteExchange.Net

open Lib Proto

/-! ## The tables -/

/-- `sessions_` or `conns_`, `sid_to_fd_` and `next_session_id_`. -/
structure Conns where
  nextSessionId : UInt32
  sessions : Nat → Option Session
  sidToFd : UInt32 → Option Nat

def Conns.init : Conns := ⟨1, fun _ => none, fun _ => none⟩

/-- A descriptor that `accept` returned. `try_emplace` leaves an entry that exists. -/
def Conns.accept (c : Conns) (fd : Nat) : Conns where
  nextSessionId := c.nextSessionId + 1
  sessions := match c.sessions fd with
    | none => Function.update c.sessions fd (some (Session.init c.nextSessionId))
    | some _ => c.sessions
  sidToFd := Function.update c.sidToFd c.nextSessionId (some fd)

/-- `close_session(fd)`, `close_conn(fd)`. -/
def Conns.close (c : Conns) (fd : Nat) : Conns where
  nextSessionId := c.nextSessionId
  sessions := Function.update c.sessions fd none
  sidToFd := match c.sessions fd with
    | none => c.sidToFd
    | some s => Function.update c.sidToFd s.sessionId none

/-- The session of a descriptor after it was changed in place. -/
def Conns.put (c : Conns) (fd : Nat) (s : Session) : Conns :=
  { c with sessions := Function.update c.sessions fd (some s) }

/-! ## The wire -/

/-- A connection: the id it was given at its accept and whether it is open; the bytes received
    from it, those `consume` has used and the messages accepted from it; the messages popped for
    its session while it is open, what each `send` on it has taken, and whether one has taken
    nothing. -/
structure Peer where
  sid : UInt32
  live : Bool
  received : List UInt8
  consumed : List UInt8
  pushed : List InboundMsg
  addressed : List OutboundMsg
  got : List (List UInt8)
  failed : Bool

def Peer.init (sid : UInt32) (live : Bool) : Peer := ⟨sid, live, [], [], [], [], [], false⟩

/-- The connections in the order of their accepts, and the one open on each descriptor. -/
structure Wire where
  accepts : Nat
  onFd : Nat → Option Nat
  peer : Nat → Peer

def Wire.init : Wire := ⟨0, fun _ => none, fun _ => Peer.init 0 false⟩

def Wire.accept (w : Wire) (fd : Nat) (sid : UInt32) : Wire where
  accepts := w.accepts + 1
  onFd := Function.update w.onFd fd (some w.accepts)
  peer := Function.update w.peer w.accepts (Peer.init sid true)

/-- Something happens to the connection open on a descriptor. -/
def Wire.on (w : Wire) (fd : Nat) (g : Peer → Peer) : Wire :=
  match w.onFd fd with
  | none => w
  | some k => { w with peer := Function.update w.peer k (g (w.peer k)) }

def Wire.close (w : Wire) (fd : Nat) : Wire :=
  { w.on fd fun p => { p with live := false } with onFd := Function.update w.onFd fd none }

/-- A chunk is received; `consume` uses bytes and has messages accepted. -/
def Wire.read (w : Wire) (fd : Nat) (chunk used : List UInt8) (msgs : List InboundMsg) : Wire :=
  w.on fd fun p =>
    { p with
      received := p.received ++ chunk
      consumed := p.consumed ++ used
      pushed := p.pushed ++ msgs }

/-- A message is popped for a session. -/
def Wire.pop (w : Wire) (m : OutboundMsg) : Wire :=
  { w with peer := fun k =>
      if (w.peer k).live = true ∧ (w.peer k).sid = m.hdr.sessionId then
        { w.peer k with addressed := (w.peer k).addressed ++ [m] }
      else w.peer k }

/-- A `send` takes some bytes, or none if it fails. -/
def Wire.send (w : Wire) (fd : Nat) (bytes : List UInt8) : Wire :=
  w.on fd fun p => { p with got := p.got ++ [bytes], failed := p.failed || bytes.isEmpty }

/-! ## Tables and wire -/

/-- A gateway's tables and what goes over its sockets. -/
structure Host where
  conns : Conns
  wire : Wire

def Host.init : Host := ⟨Conns.init, Wire.init⟩

def Host.accept (h : Host) (fd : Nat) : Host :=
  ⟨h.conns.accept fd, h.wire.accept fd h.conns.nextSessionId⟩

def Host.close (h : Host) (fd : Nat) : Host := ⟨h.conns.close fd, h.wire.close fd⟩

/-- What one `recv` delivers: at least a byte, and no more than the buffer it is given. -/
structure Chunk where
  bytes : List UInt8
  pos : bytes ≠ []
  fits : bytes.length ≤ 4096

/-- A chunk of one byte. -/
def Chunk.single (b : UInt8) : Chunk := ⟨[b], List.cons_ne_nil b [], Nat.le_add_left 1 4095⟩

/-- An Ack for the first session. -/
def firstAck : OutboundMsg := .ack ⟨⟨24, .ack, 0, 1⟩, 7, 9⟩

/-- A shard that takes everything. -/
def takeAll (q : Unit) (_ : InboundMsg) : Unit × Bool := (q, true)

variable {σ : Type}

/-- `append(buf, r)` and `consume(q)` on the session of a descriptor. -/
def Host.read (push : σ → InboundMsg → σ × Bool) (h : Host) (fd : Nat) (chunk : List UInt8)
    (q : σ) : Except Fault (Host × σ) :=
  match h.conns.sessions fd with
  | none => .ok (h, q)
  | some s => do
    let s₁ := s.append chunk
    let (s₂, q', _) ← s₁.consume (logged push) (q, [])
    let used := s₁.recv.take (s₁.recv.length - s₂.recv.length)
    return (⟨h.conns.put fd s₂, h.wire.read fd chunk used q'.2⟩, q'.1)

/-- Descriptors, sessions and connections correspond. -/
structure Tracks (h : Host) : Prop where
  open_iff : ∀ fd, h.wire.onFd fd = none ↔ h.conns.sessions fd = none
  stamped : ∀ fd k s, h.wire.onFd fd = some k → h.conns.sessions fd = some s →
    s.sessionId = (h.wire.peer k).sid
  inj : ∀ fd fd' k, h.wire.onFd fd = some k → h.wire.onFd fd' = some k → fd = fd'
  lt : ∀ fd k, h.wire.onFd fd = some k → k < h.wire.accepts
  live : ∀ k, (h.wire.peer k).live = true ↔ ∃ fd, h.wire.onFd fd = some k
  next : h.conns.nextSessionId = UInt32.ofNat (h.wire.accepts + 1)
  ids : ∀ k < h.wire.accepts, (h.wire.peer k).sid = UInt32.ofNat (k + 1)
  route : ∀ s fd, h.conns.sidToFd s = some fd →
    ∃ k, h.wire.onFd fd = some k ∧ (h.wire.peer k).sid = s
  found : h.wire.accepts < 2 ^ 32 → ∀ fd k, h.wire.onFd fd = some k →
    h.conns.sidToFd (h.wire.peer k).sid = some fd

section Tracks

variable {h : Host} {fd k : Nat}

theorem tracks_init : Tracks Host.init where
  open_iff := fun _ => ⟨fun _ => rfl, fun _ => rfl⟩
  stamped := nofun
  inj := nofun
  lt := nofun
  live := fun _ => ⟨nofun, nofun⟩
  next := rfl
  ids := nofun
  route := nofun
  found := nofun

/-- Ids of different connections differ as long as the counter has not come round. -/
theorem ids_inj {j k n : Nat} (hn : n < 2 ^ 32) (hj : j < n) (hk : k < n)
    (h : UInt32.ofNat (j + 1) = UInt32.ofNat (k + 1)) : j = k := by
  have hmod := congrArg UInt32.toNat h
  rw [UInt32.toNat_ofNat', UInt32.toNat_ofNat', Nat.mod_eq_of_lt (by omega),
    Nat.mod_eq_of_lt (by omega)] at hmod
  omega

/-- Two wires with the same connections, which may have sent and got different things. -/
structure Wire.Same (w w' : Wire) : Prop where
  accepts : w'.accepts = w.accepts
  onFd : w'.onFd = w.onFd
  sid : ∀ k, (w'.peer k).sid = (w.peer k).sid
  live : ∀ k, (w'.peer k).live = (w.peer k).live

theorem Wire.Same.refl (w : Wire) : w.Same w := ⟨rfl, rfl, fun _ => rfl, fun _ => rfl⟩

theorem Wire.Same.trans {w w' w'' : Wire} (h : w.Same w') (h' : w'.Same w'') : w.Same w'' where
  accepts := h'.accepts.trans h.accepts
  onFd := h'.onFd.trans h.onFd
  sid := fun k => (h'.sid k).trans (h.sid k)
  live := fun k => (h'.live k).trans (h.live k)

theorem Wire.on_onFd (w : Wire) (fd : Nat) (g : Peer → Peer) : (w.on fd g).onFd = w.onFd := by
  unfold Wire.on
  split <;> rfl

theorem Wire.on_accepts (w : Wire) (fd : Nat) (g : Peer → Peer) :
    (w.on fd g).accepts = w.accepts := by
  unfold Wire.on
  split <;> rfl

theorem Wire.on_peer_self {w : Wire} (hfd : w.onFd fd = some k) (g : Peer → Peer) :
    (w.on fd g).peer k = g (w.peer k) := by
  unfold Wire.on
  rw [hfd]
  exact Function.update_self ..

theorem Wire.on_peer_other {w : Wire} (hfd : w.onFd fd ≠ some k) (g : Peer → Peer) :
    (w.on fd g).peer k = w.peer k := by
  unfold Wire.on
  split
  · rfl
  · rename_i j hj
    exact Function.update_of_ne (fun (e : k = j) => hfd (e ▸ hj)) ..

theorem Wire.same_on (w : Wire) (fd : Nat) {g : Peer → Peer} (hsid : ∀ p, (g p).sid = p.sid)
    (hlive : ∀ p, (g p).live = p.live) : w.Same (w.on fd g) := by
  refine ⟨w.on_accepts fd g, w.on_onFd fd g, fun k => ?_, fun k => ?_⟩
  all_goals
    by_cases hfd : w.onFd fd = some k
    · rw [Wire.on_peer_self hfd]
      simp only [hsid, hlive]
    · rw [Wire.on_peer_other hfd]

theorem Wire.same_read (w : Wire) (fd : Nat) (chunk used : List UInt8) (msgs : List InboundMsg) :
    w.Same (w.read fd chunk used msgs) :=
  w.same_on fd (fun _ => rfl) (fun _ => rfl)

theorem Wire.same_send (w : Wire) (fd : Nat) (bytes : List UInt8) : w.Same (w.send fd bytes) :=
  w.same_on fd (fun _ => rfl) (fun _ => rfl)

theorem Wire.same_pop (w : Wire) (m : OutboundMsg) : w.Same (w.pop m) := by
  refine ⟨rfl, rfl, fun k => ?_, fun k => ?_⟩
  all_goals
    unfold Wire.pop
    dsimp only
    split <;> rfl

theorem Tracks.same (ht : Tracks h) {w : Wire} (hsame : h.wire.Same w) :
    Tracks ⟨h.conns, w⟩ where
  open_iff := hsame.onFd ▸ ht.open_iff
  stamped := fun fd k s hk hs => by
    rw [hsame.sid]
    exact ht.stamped fd k s (hsame.onFd ▸ hk) hs
  inj := hsame.onFd ▸ ht.inj
  lt := hsame.onFd ▸ hsame.accepts ▸ ht.lt
  live := fun k => by
    rw [hsame.live, ht.live k, hsame.onFd]
  next := by
    rw [hsame.accepts]
    exact ht.next
  ids := fun k hk => by
    rw [hsame.sid]
    exact ht.ids k (hsame.accepts ▸ hk)
  route := fun s fd hs => by
    obtain ⟨k, hk, hsid⟩ := ht.route s fd hs
    exact ⟨k, by rw [hsame.onFd, hk], by rw [hsame.sid, hsid]⟩
  found := fun hn fd k hk => by
    rw [hsame.sid]
    exact ht.found (hsame.accepts ▸ hn) fd k (hsame.onFd ▸ hk)

/-- A session changed in place. -/
theorem Tracks.put (ht : Tracks h) {s s' : Session} (hs : h.conns.sessions fd = some s)
    (hid : s'.sessionId = s.sessionId) : Tracks ⟨h.conns.put fd s', h.wire⟩ where
  open_iff := fun fd' => by
    unfold Conns.put
    dsimp only
    rcases eq_or_ne fd' fd with rfl | hne
    · rw [Function.update_self, ht.open_iff, hs]
      simp
    · rw [Function.update_of_ne hne, ht.open_iff]
  stamped := fun fd' k s₁ hk hs₁ => by
    unfold Conns.put at hs₁
    dsimp only at hs₁
    rcases eq_or_ne fd' fd with rfl | hne
    · rw [Function.update_self] at hs₁
      cases hs₁
      rw [hid]
      exact ht.stamped _ k s hk hs
    · rw [Function.update_of_ne hne] at hs₁
      exact ht.stamped fd' k s₁ hk hs₁
  inj := ht.inj
  lt := ht.lt
  live := ht.live
  next := ht.next
  ids := ht.ids
  route := ht.route
  found := ht.found

theorem Wire.accept_onFd {w : Wire} {sid : UInt32} {fd' : Nat} :
    (w.accept fd sid).onFd fd' = some k ↔
      (fd' = fd ∧ k = w.accepts) ∨ (fd' ≠ fd ∧ w.onFd fd' = some k) := by
  unfold Wire.accept
  dsimp only
  rcases eq_or_ne fd' fd with rfl | hne
  · rw [Function.update_self]
    simp [eq_comm]
  · rw [Function.update_of_ne hne]
    simp [hne]

theorem Wire.accept_peer_new (w : Wire) (fd : Nat) (sid : UInt32) :
    (w.accept fd sid).peer w.accepts = Peer.init sid true := Function.update_self ..

theorem Wire.accept_peer_old {w : Wire} (hk : k < w.accepts) (fd : Nat) (sid : UInt32) :
    (w.accept fd sid).peer k = w.peer k := Function.update_of_ne (Nat.ne_of_lt hk) ..

theorem Conns.accept_sessions {c : Conns} (hfd : c.sessions fd = none) :
    (c.accept fd).sessions =
      Function.update c.sessions fd (some (Session.init c.nextSessionId)) := by
  unfold Conns.accept
  rw [hfd]

/-- The other connections stay on their descriptors. -/
theorem Wire.accept_onFd_old {w : Wire} (hfd : w.onFd fd = none) {fd' : Nat}
    (hk : w.onFd fd' = some k) (sid : UInt32) : (w.accept fd sid).onFd fd' = some k := by
  refine Wire.accept_onFd.mpr (.inr ⟨?_, hk⟩)
  rintro rfl
  rw [hfd] at hk
  cases hk

theorem Wire.accept_onFd_new (w : Wire) (fd : Nat) (sid : UInt32) :
    (w.accept fd sid).onFd fd = some w.accepts := Wire.accept_onFd.mpr (.inl ⟨rfl, rfl⟩)

theorem Tracks.accept_live (ht : Tracks h) (hfd : h.wire.onFd fd = none) (sid : UInt32) (k : Nat) :
    ((h.wire.accept fd sid).peer k).live = true ↔
      ∃ fd', (h.wire.accept fd sid).onFd fd' = some k := by
  rcases eq_or_ne k h.wire.accepts with rfl | hne
  · rw [Wire.accept_peer_new]
    exact iff_of_true rfl ⟨fd, h.wire.accept_onFd_new fd sid⟩
  · have hpeer : (h.wire.accept fd sid).peer k = h.wire.peer k := Function.update_of_ne hne ..
    rw [hpeer, ht.live k]
    constructor
    · intro ⟨fd', hk⟩
      exact ⟨fd', Wire.accept_onFd_old hfd hk sid⟩
    · intro ⟨fd', hk⟩
      rcases Wire.accept_onFd.mp hk with ⟨-, rfl⟩ | ⟨-, hk⟩
      · exact absurd rfl hne
      · exact ⟨fd', hk⟩

/-- An entry of the routing table is the new one or an old one. -/
theorem Tracks.accept_route (ht : Tracks h) (hfd : h.wire.onFd fd = none) {s : UInt32} {fd' : Nat}
    (hs : (h.conns.accept fd).sidToFd s = some fd') :
    ∃ k, (h.wire.accept fd h.conns.nextSessionId).onFd fd' = some k ∧
      ((h.wire.accept fd h.conns.nextSessionId).peer k).sid = s := by
  unfold Conns.accept at hs
  dsimp only at hs
  rcases eq_or_ne s h.conns.nextSessionId with rfl | hne
  · rw [Function.update_self] at hs
    cases hs
    refine ⟨h.wire.accepts, h.wire.accept_onFd_new fd _, ?_⟩
    rw [Wire.accept_peer_new]
    rfl
  · rw [Function.update_of_ne hne] at hs
    obtain ⟨k, hk, hsid⟩ := ht.route s fd' hs
    refine ⟨k, Wire.accept_onFd_old hfd hk _, ?_⟩
    rw [Wire.accept_peer_old (ht.lt fd' k hk), hsid]

/-- The new entry hides no other, as long as the counter has not come round. -/
theorem Tracks.accept_found (ht : Tracks h) (hn : h.wire.accepts + 1 < 2 ^ 32) {fd' : Nat}
    (hk : (h.wire.accept fd h.conns.nextSessionId).onFd fd' = some k) :
    (h.conns.accept fd).sidToFd ((h.wire.accept fd h.conns.nextSessionId).peer k).sid =
      some fd' := by
  unfold Conns.accept
  dsimp only
  rcases Wire.accept_onFd.mp hk with ⟨rfl, rfl⟩ | ⟨-, hk⟩
  · rw [Wire.accept_peer_new]
    exact Function.update_self ..
  · have hlt := ht.lt fd' k hk
    rw [Wire.accept_peer_old hlt, Function.update_of_ne, ht.found (by omega) fd' k hk]
    rw [ht.ids k hlt, ht.next]
    intro he
    have hk' := ids_inj hn (by omega) (by omega) he
    omega

/-- A new connection on a descriptor that is not open. -/
theorem Tracks.accept (ht : Tracks h) (hfd : h.wire.onFd fd = none) : Tracks (h.accept fd) := by
  have hsessions := Conns.accept_sessions ((ht.open_iff fd).mp hfd)
  unfold Host.accept
  refine ⟨fun fd' => ?_, fun fd' k s hk hs => ?_, fun fd₁ fd₂ k h₁ h₂ => ?_, fun fd' k hk => ?_,
    ht.accept_live hfd _, ?_, fun k hk => ?_, fun s fd' hs => ht.accept_route hfd hs,
    fun hn fd' k hk => ht.accept_found hn hk⟩ <;> dsimp only at *
  · rw [hsessions]
    unfold Wire.accept
    dsimp only
    rcases eq_or_ne fd' fd with rfl | hne
    · simp
    · rw [Function.update_of_ne hne, Function.update_of_ne hne, ht.open_iff]
  · rw [hsessions] at hs
    rcases Wire.accept_onFd.mp hk with ⟨rfl, rfl⟩ | ⟨hne, hk⟩
    · rw [Function.update_self] at hs
      cases hs
      rw [Wire.accept_peer_new]
      rfl
    · rw [Function.update_of_ne hne] at hs
      rw [Wire.accept_peer_old (ht.lt fd' k hk)]
      exact ht.stamped fd' k s hk hs
  · rcases Wire.accept_onFd.mp h₁ with ⟨hfd₁, hk₁⟩ | ⟨-, hk₁⟩
    · rcases Wire.accept_onFd.mp h₂ with ⟨hfd₂, -⟩ | ⟨-, hk₂⟩
      · rw [hfd₁, hfd₂]
      · exact absurd (ht.lt _ _ hk₂) (by omega)
    · rcases Wire.accept_onFd.mp h₂ with ⟨-, hk₂⟩ | ⟨-, hk₂⟩
      · exact absurd (ht.lt _ _ hk₁) (by omega)
      · exact ht.inj fd₁ fd₂ k hk₁ hk₂
  · rcases Wire.accept_onFd.mp hk with ⟨-, rfl⟩ | ⟨-, hk⟩
    · exact Nat.lt_succ_self _
    · exact Nat.lt_succ_of_lt (ht.lt fd' k hk)
  · unfold Conns.accept Wire.accept
    dsimp only
    rw [ht.next]
    exact (UInt32.ofNat_add ..).symm
  · rcases Nat.lt_succ_iff_lt_or_eq.mp hk with hk | rfl
    · rw [Wire.accept_peer_old hk, ht.ids k hk]
    · rw [Wire.accept_peer_new]
      exact ht.next

theorem Tracks.exists_session (ht : Tracks h) (hk : h.wire.onFd fd = some k) :
    ∃ s, h.conns.sessions fd = some s ∧ s.sessionId = (h.wire.peer k).sid := by
  cases hs : h.conns.sessions fd with
  | none => rw [(ht.open_iff fd).mpr hs] at hk; cases hk
  | some s => exact ⟨s, rfl, ht.stamped fd k s hk hs⟩

theorem Tracks.exists_conn (ht : Tracks h) {s : Session} (hs : h.conns.sessions fd = some s) :
    ∃ k, h.wire.onFd fd = some k := by
  cases hk : h.wire.onFd fd with
  | none => rw [(ht.open_iff fd).mp hk] at hs; cases hs
  | some k => exact ⟨k, rfl⟩

theorem Wire.close_onFd {w : Wire} {fd' : Nat} :
    (w.close fd).onFd fd' = some k ↔ fd' ≠ fd ∧ w.onFd fd' = some k := by
  unfold Wire.close
  dsimp only
  rcases eq_or_ne fd' fd with rfl | hne
  · rw [Function.update_self]
    simp
  · rw [Function.update_of_ne hne]
    simp [hne]

theorem Wire.close_peer_other {w : Wire} (hfd : w.onFd fd ≠ some k) :
    (w.close fd).peer k = w.peer k := w.on_peer_other hfd _

theorem Wire.close_peer_self {w : Wire} (hfd : w.onFd fd = some k) :
    (w.close fd).peer k = { w.peer k with live := false } := Wire.on_peer_self hfd _

theorem Wire.close_sid (w : Wire) (fd k : Nat) : ((w.close fd).peer k).sid = (w.peer k).sid := by
  by_cases hfd : w.onFd fd = some k
  · rw [Wire.close_peer_self hfd]
  · rw [Wire.close_peer_other hfd]

theorem Wire.close_accepts (w : Wire) (fd : Nat) : (w.close fd).accepts = w.accepts :=
  w.on_accepts fd _

theorem Conns.close_sidToFd {c : Conns} {s : UInt32} {fd' : Nat} :
    (c.close fd).sidToFd s = some fd' ↔
      c.sidToFd s = some fd' ∧ ∀ s₀, c.sessions fd = some s₀ → s₀.sessionId ≠ s := by
  unfold Conns.close
  cases hs : c.sessions fd with
  | none => simp
  | some s₀ =>
    dsimp only
    rcases eq_or_ne s s₀.sessionId with rfl | hne
    · simp
    · rw [Function.update_of_ne hne]
      simp [hne.symm]

theorem Tracks.close_live (ht : Tracks h) (fd k : Nat) :
    ((h.wire.close fd).peer k).live = true ↔ ∃ fd', (h.wire.close fd).onFd fd' = some k := by
  by_cases hfd : h.wire.onFd fd = some k
  · refine iff_of_false (by rw [Wire.close_peer_self hfd]; simp) ?_
    intro ⟨fd', hk⟩
    obtain ⟨hne, hk⟩ := Wire.close_onFd.mp hk
    exact hne (ht.inj fd' fd k hk hfd)
  · rw [Wire.close_peer_other hfd, ht.live k]
    constructor
    · intro ⟨fd', hk⟩
      exact ⟨fd', Wire.close_onFd.mpr ⟨fun e => hfd (e ▸ hk), hk⟩⟩
    · intro ⟨fd', hk⟩
      exact ⟨fd', (Wire.close_onFd.mp hk).2⟩

/-- The entry of the closed session is the only one that leaves the routing table. -/
theorem Tracks.close_found (ht : Tracks h) (hn : h.wire.accepts < 2 ^ 32) {fd' : Nat}
    (hk : (h.wire.close fd).onFd fd' = some k) :
    (h.conns.close fd).sidToFd (h.wire.peer k).sid = some fd' := by
  obtain ⟨hfd, hk⟩ := Wire.close_onFd.mp hk
  refine Conns.close_sidToFd.mpr ⟨ht.found hn fd' k hk, fun s₀ hs₀ hid => ?_⟩
  -- the two connections would have the same id
  obtain ⟨k₀, hk₀⟩ := ht.exists_conn hs₀
  have hlt := ht.lt fd' k hk
  have hlt₀ := ht.lt fd k₀ hk₀
  rw [ht.stamped fd k₀ s₀ hk₀ hs₀, ht.ids k hlt, ht.ids k₀ hlt₀] at hid
  obtain rfl := ids_inj hn hlt₀ hlt hid
  exact hfd (ht.inj fd' fd _ hk hk₀)

/-- A connection that is closed. -/
theorem Tracks.close (ht : Tracks h) (fd : Nat) : Tracks (h.close fd) := by
  unfold Host.close
  refine ⟨fun fd' => ?_, fun fd' k s hk hs => ?_, fun fd₁ fd₂ k h₁ h₂ => ?_, fun fd' k hk => ?_,
    ht.close_live fd, ?_, fun k hk => ?_, fun s fd' hs => ?_, fun hn fd' k hk => ?_⟩ <;>
    dsimp only at *
  · unfold Wire.close Conns.close
    dsimp only
    rcases eq_or_ne fd' fd with rfl | hne
    · simp
    · rw [Function.update_of_ne hne, Function.update_of_ne hne, ht.open_iff]
  · obtain ⟨hne, hk⟩ := Wire.close_onFd.mp hk
    unfold Conns.close at hs
    dsimp only at hs
    rw [Function.update_of_ne hne] at hs
    rw [Wire.close_sid]
    exact ht.stamped fd' k s hk hs
  · exact ht.inj fd₁ fd₂ k (Wire.close_onFd.mp h₁).2 (Wire.close_onFd.mp h₂).2
  · rw [Wire.close_accepts]
    exact ht.lt fd' k (Wire.close_onFd.mp hk).2
  · rw [Wire.close_accepts]
    exact ht.next
  · rw [Wire.close_accepts] at hk
    rw [Wire.close_sid, ht.ids k hk]
  · obtain ⟨hs, hne⟩ := Conns.close_sidToFd.mp hs
    obtain ⟨k, hk, hsid⟩ := ht.route s fd' hs
    refine ⟨k, Wire.close_onFd.mpr ⟨?_, hk⟩, by rw [Wire.close_sid, hsid]⟩
    rintro rfl
    obtain ⟨s₀, hs₀, hid⟩ := ht.exists_session hk
    exact hne s₀ hs₀ (hid.trans hsid)
  · rw [Wire.close_accepts] at hn
    rw [Wire.close_sid]
    exact ht.close_found hn hk

end Tracks

/-! ## Reading a chunk -/

section Read

variable {push : σ → InboundMsg → σ × Bool} {h : Host} {fd : Nat} {s : Session} {q : σ}

theorem Host.read_none (hs : h.conns.sessions fd = none) (chunk : List UInt8) :
    h.read push fd chunk q = .ok (h, q) := by
  unfold Host.read
  rw [hs]

/-- The session takes frames off its buffer, unless it was closed before. -/
theorem Host.read_some (push : σ → InboundMsg → σ × Bool) (hs : h.conns.sessions fd = some s)
    (chunk : List UInt8) (q : σ) :
    ∃ s' q' used msgs,
      h.read push fd chunk q =
        .ok (⟨h.conns.put fd s', h.wire.read fd chunk used msgs⟩, q') ∧
      s'.sessionId = s.sessionId ∧ (s.append chunk).recv = used ++ s'.recv ∧
      ((s.closed = true ∧ s'.closed = true ∧ msgs = [] ∧ q' = q ∧ used = []) ∨
        (s.closed = false ∧ Takes (logged push) s.sessionId (s.append chunk).recv (q, []) used
          msgs s'.recv (q', msgs) s'.closed)) := by
  obtain ⟨s', q', count, heq, hid, hcase⟩ := (s.append chunk).consume_spec (logged push) (q, [])
  have hread : ∀ used, (s.append chunk).recv = used ++ s'.recv →
      h.read push fd chunk q =
        .ok (⟨h.conns.put fd s', h.wire.read fd chunk used q'.2⟩, q'.1) := by
    intro used hsplit
    have htake : (s.append chunk).recv.take
        ((s.append chunk).recv.length - s'.recv.length) = used := by
      rw [hsplit, List.length_append, Nat.add_sub_cancel, List.take_left]
    unfold Host.read
    simp only [hs, heq, ok_bind, htake]
    rfl
  obtain ⟨hclosed, rfl, rfl⟩ | ⟨hopen, used, xs, htakes⟩ := hcase
  · exact ⟨_, q, [], [], hread [] rfl, rfl, rfl, .inl ⟨hclosed, hclosed, rfl, rfl, rfl⟩⟩
  · have hmsgs : q'.2 = xs := htakes.accepted
    subst hmsgs
    exact ⟨s', q'.1, used, q'.2, hread used htakes.split, hid, htakes.split,
      .inr ⟨hopen, htakes⟩⟩

/-- What a read can have done. -/
theorem Host.of_read {chunk : List UInt8} {h' : Host} {q' : σ}
    (heq : h.read push fd chunk q = .ok (h', q')) :
    (h.conns.sessions fd = none ∧ h' = h) ∨ ∃ s s' used msgs, h.conns.sessions fd = some s ∧
      s'.sessionId = s.sessionId ∧ (s.append chunk).recv = used ++ s'.recv ∧
      (s.closed = true → s'.closed = true) ∧
      h' = ⟨h.conns.put fd s', h.wire.read fd chunk used msgs⟩ := by
  cases hs : h.conns.sessions fd with
  | none =>
    rw [Host.read_none hs] at heq
    cases heq
    exact .inl ⟨rfl, rfl⟩
  | some s =>
    obtain ⟨s', q₁, used, msgs, heq₁, hid, hsplit, hcase⟩ := Host.read_some push hs chunk q
    rw [heq] at heq₁
    cases heq₁
    refine .inr ⟨s, s', used, msgs, rfl, hid, hsplit, fun hclosed => ?_, rfl⟩
    obtain ⟨-, hclosed', -⟩ | ⟨hopen, -⟩ := hcase
    · exact hclosed'
    · rw [hopen] at hclosed
      cases hclosed

/-- A read takes whole frames, whose messages carry the session's id, and what the pushes keep of
    the shards and the messages accepted so far, it keeps. -/
structure ReadTakes (push : σ → InboundMsg → σ × Bool) (sid : UInt32) (q : σ) (used : List UInt8)
    (msgs : List InboundMsg) (q' : σ) : Prop where
  whole : (frames sid).Whole used msgs
  stamped : ∀ x ∈ msgs, x.hdr.sessionId = sid
  keeps : ∀ J : σ × List InboundMsg → Prop, (∀ q x, J q → J (logged push q x).1) → J (q, []) →
    J (q', msgs)

theorem Host.read_takes {chunk : List UInt8} {h' : Host} {q' : σ}
    (heq : h.read push fd chunk q = .ok (h', q')) :
    (h' = h ∧ q' = q) ∨ ∃ s s' used msgs, h.conns.sessions fd = some s ∧
      s'.sessionId = s.sessionId ∧ ReadTakes push s.sessionId q used msgs q' ∧
      h' = ⟨h.conns.put fd s', h.wire.read fd chunk used msgs⟩ := by
  cases hs : h.conns.sessions fd with
  | none =>
    rw [Host.read_none hs] at heq
    cases heq
    exact .inl ⟨rfl, rfl⟩
  | some s =>
    obtain ⟨s', q₁, used, msgs, heq₁, hid, -, hcase⟩ := Host.read_some push hs chunk q
    rw [heq] at heq₁
    cases heq₁
    refine .inr ⟨s, s', used, msgs, rfl, hid, ?_, rfl⟩
    obtain ⟨-, -, rfl, rfl, rfl⟩ | ⟨-, htakes⟩ := hcase
    · exact ⟨Framer.whole_nil, nofun, fun _ _ hJ => hJ⟩
    · exact ⟨htakes.whole, htakes.stamped, fun J hpush hJ => htakes.keeps hpush hJ⟩

theorem Host.read_same {chunk : List UInt8} {h' : Host} {q' : σ}
    (heq : h.read push fd chunk q = .ok (h', q')) : h.wire.Same h'.wire := by
  obtain ⟨-, rfl⟩ | ⟨s, s', used, msgs, -, -, -, -, rfl⟩ := Host.of_read heq
  · exact .refl _
  · exact h.wire.same_read fd chunk used msgs

theorem Tracks.read (ht : Tracks h) {chunk : List UInt8} {h' : Host} {q' : σ}
    (heq : h.read push fd chunk q = .ok (h', q')) : Tracks h' := by
  obtain ⟨-, rfl⟩ | ⟨s, s', used, msgs, hs, hid, -, -, rfl⟩ := Host.of_read heq
  · exact ht
  · exact (ht.put hs hid).same (h.wire.same_read fd chunk used msgs)

/-- Reading never faults. -/
theorem Host.read_ok (push : σ → InboundMsg → σ × Bool) (h : Host) (fd : Nat)
    (chunk : List UInt8) (q : σ) : ∃ h' q', h.read push fd chunk q = .ok (h', q') := by
  cases hs : h.conns.sessions fd with
  | none => exact ⟨h, q, Host.read_none hs chunk⟩
  | some s =>
    obtain ⟨s', q', used, msgs, heq, -⟩ := Host.read_some push hs chunk q
    exact ⟨_, q', heq⟩

theorem Wire.read_peer_other {w : Wire} {k : Nat} (hfd : w.onFd fd ≠ some k)
    (chunk used : List UInt8) (msgs : List InboundMsg) :
    (w.read fd chunk used msgs).peer k = w.peer k :=
  Wire.on_peer_other hfd _

theorem Wire.read_peer_self {w : Wire} {k : Nat} (hfd : w.onFd fd = some k)
    (chunk used : List UInt8) (msgs : List InboundMsg) :
    (w.read fd chunk used msgs).peer k =
      { w.peer k with
        received := (w.peer k).received ++ chunk
        consumed := (w.peer k).consumed ++ used
        pushed := (w.peer k).pushed ++ msgs } :=
  Wire.on_peer_self hfd _

end Read

/-! ## The outbound side -/

section Outbound

variable {push : σ → InboundMsg → σ × Bool} {h h' : Host} {fd fd' k : Nat} {q q' : σ}

/-- The session of the connection on a descriptor leads back to it. -/
def Host.Routed (h : Host) (fd k : Nat) : Prop :=
  h.wire.onFd fd = some k ∧ h.conns.sidToFd (h.wire.peer k).sid = some fd

/-- Nothing changes in what a connection is sent. -/
structure Peer.SameOut (p p' : Peer) : Prop where
  sid : p'.sid = p.sid
  addressed : p'.addressed = p.addressed
  got : p'.got = p.got
  failed : p'.failed = p.failed

theorem Host.accept_peer_old (h : Host) (fd : Nat) (hk : k ≠ h.wire.accepts) :
    (h.accept fd).wire.peer k = h.wire.peer k := Function.update_of_ne hk ..

theorem Host.accept_peer_new (h : Host) (fd : Nat) :
    (h.accept fd).wire.peer h.wire.accepts = Peer.init h.conns.nextSessionId true :=
  Wire.accept_peer_new ..

theorem Host.Routed.of_accept (hk : k ≠ h.wire.accepts) (hr : (h.accept fd).Routed fd' k) :
    h.Routed fd' k := by
  obtain ⟨hon, hroute⟩ := hr
  rw [h.accept_peer_old fd hk] at hroute
  rcases Wire.accept_onFd.mp hon with ⟨-, hnew⟩ | ⟨hne, hon⟩
  · exact absurd hnew hk
  refine ⟨hon, ?_⟩
  rcases eq_or_ne (h.wire.peer k).sid h.conns.nextSessionId with hsid | hsid
  · -- the id has come round: it leads to the new connection now
    have hnew : (h.accept fd).conns.sidToFd (h.wire.peer k).sid = some fd := by
      rw [hsid]
      exact Function.update_self ..
    exact absurd (Option.some_inj.mp (hroute.symm.trans hnew)) hne
  · exact (Function.update_of_ne hsid ..).symm.trans hroute

theorem Host.Routed.of_close (hr : (h.close fd).Routed fd' k) : h.Routed fd' k := by
  obtain ⟨hon, hroute⟩ := hr
  have hsid : ((h.close fd).wire.peer k).sid = (h.wire.peer k).sid := h.wire.close_sid fd k
  rw [hsid] at hroute
  exact ⟨(Wire.close_onFd.mp hon).2, (Conns.close_sidToFd.mp hroute).1⟩

theorem Host.close_sameOut (h : Host) (fd k : Nat) :
    (h.wire.peer k).SameOut ((h.close fd).wire.peer k) := by
  unfold Host.close
  by_cases hfd : h.wire.onFd fd = some k
  · rw [Wire.close_peer_self hfd]
    exact ⟨rfl, rfl, rfl, rfl⟩
  · rw [Wire.close_peer_other hfd]
    exact ⟨rfl, rfl, rfl, rfl⟩

theorem Host.Routed.of_read {chunk : List UInt8} (heq : h.read push fd chunk q = .ok (h', q'))
    (hr : h'.Routed fd' k) : h.Routed fd' k := by
  obtain ⟨-, rfl⟩ | ⟨s, s', used, msgs, -, -, -, -, rfl⟩ := Host.of_read heq
  · exact hr
  · have hsame := h.wire.same_read fd chunk used msgs
    obtain ⟨hon, hroute⟩ := hr
    exact ⟨hsame.onFd ▸ hon, hsame.sid k ▸ hroute⟩

theorem Host.read_sameOut {chunk : List UInt8} (heq : h.read push fd chunk q = .ok (h', q'))
    (k : Nat) : (h.wire.peer k).SameOut (h'.wire.peer k) := by
  obtain ⟨-, rfl⟩ | ⟨s, s', used, msgs, -, -, -, -, rfl⟩ := Host.of_read heq
  · exact ⟨rfl, rfl, rfl, rfl⟩
  · by_cases hfd : h.wire.onFd fd = some k
    · rw [Wire.read_peer_self hfd]
      exact ⟨rfl, rfl, rfl, rfl⟩
    · rw [Wire.read_peer_other hfd]
      exact ⟨rfl, rfl, rfl, rfl⟩

end Outbound

/-! ## Popping a message -/

section Pop

variable {h : Host} {fd k : Nat} {m : OutboundMsg}

/-- The messages popped for an open connection. -/
def Peer.popped (p : Peer) (m : OutboundMsg) : Peer :=
  if p.live = true ∧ p.sid = m.hdr.sessionId then { p with addressed := p.addressed ++ [m] } else p

theorem Wire.pop_peer (w : Wire) (m : OutboundMsg) (k : Nat) :
    (w.pop m).peer k = (w.peer k).popped m := rfl

theorem Peer.popped_got (p : Peer) (m : OutboundMsg) :
    (p.popped m).got = p.got ∧ (p.popped m).failed = p.failed := by
  unfold Peer.popped
  split <;> exact ⟨rfl, rfl⟩

theorem Wire.send_got (w : Wire) (fd : Nat) (bytes : List UInt8) (k : Nat) :
    ((w.send fd bytes).peer k).got =
      (w.peer k).got ++ if w.onFd fd = some k then [bytes] else [] := by
  unfold Wire.send
  split
  · rw [Wire.on_peer_self ‹_›]
  · rw [Wire.on_peer_other ‹_›, List.append_nil]

theorem Wire.send_addressed (w : Wire) (fd : Nat) (bytes : List UInt8) (k : Nat) :
    ((w.send fd bytes).peer k).addressed = (w.peer k).addressed := by
  unfold Wire.send
  by_cases hk : w.onFd fd = some k
  · rw [Wire.on_peer_self hk]
  · rw [Wire.on_peer_other hk]

/-- The tables lead from the message's session to the connection. -/
def Host.Leads (h : Host) (m : OutboundMsg) (k : Nat) : Prop :=
  ∃ fd, h.conns.sidToFd m.hdr.sessionId = some fd ∧ h.wire.onFd fd = some k

/-- The connection is open and has the message's session. -/
theorem Tracks.leads (ht : Tracks h) (hm : h.Leads m k) :
    (h.wire.peer k).live = true ∧ (h.wire.peer k).sid = m.hdr.sessionId := by
  obtain ⟨fd, hroute, hk⟩ := hm
  obtain ⟨k', hk', hsid⟩ := ht.route _ _ hroute
  obtain rfl : k = k' := Option.some_inj.mp (hk.symm.trans hk')
  exact ⟨(ht.live k).mpr ⟨fd, hk⟩, hsid⟩

theorem Host.leads_iff_onFd (hroute : h.conns.sidToFd m.hdr.sessionId = some fd) (k : Nat) :
    h.Leads m k ↔ h.wire.onFd fd = some k := by
  refine ⟨fun ⟨fd', hroute', hk⟩ => ?_, fun hk => ⟨fd, hroute, hk⟩⟩
  obtain rfl : fd' = fd := Option.some_inj.mp (hroute'.symm.trans hroute)
  exact hk

theorem Tracks.leads_iff (ht : Tracks h) (hn : h.wire.accepts < 2 ^ 32) :
    h.Leads m k ↔ (h.wire.peer k).live = true ∧ (h.wire.peer k).sid = m.hdr.sessionId := by
  refine ⟨ht.leads, fun ⟨hlive, hsid⟩ => ?_⟩
  obtain ⟨fd, hk⟩ := (ht.live k).mp hlive
  exact ⟨fd, hsid ▸ ht.found hn fd k hk, hk⟩

end Pop

end LiteExchange.Net
