/-
  Frames held back by a full ring. `consume` leaves them in the session's buffer to be retried,
  but on the epoll gateway it is called only for a chunk that `recv` has just delivered.
  `retried_iff`: with room for the frames that are buffered, a `poll_once` pushes them exactly
  when it wakes the session, that is, when the client sends something. `quiet_client_waits`: the
  frames of a client that waits for an answer stay where they are.
-/
import LiteExchange.Net.Gateway
import LiteExchange.Net.Ingress

namespace LiteExchange.Net

open Lib Proto Queue Engine

variable {σ : Type}

/-- Of the reports of a descriptor, the first one that finds anything finds a byte. -/
def Wakes (fd : Nat) : List Event → Prop
  | [] => False
  | .listen _ :: es => Wakes fd es
  | .ready fd' chunks eof :: es =>
    if fd' = fd then chunks ≠ [] ∨ (eof = false ∧ Wakes fd es) else Wakes fd es

/-- As long as the session of `fd` is as it was, the shards have room for the messages in its
    buffer. -/
def RoomDuring (push : σ → InboundMsg → σ × Bool) (gw : Gateway σ) (events : List Event)
    (fd : Nat) (s : Session) : Prop :=
  ∀ pre post gw', events = pre ++ post →
    run (Gateway.step push) gw (pre.map .event) = .ok gw' → gw'.conns.sessions fd = some s →
    ∃ q, Feeds push gw'.shards (decodeAll s.sessionId s.recv).1 q

/-! ## What stays as it is -/

/-- The connection `k` is on `fd`, with session `s` and the messages `ms` accepted from it. -/
structure Holds (fd k : Nat) (s : Session) (ms : List InboundMsg) (h : Host) : Prop where
  tracks : Tracks h
  session : h.conns.sessions fd = some s
  conn : h.wire.onFd fd = some k
  pushed : (h.wire.peer k).pushed = ms

/-- The connection `k` is closed, with `ms` accepted from it. -/
structure Gone (k : Nat) (ms : List InboundMsg) (h : Host) : Prop where
  old : k < h.wire.accepts
  off : ∀ fd, h.wire.onFd fd ≠ some k
  pushed : (h.wire.peer k).pushed = ms

/-- `ms` was accepted from the connection `k`, and perhaps more. -/
structure Grown (k : Nat) (ms : List InboundMsg) (h : Host) : Prop where
  old : k < h.wire.accepts
  pushed : ms <+: (h.wire.peer k).pushed

section Keep

variable {push : σ → InboundMsg → σ × Bool} {h h' : Host} {fd fd' k : Nat} {s : Session}
variable {ms : List InboundMsg} {q q' : σ} {chunk : List UInt8} {gw : Gateway σ}

theorem Holds.accept (hh : Holds fd k s ms h) (hfd' : h.wire.onFd fd' = none) :
    Holds fd k s ms (h.accept fd') := by
  have hne : fd ≠ fd' := by
    rintro rfl
    rw [hh.conn] at hfd'
    cases hfd'
  have hnone := (hh.tracks.open_iff fd').mp hfd'
  refine ⟨hh.tracks.accept hfd', ?_, Wire.accept_onFd.mpr (.inr ⟨hne, hh.conn⟩), ?_⟩
  · show (h.conns.accept fd').sessions fd = some s
    rw [Conns.accept_sessions hnone, Function.update_of_ne hne, hh.session]
  · show ((h.wire.accept fd' _).peer k).pushed = ms
    rw [Wire.accept_peer_old (hh.tracks.lt fd k hh.conn), hh.pushed]

/-- A read of another descriptor. -/
theorem Holds.read_other (hh : Holds fd k s ms h) (hne : fd ≠ fd')
    (heq : h.read push fd' chunk q = .ok (h', q')) : Holds fd k s ms h' := by
  have ht' := hh.tracks.read heq
  obtain ⟨-, rfl⟩ | ⟨s', s₂, used, msgs, -, -, -, -, rfl⟩ := Host.of_read heq
  · exact hh
  have hoff : h.wire.onFd fd' ≠ some k := fun e => hne (hh.tracks.inj fd fd' k hh.conn e)
  refine ⟨ht', (Function.update_of_ne hne ..).trans hh.session, ?_, ?_⟩ <;> dsimp only
  · rw [(h.wire.same_read fd' chunk used msgs).onFd, hh.conn]
  · rw [Wire.read_peer_other hoff, hh.pushed]

theorem Holds.close_other (hh : Holds fd k s ms h) (hne : fd ≠ fd') :
    Holds fd k s ms (h.close fd') := by
  have hoff : h.wire.onFd fd' ≠ some k := fun e => hne (hh.tracks.inj fd fd' k hh.conn e)
  refine ⟨hh.tracks.close fd', (Function.update_of_ne hne ..).trans hh.session,
    Wire.close_onFd.mpr ⟨hne, hh.conn⟩, ?_⟩
  show ((h.wire.close fd').peer k).pushed = ms
  rw [Wire.close_peer_other hoff, hh.pushed]

theorem Holds.close_self (hh : Holds fd k s ms h) : Gone k ms (h.close fd) := by
  refine ⟨?_, fun fd' hfd' => ?_, ?_⟩
  · show k < (h.wire.close fd).accepts
    rw [Wire.close_accepts]
    exact hh.tracks.lt fd k hh.conn
  · obtain ⟨hne, hk⟩ := Wire.close_onFd.mp hfd'
    exact hne (hh.tracks.inj fd' fd k hk hh.conn)
  · show ((h.wire.close fd).peer k).pushed = ms
    rw [Wire.close_peer_self hh.conn]
    exact hh.pushed

theorem Gone.accept (hg : Gone k ms h) (fd : Nat) : Gone k ms (h.accept fd) := by
  refine ⟨Nat.lt_succ_of_lt hg.old, fun fd' hfd' => ?_, ?_⟩
  · rcases Wire.accept_onFd.mp hfd' with ⟨-, rfl⟩ | ⟨-, hk⟩
    · exact Nat.lt_irrefl _ hg.old
    · exact hg.off fd' hk
  · show ((h.wire.accept fd _).peer k).pushed = ms
    rw [Wire.accept_peer_old hg.old, hg.pushed]

theorem Gone.close (hg : Gone k ms h) (fd : Nat) : Gone k ms (h.close fd) := by
  refine ⟨?_, fun fd' hfd' => hg.off fd' (Wire.close_onFd.mp hfd').2, ?_⟩
  · show k < (h.wire.close fd).accepts
    rw [Wire.close_accepts]
    exact hg.old
  · show ((h.wire.close fd).peer k).pushed = ms
    rw [Wire.close_peer_other (hg.off fd), hg.pushed]

theorem Gone.read (hg : Gone k ms h) (heq : h.read push fd chunk q = .ok (h', q')) :
    Gone k ms h' := by
  obtain ⟨-, rfl⟩ | ⟨s, s', used, msgs, -, -, -, -, rfl⟩ := Host.of_read heq
  · exact hg
  have hsame := h.wire.same_read fd chunk used msgs
  refine ⟨hsame.accepts ▸ hg.old, fun fd' => hsame.onFd ▸ hg.off fd', ?_⟩
  dsimp only
  rw [Wire.read_peer_other (hg.off fd), hg.pushed]

theorem Gone.event (hg : Gone k ms gw.toHost) {e : Event} (hk : gw.KernelOk (.event e))
    {gw' : Gateway σ} (hstep : gw.step push (.event e) = .ok gw') : Gone k ms gw'.toHost :=
  Gateway.step_keeps (fun _ fd _ hg => hg.accept fd) (fun _ _ _ _ _ _ heq hg => hg.read heq)
    (fun _ fd hg => hg.close fd) nofun hk hg hstep

theorem Grown.accept (hg : Grown k ms h) (fd : Nat) : Grown k ms (h.accept fd) := by
  refine ⟨Nat.lt_succ_of_lt hg.old, ?_⟩
  show ms <+: ((h.wire.accept fd _).peer k).pushed
  rw [Wire.accept_peer_old hg.old]
  exact hg.pushed

theorem Grown.close (hg : Grown k ms h) (fd : Nat) : Grown k ms (h.close fd) := by
  have hpushed : ((h.wire.close fd).peer k).pushed = (h.wire.peer k).pushed := by
    by_cases hfd : h.wire.onFd fd = some k
    · rw [Wire.close_peer_self hfd]
    · rw [Wire.close_peer_other hfd]
  refine ⟨?_, ?_⟩
  · show k < (h.wire.close fd).accepts
    rw [Wire.close_accepts]
    exact hg.old
  · show ms <+: ((h.wire.close fd).peer k).pushed
    rw [hpushed]
    exact hg.pushed

theorem Grown.read (hg : Grown k ms h) (heq : h.read push fd chunk q = .ok (h', q')) :
    Grown k ms h' := by
  obtain ⟨-, rfl⟩ | ⟨s, s', used, msgs, -, -, -, -, rfl⟩ := Host.of_read heq
  · exact hg
  refine ⟨(h.wire.same_read fd chunk used msgs).accepts ▸ hg.old, ?_⟩
  dsimp only
  by_cases hfd : h.wire.onFd fd = some k
  · rw [Wire.read_peer_self hfd]
    exact hg.pushed.trans (List.prefix_append _ _)
  · rw [Wire.read_peer_other hfd]
    exact hg.pushed

theorem Grown.event (hg : Grown k ms gw.toHost) {e : Event} (hk : gw.KernelOk (.event e))
    {gw' : Gateway σ} (hstep : gw.step push (.event e) = .ok gw') : Grown k ms gw'.toHost :=
  Gateway.step_keeps (fun _ fd _ hg => hg.accept fd) (fun _ _ _ _ _ _ heq hg => hg.read heq)
    (fun _ fd hg => hg.close fd) nofun hk hg hstep

end Keep

/-! ## One report -/

section Report

variable {push : σ → InboundMsg → σ × Bool} {fd k : Nat} {s : Session} {ms : List InboundMsg}
variable {gw gw' : Gateway σ}

theorem RoomDuring.next {e : Event} {events : List Event}
    (h : RoomDuring push gw (e :: events) fd s) (hstep : gw.step push (.event e) = .ok gw') :
    RoomDuring push gw' events fd s := by
  intro pre post gw₁ hsplit hrun
  refine h (e :: pre) post gw₁ (by rw [hsplit]; rfl) ?_
  rw [List.map_cons, run, hstep, ok_bind, hrun]

/-- A report of another descriptor, or of the listening socket. -/
theorem Holds.event_other (hh : Holds fd k s ms gw.toHost) {e : Event}
    (hother : ∀ chunks eof, e ≠ .ready fd chunks eof) (hk : gw.KernelOk (.event e))
    (hstep : gw.step push (.event e) = .ok gw') : Holds fd k s ms gw'.toHost := by
  cases e with
  | listen fds =>
    cases hstep
    exact accepts_keep (fun _ _ hfd hh => hh.accept hfd) hk.1 hk.2 hh
  | ready fd' chunks eof =>
    have hne : fd ≠ fd' := fun e => hother chunks eof (e ▸ rfl)
    exact Gateway.readSession_keeps (fun _ _ _ _ _ heq hh => hh.read_other hne heq)
      (fun _ hh => hh.close_other hne) hh hstep

/-- A report that finds nothing. -/
theorem Holds.event_idle (hh : Holds fd k s ms gw.toHost) (hopen : s.closed = false) :
    gw.step push (.event (.ready fd [] false)) = .ok gw := by
  show gw.readSession push fd [] false = .ok gw
  unfold Gateway.readSession
  rw [hh.session]
  dsimp only
  rw [run, ok_bind, hh.session, Option.any_some, hopen]
  rfl

theorem Holds.event_eof (hh : Holds fd k s ms gw.toHost)
    (hstep : gw.step push (.event (.ready fd [] true)) = .ok gw') : Gone k ms gw'.toHost := by
  have hclose : gw.step push (.event (.ready fd [] true)) = .ok (gw.closeSession fd) := by
    show gw.readSession push fd [] true = .ok (gw.closeSession fd)
    unfold Gateway.readSession
    rw [hh.session]
    rfl
  rw [hclose] at hstep
  cases hstep
  exact hh.close_self

/-- The chunks of a report after the first. -/
theorem Gateway.readSession_cons {chunk : Chunk} {chunks : List Chunk} {eof : Bool}
    {gw₁ : Gateway σ} (hs : gw.conns.sessions fd = some s)
    (hchunk : gw.readChunk push fd chunk = .ok gw₁) {s₁ : Session}
    (hs₁ : gw₁.conns.sessions fd = some s₁) :
    gw.readSession push fd (chunk :: chunks) eof = gw₁.readSession push fd chunks eof := by
  unfold Gateway.readSession
  rw [hs, hs₁]
  dsimp only
  rw [run, hchunk, ok_bind]

/-- A report that finds a byte: all messages in the buffer are pushed. -/
theorem Holds.event_wakes (hh : Holds fd k s ms gw.toHost) (hopen : s.closed = false) {q : σ}
    (hroom : Feeds push gw.shards (decodeAll s.sessionId s.recv).1 q) {chunk : Chunk}
    {chunks : List Chunk} {eof : Bool}
    (hstep : gw.step push (.event (.ready fd (chunk :: chunks) eof)) = .ok gw') :
    Grown k (ms ++ (decodeAll s.sessionId s.recv).1) gw'.toHost := by
  obtain ⟨s', q', used, msgs, heq, -, -, hcase⟩ :=
    Host.read_some push hh.session chunk.bytes gw.shards
  obtain ⟨hclosed, -⟩ | ⟨-, htakes⟩ := hcase
  · rw [hopen] at hclosed
    cases hclosed
  have hmsgs : (decodeAll s.sessionId s.recv).1 <+: msgs := htakes.all_accepted hroom
  have hchunk : gw.readChunk push fd chunk = .ok
      ⟨⟨gw.conns.put fd s', gw.wire.read fd chunk.bytes used msgs⟩, q'⟩ := by
    unfold Gateway.readChunk
    rw [heq]
    rfl
  have hgrown : Grown k (ms ++ (decodeAll s.sessionId s.recv).1)
      ⟨gw.conns.put fd s', gw.wire.read fd chunk.bytes used msgs⟩ := by
    refine ⟨?_, ?_⟩ <;> dsimp only
    · rw [(gw.wire.same_read fd chunk.bytes used msgs).accepts]
      exact hh.tracks.lt fd k hh.conn
    · rw [Wire.read_peer_self hh.conn]
      dsimp only
      rw [hh.pushed]
      exact (List.prefix_append_right_inj _).mpr hmsgs
  have hrest : gw.readSession push fd (chunk :: chunks) eof = .ok gw' := hstep
  rw [Gateway.readSession_cons hh.session hchunk (Function.update_self ..)] at hrest
  exact Gateway.readSession_keeps (fun _ _ _ _ _ heq hg => hg.read heq) (fun _ hg => hg.close fd)
    hgrown hrest

end Report

/-! ## One poll -/

section Poll

variable {push : σ → InboundMsg → σ × Bool} {fd k : Nat} {s : Session} {ms : List InboundMsg}
variable {gw : Gateway σ}

/-- What every report keeps holds after all of them. -/
theorem events_keep {I : Host → Prop}
    (hevent : ∀ (gw gw' : Gateway σ) e, gw.KernelOk (.event e) →
      gw.step push (.event e) = .ok gw' → I gw.toHost → I gw'.toHost)
    {events : List Event} (ht : Tracks gw.toHost) (hI : I gw.toHost)
    (hk : Along (Gateway.step push) Gateway.KernelOk gw (events.map .event)) :
    ∃ gw', run (Gateway.step push) gw (events.map .event) = .ok gw' ∧ I gw'.toHost := by
  induction events generalizing gw with
  | nil => exact ⟨gw, rfl, hI⟩
  | cons e events ih =>
    obtain ⟨gw₁, hstep, ht₁⟩ := Gateway.step_tracks (.event e) ht hk.1
    obtain ⟨gw', hrun, hI'⟩ := ih ht₁ (hevent gw gw₁ e hk.1 hstep hI) (hk.2 gw₁ hstep)
    exact ⟨gw', by rw [List.map_cons, run, hstep, ok_bind, hrun], hI'⟩

/-- The reports of a poll: the buffered messages are pushed if they wake the session, and nothing
    is otherwise. -/
theorem Holds.events (hh : Holds fd k s ms gw.toHost) (hopen : s.closed = false)
    {events : List Event}
    (hk : Along (Gateway.step push) Gateway.KernelOk gw (events.map .event))
    (hroom : RoomDuring push gw events fd s) :
    ∃ gw', run (Gateway.step push) gw (events.map .event) = .ok gw' ∧
      (Wakes fd events → ms ++ (decodeAll s.sessionId s.recv).1 <+: (gw'.wire.peer k).pushed) ∧
      (¬ Wakes fd events → (gw'.wire.peer k).pushed = ms) := by
  induction events generalizing gw with
  | nil => exact ⟨gw, rfl, nofun, fun _ => hh.pushed⟩
  | cons e events ih =>
    obtain ⟨gw₁, hstep, ht₁⟩ := Gateway.step_tracks (.event e) hh.tracks hk.1
    have hk₁ := hk.2 gw₁ hstep
    have hrun : ∀ gw', run (Gateway.step push) gw₁ (events.map .event) = .ok gw' →
        run (Gateway.step push) gw ((e :: events).map .event) = .ok gw' := fun gw' h => by
      rw [List.map_cons, run, hstep, ok_bind, h]
    by_cases hself : ∃ chunks eof, e = .ready fd chunks eof
    · obtain ⟨chunks, eof, rfl⟩ := hself
      cases chunks with
      | cons chunk chunks =>
        obtain ⟨q, hq⟩ := hroom [] _ gw rfl rfl hh.session
        obtain ⟨gw', hrun', hg⟩ := events_keep (fun _ _ _ hk hstep hg => Grown.event hg hk hstep)
          ht₁ (hh.event_wakes hopen hq hstep) hk₁
        have hwakes : Wakes fd (.ready fd (chunk :: chunks) eof :: events) := by
          rw [Wakes, if_pos rfl]
          exact .inl (List.cons_ne_nil _ _)
        exact ⟨gw', hrun gw' hrun', fun _ => hg.pushed, fun hno => absurd hwakes hno⟩
      | nil =>
        cases eof with
        | true =>
          obtain ⟨gw', hrun', hg⟩ := events_keep (fun _ _ _ hk hstep hg => Gone.event hg hk hstep)
            ht₁ (hh.event_eof hstep) hk₁
          have hsleeps : ¬ Wakes fd (.ready fd [] true :: events) := by
            rw [Wakes, if_pos rfl]
            simp
          exact ⟨gw', hrun gw' hrun', fun hw => absurd hw hsleeps, fun _ => hg.pushed⟩
        | false =>
          obtain rfl : gw = gw₁ := Except.ok.inj ((hh.event_idle hopen).symm.trans hstep)
          obtain ⟨gw', hrun', hcases⟩ := ih hh hk₁ (hroom.next hstep)
          have hwakes : Wakes fd (.ready fd [] false :: events) ↔ Wakes fd events := by
            rw [Wakes, if_pos rfl]
            simp
          rw [hwakes]
          exact ⟨gw', hrun gw' hrun', hcases⟩
    · have hother : ∀ chunks eof, e ≠ .ready fd chunks eof := fun chunks eof he =>
        hself ⟨chunks, eof, he⟩
      obtain ⟨gw', hrun', hcases⟩ := ih (hh.event_other hother hk.1 hstep) hk₁
        (hroom.next hstep)
      have hwakes : Wakes fd (e :: events) ↔ Wakes fd events := by
        cases e with
        | listen fds => rfl
        | ready fd' chunks eof =>
          rw [Wakes, if_neg fun (he : fd' = fd) => hother chunks eof (he ▸ rfl)]
      rw [hwakes]
      exact ⟨gw', hrun gw' hrun', hcases⟩

theorem Gateway.out_pushed (gw : Gateway σ) (m : OutboundMsg) (answers : List Nat) (k : Nat) :
    ((gw.out m answers).wire.peer k).pushed = (gw.wire.peer k).pushed := by
  have hpopped : ((gw.wire.peer k).popped m).pushed = (gw.wire.peer k).pushed := by
    unfold Peer.popped
    split <;> rfl
  obtain ⟨-, hpeer⟩ | ⟨-, hpeer⟩ := gw.out_peer m answers k
  · rw [hpeer]
    exact hpopped
  · rw [hpeer]
    exact hpopped

/-- Draining the outbound rings pushes nothing. -/
theorem Gateway.outs_pushed (push : σ → InboundMsg → σ × Bool) (gw : Gateway σ)
    (outs : List (OutboundMsg × List Nat)) (k : Nat) :
    ∃ gw', run (Gateway.step push) gw (outs.map fun x => .out x.1 x.2) = .ok gw' ∧
      (gw'.wire.peer k).pushed = (gw.wire.peer k).pushed := by
  induction outs generalizing gw with
  | nil => exact ⟨gw, rfl, rfl⟩
  | cons x outs ih =>
    obtain ⟨gw', hrun, hpushed⟩ := ih (gw.out x.1 x.2)
    exact ⟨gw', hrun, hpushed.trans (gw.out_pushed x.1 x.2 k)⟩

end Poll

/-- In any state the gateway can reach, a session that is not closed has messages in its buffer,
    and during the next `poll_once` the shards have room for them: they are pushed exactly if
    `epoll_wait` reports the session's descriptor and `recv` delivers a byte on it. -/
theorem retried_iff (push : σ → InboundMsg → σ × Bool) (q : σ) (acts : List GatewayAct)
    (p : Poll)
    (hk : Along (Gateway.step push) Gateway.KernelOk (Gateway.init q) (acts ++ p.acts))
    (gw : Gateway σ) (hrun : run (Gateway.step push) (Gateway.init q) acts = .ok gw) (fd : Nat)
    (s : Session) (hs : gw.conns.sessions fd = some s) (hopen : s.closed = false)
    (hwaiting : (decodeAll s.sessionId s.recv).1 ≠ [])
    (hroom : RoomDuring push gw p.events fd s) :
    ∃ k gw', gw.wire.onFd fd = some k ∧ gw.pollOnce push p = .ok gw' ∧
      ((gw.wire.peer k).pushed ++ (decodeAll s.sessionId s.recv).1 <+: (gw'.wire.peer k).pushed ↔
        Wakes fd p.events) := by
  obtain ⟨hbefore, hduring⟩ := along_append.mp hk
  have ht : Tracks gw.toHost := by
    obtain ⟨gw₁, hrun₁, ht⟩ := run_inv (I := fun _ gw => Tracks gw.toHost)
      (fun _ gw act ht hk => Gateway.step_tracks act ht hk) (n := 0) tracks_init hbefore
    rw [hrun] at hrun₁
    cases hrun₁
    exact ht
  obtain ⟨k, hconn⟩ := ht.exists_conn hs
  have hevents := (along_append.mp (hduring gw hrun)).1
  obtain ⟨gw₁, hrun₁, hyes, hno⟩ :=
    Holds.events ⟨ht, hs, hconn, rfl⟩ hopen hevents hroom
  obtain ⟨gw', hrun', hpushed⟩ := gw₁.outs_pushed push p.outs.flatten k
  refine ⟨k, gw', hconn, ?_, ?_⟩
  · unfold Gateway.pollOnce Poll.acts
    rw [run_append, hrun₁, ok_bind, hrun']
  · rw [hpushed]
    constructor
    · intro hpre
      by_contra hsleeps
      rw [hno hsleeps] at hpre
      have hlen := hpre.length_le
      rw [List.length_append] at hlen
      exact hwaiting (List.length_eq_zero_iff.mp (by omega))
    · exact hyes

/-! ## A client that waits -/

/-- The queue takes `xs`, computed. -/
def takesAll (push : σ → InboundMsg → σ × Bool) : σ → List InboundMsg → Bool
  | _, [] => true
  | q, x :: xs => (push q x).2 && takesAll push (push q x).1 xs

theorem feeds_of_takesAll {push : σ → InboundMsg → σ × Bool} {q : σ} {xs : List InboundMsg}
    (h : takesAll push q xs = true) : ∃ q', Feeds push q xs q' := by
  induction xs generalizing q with
  | nil => exact ⟨q, .nil q⟩
  | cons x xs ih =>
    obtain ⟨hx, hxs⟩ := Bool.and_eq_true_iff.mp h
    obtain ⟨q', hfeeds⟩ := ih hxs
    exact ⟨q', .cons hx hfeeds⟩

/-- One shard with a ring of one place, which it empties before the third and the fourth push. -/
def onePlace : Depth := ⟨0, by decide⟩

def popsLate : Busy := ⟨Rings.init fun _ _ => .other ⟨0, .logon, 0, 0⟩, [[], [], [0], [0]]⟩

/-- A cancel of token 0. -/
def cancelFrame : List UInt8 := [16, 0, 3, 0, 0, 0, 0, 0, 0, 0, 0, 0, 0, 0, 0, 0]

def twoCancels : Chunk := ⟨cancelFrame ++ cancelFrame, by decide, by decide⟩

def oneByte : Chunk := .single 16

/-- A client connects and sends two cancels, for the second of which there is no room. -/
def heldBack : List GatewayAct :=
  [.event (.listen [5]), .event (.ready 5 [twoCancels] false)]

/-- Whether the session is open with messages in its buffer, and there is room for them after
    the reports `pre`. -/
def cancelHasRoom (pre : List Event) : Except Fault Bool := do
  let gw ← run (Gateway.step (Busy.push 1 onePlace)) (Gateway.init popsLate) heldBack
  let gw' ← run (Gateway.step (Busy.push 1 onePlace)) gw (pre.map .event)
  return match gw.conns.sessions 5 with
    | none => false
    | some s => !s.closed && !(decodeAll s.sessionId s.recv).1.isEmpty &&
        takesAll (Busy.push 1 onePlace) gw'.shards (decodeAll s.sessionId s.recv).1

theorem heldBack_room {gw gw' : Gateway Busy} {s : Session} (pre : List Event)
    (hcode : cancelHasRoom pre = .ok true)
    (hrun : run (Gateway.step (Busy.push 1 onePlace)) (Gateway.init popsLate) heldBack = .ok gw)
    (hrun' : run (Gateway.step (Busy.push 1 onePlace)) gw (pre.map .event) = .ok gw')
    (hs : gw.conns.sessions 5 = some s) :
    s.closed = false ∧ (decodeAll s.sessionId s.recv).1 ≠ [] ∧
      ∃ q, Feeds (Busy.push 1 onePlace) gw'.shards (decodeAll s.sessionId s.recv).1 q := by
  rw [cancelHasRoom, hrun, ok_bind, hrun', ok_bind, hs] at hcode
  have hall := Except.ok.inj hcode
  simp only [Bool.and_eq_true, Bool.not_eq_true', List.isEmpty_eq_false_iff] at hall
  exact ⟨hall.1.1, hall.1.2, feeds_of_takesAll hall.2⟩

theorem heldBack_session : ∃ gw s,
    run (Gateway.step (Busy.push 1 onePlace)) (Gateway.init popsLate) heldBack = .ok gw ∧
      gw.conns.sessions 5 = some s := by
  have hcode : cancelHasRoom [] = .ok true := by decide +kernel
  obtain ⟨gw, hrun, hgw⟩ := bind_eq_ok hcode
  have hgw := Except.ok.inj hgw
  split at hgw
  · cases hgw
  · exact ⟨gw, _, hrun, ‹_›⟩

/-- The client sends one more byte: its cancel is retried. -/
theorem retried_by_a_byte : ∃ k s gw gw',
    run (Gateway.step (Busy.push 1 onePlace)) (Gateway.init popsLate) heldBack = .ok gw ∧
      gw.conns.sessions 5 = some s ∧ gw.wire.onFd 5 = some k ∧
      gw.pollOnce (Busy.push 1 onePlace) ⟨[.ready 5 [oneByte] false], []⟩ = .ok gw' ∧
      (gw.wire.peer k).pushed ++ (decodeAll s.sessionId s.recv).1 <+:
        (gw'.wire.peer k).pushed := by
  obtain ⟨gw, s, hrun, hs⟩ := heldBack_session
  have hroom : ∀ pre post gw', [Event.ready 5 [oneByte] false] = pre ++ post →
      run (Gateway.step (Busy.push 1 onePlace)) gw (pre.map .event) = .ok gw' →
      ∃ q, Feeds (Busy.push 1 onePlace) gw'.shards (decodeAll s.sessionId s.recv).1 q := by
    intro pre post gw' hsplit hrun'
    rcases List.append_eq_singleton_iff.mp hsplit.symm with ⟨rfl, -⟩ | ⟨rfl, -⟩
    · exact (heldBack_room _ (by decide +kernel) hrun hrun' hs).2.2
    · exact (heldBack_room _ (by decide +kernel) hrun hrun' hs).2.2
  obtain ⟨hopen, hwaiting, -⟩ := heldBack_room [] (by decide +kernel) hrun rfl hs
  obtain ⟨k, gw', hconn, hpoll, hiff⟩ := retried_iff (Busy.push 1 onePlace) popsLate heldBack
    ⟨[.ready 5 [oneByte] false], []⟩
    (along_of_check (p := fun gw act => decide (gw.KernelOk act))
      (fun _ _ h => of_decide_eq_true h) (by decide +kernel)) gw hrun 5 s hs hopen hwaiting
    (fun pre post gw' hsplit hrun' _ => hroom pre post gw' hsplit hrun')
  refine ⟨k, s, gw, gw', hrun, hs, hconn, hpoll, hiff.mpr ?_⟩
  rw [Wakes, if_pos rfl]
  exact .inl (List.cons_ne_nil _ _)

/-- A client that waits for the answer to its cancel before it sends anything more: nothing is
    reported, and the cancel stays in the buffer. -/
theorem quiet_client_waits :
    ¬ ∀ (push : Busy → InboundMsg → Busy × Bool) (q : Busy) (acts : List GatewayAct) (p : Poll),
      Along (Gateway.step push) Gateway.KernelOk (Gateway.init q) (acts ++ p.acts) →
      ∀ gw, run (Gateway.step push) (Gateway.init q) acts = .ok gw →
      ∀ fd s, gw.conns.sessions fd = some s → s.closed = false →
        (decodeAll s.sessionId s.recv).1 ≠ [] → RoomDuring push gw p.events fd s →
        ∃ k gw', gw.wire.onFd fd = some k ∧ gw.pollOnce push p = .ok gw' ∧
          (gw.wire.peer k).pushed ++ (decodeAll s.sessionId s.recv).1 <+:
            (gw'.wire.peer k).pushed := by
  intro hall
  obtain ⟨gw, s, hrun, hs⟩ := heldBack_session
  obtain ⟨hopen, hwaiting, hroom⟩ := heldBack_room [] (by decide +kernel) hrun rfl hs
  obtain ⟨k, gw', -, hpoll, hpre⟩ := hall (Busy.push 1 onePlace) popsLate heldBack ⟨[], []⟩
    (along_of_check (p := fun gw act => decide (gw.KernelOk act))
      (fun _ _ h => of_decide_eq_true h) (by decide +kernel)) gw hrun 5 s hs hopen hwaiting
    (fun pre post gw' hsplit hrun' _ => by
      obtain ⟨rfl, -⟩ := List.append_eq_nil_iff.mp hsplit.symm
      cases hrun'
      exact hroom)
  cases hpoll
  have hlen := hpre.length_le
  rw [List.length_append] at hlen
  exact hwaiting (List.length_eq_zero_iff.mp (by omega))

end LiteExchange.Net
