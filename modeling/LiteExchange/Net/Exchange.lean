/-
  The whole exchange: the epoll reactor (`net/gateway.hpp`) in front of the shard threads
  (`engine/shard_set.hpp`). The threads run at any time, also between two pushes of one `consume`
  and between two pops of `drain_outbound`.

  * `exchange_transparent`: in every run, the clients are served as if every shard handled the
    messages it has popped one after the other, without queues, threads or sockets in between. What
    a shard pops of a connection are the messages in the bytes of that connection, in order; and the
    reactor pops what the shard has answered, in order.
  * `replies_intact`: on a kernel where a connection whose send has failed takes no more bytes, a
    client reads in the bytes it gets the first of the replies to its session that the reactor has
    popped, and all of them if its connection is open and no send has failed.
-/
import LiteExchange.Engine.ShardSet
import LiteExchange.Net.Ingress
import LiteExchange.Net.Routing
import LiteExchange.Net.Sending

namespace LiteExchange.Net

open Lib Proto Queue Engine

/-! ## The shards behind the reactor -/

/-- The shards, the threads that take a step before each of the next pushes, and the messages
    accepted so far. -/
structure Backend where
  set : ShardSet
  steps : List (List Nat)
  accepted : List InboundMsg

/-- `push` while the threads run. -/
def Backend.push (sc : SetConfig) (b : Backend) (msg : InboundMsg) : Backend × Bool :=
  let q := b.set.run sc ((b.steps.headD []).map .work)
  let r := q.push sc msg
  (⟨r.1, b.steps.tail, if r.2 then b.accepted ++ [msg] else b.accepted⟩, r.2)

/-- What was popped from the outbound ring of shard `i`. -/
def fromShard (i : Nat) (log : List (Nat × OutboundMsg)) : List OutboundMsg :=
  (log.filter fun x => x.1 = i).map Prod.snd

/-- The rings hand on what was accepted, the threads answer it, and the reactor has popped `log`,
    each message with its shard. -/
structure BackendInv (sc : SetConfig) (log : List (Nat × OutboundMsg)) (b : Backend) : Prop where
  rings : RingsRep sc.n sc.depth b.set.rings b.accepted
  staged : Staged sc b.set
  drains : ∀ i, fromShard i log = (b.set.workers i).drained

section Backend

variable {sc : SetConfig} {log : List (Nat × OutboundMsg)} {b : Backend}

theorem BackendInv.work (h : BackendInv sc log b) (i : Nat) :
    BackendInv sc log { b with set := b.set.work sc i } := by
  refine ⟨?_, h.staged.run [.work i], fun j => ?_⟩
  · dsimp only
    rcases ShardSet.work_rings sc b.set i with he | he
    · rw [he]
      exact h.rings
    · rw [he]
      exact h.rings.pop i
  · rw [h.drains, ShardSet.work_drained]

theorem BackendInv.works (h : BackendInv sc log b) (is : List Nat) :
    BackendInv sc log { b with set := b.set.run sc (is.map .work) } := by
  induction is generalizing b with
  | nil => exact h
  | cons i is ih => exact ih (h.work i)

theorem BackendInv.push (h : BackendInv sc log b) (msg : InboundMsg) :
    BackendInv sc log (b.push sc msg).1 := by
  have hworks := h.works (b.steps.headD [])
  exact ⟨hworks.rings.push msg, hworks.staged.run [.push msg], hworks.drains⟩

theorem BackendInv.stop (h : BackendInv sc log b) (i : Nat) :
    BackendInv sc log { b with set := b.set.stop i } :=
  ⟨h.rings, h.staged.run [.stop i], fun j => by rw [h.drains, ShardSet.stop_drained]⟩

/-- A pop by the reactor. -/
theorem BackendInv.pop (h : BackendInv sc log b) (i : Nat) :
    BackendInv sc (log ++ (b.set.pop sc i).2.toList.map (i, ·))
      { b with set := (b.set.pop sc i).1 } := by
  refine ⟨h.rings, h.staged.run [.pop i], fun j => ?_⟩
  have hdrains := h.drains j
  unfold fromShard at hdrains ⊢
  unfold ShardSet.pop ShardSet.setWorker
  dsimp only
  rw [List.filter_append, List.map_append, hdrains]
  rcases eq_or_ne j i with rfl | hne
  · rw [Function.update_self, List.filter_map]
    simp [Function.comp_def]
  · rw [Function.update_of_ne hne, List.filter_map]
    simp [Function.comp_def, Ne.symm hne]

/-- A shard pops what was accepted. -/
theorem BackendInv.popped_accepted (h : BackendInv sc log b) {i : Nat} {x : InboundMsg}
    (hx : x ∈ b.set.rings.popped i) : x ∈ b.accepted := by
  have hmem : x ∈ b.accepted.filter fun x => target sc.n x = some i := by
    rw [← h.rings.share i]
    exact List.mem_append_left _ hx
  exact List.mem_of_mem_filter hmem

/-- What the reactor pops next says its own type and size, and is for a session of an accepted
    message or for session 0. -/
theorem BackendInv.pop_sends (h : BackendInv sc log b) {P : UInt32 → Prop} (hzero : P 0)
    (hacc : ∀ x ∈ b.accepted, P x.hdr.sessionId) {i : Nat} {m : OutboundMsg}
    (hm : (b.set.pop sc i).2 = some m) : m.Sound ∧ P m.hdr.sessionId := by
  have hstaged := h.staged.run [.pop i]
  refine hstaged.sends (i := i) hzero (fun x hx => hacc x (h.popped_accepted hx)) m ?_
  have hdrained : (((b.set.pop sc i).1.workers i).drained) =
      (b.set.workers i).drained ++ (b.set.pop sc i).2.toList := by
    unfold ShardSet.pop ShardSet.setWorker
    dsimp only
    rw [Function.update_self]
  refine List.mem_append_left _ (List.mem_append_left _ ?_)
  change m ∈ ((b.set.pop sc i).1.workers i).drained
  rw [hdrained, hm]
  exact List.mem_append_right _ List.mem_cons_self

/-- A read adds the messages it has accepted. -/
theorem ReadTakes.backend {sid : UInt32} {used : List UInt8} {msgs : List InboundMsg}
    {b' : Backend} (h : ReadTakes (Backend.push sc) sid b used msgs b')
    (hb : BackendInv sc log b) :
    BackendInv sc log b' ∧ b'.accepted = b.accepted ++ msgs := by
  refine h.keeps (fun q => BackendInv sc log q.1 ∧ q.1.accepted = b.accepted ++ q.2) ?_
    ⟨hb, (List.append_nil _).symm⟩
  rintro ⟨c, msgs⟩ x ⟨hc, hmsgs⟩
  refine ⟨hc.push x, ?_⟩
  unfold logged Backend.push
  dsimp only at hmsgs ⊢
  rw [hmsgs]
  split
  · rw [List.append_assoc]
  · rfl

end Backend

/-! ## Connections, what was accepted and what was sent -/

/-- The connections, when the messages `acc` have been accepted and `sent` popped. -/
structure Ties (w : Wire) (acc : List InboundMsg) (sent : List OutboundMsg) : Prop where
  whole : ∀ k, (frames (w.peer k).sid).Whole (w.peer k).consumed (w.peer k).pushed
  accKnown : ∀ x ∈ acc, ∃ k < w.accepts, x.hdr.sessionId = (w.peer k).sid
  sentSound : ∀ m ∈ sent, m.Sound
  sentKnown : ∀ m ∈ sent, m.hdr.sessionId = 0 ∨ ∃ k < w.accepts, m.hdr.sessionId = (w.peer k).sid
  pushed : w.accepts < 2 ^ 32 → ∀ k < w.accepts, (w.peer k).pushed = ofSession (w.peer k).sid acc
  addressed : w.accepts < 2 ^ 32 → ∀ k < w.accepts,
    (w.peer k).addressed <+: toSession (w.peer k).sid sent ∧
      ((w.peer k).live = true → (w.peer k).addressed = toSession (w.peer k).sid sent)

/-- Two records of a connection that differ in the bytes received and sent at most. -/
structure Peer.SameTalk (p p' : Peer) : Prop where
  sid : p'.sid = p.sid
  live : p'.live = true → p.live = true
  consumed : p'.consumed = p.consumed
  pushed : p'.pushed = p.pushed
  addressed : p'.addressed = p.addressed

section Ties

variable {h : Host} {w w' : Wire} {acc : List InboundMsg} {sent : List OutboundMsg} {fd : Nat}

theorem ties_init : Ties Wire.init [] [] :=
  ⟨fun _ => Framer.whole_nil, nofun, nofun, nofun, nofun, nofun⟩

/-- Only what the connections have said and were told matters. -/
theorem Ties.same (ht : Ties w acc sent) (haccepts : w'.accepts = w.accepts)
    (hpeer : ∀ k, (w.peer k).SameTalk (w'.peer k)) : Ties w' acc sent := by
  refine ⟨fun k => ?_, fun x hx => ?_, ht.sentSound, fun m hm => ?_, fun hn k hk => ?_,
    fun hn k hk => ?_⟩
  · rw [(hpeer k).sid, (hpeer k).consumed, (hpeer k).pushed]
    exact ht.whole k
  · obtain ⟨k, hk, hsid⟩ := ht.accKnown x hx
    exact ⟨k, haccepts ▸ hk, by rw [hsid, (hpeer k).sid]⟩
  · refine (ht.sentKnown m hm).imp_right fun ⟨k, hk, hsid⟩ => ?_
    exact ⟨k, haccepts ▸ hk, by rw [hsid, (hpeer k).sid]⟩
  · rw [haccepts] at hn hk
    rw [(hpeer k).sid, (hpeer k).pushed]
    exact ht.pushed hn k hk
  · rw [haccepts] at hn hk
    rw [(hpeer k).sid, (hpeer k).addressed]
    obtain ⟨hfirst, hall⟩ := ht.addressed hn k hk
    exact ⟨hfirst, fun hlive => hall ((hpeer k).live hlive)⟩

theorem Ties.close (ht : Ties w acc sent) (fd : Nat) : Ties (w.close fd) acc sent := by
  refine ht.same (w.close_accepts fd) fun k => ?_
  by_cases hfd : w.onFd fd = some k
  · rw [Wire.close_peer_self hfd]
    exact ⟨rfl, nofun, rfl, rfl, rfl⟩
  · rw [Wire.close_peer_other hfd]
    exact ⟨rfl, id, rfl, rfl, rfl⟩

/-- An id not yet given is not 0 and not that of a connection. -/
theorem Tracks.fresh_id (ht : Tracks h) (hn : h.wire.accepts + 1 < 2 ^ 32) {s : UInt32}
    (hs : s = 0 ∨ ∃ k < h.wire.accepts, s = (h.wire.peer k).sid) : s ≠ h.conns.nextSessionId := by
  rintro rfl
  rcases hs with hzero | ⟨k, hk, hsid⟩
  · rw [ht.next] at hzero
    have hnat := congrArg UInt32.toNat hzero
    rw [UInt32.toNat_ofNat', Nat.mod_eq_of_lt hn] at hnat
    exact Nat.succ_ne_zero _ hnat
  · rw [ht.next, ht.ids k hk] at hsid
    have hk' := ids_inj hn (by omega) (by omega) hsid
    omega

theorem Ties.accept (hties : Ties h.wire acc sent) (ht : Tracks h) (fd : Nat) :
    Ties (h.accept fd).wire acc sent := by
  have hnew := h.accept_peer_new fd
  have hold : ∀ k < h.wire.accepts, (h.accept fd).wire.peer k = h.wire.peer k :=
    fun k hk => h.accept_peer_old fd (Nat.ne_of_lt hk)
  have hknown : ∀ s, (∃ k < h.wire.accepts, s = (h.wire.peer k).sid) →
      ∃ k < (h.accept fd).wire.accepts, s = ((h.accept fd).wire.peer k).sid := by
    rintro s ⟨k, hk, hsid⟩
    exact ⟨k, Nat.lt_succ_of_lt hk, by rw [hold k hk, hsid]⟩
  refine ⟨fun k => ?_, fun x hx => hknown _ (hties.accKnown x hx), hties.sentSound,
    fun m hm => (hties.sentKnown m hm).imp_right (hknown _), fun hn k hk => ?_,
    fun hn k hk => ?_⟩
  · rcases eq_or_ne k h.wire.accepts with rfl | hne
    · rw [hnew]
      exact Framer.whole_nil
    · rw [h.accept_peer_old fd hne]
      exact hties.whole k
  · rcases Nat.lt_succ_iff_lt_or_eq.mp hk with hk | rfl
    · rw [hold k hk]
      exact hties.pushed (Nat.lt_of_succ_lt hn) k hk
    · rw [hnew]
      refine (List.filter_eq_nil_iff.mpr fun x hx => ?_).symm
      exact mt of_decide_eq_true (ht.fresh_id hn (.inr (hties.accKnown x hx)))
  · rcases Nat.lt_succ_iff_lt_or_eq.mp hk with hk | rfl
    · rw [hold k hk]
      exact hties.addressed (Nat.lt_of_succ_lt hn) k hk
    · rw [hnew]
      refine ⟨List.nil_prefix, fun _ => (List.filter_eq_nil_iff.mpr fun m hm => ?_).symm⟩
      exact mt of_decide_eq_true (ht.fresh_id hn (hties.sentKnown m hm))

/-- Whole frames with the messages `msgs` are taken off the buffer of a connection. -/
theorem Ties.read (hties : Ties h.wire acc sent) (ht : Tracks h) {k : Nat}
    (hk : h.wire.onFd fd = some k) {used : List UInt8} {msgs : List InboundMsg}
    (hwhole : (frames (h.wire.peer k).sid).Whole used msgs)
    (hstamped : ∀ x ∈ msgs, x.hdr.sessionId = (h.wire.peer k).sid) (chunk : List UInt8) :
    Ties (h.wire.read fd chunk used msgs) (acc ++ msgs) sent := by
  have hsame := h.wire.same_read fd chunk used msgs
  have hself := Wire.read_peer_self hk chunk used msgs
  have hother : ∀ j ≠ k, (h.wire.read fd chunk used msgs).peer j = h.wire.peer j := by
    intro j hne
    refine Wire.read_peer_other (fun hj => hne ?_) chunk used msgs
    exact Option.some_inj.mp (hj.symm.trans hk)
  have hlt := ht.lt fd k hk
  refine ⟨fun j => ?_, fun x hx => ?_, hties.sentSound, fun m hm => ?_, fun hn j hj => ?_,
    fun hn j hj => ?_⟩
  · rcases eq_or_ne j k with rfl | hne
    · rw [hself]
      exact (hties.whole j).append hwhole
    · rw [hother j hne]
      exact hties.whole j
  · rcases List.mem_append.mp hx with hx | hx
    · obtain ⟨j, hj, hsid⟩ := hties.accKnown x hx
      exact ⟨j, hsame.accepts ▸ hj, by rw [hsame.sid, hsid]⟩
    · exact ⟨k, hsame.accepts ▸ hlt, by rw [hsame.sid, hstamped x hx]⟩
  · refine (hties.sentKnown m hm).imp_right fun ⟨j, hj, hsid⟩ => ?_
    exact ⟨j, hsame.accepts ▸ hj, by rw [hsame.sid, hsid]⟩
  · rw [hsame.accepts] at hn hj
    rw [hsame.sid]
    rcases eq_or_ne j k with rfl | hne
    · rw [hself, ofSession_append_self hstamped, ← hties.pushed hn j hj]
    · have hsid : (h.wire.peer j).sid ≠ (h.wire.peer k).sid := by
        intro he
        exact hne ((ht.paired hn).distinct j hj k hlt he)
      rw [hother j hne, ofSession_append_other hsid hstamped]
      exact hties.pushed hn j hj
  · rw [hsame.accepts] at hn hj
    rw [hsame.sid, hsame.live]
    rcases eq_or_ne j k with rfl | hne
    · rw [hself]
      exact hties.addressed hn j hj
    · rw [hother j hne]
      exact hties.addressed hn j hj

/-- A message is popped whose session is known. -/
theorem Ties.pop (hties : Ties w acc sent) {m : OutboundMsg} (hsound : m.Sound)
    (hm : m.hdr.sessionId = 0 ∨ ∃ k < w.accepts, m.hdr.sessionId = (w.peer k).sid) :
    Ties (w.pop m) acc (sent ++ [m]) := by
  have hpeer : ∀ k, ((w.pop m).peer k).sid = (w.peer k).sid ∧
      ((w.pop m).peer k).consumed = (w.peer k).consumed ∧
      ((w.pop m).peer k).pushed = (w.peer k).pushed ∧
      ((w.pop m).peer k).live = (w.peer k).live := by
    intro k
    rw [Wire.pop_peer]
    unfold Peer.popped
    split <;> exact ⟨rfl, rfl, rfl, rfl⟩
  have hknown : ∀ s, (∃ k < w.accepts, s = (w.peer k).sid) →
      ∃ k < (w.pop m).accepts, s = ((w.pop m).peer k).sid := by
    rintro s ⟨k, hk, hsid⟩
    exact ⟨k, hk, by rw [(hpeer k).1, hsid]⟩
  refine ⟨fun k => ?_, fun x hx => hknown _ (hties.accKnown x hx),
    List.forall_mem_append.mpr ⟨hties.sentSound, ?_⟩, fun m' hm' => ?_, fun hn k hk => ?_,
    fun hn k hk => ?_⟩
  · rw [(hpeer k).1, (hpeer k).2.1, (hpeer k).2.2.1]
    exact hties.whole k
  · intro m' hm'
    rw [List.mem_singleton.mp hm']
    exact hsound
  · rcases List.mem_append.mp hm' with hm' | hm'
    · exact (hties.sentKnown m' hm').imp_right (hknown _)
    · rw [List.mem_singleton.mp hm']
      exact hm.imp_right (hknown _)
  · rw [(hpeer k).1, (hpeer k).2.2.1]
    exact hties.pushed hn k hk
  · obtain ⟨hfirst, hall⟩ := hties.addressed hn k hk
    rw [(hpeer k).1, (hpeer k).2.2.2, Wire.pop_peer]
    unfold Peer.popped
    unfold toSession at hfirst hall ⊢
    rw [List.filter_append]
    by_cases hsid : (w.peer k).sid = m.hdr.sessionId
    · rw [List.filter_cons_of_pos (by simpa using hsid.symm), List.filter_nil]
      cases hlive : (w.peer k).live with
      | true =>
        rw [if_pos ⟨rfl, hsid⟩]
        dsimp only
        rw [hall hlive]
        exact ⟨List.prefix_refl _, fun _ => rfl⟩
      | false =>
        rw [if_neg fun he => Bool.false_ne_true he.1]
        exact ⟨hfirst.trans (List.prefix_append _ _), nofun⟩
    · rw [if_neg fun he => hsid he.2, List.filter_cons_of_neg (by simpa using Ne.symm hsid),
        List.filter_nil, List.append_nil]
      exact ⟨hfirst, hall⟩

end Ties

/-! ## A reactor in front of the shards -/

/-- The tables of a reactor, the shards behind it and the messages popped from them. -/
structure ExchangeInv (sc : SetConfig) (log : List (Nat × OutboundMsg)) (h : Host) (b : Backend) :
    Prop where
  tracks : Tracks h
  backend : BackendInv sc log b
  ties : Ties h.wire b.accepted (log.map Prod.snd)

/-- The clients are served as if every shard handled its messages one after the other. -/
structure Transparent (sc : SetConfig) (log : List (Nat × OutboundMsg)) (h : Host) (b : Backend) :
    Prop where
  /-- The messages of a connection are those in the bytes used of it. -/
  parsed : ∀ k, (decodeAll (h.wire.peer k).sid (h.wire.peer k).consumed).1 = (h.wire.peer k).pushed
  /-- A shard gets those that are meant for it, in order. -/
  routed : ∀ k < h.wire.accepts, ∀ i,
    ofSession (h.wire.peer k).sid (b.set.rings.popped i) ++
      ofSession (h.wire.peer k).sid ((b.set.rings.ring i).contents sc.depth) =
    (h.wire.peer k).pushed.filter fun m => target sc.n m = some i
  /-- It answers them as if one after the other. -/
  served : ∀ i, Refines sc b.set i
  /-- The reactor pops its answers in order. -/
  drained : ∀ i, fromShard i log = (b.set.workers i).drained

section Reactor

variable {sc : SetConfig} {log : List (Nat × OutboundMsg)} {h : Host} {b : Backend} {fd : Nat}

theorem exchangeInv_init (sc : SetConfig) (slots : Nat → Nat → InboundMsg)
    (outSlots : Nat → Nat → OutboundMsg) :
    ExchangeInv sc [] Host.init ⟨ShardSet.init sc slots outSlots, [], []⟩ where
  tracks := tracks_init
  backend := ⟨ringsRep_init _ _ _, staged_init _ _ _, fun _ => rfl⟩
  ties := ties_init

theorem ExchangeInv.accept (hinv : ExchangeInv sc log h b) (hfd : h.wire.onFd fd = none) :
    ExchangeInv sc log (h.accept fd) b :=
  ⟨hinv.tracks.accept hfd, hinv.backend, hinv.ties.accept hinv.tracks fd⟩

theorem ExchangeInv.close (hinv : ExchangeInv sc log h b) (fd : Nat) :
    ExchangeInv sc log (h.close fd) b :=
  ⟨hinv.tracks.close fd, hinv.backend, hinv.ties.close fd⟩

theorem ExchangeInv.read (hinv : ExchangeInv sc log h b) {chunk : List UInt8} {h' : Host}
    {b' : Backend} (heq : h.read (Backend.push sc) fd chunk b = .ok (h', b')) :
    ExchangeInv sc log h' b' := by
  have htracks := hinv.tracks.read heq
  obtain ⟨rfl, rfl⟩ | ⟨s, s', used, msgs, hs, hid, htakes, rfl⟩ := Host.read_takes heq
  · exact hinv
  · obtain ⟨k, hk⟩ := hinv.tracks.exists_conn hs
    have hsid := hinv.tracks.stamped fd k s hk hs
    obtain ⟨hbackend, hacc⟩ := htakes.backend hinv.backend
    refine ⟨htracks, hbackend, ?_⟩
    dsimp only
    rw [hacc]
    rw [hsid] at htakes
    exact hinv.ties.read hinv.tracks hk htakes.whole htakes.stamped chunk

/-- A message is popped; what the sockets do with it does not matter here. -/
theorem ExchangeInv.popped (hinv : ExchangeInv sc log h b) {i : Nat} {m : OutboundMsg}
    (hm : (b.set.pop sc i).2 = some m) {h' : Host} (htracks : Tracks h')
    (haccepts : h'.wire.accepts = h.wire.accepts)
    (htalk : ∀ k, ((h.wire.pop m).peer k).SameTalk (h'.wire.peer k)) :
    ExchangeInv sc (log ++ [(i, m)]) h' { b with set := (b.set.pop sc i).1 } := by
  have hbackend := hinv.backend.pop i
  obtain ⟨hsound, hknown⟩ := hinv.backend.pop_sends
    (P := fun s => s = 0 ∨ ∃ k < h.wire.accepts, s = (h.wire.peer k).sid) (.inl rfl)
    (fun x hx => .inr (hinv.ties.accKnown x hx)) hm
  rw [hm] at hbackend
  refine ⟨htracks, hbackend, ?_⟩
  rw [List.map_append]
  exact (hinv.ties.pop hsound hknown).same haccepts htalk

/-- The ring was empty. -/
theorem ExchangeInv.pop_none (hinv : ExchangeInv sc log h b) {i : Nat}
    (hnone : (b.set.pop sc i).2 = none) :
    ExchangeInv sc log h { b with set := (b.set.pop sc i).1 } := by
  have hbackend := hinv.backend.pop i
  rw [hnone, Option.toList_none, List.map_nil, List.append_nil] at hbackend
  exact ⟨hinv.tracks, hbackend, hinv.ties⟩

theorem ExchangeInv.work (hinv : ExchangeInv sc log h b) (i : Nat) :
    ExchangeInv sc log h { b with set := b.set.work sc i } :=
  ⟨hinv.tracks, hinv.backend.work i, hinv.ties⟩

theorem ExchangeInv.stop (hinv : ExchangeInv sc log h b) (i : Nat) :
    ExchangeInv sc log h { b with set := b.set.stop i } :=
  ⟨hinv.tracks, hinv.backend.stop i, hinv.ties⟩

theorem ExchangeInv.steps (hinv : ExchangeInv sc log h b) (steps : List (List Nat)) :
    ExchangeInv sc log h { b with steps := steps } :=
  ⟨hinv.tracks, ⟨hinv.backend.rings, hinv.backend.staged, hinv.backend.drains⟩, hinv.ties⟩

theorem ExchangeInv.transparent (hinv : ExchangeInv sc log h b) (hn : h.wire.accepts < 2 ^ 32) :
    Transparent sc log h b := by
  refine ⟨fun k => ?_, fun k hk i => ?_, hinv.backend.staged.refines, hinv.backend.drains⟩
  · have hwhole := hinv.ties.whole k []
    rw [List.append_nil] at hwhole
    unfold decodeAll
    rw [hwhole]
    exact List.append_nil _
  · rw [hinv.ties.pushed hn k hk]
    unfold ofSession
    rw [← List.filter_append, hinv.backend.rings.share, List.filter_filter, List.filter_filter]
    simp only [Bool.and_comm]

end Reactor

/-! ## The exchange -/

/-- The reactor in front of the shards, and the messages it has popped, with the shard each was
    popped from. -/
structure Exchange where
  gw : Gateway Backend
  drained : List (Nat × OutboundMsg)

def Exchange.init (sc : SetConfig) (slots : Nat → Nat → InboundMsg)
    (outSlots : Nat → Nat → OutboundMsg) : Exchange :=
  ⟨Gateway.init ⟨ShardSet.init sc slots outSlots, [], []⟩, []⟩

/-- A report of `epoll_wait`, with the steps of the threads before each push; a `pop` of
    `drain_outbound` on shard `i`, with the answers of `send` for what it delivers; a step of a
    thread; a `stop`. A `poll_once` is some reports followed by pops, and the threads may take a
    step in between at any time. -/
inductive ExchangeAct where
  | event (e : Event) (steps : List (List Nat))
  | drain (i : Nat) (answers : List Nat)
  | work (i : Nat)
  | stop (i : Nat)

def Gateway.withSet (gw : Gateway Backend) (q : ShardSet) : Gateway Backend :=
  { gw with shards := { gw.shards with set := q } }

def Gateway.withSteps (gw : Gateway Backend) (steps : List (List Nat)) : Gateway Backend :=
  { gw with shards := { gw.shards with steps := steps } }

def Exchange.step (sc : SetConfig) (x : Exchange) : ExchangeAct → Except Fault Exchange
  | .event e steps => do
    let gw ← (x.gw.withSteps steps).step (Backend.push sc) (.event e)
    return ⟨gw, x.drained⟩
  | .drain i answers =>
    let r := x.gw.shards.set.pop sc i
    match r.2 with
    | none => .ok ⟨x.gw.withSet r.1, x.drained⟩
    | some m => .ok ⟨(x.gw.withSet r.1).out m answers, x.drained ++ [(i, m)]⟩
  | .work i => .ok ⟨x.gw.withSet (x.gw.shards.set.work sc i), x.drained⟩
  | .stop i => .ok ⟨x.gw.withSet (x.gw.shards.set.stop i), x.drained⟩

/-- `accept` returns descriptors that are not open. -/
def Exchange.KernelOk (x : Exchange) : ExchangeAct → Prop
  | .event e _ => x.gw.KernelOk (.event e)
  | _ => True

instance Exchange.decidableKernelOk (x : Exchange) : ∀ act, Decidable (x.KernelOk act)
  | .event e _ => inferInstanceAs (Decidable (x.gw.KernelOk (.event e)))
  | .drain _ _ => isTrue trivial
  | .work _ => isTrue trivial
  | .stop _ => isTrue trivial

section Exchange

variable {sc : SetConfig} {log : List (Nat × OutboundMsg)} {gw : Gateway Backend} {x : Exchange}

/-- What a message popped does to what a connection is told is not what `send` takes. -/
theorem Gateway.out_sameTalk {σ : Type} (gw : Gateway σ) (m : OutboundMsg) (answers : List Nat)
    (k : Nat) : ((gw.wire.pop m).peer k).SameTalk ((gw.out m answers).wire.peer k) := by
  rw [Wire.pop_peer]
  obtain ⟨-, hpeer⟩ | ⟨-, hpeer⟩ := gw.out_peer m answers k
  · rw [hpeer]
    exact ⟨rfl, id, rfl, rfl, rfl⟩
  · rw [hpeer]
    exact ⟨rfl, id, rfl, rfl, rfl⟩

theorem Gateway.out_shards {σ : Type} (gw : Gateway σ) (m : OutboundMsg) (answers : List Nat) :
    (gw.out m answers).shards = gw.shards := by
  unfold Gateway.out
  split <;> rfl

theorem ExchangeInv.out (h : ExchangeInv sc log gw.toHost gw.shards) {i : Nat} {m : OutboundMsg}
    (hm : (gw.shards.set.pop sc i).2 = some m) (answers : List Nat) :
    ExchangeInv sc (log ++ [(i, m)])
      ((gw.withSet (gw.shards.set.pop sc i).1).out m answers).toHost
      ((gw.withSet (gw.shards.set.pop sc i).1).out m answers).shards := by
  have hsame := ((gw.withSet (gw.shards.set.pop sc i).1).out_same m answers).1
  have htalk := (gw.withSet (gw.shards.set.pop sc i).1).out_sameTalk m answers
  have hstep : ∃ gw', (gw.withSet (gw.shards.set.pop sc i).1).step (Backend.push sc)
      (.out m answers) = .ok gw' ∧ Tracks gw'.toHost :=
    Gateway.step_tracks (.out m answers) h.tracks trivial
  obtain ⟨gw', hgw', htracks⟩ := hstep
  cases hgw'
  rw [Gateway.out_shards]
  exact h.popped hm htracks hsame.accepts htalk

/-- A report never faults, whatever the shards do. -/
theorem ExchangeInv.event (h : ExchangeInv sc log gw.toHost gw.shards) {e : Event}
    (hk : gw.KernelOk (.event e)) : ∃ gw', gw.step (Backend.push sc) (.event e) = .ok gw' ∧
      ExchangeInv sc log gw'.toHost gw'.shards := by
  have hok : ∃ gw', gw.step (Backend.push sc) (.event e) = .ok gw' ∧ Tracks gw'.toHost :=
    Gateway.step_tracks (.event e) h.tracks hk
  obtain ⟨gw', hstep, -⟩ := hok
  refine ⟨gw', hstep, ?_⟩
  exact Gateway.event_inv (I := fun gw => ExchangeInv sc log gw.toHost gw.shards)
    (fun _ _ hfd hI => hI.accept hfd) (fun _ _ _ _ _ heq hI => hI.read heq)
    (fun _ fd hI => hI.close fd) hk h hstep

theorem ExchangeInv.step (h : ExchangeInv sc x.drained x.gw.toHost x.gw.shards)
    {act : ExchangeAct} (hk : x.KernelOk act) : ∃ x', x.step sc act = .ok x' ∧
      ExchangeInv sc x'.drained x'.gw.toHost x'.gw.shards := by
  cases act with
  | event e steps =>
    have hsteps : ExchangeInv sc x.drained (x.gw.withSteps steps).toHost
        (x.gw.withSteps steps).shards := h.steps steps
    obtain ⟨gw', hstep, hinv⟩ := hsteps.event (e := e) hk
    refine ⟨⟨gw', x.drained⟩, ?_, hinv⟩
    unfold Exchange.step
    dsimp only
    rw [hstep]
    rfl
  | drain i answers =>
    unfold Exchange.step
    dsimp only
    cases hpop : (x.gw.shards.set.pop sc i).2 with
    | none => exact ⟨_, rfl, h.pop_none hpop⟩
    | some m => exact ⟨_, rfl, h.out hpop answers⟩
  | work i => exact ⟨_, rfl, h.work i⟩
  | stop i => exact ⟨_, rfl, h.stop i⟩

end Exchange

/-- In every run of reactor and threads, on a kernel whose `accept` returns descriptors that are not
    open and as long as the counter of session ids has not come round, the exchange is
    transparent. -/
theorem exchange_transparent (sc : SetConfig) (slots : Nat → Nat → InboundMsg)
    (outSlots : Nat → Nat → OutboundMsg) (acts : List ExchangeAct)
    (hk : Along (Exchange.step sc) Exchange.KernelOk (Exchange.init sc slots outSlots) acts) :
    ∃ x, run (Exchange.step sc) (Exchange.init sc slots outSlots) acts = .ok x ∧
      (x.gw.wire.accepts < 2 ^ 32 → Transparent sc x.drained x.gw.toHost x.gw.shards) := by
  obtain ⟨x, hrun, h⟩ := run_inv (I := fun _ x => ExchangeInv sc x.drained x.gw.toHost x.gw.shards)
    (fun _ x act h hk => h.step hk) (n := 0) (exchangeInv_init sc slots outSlots) hk
  exact ⟨x, hrun, h.transparent⟩

/-- Two shards with the symbols 0 and 1, behind rings of two places. -/
def twoShards : SetConfig := ⟨2, smallSet.depth, fun _ => smallSetup⟩

/-- A client sends a `CancelOrder` for a token of shard 1, which refuses it; the `Reject` is sent in
    two pieces. -/
def strayCancel : List ExchangeAct :=
  [.event (.listen [5]) [],
    .event (.ready 5 [⟨[16, 0, 3, 0, 0, 0, 0, 0, 9, 0, 0, 0, 0, 0, 0, 1], by decide,
      by decide⟩] false) [],
    .work 1, .work 1, .work 1, .drain 1 [7, 17]]

theorem exchange_transparent_stray_cancel :
    ∃ x, run (Exchange.step twoShards) (Exchange.init twoShards blankIn blankOut) strayCancel =
      .ok x ∧ Transparent twoShards x.drained x.gw.toHost x.gw.shards := by
  obtain ⟨x, hrun, htransparent⟩ := exchange_transparent twoShards blankIn blankOut strayCancel
    (along_of_check (p := fun x act => decide (x.KernelOk act))
      (fun _ _ h => of_decide_eq_true h) (by decide +kernel))
  have hcode : (run (Exchange.step twoShards) (Exchange.init twoShards blankIn blankOut)
      strayCancel).map (fun x => x.gw.wire.accepts) = .ok 1 := by decide +kernel
  rw [hrun] at hcode
  have haccepts : x.gw.wire.accepts = 1 := Except.ok.inj hcode
  exact ⟨x, hrun, htransparent (by omega)⟩

/-! ## The bytes a client gets -/

/-- A connection whose send has failed takes no more bytes. -/
def Exchange.StaysFailed (sc : SetConfig) (x : Exchange) : ExchangeAct → Prop
  | .drain i answers => ∀ m ∈ (x.gw.shards.set.pop sc i).2, x.gw.StaysFailed (.out m answers)
  | _ => True

instance Exchange.decidableStaysFailed (sc : SetConfig) (x : Exchange) :
    ∀ act, Decidable (x.StaysFailed sc act)
  | .event _ _ => isTrue trivial
  | .drain i answers => inferInstanceAs
      (Decidable (∀ m ∈ (x.gw.shards.set.pop sc i).2, x.gw.StaysFailed (.out m answers)))
  | .work _ => isTrue trivial
  | .stop _ => isTrue trivial

theorem OutInv.exchange_step {sc : SetConfig} {x : Exchange} (hout : OutInv x.gw.toHost)
    (h : ExchangeInv sc x.drained x.gw.toHost x.gw.shards) {act : ExchangeAct}
    (hk : x.KernelOk act)
    (hstays : x.StaysFailed sc act) {x' : Exchange} (hstep : x.step sc act = .ok x') :
    OutInv x'.gw.toHost := by
  cases act with
  | event e steps =>
    obtain ⟨gw', hgw', hret⟩ := bind_eq_ok hstep
    cases hret
    have hsteps : OutInv (x.gw.withSteps steps).toHost := hout
    have hevent : ∃ gw', (x.gw.withSteps steps).step (Backend.push sc) (.event e) = .ok gw' ∧
        Tracks gw'.toHost ∧ OutInv gw'.toHost := hsteps.step h.tracks hk trivial
    obtain ⟨gw₁, hgw₁, -, hout'⟩ := hevent
    rw [hgw'] at hgw₁
    cases hgw₁
    exact hout'
  | drain i answers =>
    unfold Exchange.step at hstep
    dsimp only at hstep
    split at hstep
    · cases hstep
      exact hout
    · rename_i m hm
      cases hstep
      have hset : OutInv (x.gw.withSet (x.gw.shards.set.pop sc i).1).toHost := hout
      exact hset.out h.tracks (hstays m hm)
  | work i =>
    cases hstep
    exact hout
  | stop i =>
    cases hstep
    exact hout

/-- Runs on such a kernel. -/
theorem exchange_run {sc : SetConfig} {x : Exchange}
    (h : ExchangeInv sc x.drained x.gw.toHost x.gw.shards) (hout : OutInv x.gw.toHost)
    {acts : List ExchangeAct}
    (hk : Along (Exchange.step sc) (fun x act => x.KernelOk act ∧ x.StaysFailed sc act) x acts) :
    ∃ x', run (Exchange.step sc) x acts = .ok x' ∧
      ExchangeInv sc x'.drained x'.gw.toHost x'.gw.shards ∧ OutInv x'.gw.toHost :=
  run_inv (I := fun _ x => ExchangeInv sc x.drained x.gw.toHost x.gw.shards ∧ OutInv x.gw.toHost)
    (fun _ x act hI hP => by
      obtain ⟨x', hstep, hinv⟩ := hI.1.step hP.1
      exact ⟨x', hstep, hinv, hI.2.exchange_step hI.1 hP.1 hP.2 hstep⟩)
    (n := 0) ⟨h, hout⟩ hk

/-- A first part of the frames of messages is read as a first part of the messages. -/
theorem toSession_sound {ms : List OutboundMsg} (h : ∀ m ∈ ms, m.Sound) (k : UInt32) :
    replies.Whole ((toSession k ms).flatMap OutboundMsg.frame) (toSession k ms) :=
  whole_replies fun m hm => h m (List.mem_of_mem_filter hm)

/-- What a client has got of the messages `sent` to its session, as bytes and as messages. -/
structure GotFirst (p : Peer) (sent : List OutboundMsg) : Prop where
  bytes : p.got.flatten <+: sent.flatMap OutboundMsg.frame
  read : (replies.readAll p.got.flatten).1 <+: sent
  noneBad : (replies.readAll p.got.flatten).2 = false
  all : p.live = true → p.failed = false →
    p.got.flatten = sent.flatMap OutboundMsg.frame ∧ replies.readAll p.got.flatten = (sent, false)

theorem ExchangeInv.gotFirst {sc : SetConfig} {log : List (Nat × OutboundMsg)} {h : Host}
    {b : Backend} (hinv : ExchangeInv sc log h b) (hout : OutInv h) (hn : h.wire.accepts < 2 ^ 32)
    {k : Nat} (hk : k < h.wire.accepts) :
    GotFirst (h.wire.peer k) (toSession (h.wire.peer k).sid (log.map Prod.snd)) := by
  obtain ⟨hfirst, hall⟩ := hinv.ties.addressed hn k hk
  have hwhole := toSession_sound hinv.ties.sentSound (h.wire.peer k).sid
  have hbytes := (hout.inOrder k).trans (hfirst.flatMap _)
  obtain ⟨hread, hbad⟩ := hwhole.first rfl hbytes
  refine ⟨hbytes, hread, hbad, fun hlive hfailed => ?_⟩
  obtain ⟨fd, hfd⟩ := (hinv.tracks.live k).mp hlive
  have heven := hout.even fd k hfd (hinv.tracks.found hn fd k hfd) hfailed
  unfold Peer.frames at heven
  rw [hall hlive] at heven
  rw [heven]
  exact ⟨rfl, hwhole.all rfl⟩

/-- On a kernel where a connection whose send has failed takes no more bytes: a client that takes
    the bytes it gets apart with `tryDecode` reads the first of the messages that the shards have
    sent to its session, and never anything invalid. As long as its connection is open and no send
    has failed, it reads all of them. -/
theorem replies_intact (sc : SetConfig) (slots : Nat → Nat → InboundMsg)
    (outSlots : Nat → Nat → OutboundMsg) (acts : List ExchangeAct)
    (hk : Along (Exchange.step sc) Exchange.KernelOk (Exchange.init sc slots outSlots) acts)
    (hstays : Along (Exchange.step sc) (Exchange.StaysFailed sc)
      (Exchange.init sc slots outSlots) acts) :
    ∃ x, run (Exchange.step sc) (Exchange.init sc slots outSlots) acts = .ok x ∧
      (x.gw.wire.accepts < 2 ^ 32 → ∀ k < x.gw.wire.accepts,
        GotFirst (x.gw.wire.peer k)
          (toSession (x.gw.wire.peer k).sid (x.drained.map Prod.snd))) := by
  obtain ⟨x, hrun, h, hout⟩ := exchange_run (exchangeInv_init sc slots outSlots) outInv_init
    (along_and hk hstays)
  exact ⟨x, hrun, fun hn k hkn => h.gotFirst hout hn hkn⟩

theorem replies_intact_stray_cancel :
    ∃ x, run (Exchange.step twoShards) (Exchange.init twoShards blankIn blankOut) strayCancel =
      .ok x ∧ replies.readAll (x.gw.wire.peer 0).got.flatten =
        (toSession 1 (x.drained.map Prod.snd), false) := by
  obtain ⟨x, hrun, hintact⟩ := replies_intact twoShards blankIn blankOut strayCancel
    (along_of_check (p := fun x act => decide (x.KernelOk act))
      (fun _ _ h => of_decide_eq_true h) (by decide +kernel))
    (along_of_check (p := fun x act => decide (x.StaysFailed twoShards act))
      (fun _ _ h => of_decide_eq_true h) (by decide +kernel))
  have hcode : (run (Exchange.step twoShards) (Exchange.init twoShards blankIn blankOut)
      strayCancel).map (fun x => (x.gw.wire.accepts, (x.gw.wire.peer 0).sid,
        (x.gw.wire.peer 0).live, (x.gw.wire.peer 0).failed)) = .ok (1, 1, true, false) := by
    decide +kernel
  rw [hrun] at hcode
  obtain ⟨haccepts, hsid, hlive, hfailed⟩ := by simpa [Except.map] using hcode
  refine ⟨x, hrun, ?_⟩
  rw [← hsid]
  exact ((hintact (by omega) 0 (by omega)).all hlive hfailed).2

end LiteExchange.Net
