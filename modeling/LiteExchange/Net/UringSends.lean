/-
  The sends of the io_uring reactor, by connection.

  * `Outcome`: what a message popped does for a connection: nothing, or its frame is sent at once,
    or it waits behind the frames that wait already.
  * `UringInv.step`: on a kernel that completes each executed send once, and whose `accept` returns
    descriptors that are not open, no step faults, and tables and slots stay in order.
  * `EntriesOwned.step`: each entry is for the connection that was given the session of its
    message, as long as no descriptor is closed while a send on it is still to be taken (`InTime`).
  * `polls_in_time`: without `sqpoll` that is always so, because `poll_once` submits what it has
    prepared before it handles completions.
-/
import LiteExchange.Net.UringGateway

namespace LiteExchange.Net

open Lib Proto

variable {σ : Type}

/-! ## What waits for a connection -/

section Waiting

variable {u u' : UringGateway σ} {fd : Nat} {m : OutboundMsg} {n : Nat}

/-- The frames that wait for a connection. -/
def UringGateway.waiting (u : UringGateway σ) (k : Nat) : List (List UInt8) :=
  (u.queued.filter fun e => e.conn = some k).map u.frame

theorem UringGateway.waiting_congr (hqueued : u'.queued = u.queued)
    (hpool : u'.sendPool = u.sendPool) : u'.waiting = u.waiting := by
  funext k
  unfold UringGateway.waiting UringGateway.frame
  rw [hqueued, hpool]

/-- The slot given to a message was not in use, so the frames that wait stay as they are. -/
theorem Prepared.waiting (hs : Slots u) (hp : Prepared u fd m u') (k : Nat) :
    u'.waiting k = u.waiting k ++ if u.wire.onFd fd = some k then [m.frame] else [] := by
  obtain ⟨-, -, hfresh⟩ := hs.next hp.freeTop
  have hkept : ∀ e ∈ u.queued, u'.frame e = u.frame e := by
    intro e he
    unfold UringGateway.frame
    rw [hp.sendPool, Function.update_of_ne (hfresh e he)]
  have hnew : u'.frame ⟨u.wire.onFd fd, u.freeSlots u'.freeTop, m.hdr.len.toNat⟩ = m.frame := by
    unfold UringGateway.frame OutboundMsg.frame
    rw [hp.sendPool, Function.update_self]
  unfold UringGateway.waiting
  rw [hp.queued, List.filter_append, List.map_append]
  congr 1
  · exact List.map_congr_left fun e he => hkept e (List.mem_of_mem_filter he)
  · by_cases hk : u.wire.onFd fd = some k
    · rw [List.filter_cons_of_pos (by simpa using hk), if_pos hk, List.filter_nil,
        List.map_singleton, hnew]
    · rw [List.filter_cons_of_neg (by simpa using hk), if_neg hk]
      rfl

theorem Executed.frame_eq {i : Nat} {e : Entry} (he : Executed u i n e u') :
    u'.frame = u.frame := by
  funext e'
  unfold UringGateway.frame
  rw [he.sendPool]

/-- What a send takes is got by the connection it waited for. -/
theorem Executed.moves {i : Nat} {e : Entry} (he : Executed u i n e u') (k : Nat) :
    ((u'.wire.peer k).got = (u.wire.peer k).got ∧ u'.waiting k = u.waiting k) ∨
    (e.conn = some k ∧ ∃ fs fs', u.waiting k = fs ++ u.frame e :: fs' ∧ u'.waiting k = fs ++ fs' ∧
      (u'.wire.peer k).got = (u.wire.peer k).got ++ [(u.frame e).take n] ∧ (i = 0 → fs = [])) := by
  obtain ⟨es, es', hbefore, hafter, hfirst⟩ := he.queued
  have hwaits : u.waiting k = ((es ++ e :: es').filter fun e => e.conn = some k).map u.frame ∧
      u'.waiting k = ((es ++ es').filter fun e => e.conn = some k).map u.frame := by
    unfold UringGateway.waiting
    rw [hbefore, hafter, he.frame_eq]
    exact ⟨rfl, rfl⟩
  rw [hwaits.1, hwaits.2, he.wire, List.filter_append, List.filter_append, List.map_append,
    List.map_append]
  by_cases hk : e.conn = some k
  · refine .inr ⟨hk, _, (es'.filter fun e => e.conn = some k).map u.frame, ?_, rfl, ?_, ?_⟩
    · rw [List.filter_cons_of_pos (by simpa using hk), List.map_cons]
    · rw [hk]
      dsimp only [Wire.give]
      rw [Function.update_self]
    · intro hi
      rw [hfirst hi]
      rfl
  · refine .inl ⟨?_, ?_⟩
    · split
      · rfl
      · rename_i j hj
        have hne : k ≠ j := fun h => hk (h ▸ hj)
        dsimp only [Wire.give]
        rw [Function.update_of_ne hne]
    · rw [List.filter_cons_of_neg (by simpa using hk)]

theorem Wire.give_addressed (w : Wire) (j : Nat) (bytes : List UInt8) (k : Nat) :
    ((w.give j bytes).peer k).addressed = (w.peer k).addressed := by
  unfold Wire.give
  dsimp only
  rcases eq_or_ne k j with rfl | hne
  · rw [Function.update_self]
  · rw [Function.update_of_ne hne]

theorem Executed.addressed {i : Nat} {e : Entry} (he : Executed u i n e u') (k : Nat) :
    (u'.wire.peer k).addressed = (u.wire.peer k).addressed := by
  rw [he.wire]
  split
  · rfl
  · exact Wire.give_addressed ..

end Waiting

/-! ## A message popped -/

/-- What a message popped does for a connection. -/
inductive Outcome (u : UringGateway σ) (m : OutboundMsg) (n : Nat) (u' : UringGateway σ) (k : Nat) :
    Prop where
  | other (leads : ¬ u.toHost.Leads m k) (got : (u'.wire.peer k).got = (u.wire.peer k).got)
      (waiting : u'.waiting k = u.waiting k)
  | direct (leads : u.toHost.Leads m k) (full : u.freeTop = 0)
      (got : (u'.wire.peer k).got = (u.wire.peer k).got ++ [m.frame.take n])
      (waiting : u'.waiting k = u.waiting k)
  | queued (leads : u.toHost.Leads m k) (free : u.freeTop ≠ 0)
      (got : (u'.wire.peer k).got = (u.wire.peer k).got)
      (waiting : u'.waiting k = u.waiting k ++ [m.frame])

/-- A message has been popped. -/
structure Popped (u : UringGateway σ) (m : OutboundMsg) (n : Nat) (u' : UringGateway σ) : Prop where
  conns : u'.conns = u.conns
  same : u.wire.Same u'.wire
  sqpoll : u'.sqpoll = u.sqpoll
  freeTop : ∀ k, u.toHost.Leads m k → u'.freeTop = u.freeTop - 1
  addressed : ∀ k, (u'.wire.peer k).addressed = ((u.wire.peer k).popped m).addressed
  outcome : ∀ k, Outcome u m n u' k

section Popped

variable {u u' : UringGateway σ} {fd : Nat} {m : OutboundMsg} {n : Nat}

theorem Prepared.popped (hs : Slots u) (hroute : u.conns.sidToFd m.hdr.sessionId = some fd)
    (hp : Prepared u fd m u') : Popped u m n u' := by
  have hwire : u'.wire = u.wire.pop m := by rw [hp.toHost]
  refine ⟨by rw [hp.toHost], hwire ▸ u.wire.same_pop m, hp.sqpoll, fun k _ => ?_,
    fun k => by rw [hwire, Wire.pop_peer], fun k => ?_⟩
  · rw [hp.freeTop, Nat.add_sub_cancel]
  have hgot : (u'.wire.peer k).got = (u.wire.peer k).got := by
    rw [hwire, Wire.pop_peer, (Peer.popped_got _ m).1]
  have hwaits := hp.waiting hs k
  by_cases hk : u.wire.onFd fd = some k
  · rw [if_pos hk] at hwaits
    exact .queued ((Host.leads_iff_onFd hroute k).mpr hk) (by rw [hp.freeTop]; omega) hgot hwaits
  · rw [if_neg hk, List.append_nil] at hwaits
    exact .other (mt (Host.leads_iff_onFd hroute k).mp hk) hgot hwaits

theorem UringGateway.waiting_same {w : Wire} (hsame : u.wire.Same w) :
    UringGateway.waiting { u with wire := w } = u.waiting :=
  UringGateway.waiting_congr (UringGateway.queued_same hsame) rfl

theorem popped_dropped (hroute : u.conns.sidToFd m.hdr.sessionId = none) :
    Popped u m n { u with wire := u.wire.pop m } := by
  have hsame := u.wire.same_pop m
  have hno : ∀ k, ¬ u.toHost.Leads m k := by
    rintro k ⟨fd, hroute', -⟩
    rw [hroute] at hroute'
    cases hroute'
  refine ⟨rfl, hsame, rfl, fun k hm => absurd hm (hno k), fun k => rfl, fun k => ?_⟩
  exact .other (hno k) (Peer.popped_got _ m).1 (by rw [UringGateway.waiting_same hsame])

theorem popped_direct (hroute : u.conns.sidToFd m.hdr.sessionId = some fd)
    (htop : u.freeTop = 0) :
    Popped u m n { u with wire := (u.wire.pop m).send fd (m.frame.take n) } := by
  have hsame := (u.wire.same_pop m).trans ((u.wire.pop m).same_send fd (m.frame.take n))
  have hwaits := UringGateway.waiting_same hsame
  refine ⟨rfl, hsame, rfl, fun _ _ => by dsimp only; omega,
    fun k => (Wire.send_addressed ..).trans (by rw [Wire.pop_peer]), fun k => ?_⟩
  have hgot := (u.wire.pop m).send_got fd (m.frame.take n) k
  rw [(u.wire.same_pop m).onFd, Wire.pop_peer, (Peer.popped_got _ m).1] at hgot
  by_cases hk : u.wire.onFd fd = some k
  · refine .direct ((Host.leads_iff_onFd hroute k).mpr hk) htop ?_ (congrFun hwaits k)
    exact hgot.trans (by rw [if_pos hk])
  · refine .other (mt (Host.leads_iff_onFd hroute k).mp hk) ?_ (congrFun hwaits k)
    exact hgot.trans (by rw [if_neg hk, List.append_nil])

theorem Popped.routed (hp : Popped u m n u') {fd k : Nat} (hr : u'.toHost.Routed fd k) :
    u.toHost.Routed fd k := by
  refine ⟨hp.same.onFd ▸ hr.1, ?_⟩
  rw [← hp.same.sid k, ← hp.conns]
  exact hr.2

end Popped

/-! ## Tables and slots -/

/-- The tables track the connections, and the slots are each in one place. -/
structure UringInv (u : UringGateway σ) : Prop where
  tracks : Tracks u.toHost
  slots : Slots u

section Inv

variable {push : σ → InboundMsg → σ × Bool} {u u' : UringGateway σ} {m : OutboundMsg} {n : Nat}

theorem uringInv_init (q : σ) (sqpoll : Bool) : UringInv (UringGateway.init q sqpoll) :=
  ⟨tracks_init, slots_init q sqpoll⟩

theorem UringInv.same (hinv : UringInv u) {w : Wire} (hsame : u.wire.Same w) :
    UringInv { u with wire := w } :=
  ⟨hinv.tracks.same hsame, hinv.slots.same hsame⟩

theorem UringInv.executed (hinv : UringInv u) {i : Nat} {e : Entry}
    (he : Executed u i n e u') : UringInv u' := by
  have hhost : u'.toHost = ⟨u.conns, u'.wire⟩ := by
    rw [← he.conns]
  exact ⟨hhost ▸ hinv.tracks.same he.same, hinv.slots.executed he⟩

theorem UringInv.taken (hinv : UringInv u) (hsame : SameButQueue u u')
    (hqueued : u'.queued = u.queued) : UringInv u' :=
  ⟨hsame.toHost ▸ hinv.tracks, hsame.slots hqueued hinv.slots⟩

theorem UringInv.out (hinv : UringInv u) (m : OutboundMsg) (n : Nat) :
    ∃ u', u.out m n = .ok u' ∧ UringInv u' ∧ Popped u m n u' := by
  obtain ⟨u', heq⟩ := hinv.slots.out_ok m n
  refine ⟨u', heq, ?_⟩
  obtain ⟨hroute, rfl⟩ | ⟨fd, hroute, ⟨htop, rfl⟩ | hp⟩ := UringGateway.out_cases heq
  · exact ⟨hinv.same (u.wire.same_pop m), popped_dropped hroute⟩
  · have hsame := (u.wire.same_pop m).trans ((u.wire.pop m).same_send fd (m.frame.take n))
    exact ⟨hinv.same hsame, popped_direct hroute htop⟩
  · refine ⟨⟨?_, hinv.slots.prepared hp⟩, hp.popped hinv.slots hroute⟩
    rw [hp.toHost]
    exact hinv.tracks.same (u.wire.same_pop m)

theorem UringInv.cqe (push : σ → InboundMsg → σ × Bool) (hinv : UringInv u) {c : Cqe}
    (hk : u.KernelOk (.cqe c)) : ∃ u', u.handleCqe push c = .ok u' ∧ UringInv u' := by
  by_cases hc : ∃ slot, c = .send slot
  · obtain ⟨slot, rfl⟩ := hc
    obtain ⟨u', heq, hhost, -, -, -, hslots⟩ := hinv.slots.free hk
    exact ⟨u', heq, hhost ▸ hinv.tracks, hslots⟩
  · obtain ⟨u', heq, hsame, hkeeps⟩ := UringGateway.handleCqe_spec push
      (fun slot h => hc ⟨slot, h⟩) hk
    refine ⟨u', heq, ?_, hsame.slots hinv.slots⟩
    exact hkeeps (fun h _ => Tracks h) hinv.tracks (fun fd hfd => hinv.tracks.accept hfd)
      (fun fd chunk h q _ hread => hinv.tracks.read hread) fun h _ fd hI => hI.close fd

/-- Whatever the kernel does, in whichever order, no step faults. -/
theorem UringInv.step (push : σ → InboundMsg → σ × Bool) (hinv : UringInv u) {act : UringAct}
    (hk : u.KernelOk act) : ∃ u', u.step push act = .ok u' ∧ UringInv u' := by
  cases act with
  | out m n =>
    obtain ⟨u', heq, hinv', -⟩ := hinv.out m n
    exact ⟨u', heq, hinv'⟩
  | submit => exact ⟨_, rfl, hinv.taken u.submit_same u.submit_queued⟩
  | cqe c => exact hinv.cqe push hk
  | kernel a =>
    refine ⟨_, rfl, ?_⟩
    obtain ⟨hsame, hqueued⟩ | ⟨i, n, e, -, he⟩ := u.kernel_cases a
    · exact hinv.taken hsame hqueued
    · exact hinv.executed he

end Inv

/-! ## Whom the entries are for -/

/-- Each entry is for the connection that was given the session of its message. -/
def EntriesOwned (u : UringGateway σ) (w : Wire) : Prop :=
  ∀ e ∈ u.queued, ∃ k < w.accepts, e.conn = some k ∧
    (w.peer k).sid = (u.sendPool e.slot).hdr.sessionId

section Owned

variable {push : σ → InboundMsg → σ × Bool} {u u' : UringGateway σ} {m : OutboundMsg} {n : Nat}

theorem entriesOwned_init (q : σ) (sqpoll : Bool) (w : Wire) :
    EntriesOwned (UringGateway.init q sqpoll) w := nofun

theorem EntriesOwned.of_eq {w : Wire} (howned : EntriesOwned u w) (hqueued : u'.queued = u.queued)
    (hpool : u'.sendPool = u.sendPool) : EntriesOwned u' w := by
  unfold EntriesOwned
  rw [hqueued, hpool]
  exact howned

theorem EntriesOwned.mono {w w' : Wire} (howned : EntriesOwned u w)
    (haccepts : w.accepts ≤ w'.accepts)
    (hsid : ∀ k < w.accepts, (w'.peer k).sid = (w.peer k).sid) : EntriesOwned u w' := by
  intro e he
  obtain ⟨k, hk, hconn, hid⟩ := howned e he
  exact ⟨k, Nat.lt_of_lt_of_le hk haccepts, hconn, (hsid k hk).trans hid⟩

theorem EntriesOwned.same {w w' : Wire} (howned : EntriesOwned u w) (hsame : w.Same w') :
    EntriesOwned u w' :=
  howned.mono (Nat.le_of_eq hsame.accepts.symm) fun k _ => hsame.sid k

theorem EntriesOwned.none_waits (howned : EntriesOwned u u.wire) {k : Nat}
    (hk : u.wire.accepts ≤ k) : u.waiting k = [] := by
  unfold UringGateway.waiting
  rw [List.map_eq_nil_iff, List.filter_eq_nil_iff]
  intro e he hconn
  obtain ⟨j, hj, hconn', -⟩ := howned e he
  have hjk : j = k := Option.some_inj.mp (hconn'.symm.trans (of_decide_eq_true hconn))
  omega

theorem EntriesOwned.prepared (howned : EntriesOwned u u.wire) (hinv : UringInv u) {fd : Nat}
    (hroute : u.conns.sidToFd m.hdr.sessionId = some fd) (hp : Prepared u fd m u') :
    EntriesOwned u' u.wire := by
  obtain ⟨-, -, hfresh⟩ := hinv.slots.next hp.freeTop
  intro e he
  rw [hp.queued] at he
  rw [hp.sendPool]
  rcases List.mem_append.mp he with he | he
  · rw [Function.update_of_ne (hfresh e he)]
    exact howned e he
  · obtain rfl := List.mem_singleton.mp he
    obtain ⟨k, hk, hsid⟩ := hinv.tracks.route _ _ hroute
    dsimp only
    rw [Function.update_self]
    exact ⟨k, hinv.tracks.lt fd k hk, hk, hsid⟩

theorem EntriesOwned.out (howned : EntriesOwned u u.wire) (hinv : UringInv u)
    (hout : u.out m n = .ok u') : EntriesOwned u' u'.wire := by
  have hkept : ∀ {w : Wire}, u.wire.Same w → EntriesOwned { u with wire := w } w := fun hsame =>
    (howned.same hsame).of_eq (UringGateway.queued_same hsame) rfl
  obtain ⟨-, rfl⟩ | ⟨fd, hroute, ⟨-, rfl⟩ | hp⟩ := UringGateway.out_cases hout
  · exact hkept (u.wire.same_pop m)
  · exact hkept ((u.wire.same_pop m).trans ((u.wire.pop m).same_send fd _))
  · rw [hp.toHost]
    exact (howned.prepared hinv hroute hp).same (u.wire.same_pop m)

theorem EntriesOwned.executed (howned : EntriesOwned u u.wire) {i : Nat} {e : Entry}
    (he : Executed u i n e u') : EntriesOwned u' u'.wire := by
  obtain ⟨es, es', hbefore, hafter, -⟩ := he.queued
  refine EntriesOwned.same (w := u.wire) (fun e' he' => ?_) he.same
  rw [hafter] at he'
  rw [he.sendPool]
  refine howned e' ?_
  rw [hbefore]
  exact ((List.sublist_cons_self e es').append_left es).subset he'

/-- Where a descriptor leads, it leads after a completion, unless it was closed. -/
theorem UringGateway.onFd_stays (push : σ → InboundMsg → σ × Bool) {c : Cqe}
    (hc : ∀ slot, c ≠ .send slot) (hk : u.KernelOk (.cqe c)) (hstep : u.handleCqe push c = .ok u')
    {fd k : Nat} (hfd : u.wire.onFd fd = some k) (hopen : u'.wire.onFd fd ≠ none) :
    u'.wire.onFd fd = some k := by
  obtain ⟨u₁, heq, -, hkeeps⟩ := UringGateway.handleCqe_spec push hc hk
  cases heq.symm.trans hstep
  have hstays : u'.wire.onFd fd = some k ∨ u'.wire.onFd fd = none := by
    refine hkeeps (fun h _ => h.wire.onFd fd = some k ∨ h.wire.onFd fd = none) (.inl hfd)
      (fun fd' hfree => .inl ?_) (fun fd' chunk h q _ hread => .inl ?_) fun h _ fd' hI => ?_
    · refine Wire.accept_onFd.mpr (.inr ⟨fun he => ?_, hfd⟩)
      rw [he, hfree] at hfd
      cases hfd
    · rw [(Host.read_same hread).onFd]
      exact hfd
    · by_cases he : fd = fd'
      · exact .inr (he ▸ Function.update_self ..)
      · exact hI.imp (fun h' => (Function.update_of_ne he ..).trans h')
          fun h' => (Function.update_of_ne he ..).trans h'
  exact hstays.resolve_right hopen

/-- A completion that comes in time leaves the sends as they are. -/
theorem EntriesOwned.queued_kept (howned : EntriesOwned u u.wire) (hinv : UringInv u) {c : Cqe}
    (hk : u.KernelOk (.cqe c)) (htime : u.InTime push (.cqe c))
    (hstep : u.handleCqe push c = .ok u') :
    u'.queued = u.queued ∧ u'.sendPool = u.sendPool := by
  by_cases hc : ∃ slot, c = .send slot
  · obtain ⟨slot, rfl⟩ := hc
    obtain ⟨u₁, heq, -, -, hpool, hqueued, -⟩ := hinv.slots.free hk
    cases heq.symm.trans hstep
    exact ⟨hqueued, hpool⟩
  · have hc' : ∀ slot, c ≠ .send slot := fun slot h => hc ⟨slot, h⟩
    obtain ⟨u₁, heq, hsame, -⟩ := UringGateway.handleCqe_spec push hc' hk
    cases heq.symm.trans hstep
    refine ⟨?_, hsame.sendPool⟩
    rw [hsame.queued]
    refine congrArg (u.inflight ++ ·) (List.filterMap_congr fun sqe hsqe => ?_)
    have hopen := htime u' (by rw [hstep]; rfl) sqe hsqe
    cases sqe with
    | accept => rfl
    | recv fd => rfl
    | send fd slot len =>
      have hmem : (⟨u.wire.onFd fd, slot, len⟩ : Entry) ∈ u.queued :=
        List.mem_append_right _ (List.mem_filterMap.mpr ⟨_, hsqe, rfl⟩)
      obtain ⟨k, -, hfd, -⟩ := howned _ hmem
      dsimp only at hfd
      dsimp only [Sqe.entry]
      rw [UringGateway.onFd_stays push hc' hk hstep hfd hopen, hfd]

theorem EntriesOwned.cqe (howned : EntriesOwned u u.wire) (hinv : UringInv u) {c : Cqe}
    (hk : u.KernelOk (.cqe c)) (htime : u.InTime push (.cqe c))
    (hstep : u.handleCqe push c = .ok u') : EntriesOwned u' u'.wire := by
  obtain ⟨hqueued, hpool⟩ := howned.queued_kept hinv hk htime hstep
  refine EntriesOwned.of_eq (u := u) ?_ hqueued hpool
  by_cases hc : ∃ slot, c = .send slot
  · obtain ⟨slot, rfl⟩ := hc
    obtain ⟨u₁, heq, hhost, -⟩ := hinv.slots.free hk
    cases heq.symm.trans hstep
    rw [hhost]
    exact howned
  · obtain ⟨u₁, heq, -, hkeeps⟩ := UringGateway.handleCqe_spec push
      (fun slot h => hc ⟨slot, h⟩) hk
    cases heq.symm.trans hstep
    refine hkeeps (fun h _ => EntriesOwned u h.wire) howned (fun fd _ => ?_)
      (fun fd chunk h q _ hread => howned.same (Host.read_same hread)) fun h _ fd hI => ?_
    · refine howned.mono (Nat.le_succ _) fun k hlt => ?_
      rw [Host.accept_peer_old _ _ (Nat.ne_of_lt hlt)]
    · exact hI.mono (Nat.le_of_eq (Wire.close_accepts h.wire fd).symm) fun k _ =>
        Wire.close_sid ..

theorem EntriesOwned.step (howned : EntriesOwned u u.wire) (hinv : UringInv u) {act : UringAct}
    (hk : u.KernelOk act) (htime : u.InTime push act) (hstep : u.step push act = .ok u') :
    EntriesOwned u' u'.wire := by
  cases act with
  | out m n => exact howned.out hinv hstep
  | submit =>
    cases hstep
    rw [u.submit_same.toHost]
    exact howned.of_eq u.submit_queued u.submit_same.sendPool
  | cqe c => exact howned.cqe hinv hk htime hstep
  | kernel a =>
    cases hstep
    obtain ⟨hsame, hqueued⟩ | ⟨i, n, e, -, he⟩ := u.kernel_cases a
    · rw [hsame.toHost]
      exact howned.of_eq hqueued hsame.sendPool
    · exact howned.executed he

end Owned

/-! ## The order of a turn -/

section Turn

variable {push : σ → InboundMsg → σ × Bool} {u u' : UringGateway σ}

/-- No send is still to be taken. -/
def UringGateway.Quiet (u : UringGateway σ) : Prop := ∀ sqe ∈ u.sq, sqe.slot = none

theorem UringGateway.Quiet.in_time (hq : u.Quiet) (act : UringAct) : u.InTime push act := by
  cases act with
  | cqe c =>
    intro u' _ sqe hsqe
    have hslot := hq sqe hsqe
    cases sqe with
    | send fd slot len => cases hslot
    | accept => trivial
    | recv fd => trivial
  | out m n => trivial
  | submit => trivial
  | kernel a => trivial

theorem UringGateway.Quiet.take (hq : u.Quiet) (n : Nat) : (u.take n).Quiet :=
  fun sqe hsqe => hq sqe (List.mem_of_mem_drop hsqe)

theorem UringGateway.Quiet.submit (hq : u.Quiet) : u.submit.Quiet := by
  unfold UringGateway.submit
  split
  · exact hq
  · exact hq.take _

/-- Without `sqpoll` everything prepared is taken when it is submitted. -/
theorem UringGateway.submit_quiet (hpoll : u.sqpoll = false) : u.submit.Quiet := by
  unfold UringGateway.submit
  rw [hpoll, if_neg Bool.false_ne_true]
  intro sqe hsqe
  change sqe ∈ u.sq.drop u.sq.length at hsqe
  rw [List.drop_length] at hsqe
  cases hsqe

theorem UringGateway.Quiet.prep (hq : u.Quiet) {sqe : Sqe} (hsqe : sqe.slot = none) :
    (u.prep sqe).Quiet := by
  have hroom : u.makeRoom.Quiet := by
    unfold UringGateway.makeRoom
    split
    · exact hq
    · split
      · exact hq.take 1
      · exact hq.submit
  exact List.forall_mem_append.mpr ⟨hroom, fun x hx => List.mem_singleton.mp hx ▸ hsqe⟩

theorem UringGateway.Quiet.cqe (hq : u.Quiet) {c : Cqe} (hstep : u.handleCqe push c = .ok u') :
    u'.Quiet := by
  have hprep : ∀ (u₁ : UringGateway σ) (sqe : Sqe), sqe.slot = none → u₁.sq = u.sq →
      (u₁.prep sqe).Quiet := fun u₁ sqe hsqe hsq =>
    UringGateway.Quiet.prep (u := u₁) (fun x hx => hq x (hsq ▸ hx)) hsqe
  cases c with
  | accept fd more =>
    cases hstep
    unfold UringGateway.onAccept
    cases fd with
    | none =>
      cases more with
      | true => exact hq
      | false => exact hprep u .accept rfl rfl
    | some fd =>
      cases more with
      | true => exact hprep _ (.recv fd) rfl rfl
      | false =>
        have haccepted := hprep { u with toHost := u.toHost.accept fd } (.recv fd) rfl rfl
        exact haccepted.prep rfl
  | recv fd chunk =>
    unfold UringGateway.handleCqe UringGateway.onRecv at hstep
    dsimp only at hstep
    split at hstep
    · cases hstep
      exact hq
    · cases hstep
      exact hq
    · obtain ⟨⟨h, q⟩, -, hstep⟩ := bind_eq_ok hstep
      dsimp only at hstep
      split at hstep <;> cases hstep
      · exact hq
      · exact hprep _ (.recv fd) rfl rfl
  | send slot =>
    obtain ⟨freeSlots, -, hret⟩ := bind_eq_ok hstep
    cases hret
    exact hq

theorem UringGateway.Quiet.kernel (hq : u.Quiet) (a : KernelAct) : (u.kernel a).Quiet := by
  cases a with
  | take n =>
    unfold UringGateway.kernel
    dsimp only
    split
    · exact hq.take n
    · exact hq
  | exec i n =>
    change (u.exec i n).Quiet
    unfold UringGateway.exec
    split <;> exact hq

/-- The way the ring was set up does not change. -/
theorem UringGateway.step_sqpoll {act : UringAct} (hstep : u.step push act = .ok u') :
    u'.sqpoll = u.sqpoll := by
  cases act with
  | out m n =>
    obtain ⟨-, rfl⟩ | ⟨fd, -, ⟨-, rfl⟩ | hp⟩ := UringGateway.out_cases hstep
    · rfl
    · rfl
    · exact hp.sqpoll
  | submit =>
    cases hstep
    exact u.submit_same.sqpoll
  | cqe c =>
    cases c with
    | accept fd more =>
      cases hstep
      exact (u.onAccept_spec fd more).1.sqpoll
    | recv fd chunk =>
      obtain ⟨u₁, heq, hsame, -⟩ := UringGateway.onRecv_spec push u fd chunk
      cases heq.symm.trans hstep
      exact hsame.sqpoll
    | send slot =>
      obtain ⟨freeSlots, -, hret⟩ := bind_eq_ok hstep
      cases hret
      rfl
  | kernel a =>
    cases hstep
    obtain ⟨hsame, -⟩ | ⟨i, n, e, -, he⟩ := u.kernel_cases a
    · exact hsame.sqpoll
    · exact he.sqpoll

/-- Messages are drained before the submission, completions are handled after it. -/
theorem poll_in_time (p : UringPoll) (hpoll : u.sqpoll = false) :
    Along (UringGateway.step push) (UringGateway.InTime push) u p.acts := by
  refine along_append.mpr ⟨?_, fun u₁ hrun => ⟨trivial, fun u₂ hsubmit => ?_⟩⟩
  · refine along_of_inv (I := fun _ => True) trivial (fun act hact _ _ => ?_) fun _ _ _ _ _ _ =>
      trivial
    obtain ⟨x, -, hact⟩ := List.mem_flatMap.mp hact
    rcases List.mem_cons.mp hact with rfl | hact
    · trivial
    · obtain ⟨a, -, rfl⟩ := List.mem_map.mp hact
      trivial
  · have hpoll₁ : u₁.sqpoll = false := by
      refine run_preserves (I := fun u => u.sqpoll = false) (fun u act u' hI hstep => ?_) hpoll hrun
      exact (UringGateway.step_sqpoll hstep).trans hI
    have hq : u₂.Quiet := by
      cases hsubmit
      exact UringGateway.submit_quiet hpoll₁
    refine along_of_inv hq (fun act _ u hq => hq.in_time act) fun act hact u u' hq hstep => ?_
    rcases List.mem_append.mp hact with hact | hact
    · obtain ⟨a, -, rfl⟩ := List.mem_map.mp hact
      cases hstep
      exact hq.kernel a
    · obtain ⟨x, -, hact⟩ := List.mem_flatMap.mp hact
      rcases List.mem_cons.mp hact with rfl | hact
      · exact hq.cqe hstep
      · obtain ⟨a, -, rfl⟩ := List.mem_map.mp hact
        cases hstep
        exact hq.kernel a

/-- At every point of a run of turns. -/
theorem polls_in_time {polls : List UringPoll} {acts : List UringAct}
    (hacts : acts <+: polls.flatMap UringPoll.acts) (hpoll : u.sqpoll = false) :
    Along (UringGateway.step push) (UringGateway.InTime push) u acts := by
  have hall : Along (UringGateway.step push) (UringGateway.InTime push) u
      (polls.flatMap UringPoll.acts) := by
    clear hacts
    induction polls generalizing u with
    | nil => trivial
    | cons p polls ih =>
      refine along_append.mpr ⟨poll_in_time p hpoll, fun u' hrun => ih ?_⟩
      refine run_preserves (I := fun u => u.sqpoll = false) (fun u act u' hI hstep => ?_) hpoll hrun
      exact (UringGateway.step_sqpoll hstep).trans hI
  obtain ⟨rest, heq⟩ := hacts
  rw [← heq] at hall
  exact (along_append.mp hall).1

end Turn

end LiteExchange.Net
