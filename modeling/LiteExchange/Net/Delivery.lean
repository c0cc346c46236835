/-
  What the connections of the io_uring reactor are sent, over whole runs. A message popped for a
  connection is sent at once or waits in an entry; what waits is executed some time.

  A `Delivery` compares what a connection has got, followed by what waits for it, with the frames
  popped for it. It says whether frames have to be sent in turn, and whether they have to be sent
  whole. If the reactor and the kernel do so (`UringGateway.Bears`), every step keeps the comparison
  (`SentInv.step`), and so does every run (`sends_run`).

  * `Delivery.inOrder`: the frames are the same, in the same order.
  * `Delivery.once`: the frames are the same, in some order.
  * `Delivery.own`: every frame sent is part of one that was popped.
-/
import LiteExchange.Net.UringSends

namespace LiteExchange.Net

open Lib Proto

variable {σ : Type}

/-! ## Sending in turn, and whole frames -/

/-- The frames popped for a connection. -/
def Peer.frameList (p : Peer) : List (List UInt8) := p.addressed.map OutboundMsg.frame

/-- A message popped for a connection finds a free slot, or no frame waits for the connection. -/
def UringGateway.NoOvertaking (u : UringGateway σ) : UringAct → Prop
  | .out m _ => ∀ fd ∈ u.conns.sidToFd m.hdr.sessionId, ∀ k ∈ u.wire.onFd fd,
      u.freeTop ≠ 0 ∨ u.waiting k = []
  | _ => True

instance UringGateway.decidableNoOvertaking (u : UringGateway σ) :
    ∀ act, Decidable (u.NoOvertaking act)
  | .out m _ => inferInstanceAs (Decidable (∀ fd ∈ u.conns.sidToFd m.hdr.sessionId,
      ∀ k ∈ u.wire.onFd fd, u.freeTop ≠ 0 ∨ u.waiting k = []))
  | .submit => isTrue trivial
  | .cqe _ => isTrue trivial
  | .kernel _ => isTrue trivial

/-- The kernel executes the sends in the order in which it has taken them. -/
def UringGateway.Fifo (_ : UringGateway σ) : UringAct → Prop
  | .kernel (.exec i _) => i = 0
  | _ => True

instance UringGateway.decidableFifo (u : UringGateway σ) : ∀ act, Decidable (u.Fifo act)
  | .kernel (.exec i _) => inferInstanceAs (Decidable (i = 0))
  | .kernel (.take _) => isTrue trivial
  | .out _ _ => isTrue trivial
  | .submit => isTrue trivial
  | .cqe _ => isTrue trivial

/-- Each send takes its whole frame. -/
def UringGateway.Whole (u : UringGateway σ) : UringAct → Prop
  | .out m n => m.frame.length ≤ n
  | .kernel (.exec i n) => ∀ e ∈ u.inflight[i]?, (u.frame e).length ≤ n
  | _ => True

instance UringGateway.decidableWhole (u : UringGateway σ) : ∀ act, Decidable (u.Whole act)
  | .out m n => inferInstanceAs (Decidable (m.frame.length ≤ n))
  | .kernel (.exec i n) =>
    inferInstanceAs (Decidable (∀ e ∈ u.inflight[i]?, (u.frame e).length ≤ n))
  | .kernel (.take _) => isTrue trivial
  | .submit => isTrue trivial
  | .cqe _ => isTrue trivial

/-! ## Ways to deliver -/

/-- A comparison `all` of the frames sent and the frames popped. It bears that a frame is put behind
    others, and that one is taken out and a part of it sent: any, unless `ordered`; a part, unless
    `whole`. -/
structure Delivery where
  all : List (List UInt8) → List (List UInt8) → Prop
  ordered : Bool
  whole : Bool
  nil : all [] []
  lead : ∀ {got waiting popped : List (List UInt8)} {frame part : List UInt8},
    all (got ++ waiting) popped → (ordered = true → waiting = []) → part <+: frame →
    (whole = true → part = frame) → all (got ++ part :: waiting) (popped ++ [frame])
  exec : ∀ {got before after popped : List (List UInt8)} {frame part : List UInt8},
    all (got ++ (before ++ frame :: after)) popped → (ordered = true → before = []) →
    part <+: frame → (whole = true → part = frame) → all (got ++ part :: (before ++ after)) popped

/-- What was sent, and perhaps more. -/
def Delivery.First (D : Delivery) (sent popped : List (List UInt8)) : Prop :=
  ∃ rest, D.all (sent ++ rest) popped

section Delivery

variable {D : Delivery} {got before after sent popped : List (List UInt8)} {frame part : List UInt8}

theorem Delivery.first_of_all (h : D.all sent popped) : D.First sent popped :=
  ⟨[], by rwa [List.append_nil]⟩

/-- A frame popped and not sent. -/
theorem Delivery.First.more (h : D.First sent popped) (frame : List UInt8) :
    D.First sent (popped ++ [frame]) := by
  obtain ⟨rest, hall⟩ := h
  refine ⟨rest ++ [frame], ?_⟩
  rw [← List.append_assoc]
  refine D.lead ?_ (fun _ => rfl) (List.prefix_refl _) fun _ => rfl
  rwa [List.append_nil]

theorem Delivery.First.exec (h : D.First (got ++ (before ++ frame :: after)) popped)
    (hturn : D.ordered = true → before = []) (hpart : part <+: frame)
    (hwhole : D.whole = true → part = frame) :
    D.First (got ++ part :: (before ++ after)) popped := by
  obtain ⟨rest, hall⟩ := h
  refine ⟨rest, ?_⟩
  simp only [List.append_assoc, List.cons_append] at hall ⊢
  exact D.exec hall hturn hpart hwhole

end Delivery

/-- In order, and all of them. -/
def Delivery.inOrder : Delivery where
  all sent popped := sent = popped
  ordered := true
  whole := true
  nil := rfl
  lead := by
    rintro got waiting popped frame part rfl hturn - hwhole
    rw [hturn rfl, hwhole rfl, List.append_nil]
  exec := by
    rintro got before after popped frame part rfl hturn - hwhole
    rw [hturn rfl, hwhole rfl, List.nil_append, List.nil_append]

/-- Each once. -/
def Delivery.once : Delivery where
  all sent popped := sent.Perm popped
  ordered := false
  whole := true
  nil := List.Perm.nil
  lead := by
    rintro got waiting popped frame part hall - - hwhole
    rw [hwhole rfl]
    exact List.perm_middle.trans ((hall.cons frame).trans (List.perm_append_singleton _ _).symm)
  exec := by
    rintro got before after popped frame part hall - - hwhole
    rw [hwhole rfl]
    exact (List.Perm.append_left got List.perm_middle.symm).trans hall

/-- Nothing else. -/
def Delivery.own : Delivery where
  all sent popped := ∀ bytes ∈ sent, ∃ frame ∈ popped, bytes <+: frame
  ordered := false
  whole := false
  nil := nofun
  lead := by
    rintro got waiting popped frame part hall - hpart - bytes hbytes
    rcases List.mem_cons.mp (List.perm_middle.subset hbytes) with rfl | hbytes
    · exact ⟨frame, List.mem_append_right _ (List.mem_singleton.mpr rfl), hpart⟩
    · obtain ⟨frame', hmem, hpre⟩ := hall bytes hbytes
      exact ⟨frame', List.mem_append_left _ hmem, hpre⟩
  exec := by
    rintro got before after popped frame part hall - hpart - bytes hbytes
    have hrest : ∀ b ∈ got ++ (before ++ after), b ∈ got ++ (before ++ frame :: after) :=
      fun b hb => (((List.sublist_cons_self frame after).append_left before).append_left
        got).subset hb
    rcases List.mem_cons.mp (List.perm_middle.subset hbytes) with rfl | hbytes
    · obtain ⟨frame', hmem, hpre⟩ := hall frame (by simp)
      exact ⟨frame', hmem, hpart.trans hpre⟩
    · exact hall bytes (hrest bytes hbytes)

/-! ## A step -/

/-- What a connection has got, followed by what waits for it, is `First` to its frames; all of them
    are there, if its session still leads to it. -/
structure SentInv (D : Delivery) (h : Host) (waiting : Nat → List (List UInt8)) : Prop where
  first : ∀ k, D.First ((h.wire.peer k).got ++ waiting k) (h.wire.peer k).frameList
  even : ∀ fd k, h.Routed fd k →
    D.all ((h.wire.peer k).got ++ waiting k) (h.wire.peer k).frameList

/-- A step sends in turn and whole frames, as far as the delivery asks for it. -/
def UringGateway.Bears (D : Delivery) (u : UringGateway σ) (act : UringAct) : Prop :=
  (D.ordered = true → u.NoOvertaking act ∧ u.Fifo act) ∧ (D.whole = true → u.Whole act)

section Step

variable {D : Delivery} {push : σ → InboundMsg → σ × Bool} {u u' : UringGateway σ} {h h' : Host}
  {waiting : Nat → List (List UInt8)} {m : OutboundMsg} {n : Nat}

theorem sentInv_init (D : Delivery) (q : σ) (sqpoll : Bool) :
    SentInv D (UringGateway.init q sqpoll).toHost (UringGateway.init q sqpoll).waiting :=
  ⟨fun _ => Delivery.first_of_all D.nil, nofun⟩

/-- What happens to connections but not to what they are sent. -/
theorem SentInv.keep (hinv : SentInv D h waiting)
    (hpeer : ∀ k, (h.wire.peer k).SameOut (h'.wire.peer k))
    (hrouted : ∀ fd k, h'.Routed fd k → h.Routed fd k) : SentInv D h' waiting := by
  refine ⟨fun k => ?_, fun fd k hr => ?_⟩
  all_goals
    unfold Peer.frameList
    rw [(hpeer k).got, (hpeer k).addressed]
  · exact hinv.first k
  · exact hinv.even fd k (hrouted fd k hr)

theorem SentInv.accept (hinv : SentInv D h waiting) (hnone : waiting h.wire.accepts = [])
    (fd : Nat) : SentInv D (h.accept fd) waiting := by
  have hnew : D.all (((h.accept fd).wire.peer h.wire.accepts).got ++ waiting h.wire.accepts)
      ((h.accept fd).wire.peer h.wire.accepts).frameList := by
    rw [Host.accept_peer_new, hnone]
    exact D.nil
  refine ⟨fun k => ?_, fun fd' k hr => ?_⟩ <;> rcases eq_or_ne k h.wire.accepts with rfl | hne
  · exact Delivery.first_of_all hnew
  · rw [Host.accept_peer_old _ _ hne]
    exact hinv.first k
  · exact hnew
  · rw [Host.accept_peer_old _ _ hne]
    exact hinv.even fd' k (Host.Routed.of_accept hne hr)

theorem Popped.frameList_lead (hp : Popped u m n u') (ht : Tracks u.toHost) {k : Nat}
    (hm : u.toHost.Leads m k) :
    (u'.wire.peer k).frameList = (u.wire.peer k).frameList ++ [m.frame] := by
  unfold Peer.frameList
  rw [hp.addressed k, Peer.popped, if_pos (ht.leads hm), List.map_append, List.map_singleton]

/-- For a connection the session leads to, the message comes after all frames before it. -/
theorem SentInv.lead (hinv : SentInv D u.toHost u.waiting) (ht : Tracks u.toHost)
    (hp : Popped u m n u') (hb : u.Bears D (.out m n)) {k : Nat} (hm : u.toHost.Leads m k) :
    D.all ((u'.wire.peer k).got ++ u'.waiting k) (u'.wire.peer k).frameList := by
  obtain ⟨-, hsid⟩ := ht.leads hm
  obtain ⟨fd, hroute, hk⟩ := id hm
  have heven := hinv.even fd k ⟨hk, hsid ▸ hroute⟩
  rw [hp.frameList_lead ht hm]
  cases hp.outcome k with
  | other hother => exact absurd hm hother
  | queued _ _ hgot hwaits =>
    rw [hgot, hwaits, ← List.append_assoc]
    refine D.lead ?_ (fun _ => rfl) (List.prefix_refl _) fun _ => rfl
    rwa [List.append_nil]
  | direct _ hfull hgot hwaits =>
    rw [hgot, hwaits, List.append_assoc]
    refine D.lead heven (fun hordered => ?_) (List.take_prefix _ _) fun hwhole =>
      List.take_of_length_le (hb.2 hwhole)
    exact ((hb.1 hordered).1 fd hroute k hk).resolve_left fun hfree => hfree hfull

/-- For the others nothing is sent. -/
theorem Popped.other (hp : Popped u m n u') {k : Nat} (hm : ¬ u.toHost.Leads m k) :
    (u'.wire.peer k).got ++ u'.waiting k = (u.wire.peer k).got ++ u.waiting k := by
  cases hp.outcome k with
  | other _ hgot hwaits => rw [hgot, hwaits]
  | direct hm' => exact absurd hm' hm
  | queued hm' => exact absurd hm' hm

theorem SentInv.popped (hinv : SentInv D u.toHost u.waiting) (ht : Tracks u.toHost)
    (hp : Popped u m n u') (hb : u.Bears D (.out m n)) : SentInv D u'.toHost u'.waiting := by
  have hframes : ∀ k, (u'.wire.peer k).frameList = ((u.wire.peer k).popped m).frameList := by
    intro k
    unfold Peer.frameList
    rw [hp.addressed k]
  refine ⟨fun k => ?_, fun fd k hr => ?_⟩ <;> by_cases hm : u.toHost.Leads m k
  · exact Delivery.first_of_all (hinv.lead ht hp hb hm)
  · rw [hp.other hm, hframes k]
    unfold Peer.popped Peer.frameList
    split
    · rw [List.map_append]
      exact (hinv.first k).more m.frame
    · exact hinv.first k
  · exact hinv.lead ht hp hb hm
  · -- the message is for another session, or the connection is closed
    obtain ⟨hk, hroute⟩ := hp.routed hr
    have hpopped : (u.wire.peer k).popped m = u.wire.peer k :=
      if_neg fun ⟨_, hsid⟩ => hm ⟨fd, hsid ▸ hroute, hk⟩
    rw [hp.other hm, hframes k, hpopped]
    exact hinv.even fd k ⟨hk, hroute⟩

/-- A send executed in its turn sends a part of its frame. -/
theorem SentInv.executed (hinv : SentInv D u.toHost u.waiting) {i : Nat} {e : Entry}
    (he : Executed u i n e u') (hb : u.Bears D (.kernel (.exec i n))) :
    SentInv D u'.toHost u'.waiting := by
  have hturn : ∀ {fs : List (List UInt8)}, (i = 0 → fs = []) → D.ordered = true → fs = [] :=
    fun hfs hordered => hfs (hb.1 hordered).2
  have hwhole : D.whole = true → (u.frame e).take n = u.frame e := fun hwhole =>
    List.take_of_length_le (hb.2 hwhole e he.waited)
  have hrouted : ∀ {fd k}, u'.toHost.Routed fd k → u.toHost.Routed fd k := by
    rintro fd k ⟨hon, hroute⟩
    rw [he.same.sid k, he.conns] at hroute
    exact ⟨he.same.onFd ▸ hon, hroute⟩
  refine ⟨fun k => ?_, fun fd k hr => ?_⟩
  all_goals
    unfold Peer.frameList
    rw [he.addressed k]
    obtain ⟨hgot, hwaits⟩ | ⟨-, fs, fs', hbefore, hafter, hgot, hfirst⟩ := he.moves k
  · rw [hgot, hwaits]
    exact hinv.first k
  · have hk := hinv.first k
    rw [hbefore] at hk
    have hall := hk.exec (hturn hfirst) (List.take_prefix _ _) hwhole
    rw [hgot, hafter, List.append_assoc]
    exact hall
  · rw [hgot, hwaits]
    exact hinv.even fd k (hrouted hr)
  · have hk := hinv.even fd k (hrouted hr)
    rw [hbefore] at hk
    have hall := D.exec hk (hturn hfirst) (List.take_prefix _ _) hwhole
    rw [hgot, hafter, List.append_assoc]
    exact hall

theorem SentInv.cqe (hinv : SentInv D u.toHost u.waiting) (hu : UringInv u)
    (howned : EntriesOwned u u.wire) {c : Cqe} (hk : u.KernelOk (.cqe c))
    (htime : u.InTime push (.cqe c)) (hstep : u.handleCqe push c = .ok u') :
    SentInv D u'.toHost u'.waiting := by
  obtain ⟨hqueued, hpool⟩ := howned.queued_kept hu hk htime hstep
  rw [UringGateway.waiting_congr hqueued hpool]
  by_cases hc : ∃ slot, c = .send slot
  · obtain ⟨slot, rfl⟩ := hc
    obtain ⟨u₁, heq, hhost, -⟩ := hu.slots.free hk
    cases heq.symm.trans hstep
    rw [hhost]
    exact hinv
  · obtain ⟨u₁, heq, -, hkeeps⟩ := UringGateway.handleCqe_spec push
      (fun slot h => hc ⟨slot, h⟩) hk
    cases heq.symm.trans hstep
    refine hkeeps (fun h _ => SentInv D h u.waiting) hinv (fun fd _ => ?_)
      (fun fd chunk h q _ hread => ?_) fun h _ fd hI => ?_
    · exact hinv.accept (howned.none_waits (Nat.le_refl _)) fd
    · exact hinv.keep (Host.read_sameOut hread) fun _ _ hr => hr.of_read hread
    · exact hI.keep (h.close_sameOut fd) fun _ _ hr => hr.of_close

/-- Taking entries sends nothing. -/
theorem SentInv.taken (hinv : SentInv D u.toHost u.waiting) (hsame : SameButQueue u u')
    (hqueued : u'.queued = u.queued) : SentInv D u'.toHost u'.waiting := by
  rw [hsame.toHost, UringGateway.waiting_congr hqueued hsame.sendPool]
  exact hinv

theorem SentInv.step (hinv : SentInv D u.toHost u.waiting) (hu : UringInv u)
    (howned : EntriesOwned u u.wire) {act : UringAct} (hk : u.KernelOk act)
    (htime : u.InTime push act) (hb : u.Bears D act) (hstep : u.step push act = .ok u') :
    SentInv D u'.toHost u'.waiting := by
  cases act with
  | out m n =>
    obtain ⟨u₁, heq, -, hp⟩ := hu.out m n
    cases heq.symm.trans hstep
    exact hinv.popped hu.tracks hp hb
  | submit =>
    cases hstep
    exact hinv.taken u.submit_same u.submit_queued
  | cqe c => exact hinv.cqe hu howned hk htime hstep
  | kernel a =>
    cases hstep
    obtain ⟨hsame, hqueued⟩ | ⟨i, n, e, rfl, he⟩ := u.kernel_cases a
    · exact hinv.taken hsame hqueued
    · exact hinv.executed he hb

end Step

/-! ## Runs -/

/-- The reactor sends as the delivery says. -/
structure Sends (D : Delivery) (u : UringGateway σ) : Prop where
  inv : UringInv u
  owned : EntriesOwned u u.wire
  sent : SentInv D u.toHost u.waiting

section Run

variable {D : Delivery} {push : σ → InboundMsg → σ × Bool} {u : UringGateway σ}

theorem sends_init (D : Delivery) (q : σ) (sqpoll : Bool) :
    Sends D (UringGateway.init q sqpoll) :=
  ⟨uringInv_init q sqpoll, entriesOwned_init q sqpoll _, sentInv_init D q sqpoll⟩

theorem Sends.step (hs : Sends D u) {act : UringAct} (hk : u.KernelOk act)
    (htime : u.InTime push act) (hb : u.Bears D act) :
    ∃ u', u.step push act = .ok u' ∧ Sends D u' := by
  obtain ⟨u', hstep, hu'⟩ := hs.inv.step push hk
  exact ⟨u', hstep, hu', hs.owned.step hs.inv hk htime hstep,
    hs.sent.step hs.inv hs.owned hk htime hb hstep⟩

/-- At every point of a run of turns. -/
theorem sends_run (D : Delivery) (q : σ) (sqpoll : Bool) {polls : List UringPoll}
    {acts : List UringAct} (hacts : acts <+: polls.flatMap UringPoll.acts)
    (hk : Along (UringGateway.step push) UringGateway.KernelOk (UringGateway.init q sqpoll) acts)
    (htime : sqpoll = true →
      Along (UringGateway.step push) (UringGateway.InTime push) (UringGateway.init q sqpoll) acts)
    (hb : Along (UringGateway.step push) (UringGateway.Bears D) (UringGateway.init q sqpoll) acts) :
    ∃ u, run (UringGateway.step push) (UringGateway.init q sqpoll) acts = .ok u ∧ Sends D u := by
  have hall : Along (UringGateway.step push) (UringGateway.InTime push)
      (UringGateway.init q sqpoll) acts := by
    cases sqpoll with
    | true => exact htime rfl
    | false => exact polls_in_time hacts rfl
  exact run_inv (I := fun _ u => Sends D u)
    (fun _ u act hs hP => hs.step hP.1 hP.2.1 hP.2.2) (n := 0) (sends_init D q sqpoll)
    (along_and hk (along_and hall hb))

end Run

end LiteExchange.Net
