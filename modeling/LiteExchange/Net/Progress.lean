/-
  Clients are answered in time. A round of the exchange is any sequence of steps of the reactor and
  the threads in which the thread of shard `i` takes a step and the reactor pops its outbound ring;
  the reactor may serve any connections in it and the other shards may do anything.

  `answered_in_time`: from every reachable state of the exchange, after as many rounds as shard `i`
  has work to do (`ShardSet.load`), every client whose connection is open and whose sends have not
  failed has read the replies of the shard to all messages that were in its ring, unless the shard
  has run into a fault.
-/
import LiteExchange.Net.Exchange

namespace LiteExchange.Net

open Lib Proto Queue Engine

/-! ## What the shards see of a step -/

/-- From `q` to `q'` the reactor has pushed and the threads have worked. -/
def Fed (sc : SetConfig) (q q' : ShardSet) : Prop :=
  ∃ acts, q' = q.run sc acts ∧ ∀ i, .stop i ∉ acts

/-- The shards are taken through `r'` by the steps `r` of the exchange: nothing less is done to
    shard `i`, and no more stops. -/
structure Realises (i : Nat) (r : List ExchangeAct) (r' : List SetAct) : Prop where
  work : .work i ∈ r → .work i ∈ r'
  pop : ∀ answers, .drain i answers ∈ r → .pop i ∈ r'
  stop : .stop i ∈ r' → .stop i ∈ r

section Steps

variable {sc : SetConfig} {q q' : ShardSet} {x x' : Exchange} {i : Nat}

theorem ShardSet.run_append (sc : SetConfig) (q : ShardSet) (r s : List SetAct) :
    q.run sc (r ++ s) = (q.run sc r).run sc s := List.foldl_append

theorem fed_refl (sc : SetConfig) (q : ShardSet) : Fed sc q q := ⟨[], rfl, fun _ => List.not_mem_nil⟩

theorem Fed.push {b : Backend} (h : Fed sc q b.set) (msg : InboundMsg) :
    Fed sc q (b.push sc msg).1.set := by
  obtain ⟨acts, hset, hstop⟩ := h
  refine ⟨acts ++ ((b.steps.headD []).map .work ++ [.push msg]), ?_, fun i hmem => ?_⟩
  · rw [ShardSet.run_append, ShardSet.run_append, ← hset]
    rfl
  · rcases List.mem_append.mp hmem with hmem | hmem
    · exact hstop i hmem
    · simp at hmem

/-- Accepting, reading and closing feed the shards. -/
theorem Gateway.event_fed {gw gw' : Gateway Backend} {e : Event} (hk : gw.KernelOk (.event e))
    (hstep : gw.step (Backend.push sc) (.event e) = .ok gw') :
    Fed sc gw.shards.set gw'.shards.set := by
  refine Gateway.event_inv (I := fun gw₁ : Gateway Backend => Fed sc gw.shards.set gw₁.shards.set)
    (fun _ _ _ hfed => hfed) (fun gw₁ h' b' fd chunk heq hfed => ?_) (fun _ _ hfed => hfed) hk
    (fed_refl sc _) hstep
  obtain ⟨-, rfl⟩ | ⟨s, s', used, msgs, -, -, htakes, -⟩ := Host.read_takes heq
  · exact hfed
  · refine htakes.keeps (fun p => Fed sc gw.shards.set p.1.set) (fun p m hp => ?_) hfed
    exact hp.push m

theorem realises_single {act : ExchangeAct} {r' : List SetAct} (hwork : act = .work i → .work i ∈ r')
    (hpop : ∀ answers, act = .drain i answers → .pop i ∈ r') (hstop : .stop i ∈ r' → act = .stop i) :
    Realises i [act] r' where
  work h := hwork (List.mem_singleton.mp h).symm
  pop answers h := hpop answers (List.mem_singleton.mp h).symm
  stop h := List.mem_singleton.mpr (hstop h).symm

theorem Realises.append {r s : List ExchangeAct} {r' s' : List SetAct} (h : Realises i r r')
    (hs : Realises i s s') : Realises i (r ++ s) (r' ++ s') where
  work hmem := List.mem_append.mpr ((List.mem_append.mp hmem).imp h.work hs.work)
  pop answers hmem :=
    List.mem_append.mpr ((List.mem_append.mp hmem).imp (h.pop answers) (hs.pop answers))
  stop hmem := List.mem_append.mpr ((List.mem_append.mp hmem).imp h.stop hs.stop)

theorem Exchange.step_realises {act : ExchangeAct} (hk : x.KernelOk act)
    (hstep : x.step sc act = .ok x') :
    ∃ r', x'.gw.shards.set = x.gw.shards.set.run sc r' ∧ Realises i [act] r' := by
  cases act with
  | event e steps =>
    obtain ⟨gw', hgw, hret⟩ := bind_eq_ok hstep
    cases hret
    have hfed : Fed sc (x.gw.withSteps steps).shards.set gw'.shards.set := Gateway.event_fed hk hgw
    obtain ⟨r', hset, hstop⟩ := hfed
    exact ⟨r', hset, realises_single nofun nofun fun hmem => absurd hmem (hstop i)⟩
  | drain j answers =>
    refine ⟨[.pop j], ?_, realises_single nofun (fun answers' he => ?_) (by simp)⟩
    · unfold Exchange.step at hstep
      dsimp only at hstep
      split at hstep
      · cases hstep
        rfl
      · cases hstep
        dsimp only
        rw [Gateway.out_shards]
        rfl
    · cases he
      exact List.mem_singleton.mpr rfl
  | work j =>
    cases hstep
    refine ⟨[.work j], rfl, realises_single (fun he => ?_) nofun (by simp)⟩
    cases he
    exact List.mem_singleton.mpr rfl
  | stop j =>
    cases hstep
    refine ⟨[.stop j], rfl, realises_single nofun nofun fun hmem => ?_⟩
    cases List.mem_singleton.mp hmem
    rfl

theorem Exchange.run_realises {r : List ExchangeAct}
    (hk : Along (Exchange.step sc) Exchange.KernelOk x r)
    (hrun : run (Exchange.step sc) x r = .ok x') :
    ∃ r', x'.gw.shards.set = x.gw.shards.set.run sc r' ∧ Realises i r r' := by
  induction r generalizing x with
  | nil =>
    cases hrun
    exact ⟨[], rfl, nofun, nofun, nofun⟩
  | cons act r ih =>
    obtain ⟨x₁, hstep, hrest⟩ := bind_eq_ok hrun
    obtain ⟨s, hs, hact⟩ := Exchange.step_realises (i := i) hk.1 hstep
    obtain ⟨r', hr', hreal⟩ := ih (hk.2 x₁ hstep) hrest
    refine ⟨s ++ r', ?_, hact.append hreal⟩
    rw [hr', hs, ShardSet.run_append]

/-! ## Rounds -/

/-- The thread of shard `i` takes a step, its outbound ring is popped, and it is not stopped. -/
structure FairTurn (i : Nat) (r : List ExchangeAct) : Prop where
  work : .work i ∈ r
  drain : ∃ answers, .drain i answers ∈ r
  goes_on : .stop i ∉ r

theorem FairTurn.round {r : List ExchangeAct} {r' : List SetAct} (h : FairTurn i r)
    (hr : Realises i r r') : FairRound i r' := by
  obtain ⟨answers, hdrain⟩ := h.drain
  exact ⟨hr.work h.work, hr.pop answers hdrain, mt hr.stop h.goes_on⟩

/-- Rounds of the exchange are rounds of the shards. -/
theorem Exchange.rounds_realise {rounds : List (List ExchangeAct)}
    (hfair : ∀ r ∈ rounds, FairTurn i r)
    (hk : Along (Exchange.step sc) Exchange.KernelOk x rounds.flatten)
    (hrun : run (Exchange.step sc) x rounds.flatten = .ok x') :
    ∃ rs : List (List SetAct), x'.gw.shards.set = x.gw.shards.set.run sc rs.flatten ∧
      rs.length = rounds.length ∧ ∀ r' ∈ rs, FairRound i r' := by
  induction rounds generalizing x with
  | nil =>
    cases hrun
    exact ⟨[], rfl, rfl, nofun⟩
  | cons r rounds ih =>
    rw [List.flatten_cons, run_append] at hrun
    obtain ⟨x₁, hr, hrest⟩ := bind_eq_ok hrun
    rw [List.flatten_cons] at hk
    obtain ⟨hkr, hkrest⟩ := along_append.mp hk
    rw [List.forall_mem_cons] at hfair
    obtain ⟨r', hr', hreal⟩ := Exchange.run_realises (i := i) hkr hr
    obtain ⟨rs, hrs, hlen, hall⟩ := ih hfair.2 (hkrest x₁ hr) hrest
    refine ⟨r' :: rs, ?_, ?_, List.forall_mem_cons.mpr ⟨hfair.1.round hreal, hall⟩⟩
    · rw [List.flatten_cons, ShardSet.run_append, hrs, hr']
    · rw [List.length_cons, List.length_cons, hlen]

end Steps

/-! ## Answers -/

/-- Of the replies `out`, each client whose connection is open and whose sends have not failed has
    read those to its session, in order. -/
def Delivered (x : Exchange) (out : List OutboundMsg) : Prop :=
  ∀ k < x.gw.wire.accepts, (x.gw.wire.peer k).live = true → (x.gw.wire.peer k).failed = false →
    (toSession (x.gw.wire.peer k).sid out).Sublist
      (replies.readAll (x.gw.wire.peer k).got.flatten).1

theorem fromShard_sublist (i : Nat) (log : List (Nat × OutboundMsg)) :
    (fromShard i log).Sublist (log.map Prod.snd) :=
  List.filter_sublist.map Prod.snd

/-- What was popped is delivered. -/
theorem ExchangeInv.delivered {sc : SetConfig} {x : Exchange}
    (h : ExchangeInv sc x.drained x.gw.toHost x.gw.shards) (hout : OutInv x.gw.toHost)
    (hn : x.gw.wire.accepts < 2 ^ 32) {i : Nat} {out : List OutboundMsg}
    (hfirst : out <+: (x.gw.shards.set.workers i).drained) : Delivered x out := by
  intro k hk hlive hfailed
  rw [((h.gotFirst hout hn hk).all hlive hfailed).2]
  rw [← h.backend.drains] at hfirst
  exact (hfirst.sublist.trans (fromShard_sublist i x.drained)).filter _

/-- From every reachable state, after as many rounds as shard `i` has work to do, the replies to all
    messages that were in its ring have been delivered, unless it has run into a fault. -/
theorem answered_in_time (sc : SetConfig) (slots : Nat → Nat → InboundMsg)
    (outSlots : Nat → Nat → OutboundMsg) (acts : List ExchangeAct)
    (rounds : List (List ExchangeAct)) (i : Nat) (hfair : ∀ r ∈ rounds, FairTurn i r)
    (hk : Along (Exchange.step sc) Exchange.KernelOk (Exchange.init sc slots outSlots)
      (acts ++ rounds.flatten))
    (hstays : Along (Exchange.step sc) (Exchange.StaysFailed sc)
      (Exchange.init sc slots outSlots) (acts ++ rounds.flatten)) :
    ∃ x x', run (Exchange.step sc) (Exchange.init sc slots outSlots) acts = .ok x ∧
      run (Exchange.step sc) x rounds.flatten = .ok x' ∧
      ((x.gw.shards.set.workers i).running = true →
        x.gw.shards.set.load sc i ≤ rounds.length → x'.gw.wire.accepts < 2 ^ 32 →
        (∃ e, (x'.gw.shards.set.workers i).shard = .error e) ∨
          ∃ sh out, serve (sc.shards i).handle (sc.shards i).shard
              (x.gw.shards.set.rings.popped i ++
                (x.gw.shards.set.rings.ring i).contents sc.depth) = .ok (sh, out) ∧
            Delivered x' out) := by
  obtain ⟨hk₁, hk₂⟩ := along_append.mp (along_and hk hstays)
  obtain ⟨x, hrun, h, hout⟩ := exchange_run (exchangeInv_init sc slots outSlots) outInv_init hk₁
  have hkx := hk₂ x hrun
  obtain ⟨x', hrun', h', hout'⟩ := exchange_run h hout hkx
  refine ⟨x, x', hrun, hrun', fun hruns hload hn => ?_⟩
  obtain ⟨rs, hset, hlen, hrs⟩ := Exchange.rounds_realise hfair (along_mono (fun _ _ h => h.1) hkx)
    hrun'
  have hanswered := h.backend.staged.answered sc i hruns hrs (hload.trans (Nat.le_of_eq hlen.symm))
  rw [← hset] at hanswered
  refine hanswered.imp_right fun ⟨sh, out, hserve, hfirst⟩ => ?_
  exact ⟨sh, out, hserve, h'.delivered hout' hn hfirst⟩

/-- The client of `strayCancel` before shard 1 has pushed its Reject. -/
def strayWaiting : List ExchangeAct := strayCancel.take 4

def threeRounds : List (List ExchangeAct) := List.replicate 3 [.work 1, .drain 1 [24]]

theorem threeRounds_fair : ∀ r ∈ threeRounds, FairTurn 1 r := by
  intro r hr
  rw [List.eq_of_mem_replicate hr]
  exact ⟨List.mem_cons_self, ⟨[24], List.mem_cons_of_mem _ List.mem_cons_self⟩, by simp⟩

theorem answered_in_time_stray_cancel :
    ∃ x x', run (Exchange.step twoShards) (Exchange.init twoShards blankIn blankOut) strayWaiting =
      .ok x ∧ run (Exchange.step twoShards) x threeRounds.flatten = .ok x' ∧
      ((∃ e, (x'.gw.shards.set.workers 1).shard = .error e) ∨
        ∃ sh out, serve (twoShards.shards 1).handle (twoShards.shards 1).shard
            (x.gw.shards.set.rings.popped 1 ++
              (x.gw.shards.set.rings.ring 1).contents twoShards.depth) = .ok (sh, out) ∧
          Delivered x' out) := by
  obtain ⟨x, x', hrun, hrun', hanswered⟩ := answered_in_time twoShards blankIn blankOut strayWaiting
    threeRounds 1 threeRounds_fair
    (along_of_check (p := fun x act => decide (x.KernelOk act))
      (fun _ _ h => of_decide_eq_true h) (by decide +kernel))
    (along_of_check (p := fun x act => decide (x.StaysFailed twoShards act))
      (fun _ _ h => of_decide_eq_true h) (by decide +kernel))
  have hcode : (run (Exchange.step twoShards) (Exchange.init twoShards blankIn blankOut)
      strayWaiting).map (fun x => ((x.gw.shards.set.workers 1).running,
        x.gw.shards.set.load twoShards 1)) = .ok (true, 3) := by decide +kernel
  have hcode' : (run (Exchange.step twoShards) (Exchange.init twoShards blankIn blankOut)
      (strayWaiting ++ threeRounds.flatten)).map (fun x => x.gw.wire.accepts) = .ok 1 := by
    decide +kernel
  rw [hrun] at hcode
  rw [run_append, hrun, ok_bind, hrun'] at hcode'
  obtain ⟨hruns, hload⟩ := Prod.mk.inj (Except.ok.inj hcode)
  have haccepts : x'.gw.wire.accepts = 1 := Except.ok.inj hcode'
  exact ⟨x, x', hrun, hrun', hanswered hruns (Nat.le_of_eq hload) (by omega)⟩

end LiteExchange.Net
