/-
  The shards as threads (`engine/shard_set.hpp`, `run`, `stop` and `push_out` of
  `engine/shard.hpp`). Shard `i` pops its inbound ring, handles the message, and pushes what it has
  to send into its outbound ring, spinning while that is full; the reactor pushes through the
  router and pops the outbound rings. `handle_new` and `handle_cancel` change the books before they
  push anything, so a thread that spins has the messages left to push and nothing else to do.
  Loads of the ring counters see the latest value. `running_` is stored and loaded relaxed: here
  the store takes place when it becomes visible to the thread, which may be long after `stop()`.

  Every shard is a stage of a pipeline (`StageRep`), so what holds of stages holds of it, in every
  interleaving:

  * `threads_refine`: what was popped from the outbound ring, what is in it and what is still to be
    pushed are together what the shard sends when it is given its messages one after the other.
  * `replies_in_time`: with the reactor popping its ring and the thread running, a shard has sent
    the replies to all messages in its inbound ring after a number of rounds that the ring and the
    bound on the messages of one `tick` give.
-/
import LiteExchange.Engine.Log
import LiteExchange.Engine.Router
import LiteExchange.Lib.Stage

namespace LiteExchange.Engine

open Lib Proto Book Queue

/-! ## The code -/

/-- The shards given to `ShardSet`, and the depth of their rings. -/
structure SetConfig where
  n : Nat
  depth : Depth
  shards : Nat → Setup

/-- A shard thread: the shard, or the fault it has had; `running_`, and whether the loop of `run`
    has seen it set and calls `tick` next; the messages of the current `tick` still to be pushed;
    the outbound ring, and what has been popped from it. -/
structure Worker where
  shard : Except Fault Shard
  running : Bool
  entered : Bool
  pending : List OutboundMsg
  outbound : Spsc OutboundMsg
  drained : List OutboundMsg

/-- The inbound rings and the threads. -/
structure ShardSet where
  rings : Rings
  workers : Nat → Worker

def ShardSet.init (sc : SetConfig) (slots : Nat → Nat → InboundMsg)
    (outSlots : Nat → Nat → OutboundMsg) : ShardSet where
  rings := Rings.init slots
  workers := fun i => ⟨.ok (sc.shards i).shard, true, false, [], Spsc.init (outSlots i), []⟩

def ShardSet.setWorker (q : ShardSet) (i : Nat) (w : Worker) : ShardSet :=
  { q with workers := Function.update q.workers i w }

/-- `router().push(msg)`. -/
def ShardSet.push (sc : SetConfig) (q : ShardSet) (msg : InboundMsg) : ShardSet × Bool :=
  ({ q with rings := (q.rings.push sc.n sc.depth msg).1 }, (q.rings.push sc.n sc.depth msg).2)

/-- `outbound(i).pop(out)`. -/
def ShardSet.pop (sc : SetConfig) (q : ShardSet) (i : Nat) : ShardSet × Option OutboundMsg :=
  let w := q.workers i
  let r := w.outbound.pop sc.depth
  (q.setWorker i { w with outbound := r.1, drained := w.drained ++ r.2.toList }, r.2)

/-- `tick()` of shard `i`, up to the first push. -/
def ShardSet.tick (sc : SetConfig) (q : ShardSet) (i : Nat) (sh : Shard) : ShardSet :=
  let w := { q.workers i with entered := false }
  match ((q.rings.ring i).pop sc.depth).2 with
  | none => q.setWorker i w
  | some msg =>
    let q := { q with rings := q.rings.pop sc.depth i }
    match sh.tick (sc.shards i).cfg (some msg) with
    | .ok (sh, out) => q.setWorker i { w with shard := .ok sh, pending := out }
    | .error e => q.setWorker i { w with shard := .error e }

/-- The thread of shard `i`: one more `push` of `push_out`; or, when all is pushed, the test of the
    loop of `run`, and after it the `tick`. -/
def ShardSet.work (sc : SetConfig) (q : ShardSet) (i : Nat) : ShardSet :=
  let w := q.workers i
  match w.pending with
  | m :: ms =>
    let r := w.outbound.push sc.depth m
    if r.2 then q.setWorker i { w with outbound := r.1, pending := ms } else q
  | [] =>
    match w.shard, w.entered with
    | .error _, _ => q
    | .ok _, false => q.setWorker i { w with entered := w.running }
    | .ok sh, true => q.tick sc i sh

/-- The store of `stop()` on shard `i` becomes visible to its thread. -/
def ShardSet.stop (q : ShardSet) (i : Nat) : ShardSet :=
  q.setWorker i { q.workers i with running := false }

/-- A push or a pop by the reactor, a step of a thread, a stop that becomes visible to it. -/
inductive SetAct where
  | push (msg : InboundMsg)
  | pop (i : Nat)
  | work (i : Nat)
  | stop (i : Nat)

def ShardSet.step (sc : SetConfig) (q : ShardSet) : SetAct → ShardSet
  | .push msg => (q.push sc msg).1
  | .pop i => (q.pop sc i).1
  | .work i => q.work sc i
  | .stop i => q.stop i

def ShardSet.run (sc : SetConfig) (q : ShardSet) (acts : List SetAct) : ShardSet :=
  acts.foldl (ShardSet.step sc) q

/-! ## Shards as stages -/

/-- What a shard does with a message. -/
def Setup.handle (su : Setup) (sh : Shard) (msg : InboundMsg) :
    Except Fault (Shard × List OutboundMsg) := sh.tick su.cfg (some msg)

/-- What an action is to shard `i`. -/
def SetAct.at (n i : Nat) : SetAct → Option (StageAct InboundMsg)
  | .push msg => if target n msg = some i then some (.offer msg) else none
  | .pop j => if j = i then some .take else none
  | .work j => if j = i then some .work else none
  | .stop j => if j = i then some .stop else none

/-- Shard `i` and its rings, as a stage. -/
structure StageRep (sc : SetConfig) (q : ShardSet) (i : Nat)
    (st : Stage Shard InboundMsg OutboundMsg) : Prop where
  state : (q.workers i).shard = st.state
  running : (q.workers i).running = st.running
  entered : (q.workers i).entered = st.entered
  pending : (q.workers i).pending = st.pending
  inbox : ∃ p, SpscRep sc.depth (q.rings.ring i) p st.inbox
  outbox : ∃ p, SpscRep sc.depth (q.workers i).outbound p st.outbox
  taken : q.rings.popped i = st.taken
  given : (q.workers i).drained = st.given

section Rep

variable {sc : SetConfig} {q : ShardSet} {i : Nat} {st : Stage Shard InboundMsg OutboundMsg}

theorem stageRep_init (sc : SetConfig) (slots : Nat → Nat → InboundMsg)
    (outSlots : Nat → Nat → OutboundMsg) (i : Nat) :
    StageRep sc (ShardSet.init sc slots outSlots) i (Stage.init (sc.shards i).shard) where
  state := rfl
  running := rfl
  entered := rfl
  pending := rfl
  inbox := ⟨0, spscRep_init _ _⟩
  outbox := ⟨0, spscRep_init _ _⟩
  taken := rfl
  given := rfl

/-- A shard whose ring and thread are left alone. -/
theorem StageRep.congr (h : StageRep sc q i st) {q' : ShardSet}
    (hw : q'.workers i = q.workers i) (hring : q'.rings.ring i = q.rings.ring i)
    (hpopped : q'.rings.popped i = q.rings.popped i) : StageRep sc q' i st where
  state := by rw [hw, h.state]
  running := by rw [hw, h.running]
  entered := by rw [hw, h.entered]
  pending := by rw [hw, h.pending]
  inbox := by rw [hring]; exact h.inbox
  outbox := by rw [hw]; exact h.outbox
  taken := by rw [hpopped, h.taken]
  given := by rw [hw, h.given]

theorem Rings.push_ring_ne {n : Nat} {d : Depth} {r : Rings} {msg : InboundMsg}
    (h : target n msg ≠ some i) : (r.push n d msg).1.ring i = r.ring i := by
  unfold Rings.push
  split
  · rfl
  · rename_i s hs
    exact Function.update_of_ne (fun e => h (by rw [hs, e])) ..

theorem StageRep.push (h : StageRep sc q i st) {msg : InboundMsg}
    (ht : target sc.n msg = some i) :
    StageRep sc (q.push sc msg).1 i (st.step (sc.shards i).handle sc.depth.n (.offer msg)) := by
  obtain ⟨p, hin⟩ := h.inbox
  have hpopped := Rings.push_popped sc.n sc.depth q.rings msg
  have hring : (q.rings.push sc.n sc.depth msg).1.ring i =
      ((q.rings.ring i).push sc.depth msg).1 := by
    unfold Rings.push
    rw [ht]
    exact Function.update_self ..
  unfold Stage.step
  dsimp only
  obtain ⟨hroom, -, hrep⟩ | ⟨hfull, hsame⟩ := push_spec hin msg
  · rw [if_pos hroom]
    exact { h with
      inbox := ⟨p, by dsimp only [ShardSet.push]; rw [hring]; exact hrep⟩
      taken := (congrFun hpopped i).trans h.taken }
  · rw [if_neg (by omega)]
    refine h.congr rfl ?_ (congrFun hpopped i)
    dsimp only [ShardSet.push]
    rw [hring, hsame]

theorem StageRep.pop (h : StageRep sc q i st) :
    StageRep sc (q.pop sc i).1 i (st.step (sc.shards i).handle sc.depth.n .take) := by
  obtain ⟨p, hout⟩ := h.outbox
  have hw : (q.pop sc i).1.workers i = { q.workers i with
      outbound := ((q.workers i).outbound.pop sc.depth).1
      drained := (q.workers i).drained ++ ((q.workers i).outbound.pop sc.depth).2.toList } :=
    Function.update_self ..
  obtain ⟨hnil, hnone⟩ | ⟨val, ys, hcons, hval, hrep⟩ := pop_spec hout
  · rw [Stage.step_take_nil hnil]
    refine h.congr (hw.trans ?_) rfl rfl
    rw [hnone]
    dsimp only [Option.toList_none]
    rw [List.append_nil]
  · rw [Stage.step_take hcons]
    refine ⟨?_, ?_, ?_, ?_, h.inbox, ⟨p + 1, ?_⟩, h.taken, ?_⟩ <;> rw [hw]
    · exact h.state
    · exact h.running
    · exact h.entered
    · exact h.pending
    · exact hrep
    · dsimp only
      rw [hval, h.given]
      rfl

theorem StageRep.stop (h : StageRep sc q i st) :
    StageRep sc (q.stop i) i (st.step (sc.shards i).handle sc.depth.n .stop) := by
  have hw : (q.stop i).workers i = { q.workers i with running := false } :=
    Function.update_self ..
  refine ⟨?_, ?_, ?_, ?_, h.inbox, ?_, h.taken, ?_⟩ <;> rw [hw]
  · exact h.state
  · rfl
  · exact h.entered
  · exact h.pending
  · exact h.outbox
  · exact h.given

/-- The test of the loop. -/
theorem StageRep.enter (h : StageRep sc q i st) (b : Bool) :
    StageRep sc (q.setWorker i { q.workers i with entered := b }) i { st with entered := b } := by
  have hw : (q.setWorker i { q.workers i with entered := b }).workers i = _ :=
    Function.update_self ..
  refine ⟨?_, ?_, ?_, ?_, h.inbox, ?_, h.taken, ?_⟩ <;> rw [hw]
  · exact h.state
  · exact h.running
  · exact h.pending
  · exact h.outbox
  · exact h.given

/-- The thread takes a message and has its answer to push, or finds none. -/
theorem StageRep.tick (h : StageRep sc q i st) (sh : Shard) :
    StageRep sc (q.tick sc i sh) i (st.look (sc.shards i).handle sh) := by
  obtain ⟨p, hin⟩ := h.inbox
  unfold ShardSet.tick Stage.look Setup.handle
  dsimp only
  obtain ⟨hnil, hnone⟩ | ⟨msg, ys, hcons, hval, hrep⟩ := pop_spec hin
  · rw [hnone, hnil]
    have henter := h.enter false
    rw [hnil] at henter
    exact henter
  · have hring : (q.rings.pop sc.depth i).ring i = ((q.rings.ring i).pop sc.depth).1 :=
      Function.update_self ..
    have hpopped : (q.rings.pop sc.depth i).popped i = st.taken ++ [msg] := by
      unfold Rings.pop
      dsimp only
      rw [Function.update_self, hval, h.taken]
      rfl
    have hw : ∀ w, (ShardSet.setWorker { q with rings := q.rings.pop sc.depth i } i w).workers i =
      w := fun w => Function.update_self ..
    rw [hval, hcons]
    dsimp only
    cases sh.tick (sc.shards i).cfg (some msg) with
    | ok r =>
      refine ⟨?_, ?_, ?_, ?_, ⟨p + 1, hring ▸ hrep⟩, ?_, hpopped, ?_⟩ <;> dsimp only <;> rw [hw]
      · exact h.running
      · exact h.outbox
      · exact h.given
    | error e =>
      refine ⟨?_, ?_, ?_, ?_, ⟨p + 1, hring ▸ hrep⟩, ?_, hpopped, ?_⟩ <;> dsimp only <;> rw [hw]
      · exact h.running
      · exact h.pending
      · exact h.outbox
      · exact h.given

/-- The thread pushes, or spins on a full ring. -/
theorem StageRep.pushOut (h : StageRep sc q i st) {m : OutboundMsg} {ms : List OutboundMsg}
    (hp : st.pending = m :: ms) :
    StageRep sc (q.work sc i) i (st.work (sc.shards i).handle sc.depth.n) := by
  obtain ⟨p, hout⟩ := h.outbox
  unfold ShardSet.work Stage.work
  dsimp only
  rw [h.pending, hp]
  dsimp only
  obtain ⟨hroom, hdone, hrep⟩ | ⟨hfull, hsame⟩ := push_spec hout m
  · rw [if_pos hdone, if_pos hroom]
    have hw : (q.setWorker i { q.workers i with
        outbound := ((q.workers i).outbound.push sc.depth m).1, pending := ms }).workers i =
        _ := Function.update_self ..
    refine ⟨?_, ?_, ?_, ?_, h.inbox, ⟨p, ?_⟩, h.taken, ?_⟩ <;> rw [hw]
    · exact h.state
    · exact h.running
    · exact h.entered
    · exact hrep
    · exact h.given
  · rw [hsame, if_neg Bool.false_ne_true, if_neg (by omega)]
    exact h

theorem ShardSet.work_test {sh : Shard} (hp : (q.workers i).pending = [])
    (hs : (q.workers i).shard = .ok sh) (he : (q.workers i).entered = false) :
    q.work sc i = q.setWorker i { q.workers i with entered := (q.workers i).running } := by
  unfold ShardSet.work
  dsimp only
  rw [hp, hs, he]

theorem ShardSet.work_tick {sh : Shard} (hp : (q.workers i).pending = [])
    (hs : (q.workers i).shard = .ok sh) (he : (q.workers i).entered = true) :
    q.work sc i = q.tick sc i sh := by
  unfold ShardSet.work
  dsimp only
  rw [hp, hs, he]

theorem ShardSet.work_dead {e : Fault} (hp : (q.workers i).pending = [])
    (hs : (q.workers i).shard = .error e) : q.work sc i = q := by
  unfold ShardSet.work
  dsimp only
  rw [hp, hs]

theorem StageRep.work (h : StageRep sc q i st) :
    StageRep sc (q.work sc i) i (st.work (sc.shards i).handle sc.depth.n) := by
  cases hp : st.pending with
  | cons m ms => exact h.pushOut hp
  | nil =>
    have hpq := h.pending.trans hp
    cases hs : st.state with
    | error e =>
      rw [Stage.work_dead hp hs, ShardSet.work_dead hpq (h.state.trans hs)]
      exact h
    | ok sh =>
      cases he : st.entered with
      | false =>
        rw [Stage.work_test hp hs he,
          ShardSet.work_test hpq (h.state.trans hs) (h.entered.trans he), h.running]
        exact h.enter st.running
      | true =>
        rw [Stage.work_look hp hs he,
          ShardSet.work_tick hpq (h.state.trans hs) (h.entered.trans he)]
        exact h.tick sh

/-- What is done at one shard does not concern the others. -/
theorem ShardSet.work_other {j : Nat} (sc : SetConfig) (q : ShardSet) (hne : i ≠ j) :
    (q.work sc j).workers i = q.workers i ∧ (q.work sc j).rings.ring i = q.rings.ring i ∧
      (q.work sc j).rings.popped i = q.rings.popped i := by
  have hset : ∀ (q : ShardSet) w, (q.setWorker j w).workers i = q.workers i := fun q w =>
    Function.update_of_ne hne ..
  have hring : (q.rings.pop sc.depth j).ring i = q.rings.ring i := Function.update_of_ne hne ..
  have hpopped : (q.rings.pop sc.depth j).popped i = q.rings.popped i :=
    Function.update_of_ne hne ..
  unfold ShardSet.work
  dsimp only
  split
  · split
    · exact ⟨hset _ _, rfl, rfl⟩
    · exact ⟨rfl, rfl, rfl⟩
  · split
    · exact ⟨rfl, rfl, rfl⟩
    · exact ⟨hset _ _, rfl, rfl⟩
    · unfold ShardSet.tick
      dsimp only
      split
      · exact ⟨hset _ _, rfl, rfl⟩
      · split
        · exact ⟨hset _ _, hring, hpopped⟩
        · exact ⟨hset _ _, hring, hpopped⟩

/-- A step of a thread pops its ring or leaves all rings alone. -/
theorem ShardSet.work_rings (sc : SetConfig) (q : ShardSet) (i : Nat) :
    (q.work sc i).rings = q.rings ∨ (q.work sc i).rings = q.rings.pop sc.depth i := by
  unfold ShardSet.work
  dsimp only
  split
  · split
    · exact .inl rfl
    · exact .inl rfl
  · split
    · exact .inl rfl
    · exact .inl rfl
    · unfold ShardSet.tick
      dsimp only
      split
      · exact .inl rfl
      · split
        · exact .inr rfl
        · exact .inr rfl

theorem ShardSet.setWorker_drained {q' : ShardSet} {w : Worker} (hq : q'.workers = q.workers)
    (h : w.drained = (q.workers i).drained) (j : Nat) :
    ((q'.setWorker i w).workers j).drained = (q.workers j).drained := by
  unfold ShardSet.setWorker
  dsimp only
  rw [hq]
  rcases eq_or_ne j i with rfl | hne
  · rw [Function.update_self, h]
  · rw [Function.update_of_ne hne]

theorem ShardSet.stop_drained (q : ShardSet) (i j : Nat) :
    ((q.stop i).workers j).drained = (q.workers j).drained := by
  unfold ShardSet.stop
  refine ShardSet.setWorker_drained ?_ ?_ j <;> rfl

/-- Nor does it touch what was popped from the outbound rings. -/
theorem ShardSet.work_drained (sc : SetConfig) (q : ShardSet) (i j : Nat) :
    ((q.work sc i).workers j).drained = (q.workers j).drained := by
  unfold ShardSet.work
  dsimp only
  split
  · split
    · refine ShardSet.setWorker_drained ?_ ?_ j <;> rfl
    · rfl
  · split
    · rfl
    · refine ShardSet.setWorker_drained ?_ ?_ j <;> rfl
    · unfold ShardSet.tick
      dsimp only
      split
      · refine ShardSet.setWorker_drained ?_ ?_ j <;> rfl
      · split
        · refine ShardSet.setWorker_drained ?_ ?_ j <;> rfl
        · refine ShardSet.setWorker_drained ?_ ?_ j <;> rfl

/-- Every action is one of the stage, or nothing to it. -/
theorem StageRep.step (h : StageRep sc q i st) (act : SetAct) :
    StageRep sc (q.step sc act) i
      ((act.at sc.n i).toList.foldl (Stage.step (sc.shards i).handle sc.depth.n) st) := by
  cases act with
  | push msg =>
    unfold SetAct.at
    dsimp only
    split
    · exact h.push ‹_›
    · rename_i hne
      exact h.congr rfl (Rings.push_ring_ne hne)
        (congrFun (Rings.push_popped sc.n sc.depth q.rings msg) i)
  | pop j =>
    unfold SetAct.at
    dsimp only
    split
    · rename_i he
      subst he
      exact h.pop
    · rename_i hne
      exact h.congr (Function.update_of_ne (Ne.symm hne) ..) rfl rfl
  | work j =>
    unfold SetAct.at
    dsimp only
    split
    · rename_i he
      subst he
      exact h.work
    · rename_i hne
      obtain ⟨hw, hring, hpopped⟩ := ShardSet.work_other sc q (Ne.symm hne)
      exact h.congr hw hring hpopped
  | stop j =>
    unfold SetAct.at
    dsimp only
    split
    · rename_i he
      subst he
      exact h.stop
    · rename_i hne
      exact h.congr (Function.update_of_ne (Ne.symm hne) ..) rfl rfl

theorem StageRep.run (h : StageRep sc q i st) (acts : List SetAct) :
    StageRep sc (q.run sc acts) i
      (st.run (sc.shards i).handle sc.depth.n (acts.filterMap (SetAct.at sc.n i))) := by
  induction acts generalizing q st with
  | nil => exact h
  | cons act acts ih =>
    have hstep := ih (h.step act)
    unfold Stage.run at hstep ⊢
    rw [← List.foldl_append] at hstep
    cases hact : act.at sc.n i with
    | none => rw [List.filterMap_cons_none hact]; rw [hact] at hstep; exact hstep
    | some a => rw [List.filterMap_cons_some hact]; rw [hact] at hstep; exact hstep

end Rep

/-! ## In every interleaving -/

/-- What shard `i` has sent and has still to push. -/
def Worker.sent (d : Depth) (w : Worker) : List OutboundMsg :=
  w.drained ++ w.outbound.contents d ++ w.pending

/-- Every shard is a stage that has answered what it has taken. -/
def Staged (sc : SetConfig) (q : ShardSet) : Prop :=
  ∀ i, ∃ st, StageRep sc q i st ∧ st.Serves (sc.shards i).handle (sc.shards i).shard

/-- Shard `i` is where it would be if the messages it has popped were handled one after the other
    without a queue, and has sent the same messages in the same order. -/
def Refines (sc : SetConfig) (q : ShardSet) (i : Nat) : Prop :=
  match serve (sc.shards i).handle (sc.shards i).shard (q.rings.popped i) with
  | .ok (sh, out) => (q.workers i).shard = .ok sh ∧ (q.workers i).sent sc.depth = out
  | .error e => (q.workers i).shard = .error e

section Staged

variable {sc : SetConfig} {q : ShardSet}

theorem staged_init (sc : SetConfig) (slots : Nat → Nat → InboundMsg)
    (outSlots : Nat → Nat → OutboundMsg) : Staged sc (ShardSet.init sc slots outSlots) :=
  fun i => ⟨_, stageRep_init sc slots outSlots i, Stage.serves_init _⟩

theorem Staged.run (h : Staged sc q) (acts : List SetAct) : Staged sc (q.run sc acts) := by
  intro i
  obtain ⟨st, hrep, hserves⟩ := h i
  exact ⟨_, hrep.run acts, hserves.run _ _⟩

theorem Staged.refines (h : Staged sc q) (i : Nat) : Refines sc q i := by
  obtain ⟨st, hrep, hserves⟩ := h i
  obtain ⟨p, hout⟩ := hrep.outbox
  have houtcome := hserves.outcome
  unfold Refines Worker.sent
  rw [hrep.taken, hrep.state, hrep.given, hout.contents_eq, hrep.pending]
  cases hserve : serve (sc.shards i).handle (sc.shards i).shard st.taken with
  | ok r => rw [hserve] at houtcome; exact houtcome
  | error e => rw [hserve] at houtcome; exact houtcome

/-- A shard sends messages that say their own type and size; and what holds of the sessions of
    slots and of the senders of messages, holds of those it sends to. -/
theorem serve_sends {P : UInt32 → Prop} {su : Setup} {sh sh' : Shard} {msgs : List InboundMsg}
    {out : List OutboundMsg} (h : serve su.handle sh msgs = .ok (sh', out))
    (hslots : ∀ s, P (sh.floor.session s)) (hmsgs : ∀ x ∈ msgs, P x.hdr.sessionId) :
    ∀ m ∈ out, m.Sound ∧ P m.hdr.sessionId := by
  induction msgs generalizing sh out with
  | nil =>
    cases h
    nofun
  | cons msg msgs ih =>
    obtain ⟨⟨sh₁, out₁⟩, hstep, h⟩ := bind_eq_ok h
    obtain ⟨⟨sh₂, out₂⟩, hrest, h⟩ := bind_eq_ok h
    cases h
    have hsends := tick_sends hstep
    have hmsg := hmsgs msg List.mem_cons_self
    have hslots₁ : ∀ s, P (sh₁.floor.session s) := by
      intro s
      rcases hsends.slots s with he | he
      · rw [he]
        exact hmsg
      · rw [he]
        exact hslots s
    intro m hm
    rcases List.mem_append.mp hm with hm | hm
    · refine ⟨hsends.sound m hm, ?_⟩
      rcases hsends.sent m hm with he | ⟨s, he⟩
      · rw [he]
        exact hmsg
      · rw [he]
        exact hslots s
    · exact ih hrest hslots₁ (fun x hx => hmsgs x (List.mem_cons_of_mem _ hx)) m hm

/-- A shard thread sends to sessions whose messages it has popped. Slots that no order has had yet
    are of session 0. -/
theorem Staged.sends (h : Staged sc q) {P : UInt32 → Prop} (hzero : P 0) {i : Nat}
    (hpopped : ∀ x ∈ q.rings.popped i, P x.hdr.sessionId) :
    ∀ m ∈ (q.workers i).sent sc.depth, m.Sound ∧ P m.hdr.sessionId := by
  obtain ⟨st, hrep, hserves⟩ := h i
  obtain ⟨p, hout⟩ := hrep.outbox
  obtain ⟨as, sh, hpre, hserve⟩ := hserves.answers
  unfold Worker.sent
  rw [hrep.given, hout.contents_eq, hrep.pending]
  refine serve_sends hserve (fun _ => hzero) fun x hx => hpopped x ?_
  rw [hrep.taken]
  exact hpre.subset hx

end Staged

section Interleavings

variable (sc : SetConfig) (slots : Nat → Nat → InboundMsg) (outSlots : Nat → Nat → OutboundMsg)
variable (acts : List SetAct) (i : Nat)

/-- However the reactor and the threads interleave, and however often a thread finds its outbound
    ring full, a shard is where it would be if the messages it has popped were handled one after the
    other without a queue, and it sends the same messages in the same order. -/
theorem threads_refine : Refines sc ((ShardSet.init sc slots outSlots).run sc acts) i :=
  ((staged_init sc slots outSlots).run acts).refines i

/-- A tick sends at most `2 * MAX_FILLS_PER_ORDER + 1` messages. -/
def maxReplies : Nat := 2 * maxFillsPerOrder + 1

/-- The work of shard `i`: the replies left to push and to pop, and for every message in its ring
    the test of the loop, the tick and at most `maxReplies` replies. -/
def ShardSet.load (sc : SetConfig) (q : ShardSet) (i : Nat) : Nat :=
  (2 * maxReplies + 2) * ((q.rings.ring i).contents sc.depth).length +
    2 * (q.workers i).pending.length + ((q.workers i).outbound.contents sc.depth).length + 1

/-- In a round the thread of shard `i` runs and the reactor pops its outbound ring; between them
    anything may happen but a stop. -/
structure FairRound (i : Nat) (r : List SetAct) : Prop where
  work : .work i ∈ r
  pop : .pop i ∈ r
  goes_on : .stop i ∉ r

theorem FairRound.stage {i : Nat} {r : List SetAct} (h : FairRound i r) (n : Nat) :
    Round (r.filterMap (SetAct.at n i)) where
  work := List.mem_filterMap.mpr ⟨_, h.work, if_pos rfl⟩
  take := List.mem_filterMap.mpr ⟨_, h.pop, if_pos rfl⟩
  goes_on := by
    intro hmem
    obtain ⟨act, hact, hat⟩ := List.mem_filterMap.mp hmem
    unfold SetAct.at at hat
    split at hat <;> split at hat <;> cases hat
    rename_i he
    subst he
    exact h.goes_on hact

/-- A shard whose thread runs and whose outbound ring is popped has given the replies to all
    messages in its inbound ring within `load` rounds. -/
theorem Staged.answered {q : ShardSet} (h : Staged sc q) (hrun : (q.workers i).running = true)
    {rounds : List (List SetAct)} (hfair : ∀ r ∈ rounds, FairRound i r)
    (hlen : q.load sc i ≤ rounds.length) :
    (∃ e, ((q.run sc rounds.flatten).workers i).shard = .error e) ∨
      ∃ sh out, serve (sc.shards i).handle (sc.shards i).shard
          (q.rings.popped i ++ (q.rings.ring i).contents sc.depth) = .ok (sh, out) ∧
        out <+: ((q.run sc rounds.flatten).workers i).drained := by
  obtain ⟨st, hrep, hserves⟩ := h i
  obtain ⟨p, hin⟩ := hrep.inbox
  obtain ⟨p', hout⟩ := hrep.outbox
  have hload : st.load maxReplies ≤
      (rounds.map (List.filterMap (SetAct.at sc.n i))).length := by
    unfold ShardSet.load at hlen
    rw [hin.contents_eq, hout.contents_eq, hrep.pending] at hlen
    rw [List.length_map]
    exact hlen
  have hanswered := Stage.answered (n := sc.depth.n) (fun _ _ _ _ => tick_count)
    (Nat.two_pow_pos _) hserves (hrep.running.symm.trans hrun)
    (List.forall_mem_map.mpr fun r hr => (hfair r hr).stage sc.n) hload
  have hrep' := hrep.run rounds.flatten
  rw [← List.filterMap_flatten] at hanswered
  rw [hrep.taken, hin.contents_eq, hrep'.state, hrep'.given]
  exact hanswered

/-- From every reachable state, a shard whose thread runs and whose outbound ring is popped has
    given the replies to all messages in its inbound ring within `load` rounds, whatever is pushed
    and popped in between and however far the other shards get. -/
theorem replies_in_time (rounds : List (List SetAct))
    (hrun : (((ShardSet.init sc slots outSlots).run sc acts).workers i).running = true)
    (hfair : ∀ r ∈ rounds, FairRound i r)
    (hlen : ((ShardSet.init sc slots outSlots).run sc acts).load sc i ≤ rounds.length) :
    let q := (ShardSet.init sc slots outSlots).run sc acts
    let w := (q.run sc rounds.flatten).workers i
    (∃ e, w.shard = .error e) ∨
      ∃ sh out, serve (sc.shards i).handle (sc.shards i).shard
          (q.rings.popped i ++ (q.rings.ring i).contents sc.depth) = .ok (sh, out) ∧
        out <+: w.drained :=
  ((staged_init sc slots outSlots).run acts).answered sc i hrun hfair hlen

end Interleavings

/-- One small shard behind rings of two places. -/
def smallSet : SetConfig := ⟨1, ⟨1, by decide⟩, fun _ => smallSetup⟩

/-- The rings when an order has been pushed. -/
def oneOrder : List SetAct := [.push (.newOrder (orderFrom 7 1 Side.sell 103 5))]

def blankIn : Nat → Nat → InboundMsg := fun _ _ => .other ⟨0, .logon, 0, 0⟩

def blankOut : Nat → Nat → OutboundMsg := fun _ _ => .ack ⟨⟨0, .ack, 0, 0⟩, 0, 0⟩

/-- Rounds without anything else. -/
def bareRounds : List (List SetAct) := List.replicate 261 [.work 0, .pop 0]

theorem bareRounds_fair : ∀ r ∈ bareRounds, FairRound 0 r := by
  intro r hr
  rw [List.eq_of_mem_replicate hr]
  exact ⟨List.mem_cons_self, List.mem_cons_of_mem _ List.mem_cons_self, by simp⟩

theorem replies_in_time_one_order :
    let q := (ShardSet.init smallSet blankIn blankOut).run smallSet oneOrder
    let w := (q.run smallSet bareRounds.flatten).workers 0
    (∃ e, w.shard = .error e) ∨
      ∃ sh out, serve (smallSet.shards 0).handle (smallSet.shards 0).shard
          (q.rings.popped 0 ++ (q.rings.ring 0).contents smallSet.depth) = .ok (sh, out) ∧
        out <+: w.drained :=
  replies_in_time smallSet blankIn blankOut oneOrder 0 bareRounds rfl bareRounds_fair
    (by decide +kernel)

end LiteExchange.Engine
