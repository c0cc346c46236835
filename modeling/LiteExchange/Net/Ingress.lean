/-
  From the sockets to the shards. One reactor thread reads chunks into sessions and takes their
  frames into the router; the shards pop their rings meanwhile, also between two pushes of one
  `consume`. `ingress_order`: no message is lost, doubled or moved past another one on the way.
-/
import LiteExchange.Engine.Router
import LiteExchange.Net.Session

namespace LiteExchange.Net

open Lib Proto Queue Engine

/-- The rings and the pops of the shards that come before each of the next pushes. -/
structure Busy where
  rings : Rings
  pops : List (List Nat)

/-- `push` while the shards run. -/
def Busy.push (n : Nat) (d : Depth) (b : Busy) (msg : InboundMsg) : Busy × Bool :=
  let r := (b.pops.headD []).foldl (Rings.pop d) b.rings
  (⟨(r.push n d msg).1, b.pops.tail⟩, (r.push n d msg).2)

/-- The sessions by their ids and the rings; with the bytes `append` has stored for each session
    and the messages accepted, in the order of acceptance. -/
structure Ingress where
  sessions : UInt32 → Session
  rings : Rings
  stored : UInt32 → List UInt8
  accepted : List InboundMsg

def Ingress.init (slots : Nat → Nat → InboundMsg) : Ingress :=
  ⟨Session.init, Rings.init slots, fun _ => [], []⟩

/-- A read of a chunk by session `k`, with the pops that come between its pushes; or a pop by a
    shard. -/
inductive IngressAct where
  | read (k : UInt32) (chunk : List UInt8) (pops : List (List Nat))
  | pop (i : Nat)

def Ingress.step (n : Nat) (d : Depth) (st : Ingress) : IngressAct → Except Fault Ingress
  | .pop i => .ok { st with rings := st.rings.pop d i }
  | .read k chunk pops => do
    let s := (st.sessions k).append chunk
    let (s', q, _) ← s.consume (logged (Busy.push n d)) (⟨st.rings, pops⟩, st.accepted)
    return {
      sessions := Function.update st.sessions k s'
      rings := q.1.rings
      stored := Function.update st.stored k
        (st.stored k ++ chunk.take (st.sessions k).space)
      accepted := q.2 }

/-- The messages of a session. -/
def ofSession (k : UInt32) (xs : List InboundMsg) : List InboundMsg :=
  xs.filter fun x => x.hdr.sessionId = k

/-- The bytes stored for each session are those of its accepted messages and its buffer, and the
    rings hand on what was accepted. -/
structure IngressInv (n : Nat) (d : Depth) (st : Ingress) : Prop where
  rings : RingsRep n d st.rings st.accepted
  id : ∀ k, (st.sessions k).sessionId = k
  split : ∀ k, ∃ used, st.stored k = used ++ (st.sessions k).recv ∧
    (frames k).Whole used (ofSession k st.accepted)

section Ingress

variable {n : Nat} {d : Depth} {st : Ingress}

theorem ofSession_append_self {k : UInt32} {xs ys : List InboundMsg}
    (h : ∀ y ∈ ys, y.hdr.sessionId = k) : ofSession k (xs ++ ys) = ofSession k xs ++ ys := by
  unfold ofSession
  rw [List.filter_append, List.filter_eq_self.mpr fun y hy => decide_eq_true (h y hy)]

theorem ofSession_append_other {k k' : UInt32} (hne : k' ≠ k) {xs ys : List InboundMsg}
    (h : ∀ y ∈ ys, y.hdr.sessionId = k) : ofSession k' (xs ++ ys) = ofSession k' xs := by
  have hnone : ofSession k' ys = [] := by
    refine List.filter_eq_nil_iff.mpr fun y hy => ?_
    rw [h y hy]
    simpa using hne.symm
  unfold ofSession at hnone ⊢
  rw [List.filter_append, hnone, List.append_nil]

theorem ingressInv_init (n : Nat) (d : Depth) (slots : Nat → Nat → InboundMsg) :
    IngressInv n d (Ingress.init slots) where
  rings := ringsRep_init n d slots
  id := fun _ => rfl
  split := fun _ => ⟨[], rfl, Framer.whole_nil⟩

/-- A push between pops hands the message over if it is accepted. -/
theorem ringsRep_logged (q : Busy × List InboundMsg) (x : InboundMsg)
    (h : RingsRep n d q.1.rings q.2) :
    RingsRep n d (logged (Busy.push n d) q x).1.1.rings (logged (Busy.push n d) q x).1.2 :=
  (h.pops (q.1.pops.headD [])).push x

theorem IngressInv.read (h : IngressInv n d st) (k : UInt32) (chunk : List UInt8)
    (pops : List (List Nat)) :
    ∃ st', st.step n d (.read k chunk pops) = .ok st' ∧ IngressInv n d st' := by
  obtain ⟨s', q', count, heq, hid, hcase⟩ := ((st.sessions k).append chunk).consume_spec
    (logged (Busy.push n d)) (⟨st.rings, pops⟩, st.accepted)
  have hid' : s'.sessionId = k := hid.trans (h.id k)
  refine ⟨_, by rw [Ingress.step, heq]; rfl, ?_⟩
  obtain ⟨used, hsplit, hwhole⟩ := h.split k
  -- in both cases: some more messages of `k`, and the bytes they came in
  have hmore : ∃ used' xs, ((st.sessions k).append chunk).recv = used' ++ s'.recv ∧
      (frames k).Whole used' xs ∧ (∀ x ∈ xs, x.hdr.sessionId = k) ∧ q'.2 = st.accepted ++ xs ∧
      RingsRep n d q'.1.rings q'.2 := by
    obtain ⟨-, rfl, rfl⟩ | ⟨-, used', xs, htakes⟩ := hcase
    · exact ⟨[], [], rfl, Framer.whole_nil, fun _ hx => absurd hx List.not_mem_nil,
        (List.append_nil _).symm, h.rings⟩
    · have hsid : ((st.sessions k).append chunk).sessionId = k := h.id k
      rw [hsid] at htakes
      exact ⟨used', xs, htakes.split, htakes.whole, htakes.stamped, htakes.accepted,
        htakes.keeps (J := fun q => RingsRep n d q.1.rings q.2) ringsRep_logged h.rings⟩
  obtain ⟨used', xs, hrecv, hwhole', hstamped, hacc, hrings⟩ := hmore
  refine ⟨hrings, fun k' => ?_, fun k' => ?_⟩
  · dsimp only
    rcases eq_or_ne k' k with rfl | hne
    · rw [Function.update_self, hid']
    · rw [Function.update_of_ne hne, h.id]
  · dsimp only
    rcases eq_or_ne k' k with rfl | hne
    · rw [Function.update_self, Function.update_self, hacc, ofSession_append_self hstamped]
      refine ⟨used ++ used', ?_, hwhole.append hwhole'⟩
      rw [hsplit, List.append_assoc, List.append_assoc, ← hrecv]
      rfl
    · rw [Function.update_of_ne hne, Function.update_of_ne hne, hacc,
        ofSession_append_other hne hstamped]
      exact h.split k'

theorem IngressInv.step (h : IngressInv n d st) (act : IngressAct) :
    ∃ st', st.step n d act = .ok st' ∧ IngressInv n d st' := by
  cases act with
  | pop i => exact ⟨_, rfl, h.rings.pop i, h.id, h.split⟩
  | read k chunk pops => exact h.read k chunk pops

end Ingress

/-- However reads, refusals and pops interleave: what the router has accepted of a session is the
    first part of the messages in the bytes stored for it; and what a shard has popped and what is
    in its ring are together the accepted messages meant for it, those of each session among
    them in that session's order. -/
theorem ingress_order (n : Nat) (d : Depth) (slots : Nat → Nat → InboundMsg)
    (acts : List IngressAct) :
    ∃ st, run (Ingress.step n d) (Ingress.init slots) acts = .ok st ∧
      (∀ k, ofSession k st.accepted <+: (decodeAll k (st.stored k)).1) ∧
      (∀ i, st.rings.popped i ++ (st.rings.ring i).contents d =
        st.accepted.filter fun x => target n x = some i) ∧
      ∀ k i, ofSession k (st.rings.popped i) ++ ofSession k ((st.rings.ring i).contents d) =
        (ofSession k st.accepted).filter fun x => target n x = some i := by
  obtain ⟨st, hrun, h⟩ := run_keeps (fun _ act (h : IngressInv n d _) => h.step act)
    (ingressInv_init n d slots) acts
  refine ⟨st, hrun, fun k => ?_, h.rings.share, fun k i => ?_⟩
  · obtain ⟨used, hsplit, hwhole⟩ := h.split k
    unfold decodeAll
    rw [hsplit, hwhole]
    exact List.prefix_append _ _
  · unfold ofSession
    rw [← List.filter_append, h.rings.share, List.filter_filter, List.filter_filter]
    simp only [Bool.and_comm]

end LiteExchange.Net
