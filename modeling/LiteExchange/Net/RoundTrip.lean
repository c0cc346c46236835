/-
  From a client's structs to the messages of a session and back. `orders_round_trip`: a client that
  sends structs with the right headers is never closed, and however its bytes are cut into chunks
  and whatever the queue refuses, the session has pushed and buffered the first of its messages,
  stamped with the session's id; `Logon`s are skipped.
-/
import LiteExchange.Net.Session
import LiteExchange.Proto.Layout

namespace LiteExchange.Net

open Lib Proto

variable {σ : Type}

/-- What a session makes of a client's struct. -/
def received (sid : UInt32) : ClientMsg → Option InboundMsg
  | .newOrder m => some (.newOrder { m with hdr := { m.hdr with sessionId := sid } })
  | .cancel m => some (.cancel { m with hdr := { m.hdr with sessionId := sid } })
  | .logon _ => none

theorem message_received {m : ClientMsg} (h : m.Sound) (sid : UInt32) :
    message sid m.hdr.type m.bytes.length m.bytes = received sid m := by
  have hlen : ∀ {n : Nat}, m.bytes.length = n → m.bytes.take n = m.bytes := by
    intro n hn
    rw [← hn, List.take_length]
  unfold message received
  cases m with
  | newOrder m =>
    have hn : (ClientMsg.newOrder m).bytes.length = 32 := length_pack _
    rw [hn, if_pos ⟨h.1, rfl⟩, sizeofNewOrder, hlen hn]
    have hstruct := NewOrder.ofBytes_pack h.1
    unfold ClientMsg.bytes ClientMsg.members
    dsimp only
    rw [hstruct]
  | cancel m =>
    have hn : (ClientMsg.cancel m).bytes.length = 16 := length_pack _
    have htype : (ClientMsg.cancel m).hdr.type = .cancelOrder := h.1
    rw [hn, htype, if_neg (by simp), if_pos ⟨rfl, rfl⟩, sizeofCancelOrder, hlen hn]
    have hstruct := CancelOrder.ofBytes_pack h.1
    unfold ClientMsg.bytes ClientMsg.members
    dsimp only
    rw [hstruct]
  | logon m =>
    have htype : (ClientMsg.logon m).hdr.type = .logon := h.1
    rw [htype, if_neg (by simp), if_neg (by simp)]

/-- The session finds the struct. -/
theorem whole_order {m : ClientMsg} (h : m.Sound) (sid : UInt32) :
    (frames sid).Whole m.bytes (received sid m).toList := by
  have hnext : (frames sid).next m.bytes = .frame m.bytes.length (received sid m) := by
    change verdict sid m.bytes = _
    unfold verdict
    rw [h.framed.decode]
    dsimp only
    rw [message_received h]
  have hwhole := Framer.whole_frame hnext
  rwa [List.take_length] at hwhole

theorem whole_orders {ms : List ClientMsg} (h : ∀ m ∈ ms, m.Sound) (sid : UInt32) :
    (frames sid).Whole (ms.flatMap ClientMsg.bytes) (ms.filterMap (received sid)) := by
  induction ms with
  | nil => exact Framer.whole_nil
  | cons m ms ih =>
    have hrest := ih fun x hx => h x (List.mem_cons_of_mem _ hx)
    have hcons : (m :: ms).filterMap (received sid) =
        (received sid m).toList ++ ms.filterMap (received sid) := by
      cases hm : received sid m with
      | none => rw [List.filterMap_cons_none hm]; rfl
      | some x => rw [List.filterMap_cons_some hm]; rfl
    rw [List.flatMap_cons, hcons]
    exact (whole_order (h m List.mem_cons_self) sid).append hrest

/-- Over any calls of `append` and `consume`: if the bytes stored so far are the first of the bytes
    of structs with the right headers, the session is open, and what it has pushed and what is in
    its buffer are the first of these messages; all of them when all bytes are stored. -/
theorem orders_round_trip (push : σ → InboundMsg → σ × Bool) (sid : UInt32) (q : σ)
    (calls : List Call) (ms : List ClientMsg) (hms : ∀ m ∈ ms, m.Sound) :
    ∃ st, run (Stream.step push) (Stream.init sid q) calls = .ok st ∧
      (st.stored <+: ms.flatMap ClientMsg.bytes →
        st.session.closed = false ∧
        st.accepted ++ (decodeAll sid st.session.recv).1 <+:
          ms.filterMap (received sid) ∧
        (st.stored = ms.flatMap ClientMsg.bytes →
          st.accepted ++ (decodeAll sid st.session.recv).1 =
            ms.filterMap (received sid))) := by
  obtain ⟨st, hrun, hinv⟩ := run_keeps (fun st call (h : StreamInv sid st) => h.step call)
    (streamInv_init sid q) calls
  obtain ⟨used, hsplit, hused⟩ := hinv.split
  have hsofar : st.accepted ++ (decodeAll sid st.session.recv).1 =
      ((frames sid).readAll st.stored).1 := by
    unfold decodeAll
    rw [hsplit, hused]
  have hwhole := whole_orders hms sid
  refine ⟨st, hrun, fun hpre => ?_⟩
  obtain ⟨hfirst, hgood⟩ := hwhole.first rfl hpre
  refine ⟨?_, ?_, fun hall => ?_⟩
  · -- a closed session has stored something that is no frame
    by_contra hclosed
    have hbad := Framer.readAll_bad (hinv.closed (Bool.of_not_eq_false hclosed))
    rw [hsplit, hused, hbad] at hgood
    cases hgood
  · rw [hsofar]
    exact hfirst
  · rw [hsofar, hall, hwhole.all rfl]

/-- A `Logon` and a cancel. -/
def logonThenCancel : List ClientMsg :=
  [.logon ⟨⟨16, .logon, 0, 0⟩, 0⟩, .cancel ⟨⟨16, .cancelOrder, 0, 77⟩, 9⟩]

/-- Their bytes in two chunks. -/
def twoChunks : List Call :=
  [.append ((logonThenCancel.flatMap ClientMsg.bytes).take 19), .consume,
    .append ((logonThenCancel.flatMap ClientMsg.bytes).drop 19), .consume]

theorem orders_round_trip_logon_cancel :
    ∃ st, run (Stream.step fun q _ => (q, true)) (Stream.init 5 ()) twoChunks = .ok st ∧
      st.accepted ++ (decodeAll 5 st.session.recv).1 = [.cancel ⟨⟨16, .cancelOrder, 0, 5⟩, 9⟩] := by
  obtain ⟨st, hrun, hall⟩ := orders_round_trip (fun q _ => (q, true)) 5 () twoChunks
    logonThenCancel (by decide)
  have hcode : (run (Stream.step fun q _ => (q, true)) (Stream.init 5 ()) twoChunks).map
      (fun st => st.stored) = .ok (logonThenCancel.flatMap ClientMsg.bytes) := by decide +kernel
  rw [hrun] at hcode
  have hstored : st.stored = logonThenCancel.flatMap ClientMsg.bytes := Except.ok.inj hcode
  obtain ⟨-, -, heq⟩ := hall (hstored ▸ List.prefix_refl _)
  exact ⟨st, hrun, heq hstored⟩

end LiteExchange.Net
