import Orion.Net.Handlers

/-!
# What a poll can do to a connection

Nothing outside TCP touches the connection (`SameTcp`).  So a transitive relation that contains every
such change, and what `handle_tcp` does if nested polls are in the relation, contains every poll
(`netPoll_rel`): its steps are those of `HandleRel`.
-/

namespace Orion.Net

open Orion.Traced

theorem SameTcp.refl (s : State) : SameTcp s s := ⟨.refl s, rfl⟩

theorem SameTcp.trans {s t u : State} (h : SameTcp s t) (h' : SameTcp t u) : SameTcp s u :=
  ⟨h.1.trans h'.1, h'.2.trans h.2⟩

/-! ## Code outside TCP -/

theorem nowMs_sameTcp (w : World) (s : State) : SameTcp s (nowMs w s).2 := by
  obtain ⟨c, hc⟩ := nowMs_eq w s
  rw [hc]
  exact ⟨⟨rfl, rfl, rfl, rfl, rfl, rfl, rfl, id⟩, rfl⟩

theorem elapsed_sameTcp (w : World) (st ms : ℕ) (s : State) : SameTcp s (elapsed w st ms s).2 :=
  nowMs_sameTcp w s

theorem sendArpRequest_sameTcp (w : World) (target : List UInt8) (s : State) :
    SameTcp s (sendArpRequest w target s) := by
  obtain ⟨txCount, sent, h⟩ := sendArpRequest_eq w target s
  rw [h]
  exact ⟨⟨rfl, rfl, rfl, rfl, rfl, rfl, rfl, id⟩, rfl⟩

theorem packetSent_sameTcp (w : World) (proto : UInt8) (dest payload : List UInt8) (s : State) :
    SameTcp s (packetSent w proto dest payload s) := by
  obtain ⟨ipId, txCount, sent, h⟩ := packetSent_eq w proto dest payload s
  rw [h]
  exact ⟨⟨rfl, rfl, rfl, rfl, rfl, rfl, rfl, id⟩, rfl⟩

theorem learn_sameTcp (x : ArpPacket) (s : State) : SameTcp s (learn x s) := by
  unfold learn
  split
  · exact ⟨⟨rfl, rfl, rfl, rfl, rfl, rfl, rfl, fun _ => rfl⟩, rfl⟩
  · exact .refl s

theorem handleArp_sameTcp (w : World) (mem : ℕ → UInt8) (p len : ℕ) (s : State) :
    SameTcp s (handleArp w mem p len s).value := by
  rw [handleArp_value]
  cases arpAt mem p len with
  | none => exact .refl s
  | some x =>
    have hlearn := learn_sameTcp x s
    rw [Option.elim_some, arpInput]
    split
    · obtain ⟨txCount, sent, h⟩ := ethTx_eq w (arpFrame (learn x s) x.mac 2 x.mac x.ip) (learn x s)
      rw [sendArpReply, h]
      exact hlearn.trans ⟨⟨rfl, rfl, rfl, rfl, rfl, rfl, rfl, id⟩, rfl⟩
    · exact hlearn

theorem handleUdp_sameTcp (mem : ℕ → UInt8) (p len : ℕ) (s : State) :
    SameTcp s (handleUdp mem p len s).value := by
  obtain ⟨done, answer, h⟩ := handleUdp_eq mem p len s
  rw [h]
  exact ⟨⟨rfl, rfl, rfl, rfl, rfl, rfl, rfl, id⟩, rfl⟩

/-! ## The relations -/

/-- A relation between the states before and after a piece of code. -/
def Rel (R : State → State → Prop) (f : State → Option State) : Prop :=
  ∀ s t, f s = some t → R s t

/-- A transitive relation that contains every change outside TCP. -/
structure CodeRel (R : State → State → Prop) : Prop where
  trans : ∀ {s t u}, R s t → R t u → R s u
  other : ∀ {s t}, SameTcp s t → R s t

/-- The conditions under which a relation contains every poll of the machine `w`. -/
structure PollRel (w : World) (R : State → State → Prop) : Prop extends CodeRel R where
  tcp : ∀ {poll : State → Option State} {fuel k : ℕ} {frame : Buffer} {s t : State} {y : IpPayload},
    Rel R poll → frame ∈ w.frames k → passedOn w.arch frame s = some y →
    (handleTcp w poll fuel frame.mem y.pl y.plen y.src s).value = some t → R s t

section

variable {w : World} {R : State → State → Prop}

/-- The steps of sending are outside TCP. -/
theorem CodeRel.toSendRel (hR : CodeRel R) : SendRel w (fun _ _ _ _ => True) R where
  trans := hR.trans
  idle _ _ _ _ _ := hR.other ⟨⟨rfl, rfl, rfl, rfl, rfl, rfl, rfl, id⟩, rfl⟩
  request s target := hR.other (sendArpRequest_sameTcp w target s)
  packet _ _ _ := hR.other (packetSent_sameTcp w _ _ _ _)

theorem CodeRel.refl (hR : CodeRel R) (s : State) : R s s := hR.other (.refl s)

theorem resolveNextHop_rel (hR : CodeRel R) {poll : State → Option State} (hpoll : Rel R poll)
    {fuel : ℕ} {dest : List UInt8} {s t : State} {hop : Option (List UInt8)}
    (h : resolveNextHop w poll fuel dest s = some (hop, t)) : R s t :=
  (hR.toSendRel.resolveNextHop hpoll h).1

theorem sendIpPacket_rel (hR : CodeRel R) {poll : State → Option State} (hpoll : Rel R poll)
    (fuel : ℕ) (proto : UInt8) (dest payload : List UInt8) :
    Rel R (sendIpPacket w poll fuel proto dest payload) :=
  fun _ _ h => hR.toSendRel.sendIpPacket hpoll trivial h

/-- Of the handlers only `handle_tcp` is inside TCP. -/
theorem PollRel.toHandleRel (hR : PollRel w R) : HandleRel w (fun _ _ _ _ => True) R where
  toSendRel := hR.toCodeRel.toSendRel
  echo _ _ _ _ _ _ := trivial
  arp s _ _ := hR.other (handleArp_sameTcp w _ _ _ s)
  udp _ _ := hR.other (handleUdp_sameTcp _ _ _ _)
  tcp := hR.tcp

/-- **Every poll is in the relation.** -/
theorem netPoll_rel (hR : PollRel w R) (fuel : ℕ) : Rel R (netPoll w fuel) :=
  hR.toHandleRel.netPoll fuel

theorem pollWhile_rel (hR : PollRel w R) (pollFuel st ms : ℕ) (waiting : State → Bool) (fuel : ℕ) :
    Rel R (pollWhile w pollFuel st ms waiting fuel) :=
  hR.toHandleRel.pollWhile fuel

end

end Orion.Net
