import Mathlib.Logic.Relation
import Orion.Lib.Logged
import Orion.Net.DnsQuery
import Orion.Net.Handlers

/-!
# Open DNS transactions

A transaction is closed when `dns_id` is 0: no datagram that is processed afterwards changes
`dns_done` or `dns_answer` (`dnsClosed_iff`).  `dns_lookup` closes its transaction at every exit but
one, the refusal of a name whose labels fill the query (`LongName`).
-/

namespace Orion.Net

open Orion.Traced Orion.Lib

/-! ## Between two lookups -/

/-- `handle_udp` runs, or something that has nothing to do with the resolver. -/
def DnsStep (s t : State) : Prop :=
  (∃ mem p len, t = (handleUdp mem p len s).value) ∨
    (t.dnsId = s.dnsId ∧ t.dnsDone = s.dnsDone ∧ t.dnsAnswer = s.dnsAnswer)

/-- What may happen until the next lookup starts. -/
def Afterwards : State → State → Prop := Relation.ReflTransGen DnsStep

theorem Afterwards.other {s t : State} (hid : t.dnsId = s.dnsId) (hdone : t.dnsDone = s.dnsDone)
    (hanswer : t.dnsAnswer = s.dnsAnswer) : Afterwards s t :=
  Relation.ReflTransGen.single (.inr ⟨hid, hdone, hanswer⟩)

theorem afterwards_tcpRel (w : World) : TcpRel w (fun _ _ _ _ => True) Afterwards where
  trans h h' := Relation.ReflTransGen.trans h h'
  idle _ _ _ _ _ := Afterwards.other rfl rfl rfl
  request s target := by
    obtain ⟨txCount, sent, heq⟩ := sendArpRequest_eq w target s
    rw [heq]
    exact Afterwards.other rfl rfl rfl
  packet := by
    intro s u proto dest payload _ _ _
    obtain ⟨ipId, txCount, sent, heq⟩ := packetSent_eq w proto dest payload u
    rw [heq]
    exact Afterwards.other rfl rfl rfl
  vars _ _ _ _ _ _ := Afterwards.other rfl rfl rfl
  segment _ _ _ := trivial

theorem afterwards_handleRel (w : World) : HandleRel w (fun _ _ _ _ => True) Afterwards where
  toSendRel := (afterwards_tcpRel w).toSendRel
  echo _ _ _ _ _ _ := trivial
  arp := by
    intro k frame s _ _
    rw [handleArp_value]
    cases arpAt frame.mem 14 (frame.len - 14) with
    | none => exact Relation.ReflTransGen.refl
    | some x =>
      obtain ⟨mac, valid, txCount, sent, heq⟩ := arpInput_eq w x s
      rw [Option.elim_some, heq]
      exact Afterwards.other rfl rfl rfl
  udp _ _ := Relation.ReflTransGen.single (.inl ⟨_, _, _, rfl⟩)
  tcp hpoll hframe hpass h := (afterwards_tcpRel w).toSegmentRel.handleTcp hpoll hframe hpass h

/-! ## Closed transactions -/

/-- No transaction is open, and whatever is received, none is answered. -/
def DnsClosed (t : State) : Prop :=
  t.dnsId = 0 ∧ ∀ u, Afterwards t u → u.dnsDone = t.dnsDone ∧ u.dnsAnswer = t.dnsAnswer

/-- Without an outstanding query `handle_udp` does nothing. -/
theorem handleUdp_closed {s : State} (h : s.dnsId = 0) (mem : ℕ → UInt8) (p len : ℕ) :
    (handleUdp mem p len s).value = s := by
  rw [handleUdp_value, forQuery, if_pos (.inr (.inr (.inr (.inr (.inl h)))))]
  rfl

theorem Afterwards.closed {s t : State} (h : Afterwards s t) (hs : s.dnsId = 0) :
    t.dnsId = 0 ∧ t.dnsDone = s.dnsDone ∧ t.dnsAnswer = s.dnsAnswer := by
  induction h with
  | refl => exact ⟨hs, rfl, rfl⟩
  | tail _ hstep ih =>
    obtain ⟨hid, hdone, hanswer⟩ := ih
    obtain ⟨mem, p, len, rfl⟩ | ⟨hid', hdone', hanswer'⟩ := hstep
    · rw [handleUdp_closed hid]
      exact ⟨hid, hdone, hanswer⟩
    · exact ⟨hid'.trans hid, hdone'.trans hdone, hanswer'.trans hanswer⟩

theorem dnsClosed_iff {t : State} : DnsClosed t ↔ t.dnsId = 0 :=
  ⟨fun h => h.1, fun h => ⟨h, fun _ hu => (hu.closed h).2⟩⟩

/-- A transaction that is closed is closed after the next poll. -/
theorem DnsClosed.netPoll {w : World} {fuel : ℕ} {s t : State} (hs : DnsClosed s)
    (h : netPoll w fuel s = some t) : DnsClosed t :=
  dnsClosed_iff.mpr (((afterwards_handleRel w).netPoll fuel s t h).closed hs.1).1

/-! ## The exits of a lookup -/

/-- The name goes on behind labels that take 487 or 488 bytes with their dots, so that the length byte
of the next label would be at offset 499 or 500 of the query. -/
def LongName (host : List UInt8) : Prop :=
  ∃ labels rest, (∀ l ∈ labels, IsLabel l ∧ 46 ∉ l) ∧ host = dotted labels ++ rest ∧ rest ≠ [] ∧
    ((dotted labels).length = 487 ∨ (dotted labels).length = 488)

theorem dnsName_longName {host : List UInt8} :
    dnsName host.length host 12 = .error .idKept ↔ LongName host := by
  rw [dnsName_idKept (Nat.le_refl _) (by decide)]
  constructor
  · rintro ⟨labels, rest, hlabels, hhost, hrest, hlow, hhigh⟩
    exact ⟨labels, rest, hlabels, hhost, hrest, by omega⟩
  · rintro ⟨labels, rest, hlabels, hhost, hrest, hlen⟩
    exact ⟨labels, rest, hlabels, hhost, hrest, by omega, by omega⟩

/-- The number of the outstanding query is never 0. -/
theorem dnsId_ne_zero (ticks : ℕ) : u16 (0x4000 + ticks % 2 ^ 14) ≠ 0 := by
  unfold u16
  omega

/-- The host is an address, or there is none. -/
def NoName (host : List UInt8) : Prop := parseIpv4 host ≠ none ∨ host = []

instance (host : List UInt8) : Decidable (NoName host) := inferInstanceAs (Decidable (_ ∨ _))

/-- `dns_id` after a lookup. -/
theorem dnsLookup_id {w : World} {fuel : ℕ} {host : List UInt8} {s t : State}
    {r : Option (List UInt8)} (h : dnsLookup w fuel host s = some (r, t)) :
    t.dnsId = 0 ↔ if NoName host then s.dnsId = 0 else ¬ LongName host := by
  unfold dnsLookup at h
  by_cases hname : NoName host
  · rw [if_pos hname]
    have hsame : t = s := by
      cases hlit : parseIpv4 host with
      | some a =>
        rw [hlit] at h
        exact (Prod.mk.inj (Option.some.inj h)).2.symm
      | none =>
        obtain hsome | hempty := hname
        · exact absurd hlit hsome
        · rw [hlit] at h
          simp only [if_pos hempty] at h
          exact (Prod.mk.inj (Option.some.inj h)).2.symm
    rw [hsame]
  · rw [if_neg hname, ← dnsName_longName]
    obtain ⟨hlit, hempty⟩ := not_or.mp hname
    rw [not_not.mp hlit] at h
    simp only [if_neg hempty] at h
    cases hencoded : dnsName host.length host 12 with
    | error e =>
      simp only [hencoded] at h
      cases e with
      | idKept =>
        obtain rfl := (Prod.mk.inj (Option.some.inj h)).2
        exact ⟨fun hzero => absurd hzero (dnsId_ne_zero _), fun hnot => absurd rfl hnot⟩
      | idReset =>
        obtain rfl := (Prod.mk.inj (Option.some.inj h)).2
        exact ⟨fun _ => by simp, fun _ => rfl⟩
    | ok name =>
      simp only [hencoded] at h
      obtain ⟨x, -, hx⟩ := Option.bind_eq_some_iff.mp h
      obtain rfl := (Prod.mk.inj (Option.some.inj hx)).2
      exact ⟨fun _ => by simp, fun _ => rfl⟩

/-- A run with the hosts that are looked up in it. -/
def LookupRun (s : State) (hosts : List (List UInt8)) (t : State) : Prop :=
  Logged (fun host s t => ∃ w fuel r, dnsLookup w fuel host s = some (r, t)) Afterwards s hosts t

theorem LookupRun.closed {s t : State} {hosts : List (List UInt8)} (h : LookupRun s hosts t)
    (hs : s.dnsId = 0) (hhosts : ∀ host ∈ hosts, NoName host ∨ ¬ LongName host) : t.dnsId = 0 := by
  induction h with
  | start => exact hs
  | event host _ hlookup ih =>
    have hbefore := ih fun host' hmem => hhosts host' (List.mem_append_left _ hmem)
    obtain ⟨w, fuel, r, hr⟩ := hlookup
    refine (dnsLookup_id hr).mpr ?_
    split
    · exact hbefore
    · rename_i hname
      exact (hhosts host (List.mem_append_right _ (List.mem_singleton_self _))).resolve_left hname
  | silent _ hafter ih => exact (hafter.closed (ih hhosts)).1

/-- **Which lookups leave no open transaction**: those of a host that is not a long name, and those
without a name if none was open before.  So none is open in any run without long names. -/
theorem dns_lookup_closed_iff {s t : State} {hosts : List (List UInt8)} (hrun : LookupRun s hosts t) :
    (∀ {w : World} {fuel : ℕ} {host : List UInt8} {r : Option (List UInt8)} {u : State},
      dnsLookup w fuel host t = some (r, u) →
        (DnsClosed u ↔ if NoName host then t.dnsId = 0 else ¬ LongName host)) ∧
    (s.dnsId = 0 → (∀ host ∈ hosts, NoName host ∨ ¬ LongName host) → DnsClosed t) :=
  ⟨fun h => dnsClosed_iff.trans (dnsLookup_id h),
    fun hs hhosts => dnsClosed_iff.mpr (hrun.closed hs hhosts)⟩

theorem dns_lookup_closed_smoke :
    ∃ u, dnsLookup World.quiet 1 [46, 97] State.boot = some (none, u) ∧ DnsClosed u := by
  have hlookup : (dnsLookup World.quiet 1 [46, 97] State.boot).map Prod.fst = some none := by
    decide +kernel
  obtain ⟨⟨r, u⟩, hu, rfl⟩ := Option.map_eq_some_iff.mp hlookup
  refine ⟨u, hu, ((dns_lookup_closed_iff .start).1 hu).mpr ?_⟩
  rw [if_neg (by decide), ← dnsName_longName]
  decide

/-- 243 short labels and one more. -/
def longHost : List UInt8 := dotted ([97, 97] :: List.replicate 242 [97]) ++ [97]

/-- An error for the query number 0x4000, sent to port 0. -/
def strayReply : Buffer :=
  .ofBytes [0, 53, 0, 0, 0, 20, 0, 0, 64, 0, 128, 3, 0, 0, 0, 0, 0, 0, 0, 0]

theorem longHost_long : LongName longHost := by
  refine ⟨[97, 97] :: List.replicate 242 [97], [97], ?_, rfl, by simp, .inl ?_⟩
  · intro l hl
    obtain rfl | hmem := List.mem_cons.mp hl
    · decide
    · obtain rfl := List.eq_of_mem_replicate hmem
      decide
  · decide +kernel

/-- The refusal of a long name leaves its transaction open, and a datagram changes `dns_done`. -/
theorem dns_lookup_open : ∃ t, dnsLookup World.quiet 1 longHost State.boot = some (none, t) ∧
    ¬ DnsClosed t ∧ t.dnsDone = 0 ∧
      (handleUdp strayReply.mem 0 strayReply.len t).value.dnsDone = -1 := by
  have hname : ¬ NoName longHost := by
    have hlit : parseIpv4 longHost = none := rfl
    rintro (h | h)
    · exact h hlit
    · exact absurd (List.append_eq_nil_iff.mp h).2 (by decide)
  have hlookup : dnsLookup World.quiet 1 longHost State.boot =
      some (none, { State.boot with clock := 1, dnsId := 0x4000 }) := by
    unfold dnsLookup
    obtain ⟨hlit, hempty⟩ := not_or.mp hname
    rw [not_not.mp hlit]
    simp only [if_neg hempty, dnsName_longName.mpr longHost_long]
    rfl
  refine ⟨_, hlookup, fun hclosed => ?_, rfl, by decide⟩
  exact absurd hclosed.1 (by decide)

end Orion.Net
