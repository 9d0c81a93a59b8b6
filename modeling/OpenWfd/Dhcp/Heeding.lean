import OpenWfd.Dhcp.Timeouts

/-!
# Dhcp — Heeding

What a packet does to the client.  `Heeds` lists it, and `Client.listenerEvent_spec` says that a
packet which is not of the client's own transaction, or of a type it does not wait for, changes
nothing.
-/

namespace OpenWfd.Dhcp

namespace Client

variable {c c' : Client} {e : Endian} {v : Env} {i : Nat} {n : UInt32} {out : List Act}

/-- The type that is read in a packet. -/
def Told (p : Packet) (behind : Nat → UInt8) (type : UInt8) : Prop :=
  ∃ a, option p behind DHCP_MESSAGE_TYPE = .ok (some a) ∧ p.memory behind a = type

/-- What a packet of the client's own transaction may do: an OFFER is asked for, an ACK binds the
client to its address, and after a NAK the client will start over. -/
inductive Heeds (e : Endian) (c : Client) (p : Packet) (behind : Nat → UInt8) (c' : Client)
    (out : List Act) : Prop where
  | offer (state : c.state = .initSelecting) (told : Told p behind DHCPOFFER)
      (asked : Asked e c c' out)
  | ack (state : c.state = .requesting ∨ Holding c.state) (told : Told p behind DHCPACK)
      (bound : c'.state = .bound) (xid : c'.xid = c.xid) (address : c'.assignedIp = some p.yiaddr)
      (not_restarting : ¬ c'.Restarting) (quiet : out = [.leaseAvailable])
  | nak (state : c.state = .requesting ∨ Holding c.state) (told : Told p behind DHCPNAK)
      (same : c'.state = c.state) (xid : c'.xid = c.xid) (address : c'.assignedIp = c.assignedIp)
      (quiet : out = [])
      (restarting : c'.Restarting)

variable {p : Packet} {behind : Nat → UInt8}

theorem offered_spec (h : c.Armed) (hrun : c.offered e v p behind = .ok (c', out)) :
    Asked e c c' out := by
  have hclear := h.removed
  unfold offered at hrun
  rcases hopt : option p behind DHCP_SERVER_ID with f | (- | a)
  · simp only [hopt, bind, Except.bind] at hrun
    cases hrun
  · simp only [hopt, bind, Except.bind] at hrun
    cases hrun
  · simp only [hopt, bind, Except.bind] at hrun
    have hs := startRequest_spec (c := { c.sourceRemove c.timeout with
      timeout := 0, retryTimes := 0, serverIp := getBe32At (p.memory behind) a,
      requestedIp := p.yiaddr
      state := .requesting }) ⟨hclear.none, Nat.zero_lt_of_lt h.behind⟩ rfl e v
    rw [Except.ok.inj hrun] at hs
    exact ⟨hs.armed, hs.config, hs.not_restarting, hs.pending, hs.state, hs.xid, hs.address,
      hs.sends, hs.quiet⟩

/-- The client is bound. -/
structure Bound (c c' : Client) (p : Packet) : Prop where
  armed : c'.Armed
  config : c'.toClientConfig = c.toClientConfig
  not_restarting : ¬ c'.Restarting
  pending : c'.Pending
  state : c'.state = .bound
  xid : c'.xid = c.xid
  address : c'.assignedIp = some p.yiaddr

theorem acked_spec (h : c.Armed) (hrun : c.acked v p behind = .ok (c', out)) :
    Bound c c' p ∧ out = [.leaseAvailable] := by
  have harmed : Armed { c with retryTimes := 0 } := ⟨h.only, h.zero, h.behind, h.due⟩
  have hcancel := harmed.cancel
  obtain ⟨sources, heq⟩ := cancel_rest { c with retryTimes := 0 }
  rw [heq] at hcancel
  unfold acked at hrun
  rcases hlease : getLease p behind with f | secs
  · simp only [hlease, bind, Except.bind] at hrun
    cases hrun
  simp only [hlease, bind, Except.bind, heq] at hrun
  split at hrun
  · cases hrun
  · have hswitch := switch_alike
      { c with retryTimes := 0, sources := sources, timeout := 0, leaseSeconds := secs } v .none
    have hd := hswitch.clear ⟨hcancel.none, Nat.zero_lt_of_lt h.behind⟩
    generalize (switchListeningMode _ v .none).1 = d at hswitch hd hrun
    obtain ⟨rfl, rfl⟩ := Prod.mk.inj (Except.ok.inj hrun)
    have hbound : Clear { d with assignedIp := some p.yiaddr, state := .bound } :=
      ⟨hd.none, hd.behind⟩
    refine ⟨?_, rfl⟩
    unfold startBound
    dsimp only
    rw [hbound.cancel]
    refine ⟨hbound.addTimeout rfl, hswitch.config, ?_, pending_added _ _ _, rfl, hswitch.xid, rfl⟩
    rw [hbound.addTimeout_restarting]
    decide

theorem refused_spec (h : c.Armed)
    (hs : c.state = .requesting ∨ c.state = .renewing ∨ c.state = .rebinding) :
    c.refused.Armed ∧ c.refused.Restarting ∧ c.refused.toClientConfig = c.toClientConfig ∧
      c.refused.state = c.state ∧ c.refused.xid = c.xid ∧ c.refused.assignedIp = c.assignedIp := by
  have harmed : Armed { c with retryTimes := 0 } := ⟨h.only, h.zero, h.behind, h.due⟩
  have hcancel := harmed.cancel
  obtain ⟨sources, heq⟩ := cancel_rest { c with retryTimes := 0 }
  unfold refused
  rw [heq] at hcancel ⊢
  exact ⟨hcancel.addTimeout hs, hcancel.addTimeout_restarting.mpr rfl, rfl, rfl, rfl, rfl⟩

/-- What holds after a packet. -/
structure Heeded (e : Endian) (c : Client) (p : Packet) (behind : Nat → UInt8) (c' : Client)
    (out : List Act) : Prop where
  armed : c'.Armed
  config : c'.toClientConfig = c.toClientConfig
  pending : c.Pending → c'.Pending ∨ .noLease ∈ out
  owner : c.checkPackageOwner e p = true
  heeds : Heeds e c p behind c' out

theorem asked_heeds (h : c.Armed) (hs : c.state = .initSelecting) (htold : Told p behind DHCPOFFER)
    (howner : c.checkPackageOwner e p = true) (hrun : c.offered e v p behind = .ok (c', out)) :
    Heeded e c p behind c' out := by
  have hasked := offered_spec h hrun
  exact ⟨hasked.armed, hasked.config, fun _ => hasked.pending, howner, .offer hs htold hasked⟩

/-- **A packet** is ignored, or it is the client's own and heeded. -/
theorem received_spec (h : c.Armed) (hrun : c.received e v p behind = .ok (c', out)) :
    c' = c ∧ out = [] ∨ Heeded e c p behind c' out := by
  have hwait : ∀ type, Told p behind type → (c.state = .requesting ∨ c.state = .renewing ∨
    c.state = .rebinding) →
      c.checkPackageOwner e p = true →
      (if type = DHCPACK then c.acked v p behind else if type = DHCPNAK then .ok (c.refused, [])
        else .ok (c, [])) =
        .ok (c', out) →
      c' = c ∧ out = [] ∨ Heeded e c p behind c' out := by
    intro type htold hs howner hrun
    have hs' : c.state = .requesting ∨ Holding c.state := hs.imp_right Or.inr
    split_ifs at hrun with hack hnak
    · obtain ⟨hbound, hout⟩ := acked_spec h hrun
      exact Or.inr ⟨hbound.armed, hbound.config, fun _ => Or.inl hbound.pending, howner,
        .ack hs' (hack ▸ htold) hbound.state hbound.xid hbound.address hbound.not_restarting hout⟩
    · obtain ⟨rfl, rfl⟩ := Prod.mk.inj (Except.ok.inj hrun)
      obtain ⟨harmed, hres, hconf, hstate, hxid, haddr⟩ := refused_spec h hs
      obtain ⟨i, n, hi⟩ := id hres
      exact Or.inr ⟨harmed, hconf, fun _ => Or.inl ⟨i, _, hi⟩, howner,
        .nak hs' (hnak ▸ htold) hstate hxid haddr rfl hres⟩
    · obtain ⟨rfl, rfl⟩ := Prod.mk.inj (Except.ok.inj hrun)
      exact Or.inl ⟨rfl, rfl⟩
  unfold received at hrun
  by_cases howner : c.checkPackageOwner e p = true
  swap
  · rw [if_pos howner] at hrun
    cases hrun
    exact Or.inl ⟨rfl, rfl⟩
  rw [if_neg (not_not_intro howner)] at hrun
  rcases hopt : option p behind DHCP_MESSAGE_TYPE with f | (- | a)
  · simp only [hopt, bind, Except.bind] at hrun
    cases hrun
  · simp only [hopt, bind, Except.bind] at hrun
    cases hrun
    exact Or.inl ⟨rfl, rfl⟩
  simp only [hopt, bind, Except.bind] at hrun
  have htold : Told p behind (p.memory behind a) := ⟨a, hopt, rfl⟩
  rcases hs : c.state with - | - | - | - | - | -
  · simp only [hs] at hrun
    split_ifs at hrun with htype
    · cases hrun
      exact Or.inl ⟨rfl, rfl⟩
    · rw [not_not.mp htype] at htold
      exact Or.inr (asked_heeds h hs htold howner hrun)
  all_goals simp only [hs] at hrun
  · exact hwait _ htold (Or.inl hs) howner hrun
  · cases hrun
    exact Or.inl ⟨rfl, rfl⟩
  · exact hwait _ htold (Or.inr (Or.inl hs)) howner hrun
  · exact hwait _ htold (Or.inr (Or.inr hs)) howner hrun
  · cases hrun
    exact Or.inl ⟨rfl, rfl⟩

/-- The packet that is read, as the client listens. -/
def Hears (e : Endian) (c : Client) (data : List UInt8) (stale : Packet) (behind : Nat → UInt8)
    (p : Packet) : Prop :=
  (c.listenMode = .l2 ∧ ∃ n, dhcpRecvL2Packet e data stale = .packet n p) ∨
    (c.listenMode = .l3 ∧ dhcpRecvL3Packet data behind = .ok (some p))

/-- **`listener_event`.** -/
theorem listenerEvent_spec (h : c.Armed) {data : List UInt8} {stale : Packet}
    (hrun : c.listenerEvent e v data stale behind = .ok (c', out)) :
    c' = c ∧ out = [] ∨ ∃ p, c.Hears e data stale behind p ∧ Heeded e c p behind c' out := by
  unfold listenerEvent at hrun
  rcases hmode : c.listenMode with - | - | -
  · simp only [hmode] at hrun
    cases hrun
    exact Or.inl ⟨rfl, rfl⟩
  · simp only [hmode] at hrun
    rcases hrecv : dhcpRecvL2Packet e data stale with - | - | n | ⟨n, p⟩
    · simp only [hrecv] at hrun
      cases hrun
      exact Or.inl ⟨rfl, rfl⟩
    · simp only [hrecv] at hrun
      cases hrun
    · simp only [hrecv] at hrun
      cases hrun
      exact Or.inl ⟨rfl, rfl⟩
    · simp only [hrecv] at hrun
      exact (received_spec h hrun).imp_right fun hheed => ⟨p, Or.inl ⟨hmode, n, hrecv⟩, hheed⟩
  · simp only [hmode] at hrun
    rcases hrecv : dhcpRecvL3Packet data behind with f | (- | p)
    · simp only [hrecv, bind, Except.bind] at hrun
      cases hrun
    · simp only [hrecv, bind, Except.bind] at hrun
      cases hrun
      exact Or.inl ⟨rfl, rfl⟩
    · simp only [hrecv, bind, Except.bind] at hrun
      exact (received_spec h hrun).imp_right fun hheed => ⟨p, Or.inr ⟨hmode, hrecv⟩, hheed⟩

end Client

end OpenWfd.Dhcp
