import OpenWfd.Dhcp.Leases
import OpenWfd.Dhcp.Replies

/-!
# Dhcp — Offers

The address the server offers: `check_requested_nip`, `find_free_or_expired_nip` and `send_offer`.
An address is offered to a client that has it already, or that nobody has, or whose lease has run
out (`Free`), and a client is refused only when no such address is left (`sendOffer_spec`).
-/

namespace OpenWfd.Dhcp

open Tenure (Entry)

/-- An address that `find_free_or_expired_nip` looks at. -/
structure Candidate (c : Config) (ip : UInt32) : Prop where
  start : c.startIp ≤ ip
  last : ip ≤ c.endIp
  not_net : ip &&& 0xff ≠ 0
  not_bcast : ip &&& 0xff ≠ 0xff

/-- The OFFER of an address. -/
def Config.offer (e : Endian) (c : Config) (client : Packet) (yiaddr : UInt32) : Server.Reply :=
  Server.sendPacketToClient e (reply client DHCPOFFER yiaddr (leaseItems c))

namespace Server

variable {s s' : Server} {ip nip : UInt32} {now : Int}

/-- Nobody but `mac` has a lease of the address that has not run out. -/
def Free (s : Server) (now : Int) (mac : Mac) (nip : UInt32) : Prop :=
  ∀ x ∈ s.book, x.resource = nip → x.holder = mac ∨ x.upto < now

/-! ### `find_free_or_expired_nip` -/

theorem freeNip_found (hle : ip ≤ s.endIp) (h₀ : ip &&& 0xff ≠ 0) (h₁ : ip &&& 0xff ≠ 0xff)
    (hn : s.nipLeaseHash ip = none) : s.freeNip ip = .inr (some ip) := by
  simp only [freeNip, if_pos hle, if_neg h₀, if_neg h₁, hn]

theorem freeNip_skip (hle : ip ≤ s.endIp)
    (h : ip &&& 0xff = 0 ∨ ip &&& 0xff = 0xff ∨ ∃ p, s.nipLeaseHash ip = some p) :
    s.freeNip ip = .inl (ip + 1) := by
  unfold freeNip
  rw [if_pos hle]
  split_ifs with h₀ h₁
  · rfl
  · rfl
  · obtain ⟨p, hp⟩ := (h.resolve_left h₀).resolve_left h₁
    rw [hp]

theorem freeNip_inr {r : UInt32} (h : s.freeNip ip = .inr (some r)) :
    r ≠ 0 ∧ s.nipLeaseHash r = none := by
  unfold freeNip at h
  split_ifs at h with hle h₀ h₁
  · rcases hn : s.nipLeaseHash ip with - | p <;> rw [hn] at h
    · cases h
      refine ⟨?_, hn⟩
      rintro rfl
      exact h₀ rfl
    · cases h
  · cases h

/-- What the loop finds is not leased. -/
theorem iterate_freeNip_free {n : Nat} {r : UInt32}
    (h : Loop.iterate s.freeNip n ip = some (some r)) :
    r ≠ 0 ∧ s.nipLeaseHash r = none := by
  induction n generalizing ip with
  | zero => cases h
  | succ n ih =>
      rcases hb : s.freeNip ip with ip' | r'
      · rw [Loop.iterate_inl hb] at h
        exact ih h
      · rw [Loop.iterate_inr hb] at h
        cases h
        exact freeNip_inr hb

/-- The loop finds the first address that is not leased, if there is one; the last address must not
be the last one there is, or the loop goes on with 0. -/
theorem iterate_freeNip (hend : s.endIp ≠ 0xffffffff) {n : Nat} {ip : UInt32}
    (hle : ip.toNat ≤ s.endIp.toNat + 1) (hn : s.endIp.toNat + 1 < ip.toNat + n) :
    (∃ r, Loop.iterate s.freeNip n ip = some (some r) ∧ ip ≤ r ∧ r ≤ s.endIp ∧ r &&& 0xff ≠ 0 ∧
        s.nipLeaseHash r = none) ∨
      Loop.iterate s.freeNip n ip = some none ∧
        ∀ r, ip ≤ r → r ≤ s.endIp → r &&& 0xff ≠ 0 → r &&& 0xff ≠ 0xff →
        ∃ p, s.nipLeaseHash r = some p := by
  induction n generalizing ip with
  | zero => omega
  | succ n ih =>
      by_cases hin : ip ≤ s.endIp
      · have hlt : ip.toNat + 1 < 2 ^ 32 := by
          have hmax : s.endIp.toNat ≠ 0xffffffff := fun h => hend (UInt32.toNat_inj.mp h)
          have hin' := UInt32.le_iff_toNat_le.mp hin
          have hsize := s.endIp.toNat_lt
          omega
        have hsucc : (ip + 1).toNat = ip.toNat + 1 := by
          rw [UInt32.toNat_add]
          exact Nat.mod_eq_of_lt hlt
        have hin' := UInt32.le_iff_toNat_le.mp hin
        by_cases hskip : ip &&& 0xff = 0 ∨ ip &&& 0xff = 0xff ∨ ∃ p, s.nipLeaseHash ip = some p
        · rw [Loop.iterate_inl (freeNip_skip hin hskip)]
          have hmono : ∀ r, ip + 1 ≤ r → ip ≤ r := by
            intro r hr
            rw [UInt32.le_iff_toNat_le] at hr ⊢
            omega
          rcases @ih (ip + 1) (by omega) (by omega) with ⟨r, hr, hle', hrest⟩ | ⟨hnone, hall⟩
          · exact Or.inl ⟨r, hr, hmono r hle', hrest⟩
          · refine Or.inr ⟨hnone, fun r hr hre h₀ h₁ => ?_⟩
            by_cases heq : r = ip
            · subst heq
              exact (hskip.resolve_left h₀).resolve_left h₁
            · refine hall r ?_ hre h₀ h₁
              rw [UInt32.le_iff_toNat_le] at hr ⊢
              have hne : r.toNat ≠ ip.toNat := fun h => heq (UInt32.toNat_inj.mp h)
              omega
        · push Not at hskip
          obtain ⟨h₀, h₁, hfree⟩ := hskip
          have hnone := Option.eq_none_iff_forall_ne_some.mpr hfree
          exact Or.inl ⟨ip, Loop.iterate_inr (freeNip_found hin h₀ h₁ hnone), UInt32.le_refl ip,
            hin, h₀, hnone⟩
      · refine Or.inr ⟨?_, fun r hr hre => absurd (UInt32.le_trans hr hre) hin⟩
        refine Loop.iterate_inr ?_
        simp only [freeNip, if_neg hin]

/-- The last lease of the list is the oldest. -/
theorem getLast_oldest (h : s.Consistent) (ho : s.Ordered) {p : Nat} {l : Lease}
    (hlast : s.leaseList.getLast? = some p) (hp : s.heap p = some l) :
    ∀ x ∈ s.book, l.expire ≤ x.upto := by
  rintro x ⟨q, m, hq, rfl⟩
  obtain ⟨init, hinit⟩ := List.getLast?_eq_some_iff.mp hlast
  have hat : ∀ r k, s.heap r = some k → s.expireAt r = some k.expire := by
    intro r k hr
    rw [expireAt, hr]
    rfl
  have hexp : s.expires = init.filterMap s.expireAt ++ [l.expire] := by
    rw [expires, hinit, List.filterMap_append, List.filterMap_cons_some (hat p l hp),
      List.filterMap_nil]
  have hmem := (h.listed q).mpr ⟨m, hq⟩
  rw [hinit] at hmem
  rcases List.mem_append.mp hmem with hmem | hmem
  · have hsorted := ho.sorted
    rw [hexp] at hsorted
    exact (List.pairwise_append.mp hsorted).2.2 m.expire
      (List.mem_filterMap.mpr ⟨q, hmem, hat q m hq⟩) l.expire (List.mem_singleton_self _)
  · rw [List.mem_singleton.mp hmem, hp] at hq
    cases hq
    exact le_refl _

theorem not_endless (hend : s.endIp ≠ 0xffffffff) :
    (∃ r, Loop.iterate s.freeNip (2 ^ 32) s.startIp = some (some r) ∧ s.startIp ≤ r ∧ r ≤ s.endIp) ∨
      Loop.iterate s.freeNip (2 ^ 32) s.startIp = some none ∧
        ∀ r, Candidate s.toConfig r → ∃ p, s.nipLeaseHash r = some p := by
  have hmax : s.endIp.toNat ≠ 0xffffffff := fun h => hend (UInt32.toNat_inj.mp h)
  have hsize := s.endIp.toNat_lt
  by_cases hle : s.startIp.toNat ≤ s.endIp.toNat + 1
  · rcases @iterate_freeNip s hend (2 ^ 32) s.startIp hle (by omega) with ⟨r, hr, hs, he, -⟩ |
      ⟨hnone, hall⟩
    · exact Or.inl ⟨r, hr, hs, he⟩
    · exact Or.inr ⟨hnone, fun r hr => hall r hr.start hr.last hr.not_net hr.not_bcast⟩
  · have hlt : ¬ s.startIp ≤ s.endIp := by
      rw [UInt32.le_iff_toNat_le]
      omega
    refine Or.inr ⟨Loop.iterate_inr (by simp only [freeNip, if_neg hlt]), fun r hr => ?_⟩
    exact absurd (UInt32.le_trans hr.start hr.last) hlt

/-- All addresses are leased and none has run out. -/
def Exhausted (s : Server) (now : Int) : Prop :=
  (∀ r, Candidate s.toConfig r → ∃ x ∈ s.book, x.resource = r) ∧ ∀ x ∈ s.book, now ≤ x.upto

/-- A server that has leased one address is not exhausted, if it has another. -/
theorem not_exhausted {y r r' : UInt32} (h : ∀ x ∈ s.book, x.resource = y)
    (hr : Candidate s.toConfig r) (hr' : Candidate s.toConfig r') (hne : r ≠ r') :
    ¬ s.Exhausted now := by
  intro hex
  obtain ⟨x, hx, hxr⟩ := hex.1 r hr
  obtain ⟨x', hx', hxr'⟩ := hex.1 r' hr'
  exact hne (hxr.symm.trans ((h x hx).trans ((h x' hx').symm.trans hxr')))

/-- **`find_free_or_expired_nip`.**  The address is not leased, or its lease has run out; it is 0
only if all addresses are leased and none has run out. -/
theorem findFreeOrExpiredNip_spec (h : s.Consistent) (now : Int) :
    (s.findFreeOrExpiredNip now = .error .endless ∧ s.endIp = 0xffffffff) ∨
      ∃ ip, s.findFreeOrExpiredNip now = .ok ip ∧
        (ip ≠ 0 → ∀ x ∈ s.book, x.resource = ip → x.upto < now) ∧
        (s.endIp ≠ 0xffffffff → ip ≠ 0 → s.startIp ≤ ip ∧ ip ≤ s.endIp) ∧
        (s.endIp ≠ 0xffffffff → s.Ordered → ip = 0 → s.Exhausted now) := by
  rcases hloop : Loop.iterate s.freeNip (2 ^ 32) s.startIp with - | - | r
  · refine Or.inl ⟨by rw [findFreeOrExpiredNip, hloop], ?_⟩
    by_contra hend
    rcases not_endless hend with ⟨r, hr, -⟩ | ⟨hnone, -⟩
    · rw [hloop] at hr
      cases hr
    · rw [hloop] at hnone
      cases hnone
  · -- no address is free, so the oldest lease decides
    have hall : s.endIp ≠ 0xffffffff → ∀ r, Candidate s.toConfig r →
        ∃ x ∈ s.book, x.resource = r := by
      intro hend r hr
      rcases not_endless hend with ⟨r', hr', -⟩ | ⟨-, hleased⟩
      · rw [hloop] at hr'
        cases hr'
      · obtain ⟨p, hp⟩ := hleased r hr
        obtain ⟨l, hl, hnip⟩ := (h.hashed r p).mp hp
        exact ⟨l.entry, ⟨p, l, hl, rfl⟩, hnip⟩
    rcases hlast : s.leaseList.getLast? with - | p
    · refine Or.inr ⟨0, by simp only [findFreeOrExpiredNip, hloop, hlast], fun h0 => absurd rfl h0,
        fun _ h0 => absurd rfl h0, fun hend _ _ => ⟨hall hend, ?_⟩⟩
      rintro x ⟨q, m, hq, rfl⟩
      have hmem := (h.listed q).mpr ⟨m, hq⟩
      rw [List.getLast?_eq_none_iff.mp hlast] at hmem
      cases hmem
    · obtain ⟨l, hp⟩ := (h.listed p).mp (List.mem_of_getLast? hlast)
      have husable := h.usable p l hp
      by_cases hexp : l.expire < now
      · refine Or.inr
          ⟨l.leaseNip, ?_, fun _ x hx hxl => ?_, fun _ _ => ⟨husable.start, husable.last⟩,
          fun _ _ h0 => absurd h0 husable.not_zero⟩
        · rw [findFreeOrExpiredNip, hloop]
          simp [hlast, deref_eq hp, bind, Except.bind, isExpiredLease, hexp]
        · rw [h.exclusive.eq_of_resource hx ⟨p, l, hp, rfl⟩ hxl]
          exact hexp
      · refine Or.inr ⟨0, ?_, fun h0 => absurd rfl h0, fun _ h0 => absurd rfl h0,
          fun hend ho _ => ⟨hall hend, fun x hx => ?_⟩⟩
        · rw [findFreeOrExpiredNip, hloop]
          simp [hlast, deref_eq hp, bind, Except.bind, isExpiredLease, hexp]
        · exact (not_lt.mp hexp).trans (getLast_oldest h ho hlast hp x hx)
  · have hfree := iterate_freeNip_free hloop
    refine Or.inr ⟨r, by rw [findFreeOrExpiredNip, hloop], fun _ x hx hxr => ?_, fun hend _ => ?_,
      fun _ _ h0 => absurd h0 hfree.1⟩
    · exact absurd hxr (h.unhashed hfree.2 x hx)
    · rcases not_endless hend with ⟨r', hr', hrange⟩ | ⟨hnone, -⟩
      · rw [hloop] at hr'
        cases hr'
        exact hrange
      · rw [hloop] at hnone
        cases hnone

/-- **`check_requested_nip`.** -/
theorem checkRequestedNip_spec (h : s.Consistent) (now : Int) (nip : UInt32) :
    ∃ b, s.checkRequestedNip now nip = .ok b ∧
      (b = true ↔ nip ≠ 0 ∧ s.startIp ≤ nip ∧ nip ≤ s.endIp ∧ ∀ x ∈ s.book, x.resource = nip →
        x.upto < now) := by
  unfold checkRequestedNip
  split_ifs with h₀ h₁ h₂
  · exact ⟨false, rfl, by simp [h₀]⟩
  · exact ⟨false, rfl, by simp [h₁]⟩
  · exact ⟨false, rfl, by simp [h₂]⟩
  · rcases hn : s.nipLeaseHash nip with - | p
    · exact ⟨true, rfl, fun _ => ⟨h₀, UInt32.not_lt.mp h₁, UInt32.not_lt.mp h₂,
        fun x hx hxn => absurd hxn (h.unhashed hn x hx)⟩, fun _ => rfl⟩
    · obtain ⟨l, hp, rfl⟩ := (h.hashed nip p).mp hn
      refine ⟨isExpiredLease l now, by simp only [deref_eq hp, bind, Except.bind], ?_⟩
      rw [isExpiredLease, decide_eq_true_iff]
      constructor
      · intro hexp
        refine ⟨h₀, UInt32.not_lt.mp h₁, UInt32.not_lt.mp h₂, fun x hx hxl => ?_⟩
        rw [h.exclusive.eq_of_resource hx ⟨p, l, hp, rfl⟩ hxl]
        exact hexp
      · rintro ⟨-, -, -, hall⟩
        exact hall l.entry ⟨p, l, hp, rfl⟩ rfl

/-! ### `send_offer` -/

/-- **The address offered.**  It is the client's own, or nobody has a lease of it that has not run
out. -/
theorem chooseNip_spec (h : s.Consistent) (now : Int) {lease : Option Nat} {mac : Mac}
    (nip : UInt32) (hlease : s.findLeaseByMac mac = .ok lease) :
    (s.chooseNip now lease nip = .error .endless ∧ s.endIp = 0xffffffff) ∨
      ∃ y, s.chooseNip now lease nip = .ok y ∧ (y ≠ 0 → s.Free now mac y) ∧
        (s.endIp ≠ 0xffffffff → y ≠ 0 → s.startIp ≤ y ∧ y ≤ s.endIp) ∧
        (s.endIp ≠ 0xffffffff → s.Ordered → y = 0 → (∀ x ∈ s.book, x.holder ≠ mac) ∧
          s.Exhausted now) := by
  rcases findLeaseByMac_spec h mac with ⟨hfind, hnone⟩ | ⟨q, l, hfind, hq, rfl⟩
  · rw [hfind] at hlease
    cases hlease
    obtain ⟨b, hb, hreq⟩ := checkRequestedNip_spec h now nip
    cases b with
    | true =>
        obtain ⟨h₀, h₁, h₂, hexp⟩ := hreq.mp rfl
        refine Or.inr ⟨nip, ?_, fun _ x hx hxn => Or.inr (hexp x hx hxn), fun _ _ => ⟨h₁, h₂⟩,
          fun _ _ h0 => absurd h0 h₀⟩
        simp only [chooseNip, hb, bind, Except.bind, if_true]
    | false =>
        have hstep : s.chooseNip now none nip = s.findFreeOrExpiredNip now := by
          simp only [chooseNip, hb, bind, Except.bind, Bool.false_eq_true, if_false]
        rw [hstep]
        rcases findFreeOrExpiredNip_spec h now with hend | ⟨ip, hip, hexp, hrange, hall⟩
        · exact Or.inl hend
        · exact Or.inr ⟨ip, hip, fun h₀ x hx hxn => Or.inr (hexp h₀ x hx hxn), hrange,
            fun hend ho h0 => ⟨hnone, hall hend ho h0⟩⟩
  · rw [hfind] at hlease
    cases hlease
    have husable := h.usable q l hq
    refine Or.inr ⟨l.leaseNip, ?_, fun _ x hx hxn => Or.inl ?_,
      fun _ _ => ⟨husable.start, husable.last⟩,
      fun _ _ h0 => absurd h0 husable.not_zero⟩
    · simp only [chooseNip, deref_eq hq, bind, Except.bind]
    · rw [h.exclusive.eq_of_resource hx ⟨q, l, hq, rfl⟩ hxn]
      rfl

theorem sendOffer_added (e : Endian) {client : Packet} {lease : Option Nat} {nip y : UInt32}
    {oom : Bool} {p : Nat} (hchoose : s.chooseNip now lease nip = .ok y) (h₀ : y ≠ 0)
    (hadd : s.addLease now OFFER_TIME client.mac y oom = .ok (some p, s'))
    (hconf : s'.toConfig = s.toConfig) :
    s.sendOffer e now client lease nip oom = .ok (s', [s.offer e client y]) := by
  have hmac : Packet.mac { s.initPacket client DHCPOFFER with yiaddr := y } = client.mac :=
    initPacket_mac (Or.inl rfl)
  have hpacket :
      s'.addServerOptions (dhcpAddOptionUint32 { s.initPacket client DHCPOFFER with yiaddr := y }
      DHCP_LEASE_TIME s'.leaseSeconds) = reply client DHCPOFFER y (leaseItems s.toConfig) := by
    rw [addServerOptions_eq, hconf, ← addServerOptions_eq]
    exact leasePacket_eq (Or.inl rfl)
  simp only [sendOffer, hchoose, bind, Except.bind, if_neg h₀, hmac, hadd]
  rw [hpacket]
  rfl

/-- **`send_offer`.**  Nothing is sent, or an address that is free for the client is offered and
written down for it. -/
theorem sendOffer_spec (h : s.Consistent) (e : Endian) (now : Int) (client : Packet)
    {lease : Option Nat} (hlease : s.findLeaseByMac client.mac = .ok lease) (nip : UInt32)
    (oom : Bool) :
    (s.sendOffer e now client lease nip oom = .error .endless ∧ s.endIp = 0xffffffff) ∨
    (s.sendOffer e now client lease nip oom = .ok (s, []) ∧
      (s.endIp ≠ 0xffffffff → s.Ordered → oom = false → client.mac ≠ MAC_BCAST_ADDR →
        client.mac ≠ MAC_ANY_ADDR → (∀ x ∈ s.book, x.holder ≠ client.mac) ∧ s.Exhausted now)) ∨
    ∃ y s', s.sendOffer e now client lease nip oom = .ok (s', [s.offer e client y]) ∧
      s.Free now client.mac y ∧
      Usable s.toConfig y client.mac ∧ s'.toConfig = s.toConfig ∧ s'.Consistent ∧
      s'.book = Tenure.assign s.book ⟨client.mac, y, 300⟩ ∧ (s.Ordered → s'.Ordered) := by
  have hmac : ∀ y, Packet.mac { s.initPacket client DHCPOFFER with yiaddr := y } = client.mac :=
    fun _ => initPacket_mac (Or.inl rfl)
  have hends : s.ends now OFFER_TIME = 300 := rfl
  rcases chooseNip_spec h now nip hlease with ⟨hchoose, hend⟩ | ⟨y, hchoose, hfree, hrange, hall⟩
  · exact Or.inl ⟨by simp only [sendOffer, hchoose, bind, Except.bind], hend⟩
  by_cases h₀ : y = 0
  · refine Or.inr (Or.inl ⟨?_, fun hend ho _ _ _ => hall hend ho h₀⟩)
    simp only [sendOffer, hchoose, bind, Except.bind, if_pos h₀]
  rcases addLease_spec h now OFFER_TIME client.mac y oom with
    ⟨hadd, hwhy⟩ | ⟨p, s', hadd, hu, hconf, hcons, hbook, hord⟩
  · refine Or.inr (Or.inl ⟨?_, fun hend _ hoom hb ha => ?_⟩)
    · simp only [sendOffer, hchoose, bind, Except.bind, if_neg h₀, hmac, hadd]
    · obtain ⟨h₁, h₂⟩ := hrange hend h₀
      rcases hwhy with hnot | ⟨rfl, -⟩
      · exact absurd ⟨h₀, h₁, h₂, hb, ha⟩ hnot
      · cases hoom
  · refine Or.inr
      (Or.inr ⟨y, s', sendOffer_added e hchoose h₀ hadd hconf, hfree h₀, hu, hconf, hcons, hbook,
      fun ho => hord ho ?_⟩)
    rw [hends]
    exact ⟨by decide, by decide⟩

end Server

end OpenWfd.Dhcp
