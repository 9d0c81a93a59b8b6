import OpenWfd.Dhcp.Network

/-!
# Dhcp — Agreement

What the clients and the server agree on, in every state of the network, whatever is lost and
however the steps are interleaved: what is under way is in order, an ACK that a client may still
heed is for an address that is written for it in the server's book, and so is the address a client
has (`Coherent`).  Every step keeps this, as long as the lease times last.
-/

namespace OpenWfd.Dhcp

open Server (Reply)

variable {k : Mac} {type : UInt8} {x : UInt32} {p q : Packet}

/-- The address `y`, acknowledged at the time `t`, is `k`'s until the lease time has passed. -/
structure Lasts (cfg : Config) (w : World) (k : Mac) (y : UInt32) (t : Int) : Prop where
  not_zero : y ≠ 0
  past : t ≤ w.clock
  holds : w.clock ≤ t + cfg.leaseSeconds.toNat →
    Tenure.Holds w.server.book k y (t + cfg.leaseSeconds.toNat)

/-- What holds of a client and of what is under way between it and the server: the letters are in
order, an ACK that the client may still heed is for an address that is its own, and so is the one it
is bound to. -/
structure Steady (ec : Mac → Endian) (cfg : Config) (w : World) (k : Mac) : Prop where
  armed : (w.client k).Armed
  mac : (w.client k).macAddress = k
  sent : ∀ p ∈ w.up k, Sent k p
  replied : ∀ m ∈ w.down k, ∃ p t y, Replied p t y m.2
  order : InOrder (w.client k) (w.letters ec k)
  acked : (w.client k).state = .requesting ∨ Client.Holding (w.client k).state →
    ∀ m ∈ w.down k, ∀ y,
    Acks m.2 k y → m.2.packet.xid = (ec k).raw (w.client k).xid → Lasts cfg w k y m.1
  granted : Client.Holding (w.client k).state →
    ∃ y t, w.grant k = some (y, t) ∧ (w.client k).assignedIp = some y ∧ Lasts cfg w k y t

/-- What holds of all. -/
structure Coherent (ec : Mac → Endian) (cfg : Config) (w : World) : Prop where
  consistent : w.server.Consistent
  config : w.server.toConfig = cfg
  past : ∀ k, ∀ m ∈ w.down k, m.1 ≤ w.clock
  steady : ∀ k, Steady ec cfg w k

variable {ec : Mac → Endian} {es : Endian} {cfg : Config} {w w' : World} {c' : Client}
  {out : List Act} {v : Env}

theorem coherent_new {clients : Mac → ClientConfig} (hmac : ∀ k, (clients k).macAddress = k) :
    Coherent ec cfg (.new cfg clients) := by
  refine ⟨Server.consistent_new cfg, rfl, fun k m hm => absurd hm List.not_mem_nil, fun k =>
    ⟨(Client.clear_new _).armed, hmac k, nofun, nofun,
      ⟨fun _ => Or.inr .nil, fun _ => .nil, fun _ => nofun⟩,
      fun _ => nofun, fun h => ?_⟩⟩
  exact absurd h (by show ¬ Client.Holding .initSelecting; decide)

/-- A client that a step is not about. -/
theorem Steady.congr (h : Steady ec cfg w k) (hclient : w'.client k = w.client k)
    (hup : w'.up k = w.up k) (hdown : w'.down k = w.down k) (hgrant : w'.grant k = w.grant k)
    (hserver : w'.server = w.server) (hclock : w'.clock = w.clock) : Steady ec cfg w' k := by
  have hlasts : ∀ {y t}, Lasts cfg w k y t → Lasts cfg w' k y t := by
    intro y t hl
    refine ⟨hl.not_zero, ?_, ?_⟩
    · rw [hclock]
      exact hl.past
    · rw [hclock, hserver]
      exact hl.holds
  have hletters : w'.letters ec k = w.letters ec k := by
    simp only [World.letters, World.stream, hclient, hup, hdown]
  refine ⟨hclient ▸ h.armed, hclient ▸ h.mac, hup ▸ h.sent, hdown ▸ h.replied, ?_, ?_, ?_⟩
  · rw [hclient, hletters]
    exact h.order
  · rw [hclient, hdown]
    exact fun hs m hm y hack hxid => hlasts (h.acked hs m hm y hack hxid)
  · rw [hclient, hgrant]
    rintro hs
    obtain ⟨y, t, hg, ha, hl⟩ := h.granted hs
    exact ⟨y, t, hg, ha, hlasts hl⟩

/-! ### A timeout, a start or a stop -/

theorem turn_letters (ec : Mac → Endian) (w : World) (k : Mac) (c' : Client) (out : List Act) :
    (w.turn k c' out).letters ec k =
      (w.stream k ++ packets out).map (letter ((ec k).raw c'.xid)) := by
  unfold World.letters World.stream World.turn
  simp only [Function.update_self, List.append_assoc]

theorem Sends.letters (h : Client.Sends k type x out) :
    ∀ l ∈ (packets out).map (letter x), l = .ofType type := by
  intro l hl
  obtain ⟨p, hp, rfl⟩ := List.mem_map.mp hl
  exact (h p hp).letter

/-- To a transaction that has just been drawn, everything under way is junk. -/
theorem Unused.letters {e : Endian} (h : w.Unused e k x) :
    ∀ l ∈ (w.stream k).map (letter (e.raw x)), l = .junk := by
  intro l hl
  obtain ⟨p, hp, rfl⟩ := List.mem_map.mp hl
  refine letter_junk ?_
  rcases List.mem_append.mp hp with hp | hp
  · obtain ⟨hp, hmac⟩ := List.mem_filter.mp hp
    obtain ⟨m, hm, rfl⟩ := List.mem_map.mp hp
    exact h.2 m hm (of_decide_eq_true hmac)
  · exact h.1 p hp

theorem searching_le (l : Letter) : searching l ≤ 2 := by cases l <;> decide

theorem waiting_le (l : Letter) : waiting l ≤ 2 := by cases l <;> decide

theorem not_holding_init : ¬ Client.Holding .initSelecting := by decide

theorem not_holding_requesting : ¬ Client.Holding .requesting := by decide

theorem inOrder_ask {c : Client} {ls ls' : List Letter} (h : InOrder c ls) (hnot : ¬ c'.Restarting)
    (hstate : c.state = .requesting ∧ c'.state = .requesting ∨
      Client.Holding c.state ∧ Client.Holding c'.state)
    (hls : ∀ l ∈ ls', l = .request) : InOrder c' (ls ++ ls') := by
  refine ⟨fun hs => ?_, fun hs => ?_, fun hhold l hl => ?_⟩
  · rcases hstate with ⟨-, hreq⟩ | ⟨-, hhold⟩
    · rw [hs] at hreq
      cases hreq
    · rw [hs] at hhold
      exact absurd hhold not_holding_init
  · rcases hstate with ⟨hreq, -⟩ | ⟨-, hhold⟩
    · exact (h.waiting hreq).append (fun a _ => waiting_le a) fun l hl => by rw [hls l hl]; rfl
    · rw [hs] at hhold
      exact absurd hhold not_holding_requesting
  · have hold := hhold.resolve_right hnot
    rcases hstate with ⟨-, hreq⟩ | ⟨hc, -⟩
    · rw [hreq] at hold
      exact absurd hold not_holding_requesting
    · rcases List.mem_append.mp hl with hl | hl
      · exact h.holding (Or.inl hc) l hl
      · exact hls l hl

theorem inOrder_search {c : Client} {ls ls' : List Letter} (hs : c.state = .initSelecting)
    (hnot : ¬ c.Restarting) (h : c.listenMode = .none ∨ Phased searching ls)
    (hls : ∀ l ∈ ls', l = .search) : InOrder c (ls ++ ls') := by
  refine ⟨fun _ => h.imp_right fun h => ?_, fun hreq => ?_, fun hhold => ?_⟩
  · exact h.append (fun a _ => searching_le a) fun l hl => by rw [hls l hl]; rfl
  · rw [hs] at hreq
    cases hreq
  · rw [hs] at hhold
    exact absurd (hhold.resolve_right hnot) not_holding_init

theorem Lasts.turn {y : UInt32} {t : Int} (h : Lasts cfg w k y t) :
    Lasts cfg (w.turn k c' out) k y t :=
  ⟨h.not_zero, h.past, h.holds⟩

theorem steady_turn (h : Steady ec cfg w k) (hran : Client.Ran (ec k) v (w.client k) c' out)
    (hnew : w.Unused (ec k) k v.rand) : Steady ec cfg (w.turn k c' out) k := by
  have hclient : (w.turn k c' out).client k = c' := Function.update_self ..
  have hup : (w.turn k c' out).up k = w.up k ++ packets out := Function.update_self ..
  have harmed : ((w.turn k c' out).client k).Armed := by
    rw [hclient]
    exact hran.armed
  have hmac : ((w.turn k c' out).client k).macAddress = k := by
    rw [hclient]
    exact (congrArg ClientConfig.macAddress hran.config).trans h.mac
  have hsent : ∀ {type x}, Asking type → Client.Sends (w.client k).macAddress type x out →
      ∀ p ∈ (w.turn k c' out).up k, Sent k p := by
    intro type x htype hsends p hp
    rw [hup] at hp
    rcases List.mem_append.mp hp with hp | hp
    · exact h.sent p hp
    · exact ⟨type, x, htype, h.mac ▸ hsends p hp⟩
  have hletters := turn_letters ec w k c' out
  rw [List.map_append] at hletters
  rcases hran.turn with ⟨hstate, hxid, haddr, hsends⟩ | ⟨hstate, horigin, hsends⟩ | ⟨hstate, hsends⟩
  · refine ⟨harmed, hmac, hsent (Or.inr (Or.inl rfl)) hsends, h.replied, ?_, ?_, ?_⟩
    · rw [hclient, hletters, hxid]
      exact inOrder_ask h.order hran.not_restarting hstate (Sends.letters (h.mac ▸ hsends))
    · rw [hclient, hxid]
      intro hs m hm y hack hx
      refine (h.acked ?_ m hm y hack hx).turn
      exact hstate.imp And.left And.left
    · rw [hclient, haddr]
      intro hs
      rcases hstate with ⟨-, hreq⟩ | ⟨hold, -⟩
      · rw [hreq] at hs
        exact absurd hs not_holding_requesting
      · obtain ⟨y, t, hg, ha, hl⟩ := h.granted hold
        exact ⟨y, t, hg, ha, hl.turn⟩
  · refine ⟨harmed, hmac, hsent (Or.inl rfl) hsends, h.replied, ?_, ?_, ?_⟩
    · rw [hclient, hletters]
      refine inOrder_search hstate hran.not_restarting ?_ (Sends.letters (h.mac ▸ hsends))
      rcases horigin with hnewx | hdeaf | ⟨hxid, ⟨hinit, hlisten⟩ | hres⟩
      · rw [hnewx]
        exact Or.inr (.const _ fun l hl => by rw [Unused.letters hnew l hl])
      · exact Or.inl hdeaf
      · rw [hxid, hlisten]
        exact h.order.searching hinit
      · rw [hxid]
        exact Or.inr (.const _ fun l hl => by rw [h.order.holding (Or.inr hres) l hl])
    · rw [hclient, hstate]
      rintro (hreq | hold)
      · cases hreq
      · exact absurd hold not_holding_init
    · rw [hclient, hstate]
      exact fun hold => absurd hold not_holding_init
  · refine ⟨harmed, hmac, hsent (Or.inr (Or.inr rfl)) hsends, h.replied, ⟨?_, ?_, ?_⟩, ?_, ?_⟩
    · rw [hclient, hstate]
      exact nofun
    · rw [hclient, hstate]
      exact nofun
    · rw [hclient, hstate]
      rintro (hold | hres)
      · exact absurd hold (by decide)
      · exact absurd hres hran.not_restarting
    · rw [hclient, hstate]
      rintro (hreq | hold)
      · cases hreq
      · exact absurd hold (by decide)
    · rw [hclient, hstate]
      exact fun hold => absurd hold (by decide)

/-! ### A reply -/

/-- What is behind the reply at the head. -/
def behindHead (w : World) (k : Mac) (rest : List (Int × Reply)) : List Packet :=
  (rest.map fun m => m.2.packet).filter (fun p => p.mac = k) ++ w.up k

variable {t : Int} {r : Reply} {rest : List (Int × Reply)}

theorem stream_head (hdown : w.down k = (t, r) :: rest) :
    w.stream k = if r.packet.mac = k then r.packet :: behindHead w k rest
      else behindHead w k rest := by
  unfold World.stream behindHead
  rw [hdown, List.map_cons, List.filter_cons]
  split_ifs with h₁ h₂ h₂
  · rfl
  · exact absurd (of_decide_eq_true h₁) h₂
  · exact absurd (decide_eq_true h₂) h₁
  · rfl

theorem heed_letters (ec : Mac → Endian) (w : World) (k : Mac) (t : Int) (r : Reply)
    (rest : List (Int × Reply)) (c' : Client) (out : List Act) :
    (w.heed k t r rest c' out).letters ec k =
      (behindHead w k rest ++ packets out).map (letter ((ec k).raw c'.xid)) := by
  unfold World.letters World.stream World.heed World.turn behindHead
  simp only [Function.update_self, List.append_assoc]

theorem Lasts.heed {y : UInt32} {t' : Int} (h : Lasts cfg w k y t') :
    Lasts cfg (w.heed k t r rest c' out) k y t' :=
  ⟨h.not_zero, h.past, h.holds⟩

/-- Behind an ACK or a NAK that the client waits for, there are only REQUESTs and their answers. -/
theorem behind_request {c : Client} {ls : List Letter} (h : InOrder c (.request :: ls))
    (hs : c.state = .requesting ∨ Client.Holding c.state) : ∀ l ∈ ls, l = .request := by
  rcases hs with hs | hs
  · intro l hl
    have htop : 2 ≤ waiting l := (h.waiting hs).top_of_head (le_refl 2) hl
    cases l with
    | request => rfl
    | junk => exact absurd htop (by decide)
    | search => exact absurd htop (by decide)
  · exact fun l hl => h.holding (Or.inl hs) l (List.mem_cons_of_mem _ hl)

/-- Behind an OFFER that it looks for, only DISCOVERs and theirs. -/
theorem behind_search {c : Client} {ls : List Letter} (h : InOrder c (.search :: ls))
    (hs : c.state = .initSelecting) (hmode : c.listenMode ≠ .none) : ∀ l ∈ ls, l = .search := by
  intro l hl
  have htop : 2 ≤ searching l := ((h.searching hs).resolve_left hmode).top_of_head (le_refl 2) hl
  cases l with
  | search => rfl
  | junk => exact absurd htop (by decide)
  | request => exact absurd htop (by decide)

theorem inOrder_request {c : Client} {ls : List Letter}
    (h : c.state = .requesting ∨ Client.Holding c.state) (hls : ∀ l ∈ ls, l = .request) :
    InOrder c ls := by
  refine ⟨fun hs => ?_, fun _ => .const 2 fun l hl => by rw [hls l hl]; rfl, fun _ => hls⟩
  rw [hs] at h
  exact absurd h (by decide)

/-- A reply of the client's own transaction is at the head of what is under way. -/
theorem own_reply (h : Steady ec cfg w k) (hdown : w.down k = (t, r) :: rest) {stale : Packet}
    {behind : Nat → UInt8} (hears : (w.client k).Hears (ec k) (w.carried es k r) stale behind q)
    (howner : (w.client k).checkPackageOwner (ec k) q = true) {type : UInt8}
    (htold : Client.Told q behind type) :
    Typed r.packet type ∧ r.packet.mac = k ∧ r.packet.xid = (ec k).raw (w.client k).xid ∧
      q.yiaddr = r.packet.yiaddr ∧
      w.letters ec k =
        .ofType type :: (behindHead w k rest).map (letter ((ec k).raw (w.client k).xid)) := by
  obtain ⟨p, t', y, hrep⟩ := h.replied (t, r) (hdown ▸ List.mem_cons_self)
  obtain ⟨hxid, hmac, hy, htyped⟩ := hrep.read hears
  obtain ⟨hrmac, hrxid, hry⟩ := hrep.header
  obtain ⟨hx, -, hk⟩ := of_decide_eq_true howner
  obtain rfl := told_type htold htyped
  have hown : r.packet.mac = k := hrmac.trans (hmac.symm.trans (hk.trans h.mac))
  have hrx : r.packet.xid = (ec k).raw (w.client k).xid := by
    rw [hrxid, ← hxid, ← hx, Endian.raw_raw]
  refine ⟨hrep.typed, hown, hrx, hy.trans hry.symm, ?_⟩
  unfold World.letters
  rw [stream_head hdown, if_pos hown, List.map_cons, letter_typed hrep.typed hrx]

theorem steady_heed (h : Steady ec cfg w k) (hdown : w.down k = (t, r) :: rest) {stale : Packet}
    {behind : Nat → UInt8}
    (hrun : (w.client k).listenerEvent (ec k) v (w.carried es k r) stale behind = .ok (c', out)) :
    Steady ec cfg (w.heed k t r rest c' out) k := by
  have hclient : (w.heed k t r rest c' out).client k = c' := Function.update_self ..
  have hup : (w.heed k t r rest c' out).up k = w.up k ++ packets out := Function.update_self ..
  have hdown' : (w.heed k t r rest c' out).down k = rest := Function.update_self ..
  have hletters := heed_letters ec w k t r rest c' out
  rw [List.map_append] at hletters
  have hsub : ∀ m ∈ rest, m ∈ w.down k := fun m hm => hdown ▸ List.mem_cons_of_mem _ hm
  have hreplied : ∀ m ∈ (w.heed k t r rest c' out).down k, ∃ p t y, Replied p t y m.2 := by
    rw [hdown']
    exact fun m hm => h.replied m (hsub m hm)
  have hsilent : packets out = [] → ∀ p ∈ (w.heed k t r rest c' out).up k, Sent k p := by
    intro hout
    rw [hup, hout, List.append_nil]
    exact h.sent
  rcases Client.listenerEvent_spec h.armed hrun with ⟨rfl, rfl⟩ | ⟨q, hears, hheeded⟩
  · -- the packet is ignored
    have hgrant : (w.heed k t r rest (w.client k) []).grant k = w.grant k := rfl
    refine ⟨hclient.symm ▸ h.armed, hclient.symm ▸ h.mac, hsilent rfl, hreplied, ?_, ?_, ?_⟩
    · rw [hclient, hletters]
      refine h.order.sublist ?_
      show (_ ++ []).Sublist _
      rw [List.append_nil, World.letters, stream_head hdown]
      split_ifs
      · exact (List.sublist_cons_self _ _).map _
      · exact List.Sublist.refl _
    · rw [hclient, hdown']
      exact fun hs m hm y hack hx => (h.acked hs m (hsub m hm) y hack hx).heed
    · rw [hclient, hgrant]
      intro hs
      obtain ⟨y, t', hg, ha, hl⟩ := h.granted hs
      exact ⟨y, t', hg, ha, hl.heed⟩
  have harmed : ((w.heed k t r rest c' out).client k).Armed := by
    rw [hclient]
    exact hheeded.armed
  have hmac : ((w.heed k t r rest c' out).client k).macAddress = k := by
    rw [hclient]
    exact (congrArg ClientConfig.macAddress hheeded.config).trans h.mac
  have hx : c'.xid = (w.client k).xid := by
    cases hheeded.heeds with
    | offer state told asked => exact asked.xid
    | ack state told bound xid => exact xid
    | nak state told same xid => exact xid
  rw [hx] at hletters
  rcases hheeded.heeds with
    ⟨hs, htold, hasked⟩ | ⟨hs, htold, hbound, -, haddr, -, hout⟩ | ⟨hs, htold, hsame, -,
      haddr, hout, -⟩
  · -- an OFFER is asked for
    obtain ⟨-, -, -, -, hhead⟩ := own_reply h hdown hears hheeded.owner htold
    have hmode : (w.client k).listenMode ≠ .none := by
      rcases hears with ⟨hmode, -⟩ | ⟨hmode, -⟩ <;> rw [hmode] <;> decide
    have hbehind := behind_search (hhead ▸ h.order) hs hmode
    refine ⟨harmed, hmac, ?_, hreplied, ?_, ?_, ?_⟩
    · rw [hup]
      intro p hp
      rcases List.mem_append.mp hp with hp | hp
      · exact h.sent p hp
      · exact ⟨_, _, Or.inr (Or.inl rfl), h.mac ▸ hasked.sends p hp⟩
    · rw [hclient, hletters]
      refine ⟨fun hs' => ?_, fun _ => ?_, fun hold => ?_⟩
      · rw [hasked.state] at hs'
        cases hs'
      · refine (Phased.const 1 fun l hl => by rw [hbehind l hl]; rfl).append
          (fun a _ => waiting_le a) ?_
        intro l hl
        rw [Sends.letters (h.mac ▸ hasked.sends) l hl]
        rfl
      · rw [hasked.state] at hold
        exact absurd (hold.resolve_right hasked.not_restarting) not_holding_requesting
    · rw [hclient, hx, hdown']
      intro _ m hm y hack hmx
      have hmem : m.2.packet ∈ behindHead w k rest :=
        List.mem_append_left _
          (List.mem_filter.mpr ⟨List.mem_map_of_mem hm, decide_eq_true hack.mac⟩)
      have hsearch := hbehind _ (List.mem_map_of_mem hmem)
      rw [letter_typed hack.typed hmx] at hsearch
      exact absurd hsearch (by decide)
    · rw [hclient, hasked.state]
      exact fun hold => absurd hold not_holding_requesting
  · -- an ACK binds the client
    obtain ⟨htyped, hown, hrx, hy, hhead⟩ := own_reply h hdown hears hheeded.owner htold
    have hbehind := behind_request (hhead ▸ h.order) hs
    have hpackets : packets out = [] := by
      rw [hout]
      rfl
    have hgrant : (w.heed k t r rest c' out).grant k = some (r.packet.yiaddr, t) := by
      rw [hout]
      exact Function.update_self ..
    have hlasts :=
      h.acked hs (t, r) (hdown ▸ List.mem_cons_self) r.packet.yiaddr ⟨htyped, hown, rfl⟩ hrx
    refine ⟨harmed, hmac, hsilent hpackets, hreplied, ?_, ?_, ?_⟩
    · rw [hclient, hletters, hpackets, List.map_nil, List.append_nil]
      exact inOrder_request (Or.inr (Or.inl hbound)) hbehind
    · rw [hclient, hx, hdown']
      exact fun _ m hm y hack hmx => (h.acked hs m (hsub m hm) y hack hmx).heed
    · rw [hclient, hgrant]
      exact fun _ => ⟨_, _, rfl, hy ▸ haddr, hlasts.heed⟩
  · -- after a NAK the client will start over
    obtain ⟨-, -, -, -, hhead⟩ := own_reply h hdown hears hheeded.owner htold
    have hbehind := behind_request (hhead ▸ h.order) hs
    have hpackets : packets out = [] := by
      rw [hout]
      rfl
    have hgrant : (w.heed k t r rest c' out).grant k = w.grant k := by
      rw [hout]
      rfl
    refine ⟨harmed, hmac, hsilent hpackets, hreplied, ?_, ?_, ?_⟩
    · rw [hclient, hletters, hpackets, List.map_nil, List.append_nil]
      exact inOrder_request (hsame ▸ hs) hbehind
    · rw [hclient, hx, hdown']
      exact fun _ m hm y hack hmx => (h.acked hs m (hsub m hm) y hack hmx).heed
    · rw [hclient, hgrant, hsame, haddr]
      intro hold
      obtain ⟨y, t', hg, ha, hl⟩ := h.granted hold
      exact ⟨y, t', hg, ha, hl.heed⟩

/-! ### The server -/

variable {j : Mac} {s' : Server} {ls : List Packet} {replies : List Reply} {a : Arrival}

theorem quiet_request (h : Sent k p) (ha : a.payload = datagram p) (hl : letter x p = .request) :
    Quiet cfg k a := by
  intro q type sid req hheard _
  obtain ⟨hask, htyped, -, -⟩ := h.heard ha hheard
  by_cases hx : p.xid = x
  · rw [letter_typed htyped hx] at hl
    rcases hask with rfl | rfl | rfl
    · exact absurd hl (by decide)
    · exact Or.inl rfl
    · exact absurd hl (by decide)
  · rw [letter_junk hx] at hl
    cases hl

theorem quiet_other (h : Sent k p) (ha : a.payload = datagram p) (hne : j ≠ k) : Quiet cfg j a := by
  intro q type sid req hheard hmac
  obtain ⟨-, -, hk, -⟩ := h.heard ha hheard
  exact absurd (hmac.symm.trans hk) hne

/-- An address lasts while the server serves what its holder does not mind. -/
theorem lasts_serve (h : Coherent ec cfg w) (hnow : a.now = w.clock)
    (hrun : (server es).step w.server (a, replies) s') (hquiet : Quiet cfg j a) {y : UInt32}
    {t : Int} (hl : Lasts cfg w j y t) : Lasts cfg (w.serve k ls s' replies) j y t := by
  refine ⟨hl.not_zero, hl.past, fun hle => ?_⟩
  have hpast := hl.past
  have hle' : w.clock ≤ t + cfg.leaseSeconds.toNat := hle
  refine (held_step h.consistent hrun (hl.holds hle') hl.not_zero ?_ ?_ ?_).1
  · rw [hnow]
    exact hle'
  · rw [hnow, h.config]
    exact Int.add_le_add_right hpast _
  · rw [h.config]
    exact hquiet

theorem serve_stream (w : World) (k j : Mac) (rest : List Packet) (s' : Server)
    (replies : List Reply) :
    (w.serve k rest s' replies).stream j =
      ((w.down j).map fun m => m.2.packet).filter (fun p => p.mac = j) ++
        ((replies.map fun r => r.packet).filter (fun p => p.mac = j) ++
          Function.update w.up k rest j) := by
  unfold World.stream World.serve
  simp only [List.map_append, List.filter_append, List.append_assoc, List.map_map]
  rfl

/-- What the server sends for a client's packet. -/
theorem serve_replied (h : Coherent ec cfg w) (hsent : Sent k p) (ha : a.payload = datagram p)
    (hrun : (server es).step w.server (a, replies) s') :
    replies = [] ∨ ∃ q type t y r, replies = [r] ∧ Replied q t y r ∧ q.mac = k ∧ q.xid = p.xid ∧
      Typed p type ∧
      Asking type ∧ Answering type t y := by
  rcases server_step h.consistent hrun with ⟨-, hout⟩ |
    ⟨q, type, sid, req, deed, hheard, hserves, -⟩
  · exact Or.inl hout
  · obtain ⟨hask, htyped, hmac, hxid⟩ := hsent.heard ha hheard
    rcases serves_reply h.consistent hserves with hout |
      ⟨r, t, y, more, hout, hans, hpacket, hitems, -⟩
    · exact Or.inl hout
    · exact Or.inr ⟨q, type, t, y, r, hout, ⟨_, hpacket, hitems⟩, hmac, hxid, htyped, hask, hans⟩

/-- **What a client's packet does to what is under way.**  A reply takes its place. -/
theorem serve_letters (h : Coherent ec cfg w) (hup : w.up k = p :: ls) (ha : a.payload = datagram p)
    (hrun : (server es).step w.server (a, replies) s') :
    ((w.serve k ls s' replies).letters ec j).Sublist (w.letters ec j) := by
  have hsent := (h.steady k).sent p (hup ▸ List.mem_cons_self)
  have hclient : (w.serve k ls s' replies).client j = w.client j := rfl
  unfold World.letters
  rw [serve_stream, hclient]
  unfold World.stream
  simp only [List.map_append]
  refine (List.Sublist.refl _).append ?_
  have hrest : ((Function.update w.up k ls j).map (letter ((ec j).raw (w.client j).xid))).Sublist
      ((w.up j).map (letter ((ec j).raw (w.client j).xid))) := by
    refine List.Sublist.map _ ?_
    by_cases hj : j = k
    · subst hj
      rw [Function.update_self, hup]
      exact List.sublist_cons_self _ _
    · rw [Function.update_of_ne hj]
  rcases serve_replied h hsent ha hrun with rfl |
    ⟨q, type, t, y, r, rfl, hrep, hmac, hxid, htyped, hask, hans⟩
  · exact hrest
  have hr : r.packet.mac = k := hrep.header.1.trans hmac
  by_cases hj : j = k
  · subst hj
    have hkept : [r.packet].filter (fun p => p.mac = j) = [r.packet] := by
      rw [List.filter_cons, if_pos (decide_eq_true hr), List.filter_nil]
    rw [List.map_singleton, hkept, List.map_singleton, hrep.letter hxid htyped hans hask,
      Function.update_self, hup]
    exact List.Sublist.refl _
  · have hdropped : [r.packet].filter (fun p => p.mac = j) = [] := by
      rw [List.filter_cons, if_neg, List.filter_nil]
      rw [hr, decide_eq_true_eq]
      exact fun hkj => hj hkj.symm
    rw [List.map_singleton, hdropped, List.map_nil, List.nil_append]
    exact hrest

/-- An ACK that is sent gives the address for the lease time. -/
theorem acked_now (h : Coherent ec cfg w) (hsent : Sent k p) (ha : a.payload = datagram p)
    (hnow : a.now = w.clock) (hrun : (server es).step w.server (a, replies) s') {r : Reply}
    {y : UInt32} (hr : r ∈ replies) (hack : Acks r j y) :
    Lasts cfg (w.serve k ls s' replies) j y w.clock := by
  have h₀ : y ≠ 0 := by
    rcases serve_replied h hsent ha hrun with rfl |
      ⟨q, type, t, z, r', rfl, hrep, -, -, -, hask, hans⟩
    · cases hr
    rw [List.mem_singleton.mp hr] at hack
    have ht := hack.typed.eq hrep.typed
    have hy : y = z := hack.yiaddr.symm.trans hrep.header.2.2
    rcases hans with ⟨-, rfl⟩ | ⟨-, ⟨-, hz⟩ | rfl⟩ | ⟨rfl, -⟩
    · exact absurd ht (by decide)
    · exact hy ▸ hz
    · exact absurd ht (by decide)
    · exact absurd hask (by unfold Asking; decide)
  refine ⟨h₀, le_refl _, fun _ => ?_⟩
  have hholds := acked_holds h.consistent hrun hr hack h₀
  rw [hnow, h.config] at hholds
  exact hholds

/-- Behind an ACK that the client may still heed, it sends only REQUESTs. -/
theorem acked_request (h : Steady ec cfg w k) (hup : w.up k = p :: ls)
    (hs : (w.client k).state = .requesting ∨ Client.Holding (w.client k).state) {m : Int × Reply}
    {y : UInt32} (hm : m ∈ w.down k) (hack : Acks m.2 k y)
    (hx : m.2.packet.xid = (ec k).raw (w.client k).xid) :
    letter ((ec k).raw (w.client k).xid) p = .request := by
  have hletters : w.letters ec k =
      (((w.down k).map fun m => m.2.packet).filter (fun p => p.mac = k)).map
        (letter ((ec k).raw (w.client k).xid)) ++
        letter ((ec k).raw (w.client k).xid) p :: ls.map
          (letter ((ec k).raw (w.client k).xid)) := by
    unfold World.letters World.stream
    rw [hup, List.map_append, List.map_cons]
  have hmem : letter ((ec k).raw (w.client k).xid) m.2.packet ∈
      (((w.down k).map fun m => m.2.packet).filter (fun p => p.mac = k)).map
        (letter ((ec k).raw (w.client k).xid)) :=
    List.mem_map_of_mem (List.mem_filter.mpr ⟨List.mem_map_of_mem hm, decide_eq_true hack.mac⟩)
  have horder := h.order
  rw [hletters] at horder
  rcases hs with hs | hs
  · rw [letter_typed hack.typed hx] at hmem
    have htop : 2 ≤ waiting (letter ((ec k).raw (w.client k).xid) p) :=
      (horder.waiting hs).top_of_mem hmem (le_refl 2)
    generalize letter ((ec k).raw (w.client k).xid) p = l at htop
    cases l with
    | request => rfl
    | junk => exact absurd htop (by decide)
    | search => exact absurd htop (by decide)
  · exact horder.holding (Or.inl hs) _ (List.mem_append_right _ List.mem_cons_self)

theorem coherent_serve (h : Coherent ec cfg w) (hup : w.up k = p :: ls)
    (ha : a.payload = datagram p) (hnow : a.now = w.clock)
    (hrun : (server es).step w.server (a, replies) s') :
    Coherent ec cfg (w.serve k ls s' replies) := by
  have hsent := (h.steady k).sent p (hup ▸ List.mem_cons_self)
  obtain ⟨hcons, hconf⟩ := consistent_step ⟨h.consistent, h.config⟩ hrun
  have hdown : ∀ j, ∀ m ∈ (w.serve k ls s' replies).down j,
      m ∈ w.down j ∨ ∃ r ∈ replies, m = (w.clock, r) := by
    intro j m hm
    rcases List.mem_append.mp hm with hm | hm
    · exact Or.inl hm
    · obtain ⟨r, hr, rfl⟩ := List.mem_map.mp hm
      exact Or.inr ⟨r, hr, rfl⟩
  refine ⟨hcons, hconf, fun j m hm => ?_, fun j => ?_⟩
  · rcases hdown j m hm with hm | ⟨r, -, rfl⟩
    · exact h.past j m hm
    · exact le_refl _
  have hj := h.steady j
  refine ⟨hj.armed, hj.mac, fun q hq => ?_, fun m hm => ?_, ?_, ?_, ?_⟩
  · refine hj.sent q ?_
    have hq' : q ∈ Function.update w.up k ls j := hq
    by_cases hjk : j = k
    · subst hjk
      rw [Function.update_self] at hq'
      rw [hup]
      exact List.mem_cons_of_mem _ hq'
    · rwa [Function.update_of_ne hjk] at hq'
  · rcases hdown j m hm with hm | ⟨r, hr, rfl⟩
    · exact hj.replied m hm
    · rcases serve_replied h hsent ha hrun with rfl | ⟨q, type, t, y, r', rfl, hrep, -⟩
      · cases hr
      · rw [List.mem_singleton.mp hr]
        exact ⟨q, t, y, hrep⟩
  · exact hj.order.sublist (serve_letters h hup ha hrun)
  · intro hs m hm y hack hx
    rcases hdown j m hm with hold | ⟨r, hr, rfl⟩
    · refine lasts_serve h hnow hrun ?_ (hj.acked hs m hold y hack hx)
      by_cases hjk : j = k
      · subst hjk
        exact quiet_request hsent ha (acked_request hj hup hs hold hack hx)
      · exact quiet_other hsent ha hjk
    · exact acked_now h hsent ha hnow hrun hr hack
  · intro hs
    obtain ⟨y, t, hg, hadd, hl⟩ := hj.granted hs
    refine ⟨y, t, hg, hadd, lasts_serve h hnow hrun ?_ hl⟩
    by_cases hjk : j = k
    · subst hjk
      refine quiet_request hsent ha (hj.order.holding (Or.inl hs) _ (List.mem_map_of_mem ?_))
      exact List.mem_append_right _ (hup ▸ List.mem_cons_self)
    · exact quiet_other hsent ha hjk

/-! ### Time, and what is lost -/

theorem Lasts.tick {y : UInt32} {t : Int} (h : Lasts cfg w k y t) (d : Nat) :
    Lasts cfg { w with clock := w.clock + d } k y t := by
  refine ⟨h.not_zero, ?_, fun hle => h.holds ?_⟩
  · have hpast := h.past
    dsimp only
    omega
  · dsimp only at hle
    omega

theorem steady_tick (h : Steady ec cfg w k) (d : Nat) :
    Steady ec cfg { w with clock := w.clock + d } k := by
  refine ⟨h.armed, h.mac, h.sent, h.replied, h.order, ?_, ?_⟩
  · exact fun hs m hm y hack hx => (h.acked hs m hm y hack hx).tick d
  · intro hs
    obtain ⟨y, t, hg, ha, hl⟩ := h.granted hs
    exact ⟨y, t, hg, ha, hl.tick d⟩

/-- Less is under way. -/
theorem steady_lose {u : Mac → List Packet} {d : Mac → List (Int × Reply)} (h : Steady ec cfg w k)
    (hu : (u k).Sublist (w.up k)) (hd : (d k).Sublist (w.down k)) :
    Steady ec cfg { w with up := u, down := d } k := by
  refine ⟨h.armed, h.mac, fun p hp => h.sent p (hu.subset hp),
    fun m hm => h.replied m (hd.subset hm), ?_, ?_, ?_⟩
  · refine h.order.sublist (List.Sublist.map _ ?_)
    exact ((hd.map _).filter _).append hu
  · intro hs m hm y hack hx
    have hl := h.acked hs m (hd.subset hm) y hack hx
    exact ⟨hl.not_zero, hl.past, hl.holds⟩
  · intro hs
    obtain ⟨y, t, hg, ha, hl⟩ := h.granted hs
    exact ⟨y, t, hg, ha, hl.not_zero, hl.past, hl.holds⟩

theorem update_sublist {β : Type} {f : Mac → List β} {l l' : List β} {b : β}
    (h : f k = l ++ b :: l') (j : Mac) : (Function.update f k (l ++ l') j).Sublist (f j) := by
  by_cases hj : j = k
  · subst hj
    rw [Function.update_self, h]
    exact (List.Sublist.refl l).append (List.sublist_cons_self b l')
  · rw [Function.update_of_ne hj]

/-! ### Every step -/

theorem coherent_turn (h : Coherent ec cfg w) (hran : Client.Ran (ec k) v (w.client k) c' out)
    (hnew : w.Unused (ec k) k v.rand) : Coherent ec cfg (w.turn k c' out) := by
  refine ⟨h.consistent, h.config, h.past, fun j => ?_⟩
  by_cases hj : j = k
  · subst hj
    exact steady_turn (h.steady j) hran hnew
  · exact (h.steady j).congr (Function.update_of_ne hj ..)
      (Function.update_of_ne hj ..) rfl rfl rfl rfl

theorem coherent_heed (h : Coherent ec cfg w) (hdown : w.down k = (t, r) :: rest) {stale : Packet}
    {behind : Nat → UInt8}
    (hrun : (w.client k).listenerEvent (ec k) v (w.carried es k r) stale behind = .ok (c', out)) :
    Coherent ec cfg (w.heed k t r rest c' out) := by
  refine ⟨h.consistent, h.config, fun j m hm => h.past j m ?_, fun j => ?_⟩
  · have hm' : m ∈ Function.update w.down k rest j := hm
    by_cases hj : j = k
    · subst hj
      rw [Function.update_self] at hm'
      rw [hdown]
      exact List.mem_cons_of_mem _ hm'
    · rwa [Function.update_of_ne hj] at hm'
  by_cases hj : j = k
  · subst hj
    exact steady_heed (h.steady j) hdown hrun
  · refine (h.steady j).congr (Function.update_of_ne hj ..) (Function.update_of_ne hj ..)
      (Function.update_of_ne hj ..) ?_ rfl rfl
    unfold World.heed
    dsimp only
    split_ifs
    · exact Function.update_of_ne hj ..
    · rfl

theorem coherent_step (h : Coherent ec cfg w) (hs : World.CarefulStep es ec w w') :
    Coherent ec cfg w' := by
  obtain ⟨a, hcareful, hs⟩ := hs
  cases hs with
  | tick d =>
      refine ⟨h.consistent, h.config, fun k m hm => ?_, fun k => steady_tick (h.steady k) d⟩
      have hpast := h.past k m hm
      dsimp only
      omega
  | start k v last hrun => exact coherent_turn h (Client.idle_start hcareful.1 hrun) hcareful.2
  | fire k v i hi hrun =>
      exact coherent_turn h (Client.fire_spec (h.steady k).armed hi hrun) hcareful
  | stop k v => exact coherent_turn h (Client.stop_spec (h.steady k).armed) hcareful
  | serve k behind oom hup hrun => exact coherent_serve h hup rfl rfl hrun
  | deliver k v stale behind hdown hrun => exact coherent_heed h hdown hrun
  | loseUp k hup =>
      exact ⟨h.consistent, h.config, h.past, fun j =>
        steady_lose (h.steady j) (update_sublist hup j) (List.Sublist.refl _)⟩
  | loseDown k hdown =>
      exact ⟨h.consistent, h.config, fun j m hm => h.past j m ((update_sublist hdown j).subset hm),
        fun j => steady_lose (h.steady j) (List.Sublist.refl _) (update_sublist hdown j)⟩

/-- **In every state that careful steps lead to.** -/
theorem coherent_reachable {clients : Mac → ClientConfig} (hmac : ∀ k, (clients k).macAddress = k)
    (h : World.Reachable es ec cfg clients w) : Coherent ec cfg w := by
  induction h with
  | refl => exact coherent_new hmac
  | tail _ hs ih => exact coherent_step ih hs

end OpenWfd.Dhcp
