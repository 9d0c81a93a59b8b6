import OpenWfd.Dhcp.Agreement

/-!
# Dhcp — Progress

What the network does for its clients, in every state that careful steps lead to.

* `bound_booked`: an address that a client is bound to is written for it in the server's book until
  the lease time, counted from when the server sent the ACK, has passed;
* `bound_exclusive`: so no two clients are bound to one address within their lease times;
* `progress`: a client that may be started can be bound to an address, as long as the server has
  one.
-/

namespace OpenWfd.Dhcp

open Server (Reply)

variable {ec : Mac → Endian} {es : Endian} {cfg : Config} {w w' : World} {k : Mac} {p : Packet}
  {r : Reply} {s' : Server} {c' : Client} {out : List Act} {v : Env} {j : Mac}

/-- The careful steps from one state to another. -/
abbrev Steps (es : Endian) (ec : Mac → Endian) : World → World → Prop :=
  Relation.ReflTransGen (World.CarefulStep es ec)

/-- Everything under way to a client is lost. -/
theorem lose_all (es : Endian) (ec : Mac → Endian) (w : World) (k : Mac) :
    Steps es ec w { w with down := Function.update w.down k [] } := by
  generalize hd : w.down k = d
  induction d generalizing w with
  | nil =>
      have hsame : Function.update w.down k [] = w.down := by
        rw [← hd, Function.update_eq_self]
      rw [hsame]
  | cons m d ih =>
      have hstep : World.CarefulStep es ec w
          { w with down := Function.update w.down k ([] ++ d) } :=
        (World.Step.loseDown k hd).careful True.intro
      have hrest := ih { w with down := Function.update w.down k d } (Function.update_self ..)
      simp only [Function.update_idem] at hrest
      exact .head hstep hrest

/-- What was under way to a client is lost, and it is started. -/
theorem started (es : Endian) {c₁ : Client} (hidle : (w.client k).Idle) (hup : w.up k = [])
    (hstart : (w.client k).gDhcpClientStart (ec k) v .null = .ok (c₁, [.raw p])) :
    ∃ w', Steps es ec w w' ∧ w'.server = w.server ∧ w'.clock = w.clock ∧
      w'.client = Function.update w.client k c₁ ∧
      w'.up = Function.update w.up k [p] ∧ w'.down k = [] ∧ w'.grant = w.grant := by
  have hstep : World.Step es ec { w with down := Function.update w.down k [] } (.start k v .null)
      (World.turn { w with down := Function.update w.down k [] } k c₁ [.raw p]) := .start k
        v .null hstart
  have hcareful : World.Careful ec { w with down := Function.update w.down k [] }
    (.start k v .null) := by
    refine ⟨hidle, fun q hq => ?_, fun m hm => ?_⟩
    · rw [show ({ w with down := Function.update w.down k [] } : World).up k = [] from hup] at hq
      cases hq
    · rw [show ({ w with down := Function.update w.down k [] } : World).down k = []
        from Function.update_self ..] at hm
      cases hm
  refine ⟨_, (lose_all es ec w k).tail (hstep.careful hcareful), rfl, rfl, rfl, ?_,
    Function.update_self .., rfl⟩
  unfold World.turn
  rw [hup]
  rfl

/-- A packet is answered, and the client reads the answer. -/
theorem round (es : Endian) {behind : Nat → UInt8} (hup : w.up k = [p]) (hdown : w.down k = [])
    (hmode : (w.client k).listenMode = .l2)
    (hserver : (server es).step w.server (⟨w.clock, datagram p, behind, false⟩, [r]) s')
    (hclient : (w.client k).listenerEvent (ec k) v
      (rawPacket es r.packet s'.serverNip 67 r.destIp 68) .zero (fun _ => 0) = .ok (c', out)) :
    ∃ w', Steps es ec w w' ∧ w'.server = s' ∧ w'.clock = w.clock ∧
      w'.client = Function.update w.client k c' ∧
      w'.up = Function.update w.up k (packets out) ∧ w'.down k = [] ∧
      w'.grant = if Act.leaseAvailable ∈ out
        then Function.update w.grant k (some (r.packet.yiaddr, w.clock)) else w.grant := by
  have hserve : World.CarefulStep es ec w (w.serve k [] s' [r]) :=
    (World.Step.serve k behind false hup hserver).careful True.intro
  have hdown' : (w.serve k [] s' [r]).down k = (w.clock, r) :: [] := by
    unfold World.serve
    simp only [hdown, List.map_cons, List.map_nil, List.nil_append]
  have hcarried : (w.serve k [] s' [r]).carried es k r =
      rawPacket es r.packet s'.serverNip 67 r.destIp 68 :=
    if_neg (by show ¬ (w.client k).listenMode = .l3; rw [hmode]; decide)
  have hheed : World.CarefulStep es ec (w.serve k [] s' [r])
      ((w.serve k [] s' [r]).heed k w.clock r [] c' out) := by
    rw [← hcarried] at hclient
    exact (World.Step.deliver k v .zero (fun _ => 0) hdown' hclient).careful True.intro
  refine ⟨_, .tail (.single hserve) hheed, rfl, rfl, rfl, ?_, Function.update_self .., rfl⟩
  unfold World.serve World.heed World.turn
  simp only [Function.update_self, Function.update_idem, List.nil_append]

/-- From `w` to `w'`, `k` has been bound to `y`, and nothing else has happened. -/
structure Binds (cfg : Config) (k : Mac) (y : UInt32) (w w' : World) : Prop where
  state : (w'.client k).state = .bound
  address : (w'.client k).assignedIp = some y
  usable : Usable cfg y k
  grant : w'.grant = Function.update w.grant k (some (y, w.clock))
  client : ∀ j, j ≠ k → w'.client j = w.client j
  up : ∀ j, j ≠ k → w'.up j = w.up j
  clock : w'.clock = w.clock
  book : w'.server.book =
    Tenure.assign (Tenure.assign w.server.book ⟨k, y, 300⟩) ⟨k, y, w.clock + cfg.leaseSeconds.toNat⟩

/-- The four messages, one after the other. -/
theorem exchange (h : Coherent ec cfg w) (hidle : (w.client k).Idle) (hup : w.up k = [])
    (ho : w.server.Ordered) (hend : cfg.endIp ≠ 0xffffffff) (hfree : ¬ w.server.Exhausted w.clock)
    (hb : k ≠ MAC_BCAST_ADDR) (ha : k ≠ MAC_ANY_ADDR) :
    ∃ w' y, Steps es ec w w' ∧ Binds cfg k y w w' := by
  obtain ⟨hcons, rfl⟩ := And.intro h.consistent h.config
  have hmac := (h.steady k).mac
  -- DISCOVER
  obtain ⟨c₁, p, hstart⟩ := Client.idle_sends (e := ec k) (v := ⟨w.clock, 0, true⟩) hidle rfl
  obtain ⟨⟨harmed, hstate, hmode, hconf⟩, hpmac, hxid, req, hheard⟩ :=
    discover_heard w.server.toConfig
    (a := ⟨w.clock, datagram p, fun _ => 0, false⟩) hidle rfl hstart rfl
  have hmac₁ : c₁.macAddress = k := (congrArg ClientConfig.macAddress hconf).trans hmac
  have hpk : p.read.mac = k := hpmac.trans hmac
  obtain ⟨w₁, hsteps₁, hserver₁, hclock₁, hclient₁, hup₁, hdown₁, hgrant₁⟩ :=
    started es hidle hup hstart
  have hc₁ : w₁.client k = c₁ := by rw [hclient₁, Function.update_self]
  -- OFFER
  obtain ⟨y, s₁, hserver, hu, hconf₁, hcons₁, hbook₁⟩ := offer_made hcons ho hend hfree hheard rfl
    (by rw [hpk]; exact hb) (by rw [hpk]; exact ha) es
  have hown : (ec k).raw p.read.xid = c₁.xid := by
    rw [show p.read.xid = p.xid from rfl, hxid, Endian.raw_raw]
  have hoffer := offer_heeded es w.server.toConfig (y := y) hstate hmode (hpk.trans hmac₁.symm) hown
    ⟨w.clock, 0, true⟩ s₁.serverNip (w.server.offer es p.read y).destIp 67 .zero fun _ => 0
  obtain ⟨p', hsend, hposted⟩ := posted_select (ec k) (c₁.afterOffer w.server.serverNip y)
    ⟨w.clock, 0, true⟩
  rw [hsend] at hoffer
  obtain ⟨w₂, hsteps₂, hserver₂, hclock₂, hclient₂, hup₂, hdown₂, hgrant₂⟩ :=
    round es (k := k) (w := w₁)
    (by rw [hup₁, Function.update_self]) hdown₁ (by rw [hc₁]; exact hmode)
    (by rw [hserver₁, hclock₁]; exact hserver)
    (by rw [hc₁, Config.offer, sendPacket_packet]; exact hoffer)
  have hc₂ : w₂.client k = (c₁.afterOffer w.server.serverNip y).addTimeout REQUEST_TIMEOUT
      .requestTimeout := by
    rw [hclient₂, Function.update_self]
  -- ACK
  have hpk' : p'.read.mac = k := hposted.mac.trans hmac₁
  have hx : (⟨k, y, 300⟩ : Tenure.Entry Mac UInt32) ∈ s₁.book := by
    rw [hbook₁, hpk]
    exact Tenure.mem_assign_self _ _
  obtain ⟨s₂, hanswer, hkept⟩ :=
    Server.answer_request hcons₁ es hx hpk'.symm w.clock (some w.server.serverNip) false
  have hheard' : Heard s₁.toConfig ⟨w.clock, datagram p', fun _ => 0, false⟩ p'.read DHCPREQUEST
      (some w.server.serverNip) (some y) := by
    rw [hconf₁]
    refine hposted.heard (vendorless_select _) (by decide) (by decide) rfl (select_serverId _)
      (select_requested _) ?_
    rintro id hid
    exact (Option.some.inj hid).symm
  have hstep : (server es).step s₁ (⟨w.clock, datagram p', fun _ => 0, false⟩,
    [s₁.ack es p'.read y]) s₂ :=
    (Server.listenerEvent_heard hheard' es).trans hanswer
  have hown' : (ec k).raw p'.read.xid = c₁.xid := by
    rw [show p'.read.xid = p'.xid from rfl, hposted.xid, Endian.raw_raw]
    rfl
  obtain ⟨c₃, hheeds, -, hbound, haddr, -⟩ :=
    ack_heeded es s₁.toConfig (y := y) (harmed.afterOffer _ _) rfl
    hmode
    (hposted.mac : p'.read.mac = _) hown' ⟨w.clock, 0, true⟩ s₂.serverNip
      (s₁.ack es p'.read y).destIp 67 .zero
    fun _ => 0
  obtain ⟨w₃, hsteps₃, hserver₃, hclock₃, hclient₃, hup₃, -, hgrant₃⟩ := round es (k := k) (w := w₂)
    (by rw [hup₂, Function.update_self]; rfl) hdown₂ (by rw [hc₂]; exact hmode)
    (by rw [hserver₂, hclock₂, hclock₁]; exact hstep)
    (by rw [hc₂, Config.ack, sendPacket_packet]; exact hheeds)
  have hothers : ∀ {β : Type} {f f₁ f₂ f₃ : Mac → β} {a b d : β}, f₁ = Function.update f k a →
      f₂ = Function.update f₁ k b → f₃ = Function.update f₂ k d → ∀ j, j ≠ k → f₃ j = f j := by
    rintro β f _ _ _ a b d rfl rfl rfl j hj
    rw [Function.update_of_ne hj, Function.update_of_ne hj, Function.update_of_ne hj]
  refine ⟨w₃, y, (hsteps₁.trans hsteps₂).trans hsteps₃, ?_, ?_, hpk ▸ hu, ?_, ?_, ?_, ?_, ?_⟩
  · rw [hclient₃, Function.update_self]
    exact hbound
  · rw [hclient₃, Function.update_self]
    exact haddr
  · have hyi : (s₁.ack es p'.read y).packet.yiaddr = y := by
      rw [Config.ack, sendPacket_packet]
      rfl
    rw [hgrant₃, if_pos List.mem_cons_self, hyi, hgrant₂, if_neg (by simp), hgrant₁,
      hclock₂, hclock₁]
  · exact hothers hclient₁ hclient₂ hclient₃
  · exact hothers hup₁ hup₂ hup₃
  · rw [hclock₃, hclock₂, hclock₁]
  · rw [hserver₃, hkept.register.2, hpk', hbook₁, hpk, hconf₁]

/-- As long as the clock is that of a 32-bit `time_t`, the leases are in order. -/
theorem ordered_reachable {clients : Mac → ClientConfig} (hmac : ∀ k, (clients k).macAddress = k)
    (h : World.Reachable es ec cfg clients w) (htime : w.clock + cfg.leaseSeconds.toNat < 2 ^ 31) :
    0 ≤ w.clock ∧ w.server.Ordered := by
  induction h with
  | refl => exact ⟨le_refl _, Server.ordered_new cfg⟩
  | @tail w w' hw hs ih =>
      have hco := coherent_reachable hmac hw
      obtain ⟨a, -, hs⟩ := hs
      cases hs with
      | tick d =>
          dsimp only at htime
          obtain ⟨h₀, ho⟩ := ih (by omega)
          exact ⟨by dsimp only; omega, ho⟩
      | serve k behind oom hup hrun =>
          obtain ⟨h₀, ho⟩ := ih htime
          refine ⟨h₀, ordered_step hco.consistent ho hrun ?_⟩
          rw [hco.config]
          exact ⟨h₀, htime⟩
      | start => exact ih htime
      | fire => exact ih htime
      | stop => exact ih htime
      | deliver => exact ih htime
      | loseUp => exact ih htime
      | loseDown => exact ih htime

/-- The first client of a new network is bound. -/
theorem first_bound (es : Endian) (ec : Mac → Endian) {k : Mac} (hb : k ≠ MAC_BCAST_ADDR)
    (ha : k ≠ MAC_ANY_ADDR) :
    ∃ w y, World.Reachable es ec .lan .plain w ∧ Binds .lan k y (.new .lan .plain) w := by
  exact exchange (coherent_new fun _ => rfl) ⟨Client.clear_new _, rfl⟩ rfl (Server.ordered_new .lan)
    (by decide) (not_exhausted_new candidate_lan 0) hb ha

/-- Once it is, any other client may be started, and there is an address for it. -/
theorem second_ready {y : UInt32} (h : Coherent ec .lan w)
    (hb : Binds .lan k y (.new .lan .plain) w) (hne : j ≠ k) :
    (w.client j).Idle ∧ w.up j = [] ∧ ¬ w.server.Exhausted w.clock := by
  refine ⟨?_, hb.up _ hne, ?_⟩
  · rw [hb.client _ hne]
    exact ⟨Client.clear_new _, rfl⟩
  · refine Server.not_exhausted (y := y) ?_ (h.config ▸ candidate_lan)
      (h.config ▸ (⟨by decide, by decide, by decide, by decide⟩ : Candidate .lan 0xc0a84d65))
      (by decide)
    rw [hb.book, show (World.new .lan .plain).server.book = ∅ from Server.book_new .lan]
    exact Tenure.resource_assign (Tenure.resource_assign (fun _ h => h.elim) rfl) rfl

/-! ### What the network does -/

/-- **An address that a client is bound to is its own.**  Whatever is lost, whenever the timeouts
fire, and however the steps of all clients and of the server are interleaved: a client that has an
address was sent an ACK for it, and until the lease time has passed since then, the server's book
says that the address is the client's. -/
theorem bound_booked {clients : Mac → ClientConfig} (hmac : ∀ k, (clients k).macAddress = k)
    (h : World.Reachable es ec cfg clients w) (hk : Client.Holding (w.client k).state) :
    ∃ y t, w.grant k = some (y, t) ∧ (w.client k).assignedIp = some y ∧ t ≤ w.clock ∧
      (w.clock ≤ t + cfg.leaseSeconds.toNat →
        Tenure.Holds w.server.book k y (t + cfg.leaseSeconds.toNat)) := by
  obtain ⟨y, t, hg, ha, hl⟩ := ((coherent_reachable hmac h).steady k).granted hk
  exact ⟨y, t, hg, ha, hl.past, hl.holds⟩

/-- A client that has just been bound. -/
theorem bound_booked_first : ∃ w y t, World.Reachable .little (fun _ => .big) .lan .plain w ∧
    Client.Holding (w.client ⟨[2, 0, 0, 0, 0, 1], rfl⟩).state ∧
    w.grant ⟨[2, 0, 0, 0, 0, 1], rfl⟩ = some (y, t) ∧
    Tenure.Holds w.server.book ⟨[2, 0, 0, 0, 0, 1], rfl⟩ y (t + 3600) := by
  obtain ⟨w, y, hreach, hbinds⟩ :=
    @first_bound .little (fun _ => .big) ⟨[2, 0, 0, 0, 0, 1], rfl⟩ (by decide) (by decide)
  have hhold : Client.Holding (w.client ⟨[2, 0, 0, 0, 0, 1], rfl⟩).state := Or.inl hbinds.state
  obtain ⟨y', t, hg, -, hpast, hholds⟩ := bound_booked (fun _ => rfl) hreach hhold
  have hgrant := hbinds.grant
  rw [hgrant, Function.update_self] at hg
  cases hg
  refine ⟨w, y, _, hreach, hhold, by rw [hgrant, Function.update_self], hholds ?_⟩
  rw [hbinds.clock]
  decide

/-- **No two clients have one address** within the lease times they were given. -/
theorem bound_exclusive {clients : Mac → ClientConfig} (hmac : ∀ k, (clients k).macAddress = k)
    (h : World.Reachable es ec cfg clients w) {y y' : UInt32} {t t' : Int}
    (hj : Client.Holding (w.client j).state) (hk : Client.Holding (w.client k).state)
    (hsame : (w.client j).assignedIp = (w.client k).assignedIp) (hgj : w.grant j = some (y, t))
    (hgk : w.grant k = some (y', t')) (hjt : w.clock ≤ t + cfg.leaseSeconds.toNat)
    (hkt : w.clock ≤ t' + cfg.leaseSeconds.toNat) : j = k := by
  have hco := coherent_reachable hmac h
  obtain ⟨yj, tj, hgj', haj, hlj⟩ := (hco.steady j).granted hj
  obtain ⟨yk, tk, hgk', hak, hlk⟩ := (hco.steady k).granted hk
  rw [hgj] at hgj'
  rw [hgk] at hgk'
  cases hgj'
  cases hgk'
  rw [haj, hak] at hsame
  cases hsame
  obtain ⟨z, hz, hzj, hzy, -⟩ := hlj.holds hjt
  exact hzj.symm.trans (hco.consistent.exclusive.holder_eq (hlk.holds hkt) hz hzy)

/-- Two clients that are bound. -/
theorem bound_exclusive_two : ∃ w y y', World.Reachable .little (fun _ => .big) .lan .plain w ∧
    (w.client ⟨[2, 0, 0, 0, 0, 1], rfl⟩).assignedIp = some y ∧
    (w.client ⟨[2, 0, 0, 0, 0, 2], rfl⟩).assignedIp = some y' ∧ y ≠ y' := by
  obtain ⟨w₁, y, hreach₁, hb₁⟩ := @first_bound .little (fun _ => .big) ⟨[2, 0, 0, 0, 0, 1], rfl⟩
    (by decide) (by decide)
  have hco₁ := coherent_reachable (fun _ => rfl) hreach₁
  have hne : (⟨[2, 0, 0, 0, 0, 2], rfl⟩ : Mac) ≠ ⟨[2, 0, 0, 0, 0, 1], rfl⟩ := by decide
  have hclock₁ : w₁.clock = 0 := hb₁.clock
  obtain ⟨hidle, hup, hfree⟩ := second_ready hco₁ hb₁ hne
  obtain ⟨w₂, y', hsteps₂, hb₂⟩ := exchange hco₁ hidle hup
    (ordered_reachable (fun _ => rfl) hreach₁ (by rw [hclock₁]; decide)).2 (by decide) hfree
      (by decide) (by decide)
  have hreach₂ : World.Reachable .little (fun _ => .big) .lan .plain w₂ :=
    Relation.ReflTransGen.trans hreach₁ hsteps₂
  have hclient := hb₂.client _ hne.symm
  have hclock₂ : w₂.clock = 0 := hb₂.clock.trans hclock₁
  have hg₁ : w₂.grant ⟨[2, 0, 0, 0, 0, 1], rfl⟩ = some (y, 0) := by
    rw [hb₂.grant, Function.update_of_ne hne.symm, hb₁.grant, Function.update_self]
    rfl
  have hg₂ : w₂.grant ⟨[2, 0, 0, 0, 0, 2], rfl⟩ = some (y', 0) := by
    rw [hb₂.grant, Function.update_self, hclock₁]
  have haddr₁ : (w₂.client ⟨[2, 0, 0, 0, 0, 1], rfl⟩).assignedIp = some y := by
    rw [hclient]
    exact hb₁.address
  refine ⟨w₂, y, y', hreach₂, haddr₁, hb₂.address, ?_⟩
  rintro rfl
  refine hne.symm (bound_exclusive (fun _ => rfl) hreach₂ ?_ (Or.inl hb₂.state)
    (haddr₁.trans hb₂.address.symm) hg₁ hg₂ ?_ ?_)
  · rw [hclient]
    exact Or.inl hb₁.state
  · rw [hclock₂]
    decide
  · rw [hclock₂]
    decide

end OpenWfd.Dhcp
