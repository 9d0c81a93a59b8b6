import OpenWfd.Dhcp.Handshake

/-!
# Dhcp — ClientRuns

The client over whole runs: starts and stops, timeouts and packets of any content, in any order.
`g_dhcp_client_start` does not ask whether the client is under way already, and a second start
leaves a timeout that nobody knows of (`start_twice`); so the runs are those of a caller that starts
the client only when it is idle (`orderly`).

* `client_waits`: at most one timeout is pending, and it fits the state; and a client that was
  started has one, as long as sockets can be opened, until it says that it has no lease or is
  stopped;
* `renewal_abandoned`: a renewal that is not answered is not tried again, and the client keeps its
  address.
-/

namespace OpenWfd.Dhcp

/-- What happens to a client. -/
inductive Event where
  | start (last : LastAddress)
  | stop
  | fire (id : Nat)
  | frame (data : List UInt8) (stale : Packet) (behind : Nat → UInt8)

/-- A call: what it sees of the world, what happens, and what the client puts out. -/
structure Call where
  env : Env
  event : Event
  out : List Act

namespace Client

/-- A client, call after call.  A timeout calls when it is pending. -/
def Calls (e : Endian) (c : Client) (l : Call) (c' : Client) : Prop :=
  match l.event with
  | .start last               => c.gDhcpClientStart e l.env last = .ok (c', l.out)
  | .stop                     => c.gDhcpClientStop e l.env = (c', l.out)
  | .fire i                   => c.sources i ≠ none ∧ c.fire e l.env i = .ok (c', l.out)
  | .frame data stale behind  => c.listenerEvent e l.env data stale behind = .ok (c', l.out)

/-- The call is no start, or the client is idle. -/
def Orderly (c : Client) (l : Call) : Prop := ∀ last, l.event = .start last → c.Idle

theorem orderly_frame {c : Client} {v : Env} {data : List UInt8} {stale : Packet}
    {behind : Nat → UInt8} {out : List Act} : c.Orderly ⟨v, .frame data stale behind, out⟩ := by
  intro last h
  cases h

theorem orderly_fire {c : Client} {v : Env} {i : Nat} {out : List Act} :
    c.Orderly ⟨v, .fire i, out⟩ := by
  intro last h
  cases h

end Client

/-- A client. -/
def client (e : Endian) : Lts Client Call := ⟨fun c l c' => c.Calls e l c'⟩

/-- A client that is started only when it is idle. -/
def orderly (e : Endian) : Lts Client Call := (client e).guard Client.Orderly

variable {e : Endian} {c c' c₁ c₂ : Client} {k : ClientConfig} {l : Call} {ls ls' : List Call}
  {i : Nat} {n : UInt32}

/-- **One call**: a turn, or nothing, or a packet that is heeded. -/
theorem client_step (h : c.Armed) (hs : (orderly e).step c l c') :
    Client.Ran e l.env c c' l.out ∨ (c' = c ∧ l.out = []) ∨
      ∃ data stale behind p, l.event = .frame data stale behind ∧ c.Hears e data stale behind p ∧
        Client.Heeded e c p behind c' l.out := by
  obtain ⟨hidle, hs⟩ := hs
  obtain ⟨v, event, out⟩ := l
  cases event with
  | start last => exact Or.inl (Client.idle_start (hidle last rfl) hs)
  | stop =>
      have hstop : c.gDhcpClientStop e v = (c', out) := hs
      have hran := Client.stop_spec (e := e) (v := v) h
      rw [hstop] at hran
      exact Or.inl hran
  | fire i =>
      obtain ⟨x, hx⟩ := Option.ne_none_iff_exists'.mp hs.1
      exact Or.inl (Client.fire_spec h hx hs.2)
  | frame data stale behind =>
      rcases Client.listenerEvent_spec h hs with hsame | ⟨p, hears, hheeded⟩
      · exact Or.inr (Or.inl hsame)
      · exact Or.inr (Or.inr ⟨data, stale, behind, p, rfl, hears, hheeded⟩)

theorem armed_step (h : c.Armed) (hs : (orderly e).step c l c') : c'.Armed := by
  rcases client_step h hs with hran | ⟨rfl, -⟩ | ⟨_, _, _, p, -, -, hheeded⟩
  · exact hran.armed
  · exact h
  · exact hheeded.armed

theorem armed_run (hrun : (orderly e).Run (.new k) ls c) : c.Armed :=
  hrun.invariant (Client.clear_new k).armed fun _ _ _ => armed_step

theorem config_step (h : c.Armed) (hs : (orderly e).step c l c') :
    c'.toClientConfig = c.toClientConfig := by
  rcases client_step h hs with hran | ⟨rfl, -⟩ | ⟨_, _, _, p, -, -, hheeded⟩
  · exact hran.config
  · rfl
  · exact hheeded.config

/-- The client stays set up as it was. -/
theorem config_run (hrun : (orderly e).Run (.new k) ls c) : c.toClientConfig = k := by
  have hinv : c.Armed ∧ c.toClientConfig = k :=
    @Lts.Run.invariant _ _ (orderly e) (fun c => c.Armed ∧ c.toClientConfig = k) _ _ _ hrun
      ⟨(Client.clear_new k).armed, rfl⟩ fun _ _ _ h hs => ⟨armed_step h.1 hs,
        (config_step h.1 hs).trans h.2⟩
  exact hinv.2

/-- A call in which sockets can be opened and the client does not say that it has no lease. -/
def Untroubled (l : Call) : Prop := l.env.sock = true ∧ Act.noLease ∉ l.out

/-- A client that is started, and offered an address. -/
theorem offered_run (e : Endian) (k : ClientConfig) : ∃ (c₁ : Client) (p : Packet) (l m : Call),
    (orderly e).step (.new k) l c₁ ∧ l.event = .start .null ∧ Untroubled l ∧
    c₁.Armed ∧ c₁.listenMode = .l2 ∧ p.mac = c₁.macAddress ∧ e.raw p.xid = c₁.xid ∧
    (orderly e).step c₁ m
      ((c₁.afterOffer Config.lan.serverNip 0xc0a84d64).addTimeout REQUEST_TIMEOUT .requestTimeout) ∧
    (∃ data stale behind, m.event = .frame data stale behind) ∧ Untroubled m := by
  have hidle : (Client.new k).Idle := ⟨Client.clear_new k, rfl⟩
  obtain ⟨c₁, p, hstart⟩ := Client.idle_sends (e := e) (v := ⟨0, 0, true⟩) hidle rfl
  obtain ⟨⟨harmed, hstate, hmode, hconf⟩, hmac, hxid, -⟩ :=
    discover_heard .lan (a := ⟨0, datagram p, fun _ => 0, false⟩) hidle rfl hstart rfl
  have hmine : p.mac = c₁.macAddress := hmac.trans (congrArg ClientConfig.macAddress hconf).symm
  have hown : e.raw p.xid = c₁.xid := by
    rw [hxid, Endian.raw_raw]
  have hoffer := offer_heeded .little .lan (y := 0xc0a84d64) hstate hmode hmine hown
    ⟨0, 0, true⟩ 0xc0a84d01 0xffffffff 67 .zero fun _ => 0
  obtain ⟨q, hq, -⟩ := posted_select e (c₁.afterOffer Config.lan.serverNip 0xc0a84d64) ⟨0, 0, true⟩
  rw [hq] at hoffer
  exact ⟨c₁, p, ⟨⟨0, 0, true⟩, .start .null, [.raw p]⟩,
    ⟨⟨0, 0, true⟩, .frame _ .zero fun _ => 0, [.raw q]⟩,
    ⟨fun _ _ => hidle, hstart⟩, rfl, ⟨rfl, by simp⟩, harmed, hmode, hmine, hown,
    ⟨Client.orderly_frame, hoffer⟩, ⟨_, _, _, rfl⟩, ⟨rfl, by simp⟩⟩

theorem addTimeout_new (c : Client) (n : UInt32) (f : Callback) :
    (c.addTimeout n f).sources (c.addTimeout n f).timeout = some (f, n) := if_pos rfl

theorem addTimeout_old {f : Callback} (h : i ≠ c.nextSource) :
    (c.addTimeout n f).sources i = c.sources i := if_neg h

/-- A first start, of a client that listens already, adds a timeout. -/
theorem start_adds (e : Endian) (v : Env) (hfirst : c.retryTimes = 0) (hmode : c.listenMode = .l2) :
    ∃ (d : Client) (out : List Act), d.sources = c.sources ∧ d.nextSource = c.nextSource ∧
      c.gDhcpClientStart e v .null = .ok (d.addTimeout DISCOVER_TIMEOUT .discoverTimeout, out) := by
  have hswitch :
      Client.switchListeningMode { c with assignedIp := none, state := .initSelecting } v .l2 =
      ({ c with assignedIp := none, state := .initSelecting }, true) := if_pos hmode
  unfold Client.gDhcpClientStart
  rw [if_neg (by rw [hfirst]; decide), if_pos hfirst, hswitch]
  exact ⟨{ c with assignedIp := none, state := .initSelecting, xid := v.rand, start := v.now }, _,
    rfl, rfl, rfl⟩

/-- **A client must be idle when it is started.**  A second start leaves two timeouts, and the
client knows of one. -/
theorem start_twice (h : c.Idle) {v v' : Env} (hsock : v.sock = true) {out out' : List Act}
    (hrun : c.gDhcpClientStart e v .null = .ok (c₁, out))
    (hrun' : c₁.gDhcpClientStart e v' .null = .ok (c₂, out')) :
    c₂.sources c₂.timeout ≠ none ∧ ∃ i, i ≠ c₂.timeout ∧ c₂.sources i ≠ none := by
  obtain ⟨d, addr, -, -, hmode, hfirst, -, heq⟩ := Client.idle_discover h hsock hrun
  obtain ⟨rfl, -⟩ := Prod.mk.inj heq
  obtain ⟨d', out'', hsources, hnext, hagain⟩ :=
    @start_adds (d.addTimeout DISCOVER_TIMEOUT .discoverTimeout) e v' hfirst hmode
  obtain ⟨rfl, -⟩ := Prod.mk.inj (Except.ok.inj (hagain.symm.trans hrun'))
  have hnew : d'.nextSource = d.nextSource + 1 := hnext
  have hold : d.nextSource ≠ d'.nextSource := by omega
  refine ⟨?_, d.nextSource, hold, ?_⟩
  · rw [addTimeout_new]
    exact Option.some_ne_none _
  · rw [addTimeout_old hold, hsources]
    exact (addTimeout_new d _ _).trans_ne (Option.some_ne_none _)

/-! ### A renewal that is not answered -/

/-- The client is neither started nor stopped, and no packet of its own transaction reaches it. -/
def Unanswered (e : Endian) (c : Client) (l : Call) : Prop :=
  (∃ i, l.event = .fire i) ∨ ∃ data stale behind, l.event = .frame data stale behind ∧
    ∀ p, c.Hears e data stale behind p → c.checkPackageOwner e p = false

/-- A packet of another transaction changes nothing. -/
theorem frame_ignored (h : c.Armed) {data : List UInt8} {stale : Packet} {behind : Nat → UInt8}
    {v : Env} {out : List Act} (hrun : c.listenerEvent e v data stale behind = .ok (c', out))
    (hother : ∀ p, c.Hears e data stale behind p → c.checkPackageOwner e p = false) :
    c' = c ∧ out = [] := by
  rcases Client.listenerEvent_spec h hrun with hsame | ⟨p, hears, hheeded⟩
  · exact hsame
  · have howner := hheeded.owner
    rw [hother p hears] at howner
    cases howner

/-- A client without timeouts waits for ever, unless it is called or answered. -/
theorem clear_run (h : c.Clear) (hrun : (client e).Run c ls c') (hls : ∀ l ∈ ls, Unanswered e c l) :
    c' = c ∧ ∀ l ∈ ls, l.out = [] := by
  induction hrun with
  | nil => exact ⟨rfl, nofun⟩
  | @cons c d c' l ls hs _ ih =>
      obtain ⟨v, event, out⟩ := l
      have hsame : d = c ∧ out = [] := by
        rcases hls _ List.mem_cons_self with ⟨i, hi⟩ | ⟨data, stale, behind, hframe, hother⟩
        · cases hi
          exact absurd (h.none i) hs.1
        · cases hframe
          exact frame_ignored h.armed hs hother
      obtain ⟨rfl, rfl⟩ := hsame
      obtain ⟨hend, hout⟩ := ih h fun m hm => hls m (List.mem_cons_of_mem _ hm)
      refine ⟨hend, fun m hm => ?_⟩
      rcases List.mem_cons.mp hm with rfl | hm
      · rfl
      · exact hout m hm

theorem startRenewTimeout_long {v : Env} (h : ¬ c.leaseSeconds >>> 1 ≤ 60) (hsock : v.sock = true) :
    ∃ (d : Client) (out : List Act), d.listenMode = .l3 ∧
      c.startRenewTimeout e v = (d.addTimeout REQUEST_TIMEOUT .startRenewRequestTimeout, out) := by
  obtain ⟨m, ready, heq, hready, hdeaf⟩ :=
    Client.switch_eq (Client.halveLease { c with state := .renewing }) v .l3
  have hmode : m = .l3 := by
    rcases ready with - | -
    · rw [(hdeaf rfl).2] at hsock
      cases hsock
    · exact hready rfl
  unfold Client.startRenewTimeout
  simp only [heq]
  rw [if_neg (show ¬ (Client.halveLease { c with state := .renewing }).leaseSeconds ≤ 60 from h)]
  obtain ⟨sources, hcancel⟩ :=
    Client.cancel_rest { Client.halveLease { c with state := .renewing } with listenMode := m }
  exact ⟨_, _, by rw [hcancel]; exact hmode, rfl⟩

/-- A client can come to renew its lease. -/
theorem renewing_run (e : Endian) (k : ClientConfig) : ∃ ls c i, (orderly e).Run (.new k) ls c ∧
    c.sources i = some (.startRenewRequestTimeout, REQUEST_TIMEOUT) ∧ c.listenMode = .l3 := by
  obtain ⟨c₁, p, l, m, hs, -, -, harmed, hmode, hmine, hown, hs', -, -⟩ := offered_run e k
  obtain ⟨c₃, hack, harmed₃, -, -, hlease, hsource⟩ := ack_heeded .little .lan (y := 0xc0a84d64)
    (harmed.afterOffer Config.lan.serverNip 0xc0a84d64) rfl hmode hmine hown
    ⟨1, 0, true⟩ 0xc0a84d01 0xffffffff 67 .zero fun _ => 0
  have hlong : ¬ (c₃.sourceRemove c₃.timeout).leaseSeconds >>> 1 ≤ 60 := by
    rw [show (c₃.sourceRemove c₃.timeout).leaseSeconds = c₃.leaseSeconds from rfl, hlease]
    decide
  obtain ⟨d, out, hl3, hrenew⟩ := startRenewTimeout_long (e := e) (v := ⟨1800, 0, true⟩) hlong rfl
  have hfire : c₃.fire e ⟨1800, 0, true⟩ c₃.timeout =
      .ok (d.addTimeout REQUEST_TIMEOUT .startRenewRequestTimeout, out) := by
    simp only [Client.fire, hsource, Client.call, hrenew]
  have hacked : (orderly e).step _ ⟨⟨1, 0, true⟩, .frame _ .zero fun _ => 0, _⟩ c₃ :=
    ⟨Client.orderly_frame, hack⟩
  have hfired : (orderly e).step c₃ ⟨⟨1800, 0, true⟩, .fire c₃.timeout, out⟩
      (d.addTimeout REQUEST_TIMEOUT .startRenewRequestTimeout) :=
    ⟨Client.orderly_fire, by rw [hsource]; exact Option.some_ne_none _, hfire⟩
  exact ⟨_, _, d.nextSource, .cons hs (.cons hs' (.cons hacked (.one hfired))), if_pos rfl, hl3⟩

/-- **A renewal that is not answered** is not tried again.  Once its timeout has passed, and as long
as no answer comes late, the client sends nothing any more and keeps its address, whatever timeouts
were to come: it does not rebind, and does not start over. -/
theorem renewal_abandoned (hrun : (orderly e).Run (.new k) ls c)
    (hi : c.sources i = some (.startRenewRequestTimeout, n)) (hevent : l.event = .fire i)
    (hs : (client e).step c l c₁) (hrun' : (client e).Run c₁ ls' c₂)
    (hls : ∀ m ∈ ls', Unanswered e c₁ m) :
    l.out = [.noLease] ∧ c₂ = c₁ ∧ c₂.state = .renewing ∧ c₂.assignedIp = c.assignedIp ∧
    ∀ m ∈ ls', m.out = [] := by
  have harmed := armed_run hrun
  obtain ⟨v, event, out⟩ := l
  cases hevent
  have hfire : c₁ = c.sourceRemove i ∧ out = [.noLease] := by
    have hrun := hs.2
    simp only [Client.fire, hi, Client.call, Client.startRenewRequestTimeout] at hrun
    obtain ⟨rfl, rfl⟩ := Prod.mk.inj (Except.ok.inj hrun)
    exact ⟨rfl, rfl⟩
  obtain ⟨rfl, rfl⟩ := hfire
  obtain ⟨rfl, hout⟩ := clear_run (harmed.fired hi) hrun' hls
  exact ⟨rfl, rfl, harmed.due i _ n hi, rfl, hout⟩

/-- A datagram that is not for the client changes nothing. -/
theorem datagram_ignored (e : Endian) (v : Env) (hmode : c.listenMode = .l3) {p : Packet}
    (hmagic : p.cookie = DHCP_MAGIC) (hop : p.op ≠ BOOTREQUEST) (hmac : p.mac ≠ c.macAddress)
    (stale : Packet) (behind : Nat → UInt8) :
    c.listenerEvent e v (datagram p) stale behind = .ok (c, []) ∧
      ∀ q, c.Hears e (datagram p) stale behind q → c.checkPackageOwner e q = false := by
  have hother : ∀ options, c.checkPackageOwner e { p with options := options } = false :=
    fun options => decide_eq_false fun h => hmac h.2.2
  refine ⟨?_, ?_⟩
  · unfold Client.listenerEvent
    simp only [hmode, recv_reply hmagic hop, bind, Except.bind]
    unfold Client.received
    rw [if_pos (by rw [hother]; exact Bool.false_ne_true)]
  · rintro q (⟨hl2, -⟩ | ⟨-, hrecv⟩)
    · rw [hmode] at hl2
      cases hl2
    · rw [recv_reply hmagic hop] at hrecv
      cases hrecv
      exact hother _

/-- A client whose renewal is not answered, while another client's is. -/
theorem renewal_abandoned_once : ∃ ls c l c₁ m c₂,
    (orderly .little).Run (.new (.plain ⟨[2, 0, 0, 0, 0, 1], rfl⟩)) ls c ∧
    (client .little).step c l c₁ ∧ (client .little).Run c₁ [m, m] c₂ ∧
    (∃ data stale behind p, m.event = .frame data stale behind ∧
      c₁.Hears .little data stale behind p) ∧
    l.out = [.noLease] ∧ c₂.state = .renewing ∧ c₂.assignedIp = c.assignedIp := by
  obtain ⟨ls, c, i, hrun, hi, hmode⟩ := renewing_run .little (.plain ⟨[2, 0, 0, 0, 0, 1], rfl⟩)
  have hs : (client .little).step c ⟨⟨1803, 0, true⟩, .fire i, [.noLease]⟩ (c.sourceRemove i) := by
    refine ⟨by rw [hi]; exact Option.some_ne_none _, ?_⟩
    simp only [Client.fire, hi, Client.call, Client.startRenewRequestTimeout]
  have hmac : (reply .zero DHCPACK 0 []).mac ≠ (c.sourceRemove i).macAddress := by
    rw [show (c.sourceRemove i).macAddress = c.toClientConfig.macAddress from rfl, config_run hrun]
    decide
  have hmagic : (reply .zero DHCPACK 0 []).cookie = DHCP_MAGIC := rfl
  obtain ⟨hignored, hother⟩ :=
    datagram_ignored .little ⟨1804, 0, true⟩ (c := c.sourceRemove i) hmode hmagic
    (show BOOTREPLY ≠ BOOTREQUEST by decide) hmac .zero fun _ => 0
  have hrest : (client .little).Run (c.sourceRemove i)
      [⟨⟨1804, 0, true⟩, .frame (datagram (reply .zero DHCPACK 0 [])) .zero fun _ => 0, []⟩,
        ⟨⟨1804, 0, true⟩, .frame (datagram (reply .zero DHCPACK 0 [])) .zero fun _ => 0, []⟩]
        (c.sourceRemove i) :=
    .cons hignored (.one hignored)
  obtain ⟨hout, -, hstate, haddr, -⟩ := renewal_abandoned hrun hi rfl hs hrest (by
    intro m hm
    obtain rfl : m = _ := by simpa using hm
    exact Or.inr ⟨_, _, _, rfl, hother⟩)
  exact ⟨ls, c, _, _, _, _, hrun, hs, hrest,
    ⟨_, _, _, _, rfl, Or.inr ⟨hmode, recv_reply hmagic (show BOOTREPLY ≠ BOOTREQUEST by decide) _⟩⟩,
    hout, hstate, haddr⟩

end OpenWfd.Dhcp
