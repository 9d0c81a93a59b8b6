import OpenWfd.Dhcp.Requests

/-!
# Dhcp — Timeouts

The states of the client and its timeouts.  At any time at most one timeout is pending, the one the
client has written down, and its function is one of the state's (`Armed`).  `Turn` lists what a
timeout, a start or a stop may do, and `fire_spec`, `idle_start` and `stop_spec` say that nothing
else happens.
-/

namespace OpenWfd.Dhcp

/-- The packet that is sent. -/
def Act.packet : Act → Option Packet
  | .raw p        => some p
  | .kernel p _ _ => some p
  | _             => none

/-- The packets among what a client puts out. -/
def packets (out : List Act) : List Packet := out.filterMap Act.packet

namespace Client

variable {c c' : Client} {e : Endian} {v : Env} {f : Callback} {seconds : UInt32} {i : Nat}

/-- The states in which a function may be due. -/
def Due (s : ClientState) : Callback → Prop
  | .discoverTimeout          => s = .initSelecting
  | .requestTimeout           => s = .requesting
  | .startRenewTimeout        => s = .bound
  | .startRenewRequestTimeout => s = .renewing
  | .startReboundTimeout      => s = .rebinding
  | .restartDhcpTimeout       => s = .requesting ∨ s = .renewing ∨ s = .rebinding

/-- At most one timeout is pending, which the client has written down, and it fits the state. -/
structure Armed (c : Client) : Prop where
  only : ∀ i x, c.sources i = some x → i = c.timeout
  zero : c.sources 0 = none
  behind : c.timeout < c.nextSource
  due : ∀ i f n, c.sources i = some (f, n) → Due c.state f

/-- No timeout is pending. -/
structure Clear (c : Client) : Prop where
  none : ∀ i, c.sources i = Option.none
  behind : c.timeout < c.nextSource

/-- A restart is pending. -/
def Restarting (c : Client) : Prop := ∃ i n, c.sources i = some (.restartDhcpTimeout, n)

theorem clear_new (k : ClientConfig) : (new k).Clear := ⟨fun _ => rfl, Nat.zero_lt_one⟩

theorem Clear.armed (h : c.Clear) : c.Armed := by
  refine ⟨fun i x hx => ?_, h.none 0, h.behind, fun i f n hx => ?_⟩
  · rw [h.none i] at hx
    cases hx
  · rw [h.none i] at hx
    cases hx

theorem Clear.not_restarting (h : c.Clear) : ¬ c.Restarting := by
  rintro ⟨i, n, hi⟩
  rw [h.none i] at hi
  cases hi

/-- Removing the timeout that is written down leaves none. -/
theorem Armed.removed (h : c.Armed) : (c.sourceRemove c.timeout).Clear := by
  refine ⟨fun i => ?_, h.behind⟩
  show (if i = c.timeout then Option.none else c.sources i) = Option.none
  split_ifs with hi
  · rfl
  · rcases hx : c.sources i with - | x
    · rfl
    · exact absurd (h.only i x hx) hi

theorem Armed.cancel (h : c.Armed) : c.cancel.Clear := by
  unfold Client.cancel
  split_ifs with hpos
  · exact h.removed
  · have h₀ : c.timeout = 0 := by omega
    refine ⟨fun i => ?_, h.behind⟩
    rcases hx : c.sources i with - | x
    · rfl
    · have hi := h.only i x hx
      rw [hi, h₀, h.zero] at hx
      cases hx

theorem cancel_rest (c : Client) : ∃ sources, c.cancel = { c with sources := sources } := by
  unfold Client.cancel
  split_ifs
  · exact ⟨_, rfl⟩
  · exact ⟨c.sources, rfl⟩

theorem Armed.fired (h : c.Armed) {x : Callback × UInt32} (hi : c.sources i = some x) :
    (c.sourceRemove i).Clear := by
  rw [h.only i x hi]
  exact h.removed

theorem Clear.addTimeout (h : c.Clear) (hd : Due c.state f) : (c.addTimeout seconds f).Armed := by
  have hsource : ∀ i x, (c.addTimeout seconds f).sources i = some x → i = c.nextSource ∧
      x = (f, seconds) := by
    intro i x hx
    have hx' : (if i = c.nextSource then some (f, seconds) else c.sources i) = some x := hx
    rw [h.none i] at hx'
    split_ifs at hx' with hi
    cases hx'
    exact ⟨hi, rfl⟩
  refine ⟨fun i x hx => (hsource i x hx).1, ?_, Nat.lt_succ_self _, fun i g n hx => ?_⟩
  · show (if 0 = c.nextSource then some (f, seconds) else c.sources 0) = Option.none
    rw [if_neg (Nat.ne_of_lt (Nat.lt_of_le_of_lt (Nat.zero_le _) h.behind)), h.none]
  · cases (hsource i _ hx).2
    exact hd

theorem Clear.addTimeout_restarting (h : c.Clear) :
    (c.addTimeout seconds f).Restarting ↔ f = .restartDhcpTimeout := by
  constructor
  · rintro ⟨i, n, hx⟩
    have hx' : (if i = c.nextSource then some (f, seconds) else c.sources i) =
        some (.restartDhcpTimeout, n) := hx
    rw [h.none i] at hx'
    split_ifs at hx'
    exact congrArg Prod.fst (Option.some.inj hx')
  · rintro rfl
    exact ⟨c.nextSource, seconds, if_pos rfl⟩

/-- Only the way the client listens changes: to what is asked for, or to none if no socket can be
opened. -/
theorem switch_eq (c : Client) (v : Env) (m : ListenMode) :
    ∃ m' ready, c.switchListeningMode v m = ({ c with listenMode := m' }, ready) ∧
      (ready = true → m' = m) ∧ (ready = false → m' = .none ∧ v.sock = false) := by
  unfold switchListeningMode
  dsimp only
  split_ifs with h₁ h₂ h₃
  · exact ⟨m, true, by rw [← h₁], fun _ => rfl, nofun⟩
  · exact ⟨.none, true, rfl, fun _ => h₂.symm, nofun⟩
  · exact ⟨m, true, rfl, fun _ => rfl, nofun⟩
  · exact ⟨.none, false, rfl, nofun, fun _ => ⟨rfl, eq_false_of_ne_true h₃⟩⟩

/-- The two clients have the same timeouts, and are as far with their address. -/
structure Alike (c d : Client) : Prop where
  sources : d.sources = c.sources
  timeout : d.timeout = c.timeout
  nextSource : d.nextSource = c.nextSource
  config : d.toClientConfig = c.toClientConfig
  state : d.state = c.state
  xid : d.xid = c.xid
  address : d.assignedIp = c.assignedIp

theorem switch_alike (c : Client) (v : Env) (m : ListenMode) :
    Alike c (c.switchListeningMode v m).1 := by
  obtain ⟨m', ready, heq, -⟩ := switch_eq c v m
  rw [heq]
  exact ⟨rfl, rfl, rfl, rfl, rfl, rfl, rfl⟩

theorem Alike.halve {d : Client} (h : Alike c d) : Alike c d.halveLease :=
  ⟨h.sources, h.timeout, h.nextSource, h.config, h.state, h.xid, h.address⟩

theorem Alike.clear {d : Client} (h : Alike c d) (hc : c.Clear) : d.Clear := by
  refine ⟨fun i => ?_, ?_⟩
  · rw [h.sources]
    exact hc.none i
  · rw [h.timeout, h.nextSource]
    exact hc.behind

/-! ### What a timeout does -/

/-- A timeout is pending. -/
def Pending (c : Client) : Prop := ∃ i x, c.sources i = some x

/-- Every packet that goes out is of this type and transaction. -/
def Sends (k : Mac) (type : UInt8) (xid : UInt32) (out : List Act) : Prop :=
  ∀ p ∈ packets out, Says k type xid p

theorem pending_added (c : Client) (seconds : UInt32) (f : Callback) :
    (c.addTimeout seconds f).Pending :=
  ⟨c.nextSource, (f, seconds), if_pos rfl⟩

theorem Sends.raw {k : Mac} {type : UInt8} {xid : UInt32} {p : Packet} (h : Says k type xid p) :
    Sends k type xid [.raw p] := by
  intro q hq
  rw [List.mem_singleton.mp hq]
  exact h

/-- What a timeout, a start or a stop may do: the client asks for its address, starts over, or
stops.  When it starts over, it does so under a new transaction, or without hearing anything, or
else it goes on with its last one. -/
inductive Turn (e : Endian) (v : Env) (c c' : Client) (out : List Act) : Prop where
  | ask (state : c.state = .requesting ∧ c'.state = .requesting ∨
      Holding c.state ∧ Holding c'.state)
      (xid : c'.xid = c.xid) (address : c'.assignedIp = c.assignedIp)
      (sends : Sends c.macAddress DHCPREQUEST (e.raw c.xid) out)
  | discover (state : c'.state = .initSelecting)
      (origin : c'.xid = v.rand ∨ c'.listenMode = .none ∨
        c'.xid = c.xid ∧ (c.state = .initSelecting ∧ c'.listenMode = c.listenMode ∨ c.Restarting))
      (sends : Sends c.macAddress DHCPDISCOVER (e.raw c'.xid) out)
  | stop (state : c'.state = .released) (sends : Sends c.macAddress DHCPRELEASE (e.raw v.rand) out)

/-- What holds after it. -/
structure Ran (e : Endian) (v : Env) (c c' : Client) (out : List Act) : Prop where
  armed : c'.Armed
  config : c'.toClientConfig = c.toClientConfig
  not_restarting : ¬ c'.Restarting
  pending : c'.Pending ∨ c'.state = .released ∨ .noLease ∈ out ∨ v.sock = false
  turn : Turn e v c c' out

/-- **`start_request`.** -/
structure Asked (e : Endian) (c c' : Client) (out : List Act) : Prop where
  armed : c'.Armed
  config : c'.toClientConfig = c.toClientConfig
  not_restarting : ¬ c'.Restarting
  pending : c'.Pending ∨ .noLease ∈ out
  state : c'.state = .requesting
  xid : c'.xid = c.xid
  address : c'.assignedIp = c.assignedIp
  sends : Sends c.macAddress DHCPREQUEST (e.raw c.xid) out
  quiet : .leaseAvailable ∉ out

theorem startRequest_spec (h : c.Clear) (hs : c.state = .requesting) (e : Endian) (v : Env) :
    Asked e c (c.startRequest e v).1 (c.startRequest e v).2 := by
  have hask : ∀ d : Client, d.Clear → d.toClientConfig = c.toClientConfig → d.state = .requesting →
      d.xid = c.xid → d.assignedIp = c.assignedIp →
      Asked e c (d.addTimeout REQUEST_TIMEOUT .requestTimeout) [d.sendSelect e v] := by
    intro d hd hconf hstate hxid haddr
    obtain ⟨p, heq, hp⟩ := says_select e d v
    rw [heq]
    rw [hxid, show d.macAddress = c.macAddress from congrArg ClientConfig.macAddress hconf] at hp
    refine ⟨hd.addTimeout hstate, hconf, ?_, Or.inl (pending_added _ _ _), hstate, hxid, haddr,
      .raw hp, by simp⟩
    rw [hd.addTimeout_restarting]
    decide
  unfold startRequest
  split_ifs with hmax hfirst
  · exact ⟨h.armed, rfl, h.not_restarting, Or.inr List.mem_cons_self, hs, rfl, rfl, nofun, by simp⟩
  · obtain ⟨m, ready, heq, -, -⟩ := switch_eq { c with state := .requesting } v .l2
    rw [heq]
    exact hask _ ⟨h.none, h.behind⟩ rfl rfl rfl rfl
  · exact hask c h rfl hs rfl rfl

/-- **`g_dhcp_client_start`.** -/
structure Started (e : Endian) (v : Env) (c c' : Client) (out : List Act) : Prop where
  armed : c'.Armed
  config : c'.toClientConfig = c.toClientConfig
  not_restarting : ¬ c'.Restarting
  pending : c'.Pending ∨ .noLease ∈ out ∨ v.sock = false
  state : c'.state = .initSelecting
  origin : c'.xid = v.rand ∨ c'.listenMode = .none ∨
    c.retryTimes ≠ 0 ∧ c'.xid = c.xid ∧ c'.listenMode = c.listenMode
  sends : Sends c.macAddress DHCPDISCOVER (e.raw c'.xid) out

theorem started_discover {d : Client} (hd : d.Clear) (hconf : d.toClientConfig = c.toClientConfig)
    (hstate : d.state = .initSelecting)
    (horigin : d.xid = v.rand ∨ d.listenMode = .none ∨ c.retryTimes ≠ 0 ∧ d.xid = c.xid ∧
      d.listenMode = c.listenMode)
    (addr : UInt32) : Started e v c (d.discover e v addr).1 (d.discover e v addr).2 := by
  obtain ⟨p, heq, hp⟩ := says_discover e d v addr
  rw [show d.macAddress = c.macAddress from congrArg ClientConfig.macAddress hconf] at hp
  unfold discover
  rw [heq]
  refine ⟨hd.addTimeout hstate, hconf, ?_, Or.inl (pending_added _ _ _), hstate, horigin, .raw hp⟩
  rw [hd.addTimeout_restarting]
  decide

theorem started_last {d : Client} (hd : d.Clear) (hconf : d.toClientConfig = c.toClientConfig)
    (hstate : d.state = .initSelecting)
    (horigin : d.xid = v.rand ∨ d.listenMode = .none ∨ c.retryTimes ≠ 0 ∧ d.xid = c.xid ∧
      d.listenMode = c.listenMode)
    {last : LastAddress} {out : List Act} (h : d.discoverLast e v last = .ok (c', out)) :
    Started e v c c' out := by
  have hstart := started_discover (e := e) hd hconf hstate horigin 0
  rcases last with - | addr | -
  · cases h
    exact hstart
  · unfold discoverLast at h
    dsimp only at h
    split_ifs at h
    · cases h
      exact hstart
    · cases h
      exact started_discover (d := { d with lastAddress := some addr })
        ⟨hd.none, hd.behind⟩ hconf hstate horigin addr
  · unfold discoverLast at h
    rcases hlast : d.lastAddress with - | addr
    · rw [hlast] at h
      cases h
      exact hstart
    · simp only [hlast] at h
      split_ifs at h
      cases h
      exact hstart

theorem start_spec (h : c.Clear) (hs : c.state = .initSelecting ∨ c.retryTimes = 0)
    {last : LastAddress} {out : List Act} (hrun : c.gDhcpClientStart e v last = .ok (c', out)) :
    Started e v c c' out := by
  unfold gDhcpClientStart at hrun
  by_cases hmax : c.retryTimes = DISCOVER_RETRIES
  · rw [if_pos hmax] at hrun
    cases hrun
    have hne : c.retryTimes ≠ 0 := by
      rw [hmax]
      decide
    exact ⟨⟨h.armed.only, h.armed.zero, h.armed.behind, h.armed.due⟩, rfl, h.not_restarting,
      Or.inr (Or.inl List.mem_cons_self), hs.resolve_right hne,
      Or.inr (Or.inr ⟨hne, rfl, rfl⟩), nofun⟩
  rw [if_neg hmax] at hrun
  by_cases hfirst : c.retryTimes = 0
  · obtain ⟨m, ready, heq, -, hdeaf⟩ :=
      switch_eq { c with assignedIp := none, state := .initSelecting } v .l2
    simp only [if_pos hfirst, heq] at hrun
    split_ifs at hrun with hready
    · refine started_last ?_ ?_ ?_ (Or.inl ?_) hrun
      · exact ⟨h.none, h.behind⟩
      · rfl
      · rfl
      · rfl
    · cases hrun
      obtain ⟨hm, hsock⟩ := hdeaf (eq_false_of_ne_true hready)
      refine ⟨Clear.armed ⟨h.none, h.behind⟩, rfl, Clear.not_restarting ⟨h.none, h.behind⟩,
        Or.inr (Or.inr hsock), rfl, Or.inr (Or.inl hm), nofun⟩
  · rw [if_neg hfirst] at hrun
    exact started_last h rfl (hs.resolve_right hfirst) (Or.inr (Or.inr ⟨hfirst, rfl, rfl⟩)) hrun

theorem Armed.stopped (h : c.Armed) :
    (if c.timeout > 0 then { c.sourceRemove c.timeout with timeout := 0 } else c).Clear := by
  have hcancel := h.cancel
  unfold Client.cancel at hcancel
  by_cases hpos : c.timeout > 0
  · rw [if_pos hpos] at hcancel ⊢
    exact ⟨hcancel.none, Nat.zero_lt_of_lt h.behind⟩
  · rwa [if_neg hpos] at hcancel ⊢

/-- **`restart_dhcp`.** -/
structure Restarted (e : Endian) (v : Env) (retryTimes : UInt8) (c c' : Client) (out : List Act) :
    Prop where
  armed : c'.Armed
  config : c'.toClientConfig = c.toClientConfig
  not_restarting : ¬ c'.Restarting
  pending : c'.Pending ∨ .noLease ∈ out ∨ v.sock = false
  state : c'.state = .initSelecting
  origin : c'.xid = v.rand ∨ c'.listenMode = .none ∨ retryTimes ≠ 0 ∧ c'.xid = c.xid
  sends : Sends c.macAddress DHCPDISCOVER (e.raw c'.xid) out

theorem restart_spec (h : c.Armed) {retryTimes : UInt8} {out : List Act}
    (hrun : c.restartDhcp e v retryTimes = .ok (c', out)) : Restarted e v retryTimes c c' out := by
  have hclear := h.stopped
  unfold restartDhcp at hrun
  generalize hd : (if c.timeout > 0 then { c.sourceRemove c.timeout with timeout := 0 } else c) =
    d at hclear hrun
  have hkept : d.toClientConfig = c.toClientConfig ∧ d.xid = c.xid := by
    rw [← hd]
    split_ifs
    · exact ⟨rfl, rfl⟩
    · exact ⟨rfl, rfl⟩
  obtain ⟨hconf, hxid⟩ := hkept
  obtain ⟨m, ready, heq, -, -⟩ :=
    switch_eq { d with retryTimes := retryTimes, requestedIp := 0, state := .initSelecting } v .l2
  dsimp only at hrun
  rw [heq] at hrun
  have hs := start_spec (c := { d with
    retryTimes := retryTimes, requestedIp := 0, state := .initSelecting, listenMode := m })
    ⟨hclear.none, hclear.behind⟩ (Or.inl rfl) hrun
  have hmac : d.macAddress = c.macAddress := congrArg ClientConfig.macAddress hconf
  refine ⟨hs.armed, hs.config.trans hconf, hs.not_restarting, hs.pending, hs.state, ?_,
    hmac ▸ hs.sends⟩
  rcases hs.origin with hnew | hdeaf | ⟨hne, hsame, -⟩
  · exact Or.inl hnew
  · exact Or.inr (Or.inl hdeaf)
  · exact Or.inr (Or.inr ⟨hne, hsame.trans hxid⟩)

/-! ### Each of them -/

variable {out : List Act} {n : UInt32}

theorem ran_discoverTimeout (h : c.Armed) (hi : c.sources i = some (.discoverTimeout, n))
    (hrun : (c.sourceRemove i).discoverTimeout e v = .ok (c', out)) : Ran e v c c' out := by
  have hstate : c.state = .initSelecting := h.due i _ n hi
  have hclear := h.fired hi
  have hs := start_spec (c := { c.sourceRemove i with retryTimes := c.retryTimes + 1 })
    ⟨hclear.none, hclear.behind⟩ (Or.inl hstate) hrun
  refine ⟨hs.armed, hs.config, hs.not_restarting, hs.pending.imp_right Or.inr,
    .discover hs.state ?_ hs.sends⟩
  · rcases hs.origin with hnew | hdeaf | ⟨-, hsame, hlisten⟩
    · exact Or.inl hnew
    · exact Or.inr (Or.inl hdeaf)
    · exact Or.inr (Or.inr ⟨hsame, Or.inl ⟨hstate, hlisten⟩⟩)

theorem ran_requestTimeout (h : c.Armed) (hi : c.sources i = some (.requestTimeout, n)) :
    Ran e v c ((c.sourceRemove i).requestTimeout e v).1
      ((c.sourceRemove i).requestTimeout e v).2 := by
  have hstate : c.state = .requesting := h.due i _ n hi
  have hclear := h.fired hi
  have hs := startRequest_spec (c := { c.sourceRemove i with retryTimes := c.retryTimes + 1 })
    ⟨hclear.none, hclear.behind⟩ hstate e v
  exact ⟨hs.armed, hs.config, hs.not_restarting,
    hs.pending.imp_right fun hno => Or.inr (Or.inl hno),
    .ask (Or.inl ⟨hstate, hs.state⟩) hs.xid hs.address hs.sends⟩

/-- A client that has an address keeps it, waits, and may ask for it again. -/
theorem ran_holding (hc : Holding c.state) {d : Client} (hd : d.Clear)
    (hconf : d.toClientConfig = c.toClientConfig) (hs : Holding d.state) (hxid : d.xid = c.xid)
    (haddr : d.assignedIp = c.assignedIp) (hdue : Due d.state f) (hf : f ≠ .restartDhcpTimeout)
    (hsends : Sends c.macAddress DHCPREQUEST (e.raw c.xid) out) :
    Ran e v c (d.addTimeout seconds f) out := by
  refine ⟨hd.addTimeout hdue, hconf, ?_, Or.inl (pending_added _ _ _),
    .ask (Or.inr ⟨hc, hs⟩) hxid haddr hsends⟩
  rwa [hd.addTimeout_restarting]

theorem Clear.cancel (h : c.Clear) : c.cancel = c := by
  unfold Client.cancel
  split_ifs
  · have hsources : (fun i => if i = c.timeout then Option.none else c.sources i) = c.sources := by
      funext i
      split_ifs
      · exact (h.none i).symm
      · rfl
    unfold sourceRemove
    rw [hsources]
  · rfl

theorem ran_startRenewTimeout (h : c.Armed) (hi : c.sources i = some (.startRenewTimeout, n)) :
    Ran e v c ((c.sourceRemove i).startRenewTimeout e v).1
      ((c.sourceRemove i).startRenewTimeout e v).2 := by
  have hhold : Holding c.state := Or.inl (h.due i _ n hi)
  have hclear := h.fired hi
  have hswitch := switch_alike { c.sourceRemove i with state := .renewing }.halveLease v .l3
  have hd := hswitch.clear ⟨hclear.none, hclear.behind⟩
  unfold startRenewTimeout
  dsimp only at hswitch ⊢
  generalize (switchListeningMode _ v .l3).1 = d at hswitch hd ⊢
  split_ifs
  · refine ran_holding hhold (d := { d with state := .rebinding })
      ⟨hd.none, hd.behind⟩ hswitch.config ?_ hswitch.xid
      hswitch.address ?_ ?_ ?_
    · exact Or.inr (Or.inr rfl)
    · rfl
    · decide
    · exact nofun
  · have hsays := says_renew e d
    rw [hswitch.xid, show d.macAddress = c.macAddress from congrArg ClientConfig.macAddress
      hswitch.config] at hsays
    rw [hd.cancel]
    refine ran_holding hhold hd hswitch.config ?_ hswitch.xid hswitch.address hswitch.state
      (by decide) ?_
    · rw [hswitch.state]
      exact Or.inr (Or.inl rfl)
    · intro p hp
      rw [List.mem_singleton.mp hp]
      exact hsays

theorem ran_startRenewRequestTimeout (h : c.Armed)
    (hi : c.sources i = some (.startRenewRequestTimeout, n)) :
    Ran e v c (c.sourceRemove i) [.noLease] := by
  have hhold : Holding c.state := Or.inr (Or.inl (h.due i _ n hi))
  have hclear := h.fired hi
  exact ⟨hclear.armed, rfl, hclear.not_restarting, Or.inr (Or.inr (Or.inl List.mem_cons_self)),
    .ask (Or.inr ⟨hhold, hhold⟩) rfl rfl nofun⟩

theorem ran_startReboundTimeout (h : c.Armed) (hi : c.sources i = some (.startReboundTimeout, n))
    (hrun : (c.sourceRemove i).startReboundTimeout e v = .ok (c', out)) : Ran e v c c' out := by
  have hstate : c.state = .rebinding := h.due i _ n hi
  have hswitch := (switch_alike (c.sourceRemove i) v .l2).halve
  have hd := hswitch.clear (h.fired hi)
  unfold startReboundTimeout at hrun
  dsimp only at hrun
  generalize (switchListeningMode _ v .l2).1.halveLease = d at hswitch hd hrun
  have hmac : d.macAddress = c.macAddress := congrArg ClientConfig.macAddress hswitch.config
  split_ifs at hrun with hshort
  · rcases hres : d.restartDhcp e v 0 with f | ⟨c₁, out₁⟩
    · rw [hres] at hrun
      cases hrun
    · rw [hres] at hrun
      cases hrun
      have hs := restart_spec hd.armed hres
      refine ⟨hs.armed, hs.config.trans hswitch.config, hs.not_restarting, ?_,
        .discover hs.state ?_ ?_⟩
      · rcases hs.pending with hp | hno | hsock
        · exact Or.inl hp
        · exact Or.inr (Or.inr (Or.inl (List.mem_cons_of_mem _ hno)))
        · exact Or.inr (Or.inr (Or.inr hsock))
      · rcases hs.origin with hnew | hdeaf | ⟨hne, -⟩
        · exact Or.inl hnew
        · exact Or.inr (Or.inl hdeaf)
        · exact absurd rfl hne
      · exact hmac ▸ hs.sends
  · cases hrun
    have hhold : Holding c.state := Or.inr (Or.inr hstate)
    have hsays := says_renew e d
    rw [hswitch.xid, hmac] at hsays
    refine ran_holding hhold hd hswitch.config ?_ hswitch.xid hswitch.address
      (hswitch.state.trans hstate) (by decide) (.raw hsays)
    rw [hswitch.state]
    exact hhold

theorem ran_restartDhcpTimeout (h : c.Armed) (hi : c.sources i = some (.restartDhcpTimeout, n))
    (hrun : (c.sourceRemove i).restartDhcpTimeout e v = .ok (c', out)) : Ran e v c c' out := by
  have hclear := h.fired hi
  have hclear' : Clear { c.sourceRemove i with ackRetryTimes := c.ackRetryTimes + 1 } :=
    ⟨hclear.none, hclear.behind⟩
  have hs := restart_spec hclear'.armed hrun
  refine ⟨hs.armed, hs.config, hs.not_restarting, hs.pending.imp_right Or.inr,
    .discover hs.state ?_ hs.sends⟩
  rcases hs.origin with hnew | hdeaf | ⟨-, hsame⟩
  · exact Or.inl hnew
  · exact Or.inr (Or.inl hdeaf)
  · exact Or.inr (Or.inr ⟨hsame, Or.inr ⟨i, n, hi⟩⟩)

/-- **A timeout** that is due makes a turn. -/
theorem fire_spec (h : c.Armed) {x : Callback × UInt32} (hi : c.sources i = some x)
    (hrun : c.fire e v i = .ok (c', out)) : Ran e v c c' out := by
  obtain ⟨f, n⟩ := x
  simp only [fire, hi] at hrun
  cases f with
  | discoverTimeout => exact ran_discoverTimeout h hi hrun
  | requestTimeout =>
      have hran := ran_requestTimeout (e := e) (v := v) h hi
      rwa [Except.ok.inj hrun] at hran
  | startRenewTimeout =>
      have hran := ran_startRenewTimeout (e := e) (v := v) h hi
      rwa [Except.ok.inj hrun] at hran
  | startRenewRequestTimeout =>
      cases hrun
      exact ran_startRenewRequestTimeout h hi
  | startReboundTimeout => exact ran_startReboundTimeout h hi hrun
  | restartDhcpTimeout => exact ran_restartDhcpTimeout h hi hrun

/-- No timeout is pending and nothing has been tried: the client may be started. -/
def Idle (c : Client) : Prop := c.Clear ∧ c.retryTimes = 0

/-- **A start** makes a turn. -/
theorem idle_start (h : c.Idle) {last : LastAddress}
    (hrun : c.gDhcpClientStart e v last = .ok (c', out)) :
    Ran e v c c' out := by
  have hs := start_spec h.1 (Or.inr h.2) hrun
  refine ⟨hs.armed, hs.config, hs.not_restarting, hs.pending.imp_right Or.inr,
    .discover hs.state ?_ hs.sends⟩
  rcases hs.origin with hnew | hdeaf | ⟨hne, -⟩
  · exact Or.inl hnew
  · exact Or.inr (Or.inl hdeaf)
  · exact absurd h.2 hne

/-- **A stop** makes a turn. -/
theorem stop_spec (h : c.Armed) :
    Ran e v c (c.gDhcpClientStop e v).1 (c.gDhcpClientStop e v).2 := by
  have hswitch := switch_alike c v .none
  have harmed : (switchListeningMode c v .none).1.Armed := by
    refine ⟨?_, ?_, ?_, ?_⟩
    · rw [hswitch.sources, hswitch.timeout]
      exact h.only
    · rw [hswitch.sources]
      exact h.zero
    · rw [hswitch.timeout, hswitch.nextSource]
      exact h.behind
    · rw [hswitch.sources, hswitch.state]
      exact h.due
  unfold gDhcpClientStop
  dsimp only
  generalize (switchListeningMode c v .none).1 = d at hswitch harmed ⊢
  have hclear := harmed.stopped
  have hconf : (if d.timeout > 0 then { d.sourceRemove d.timeout with timeout := 0 }
    else d).toClientConfig =
      c.toClientConfig := by
    rw [← hswitch.config]
    split_ifs
    · rfl
    · rfl
  generalize (if d.timeout > 0 then { d.sourceRemove d.timeout with timeout := 0 } else d) =
    d' at hclear hconf ⊢
  have hstopped : Clear { d' with
      retryTimes := 0, ackRetryTimes := 0, requestedIp := 0, state := .released,
      leaseSeconds := 0 } :=
    ⟨hclear.none, hclear.behind⟩
  refine ⟨hstopped.armed, hconf, hstopped.not_restarting, Or.inr (Or.inl rfl), .stop rfl ?_⟩
  split_ifs
  · obtain ⟨p, heq, hp⟩ := says_release e d v d.serverIp d.requestedIp
    rw [show d.macAddress = c.macAddress from congrArg ClientConfig.macAddress hswitch.config] at hp
    rw [heq]
    intro q hq
    rw [List.mem_singleton.mp hq]
    exact hp
  · exact nofun

end Client

end OpenWfd.Dhcp
