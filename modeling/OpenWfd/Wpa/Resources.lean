import OpenWfd.Wpa.Moves

/-!
# Wpa — Resources

A channel is at rest (`Resting`), with nothing open, bound, watched or armed, or it serves
(`Serving`): two sockets, each bound to its own path and watched, and the armed PING timer.

* `openSocket_spec`: `open_socket` establishes one socket, or leaves the kernel as it was.
* `openCtrl_spec`, `closeCtrl_spec`: an open ends serving or at rest, a close at rest.
* `open_all_or_nothing`: so does every open and close of every run.
-/

namespace OpenWfd.Wpa

/-! ### Names -/

theorem ctrlName_injective {pid : Nat} {c c' : UInt64} {x x' : Suffix}
    (h : ctrlName pid c x = ctrlName pid c' x') : c = c' := by
  unfold ctrlName at h
  have hcut := (List.append_inj' h (x.2.trans x'.2.symm)).1
  have hnum := List.append_cancel_left (List.append_cancel_right hcut)
  exact UInt64.toNat_inj.mp (decimal_injective hnum)

theorem add_one_ne (c : UInt64) : c ≠ c + 1 := by
  intro h
  have hn := congrArg UInt64.toNat h
  rw [UInt64.toNat_add] at hn
  have hc := c.toNat_lt
  have h1 : (1 : UInt64).toNat = 1 := rfl
  omega

/-! ### One socket -/

section

variable {w w' : WpaCtrl} {k k' : Kernel Path} {fd : Int} {name name' ctrlPath : Path}

/-- The second attempt comes after an `unlink` that finds nothing. -/
theorem bindName_hold {a : BindAnswers} {r : Except Errno Unit} (hfd : fd ∉ k.fds)
    (hname : name ∉ k.paths) (e : bindName (k.hold ⟨fd, none, false⟩ []) fd name a = (r, k')) :
    ((∃ x, r = .error x) ∧ k' = k.hold ⟨fd, none, false⟩ []) ∨
      (r = .ok () ∧ k' = k.hold ⟨fd, some name, false⟩ [name]) := by
  unfold bindName at e
  rcases hb : (k.hold ⟨fd, none, false⟩ []).bind fd name a.first with ⟨x | _, k₁⟩ <;>
    simp only [hb] at e
  · obtain ⟨-, rfl⟩ | ⟨hx, -⟩ := Kernel.bind_hold hfd hname hb
    · split_ifs at e
      · rw [Kernel.unlink_of_notMem (k := k.hold ⟨fd, none, false⟩ []) hname] at e
        exact Kernel.bind_hold hfd hname e
      · cases e
        exact Or.inl ⟨⟨x, rfl⟩, rfl⟩
    · cases hx
  · cases e
    exact Kernel.bind_hold hfd hname hb

theorem attachSocket_spec {a : SocketAnswers} {r : Except Errno Int} (hfd : fd ∉ k.fds)
    (hname : name ∉ k.paths) (hw : w.kernel = k.hold ⟨fd, some name, false⟩ [name])
    (e : attachSocket w fd name ctrlPath a = (r, w')) :
    ((∃ x, r = .error x) ∧ w' = { w with kernel := k }) ∨
      (r = .ok fd ∧ w' = { w with kernel := k.establish fd name }) := by
  have hundo : (w.kernel.unlink name).close fd = k := by
    rw [hw, Kernel.unlink_hold hname, Kernel.close_hold rfl hfd]
  unfold attachSocket at e
  rcases hc : connectSocket ctrlPath a.connect with x | _ <;> simp only [hc] at e
  · cases e
    rw [hundo]
    exact Or.inl ⟨⟨x, rfl⟩, rfl⟩
  · rcases ha : w.kernel.watch fd a.add with ⟨x | _, k₁⟩ <;> simp only [ha] at e <;> rw [hw] at ha
    · obtain ⟨-, rfl⟩ | ⟨hx, -⟩ := Kernel.watch_hold hfd ha
      · cases e
        rw [← hw, hundo]
        exact Or.inl ⟨⟨x, rfl⟩, rfl⟩
      · cases hx
    · obtain ⟨⟨x, hx⟩, -⟩ | ⟨-, rfl⟩ := Kernel.watch_hold hfd ha
      · cases hx
      · cases e
        exact Or.inr ⟨rfl, rfl⟩

/-- **`open_socket`** establishes a socket under the next name, or leaves nothing. -/
theorem openSocket_spec {a : SocketAnswers} {r : Except Errno Int}
    (hname : ∀ x, ctrlName w.pid w.counter x ∉ w.kernel.paths)
    (e : openSocket w ctrlPath name a = (r, name', w')) :
    ((∃ x, r = .error x) ∧ ∃ counter, w' = { w with counter := counter }) ∨
      ∃ fd x, 0 ≤ fd ∧ fd ∉ w.kernel.fds ∧ r = .ok fd ∧ name' = ctrlName w.pid w.counter x ∧
        w' = { w with kernel := w.kernel.establish fd name', counter := w.counter + 1 } := by
  unfold openSocket at e
  rcases hs : w.kernel.socket a.socket with ⟨y, k⟩
  obtain ⟨⟨x, rfl⟩, rfl⟩ | ⟨fd, hpos, hfd, rfl, rfl⟩ := Kernel.socket_spec hs
  · simp only [hs] at e
    cases e
    exact Or.inl ⟨⟨x, rfl⟩, w.counter, rfl⟩
  · simp only [hs, bindSocket] at e
    have hnew := hname a.bind.suffix
    rcases hb : bindName (w.kernel.hold ⟨fd, none, false⟩ []) fd
      (ctrlName w.pid w.counter a.bind.suffix) a.bind with ⟨y, k⟩
    rw [hb] at e
    obtain ⟨⟨x, rfl⟩, rfl⟩ | ⟨rfl, rfl⟩ := bindName_hold hfd hnew hb
    · dsimp only at e
      cases e
      rw [Kernel.close_hold rfl hfd]
      exact Or.inl ⟨⟨x, rfl⟩, w.counter, rfl⟩
    · dsimp only at e
      rcases ha : attachSocket { w with
          kernel := w.kernel.hold ⟨fd, some (ctrlName w.pid w.counter a.bind.suffix), false⟩
            [ctrlName w.pid w.counter a.bind.suffix]
          counter := w.counter + 1 } fd (ctrlName w.pid w.counter a.bind.suffix) ctrlPath a
        with ⟨y, w₁⟩
      rw [ha] at e
      cases e
      obtain ⟨⟨x, rfl⟩, rfl⟩ | ⟨rfl, rfl⟩ := attachSocket_spec hfd hnew rfl ha
      · exact Or.inl ⟨⟨x, rfl⟩, w.counter + 1, rfl⟩
      · exact Or.inr ⟨fd, a.bind.suffix, hpos, hfd, rfl, rfl, rfl⟩

end

/-! ### Rest and service -/

/-- Closed, and nothing left. -/
structure Resting (w : WpaCtrl) : Prop where
  closed : isOpen w.toChannel = false
  kernel : w.kernel = .idle

/-- Open, with two sockets and the timer armed. -/
structure Serving (w : WpaCtrl) : Prop where
  req : 0 ≤ w.reqFd
  ev : 0 ≤ w.evFd
  fds : w.evFd ≠ w.reqFd
  names : w.evName ≠ w.reqName
  kernel : w.kernel = {
    sockets := [⟨w.evFd, some w.evName, true⟩, ⟨w.reqFd, some w.reqName, true⟩]
    paths := [w.evName, w.reqName]
    timer := 10000000 }

/-- The kernel of an open that has armed the timer. -/
def armed : Kernel Path := ⟨[], [], 10000000⟩

/-- The request socket is there. -/
structure HasReq (w : WpaCtrl) : Prop where
  req : 0 ≤ w.reqFd
  kernel : w.kernel = armed.establish w.reqFd w.reqName

section

variable {w w' : WpaCtrl}

theorem Serving.isOpen (h : Serving w) : isOpen w.toChannel = true := decide_eq_true h.ev

theorem HasReq.fds (h : HasReq w) : w.kernel.fds = [w.reqFd] := by
  rw [h.kernel]
  rfl

theorem HasReq.paths (h : HasReq w) : w.kernel.paths = [w.reqName] := by
  rw [h.kernel]
  rfl

/-- The label `err_req`. -/
theorem HasReq.errReq (h : HasReq w) (hclosed : isOpen w.toChannel = false) :
    Resting (errReq w) := by
  refine ⟨hclosed, ?_⟩
  have hk : w.kernel.release w.reqFd w.reqName = armed := by
    rw [h.kernel]
    exact Kernel.release_establish List.not_mem_nil List.not_mem_nil
  change (⟨(w.kernel.release w.reqFd w.reqName).sockets,
    (w.kernel.release w.reqFd w.reqName).paths, 0⟩ : Kernel Path) = .idle
  rw [hk]
  rfl

/-- A second socket under another name. -/
theorem HasReq.serving (h : HasReq w) {fd : Int} {name : Path} (hpos : 0 ≤ fd)
    (hfd : fd ∉ w.kernel.fds) (hname : name ∉ w.kernel.paths) {ev : Sock} {counter : UInt64} :
    Serving { w with
      evFd := fd, evName := name, ev := ev, counter := counter
      kernel := w.kernel.establish fd name } := by
  refine ⟨h.req, hpos, ?_, ?_, ?_⟩
  · rw [h.fds] at hfd
    exact fun heq => hfd (List.mem_singleton.mpr heq)
  · rw [h.paths] at hname
    exact fun heq => hname (List.mem_singleton.mpr heq)
  · dsimp only
    rw [h.kernel]
    rfl

/-- The label `err_ev`, and the end of `owfd_wpa_ctrl_close`: both sockets go. -/
theorem Serving.errEv (h : Serving w) : Resting (errEv w) := by
  have hk : w.kernel = (armed.establish w.reqFd w.reqName).establish w.evFd w.evName := h.kernel
  have hreq : HasReq { closeSocket w w.evFd w.evName with evFd := -1 } := by
    refine ⟨h.req, ?_⟩
    change w.kernel.release w.evFd w.evName = armed.establish w.reqFd w.reqName
    rw [hk]
    refine Kernel.release_establish ?_ ?_
    · exact fun hmem => h.fds (List.mem_singleton.mp hmem)
    · exact fun hmem => h.names (List.mem_singleton.mp hmem)
  exact hreq.errReq rfl

theorem detach_spec {a : Answers} (e : detach w a = some w') :
    ∃ ev, w' = { w with ev := ev } := by
  unfold detach at e
  rcases hr : wpaRequest w.evFd (str "DETACH") none (some 0) a w.ev with _ | ⟨r, ev⟩ <;>
    simp only [hr] at e <;> cases e
  exact ⟨ev, rfl⟩

theorem Serving.congr_ev (h : Serving w) (ev : Sock) (cb : Option Nat) :
    Serving { w with ev := ev, cb := cb } :=
  ⟨h.req, h.ev, h.fds, h.names, h.kernel⟩

/-- What an open may leave of `w`: it serves, with nothing in the request socket, or rests.  The
PING timer is watched as before. -/
structure Opened (w : WpaCtrl) (r : Except Errno Unit) (w' : WpaCtrl) : Prop where
  ok : r = .ok () → Serving w' ∧ w'.req = .fresh
  error : ∀ x, r = .error x → Resting w'
  tfd : w'.tfdWatched = w.tfdWatched

theorem Opened.resting {x : Errno} (h : Resting w') (htfd : w'.tfdWatched = w.tfdWatched) :
    Opened w (.error x) w' :=
  ⟨nofun, fun _ _ => h, htfd⟩

theorem attach_spec {cb : Option Nat} {a : OpenAnswers} {r : Except Errno Unit} (h : Serving w)
    (hfresh : w.req = .fresh) (e : attach w cb a = some (r, w')) : Opened w r w' := by
  unfold attach at e
  rcases hr : wpaRequestOk w.evFd (str "ATTACH") none a.attach w.ev with _ | ⟨x | _, ev⟩ <;>
    simp only [hr] at e
  · cases e
  · rcases hd : detach { w with ev := ev } a.detach with _ | w₁ <;> simp only [hd] at e <;> cases e
    obtain ⟨ev', rfl⟩ := detach_spec hd
    exact .resting (h.congr_ev ev' w.cb).errEv rfl
  · cases e
    exact ⟨fun _ => ⟨h.congr_ev ev cb, hfresh⟩, nofun, rfl⟩

theorem returned_neg (x : Errno) : isOpen ⟨0, returned (.error x), .fresh, true⟩ = false := by
  have hpos := x.number_pos
  refine decide_eq_false ?_
  change ¬ 0 ≤ -(x.number : Int)
  omega

theorem openEv_spec {ctrlPath : Path} {cb : Option Nat} {a : OpenAnswers} {r : Except Errno Unit}
    (h : HasReq w) (hfresh : w.req = .fresh)
    (hname : ∀ x, ctrlName w.pid w.counter x ∉ w.kernel.paths)
    (e : openEv w ctrlPath cb a = some (r, w')) : Opened w r w' := by
  unfold openEv at e
  rcases ho : openSocket w ctrlPath w.evName a.ev with ⟨y, name, w₁⟩
  rw [ho] at e
  obtain ⟨⟨x, rfl⟩, counter, rfl⟩ | ⟨fd, x, hpos, hfd, rfl, rfl, rfl⟩ := openSocket_spec hname ho
  · cases e
    have hreq : HasReq { w with
        counter := counter, evFd := returned (.error x), evName := name, ev := .fresh } :=
      ⟨h.req, h.kernel⟩
    exact .resting (hreq.errReq (returned_neg x)) rfl
  · have hopened := attach_spec (h.serving hpos hfd (hname x)) hfresh e
    exact ⟨hopened.ok, hopened.error, hopened.tfd⟩

/-- **`owfd_wpa_ctrl_open`** of a channel at rest. -/
theorem openCtrl_spec {ctrlPath : Path} {cb : Option Nat} {a : OpenAnswers}
    {r : Except Errno Unit} (h : Resting w) (e : openCtrl w ctrlPath cb a = some (r, w')) :
    Opened w r w' := by
  unfold openCtrl at e
  rw [if_neg (by rw [h.closed]; exact Bool.false_ne_true)] at e
  rcases harm : a.arm with _ | x
  · have htimer : armTimer w 10000000 none = (.ok (), { w with kernel := armed }) := by
      rw [armTimer, h.kernel]
      rfl
    rw [harm, htimer] at e
    dsimp only at e
    rcases ho : openSocket { w with kernel := armed } ctrlPath w.reqName a.req with ⟨y, name, w₁⟩
    rw [ho] at e
    obtain ⟨⟨x, rfl⟩, counter, rfl⟩ | ⟨fd, x, hpos, hfd, rfl, rfl, rfl⟩ :=
      openSocket_spec (fun _ => List.not_mem_nil) ho
    · cases e
      exact .resting ⟨h.closed, rfl⟩ rfl
    · have hopened := openEv_spec ⟨hpos, rfl⟩ rfl ?_ e
      · exact ⟨hopened.ok, hopened.error, hopened.tfd⟩
      · -- the second name has the next count
        intro y hy
        exact add_one_ne w.counter (ctrlName_injective (List.mem_singleton.mp hy)).symm
  · have htimer : armTimer w 10000000 (some x) = (.error x, w) := rfl
    rw [harm, htimer] at e
    cases e
    exact .resting h rfl

/-- A channel just opened is one that requests start from. -/
theorem openCtrl_channel {ctrlPath : Path} {cb : Option Nat} {a : OpenAnswers} (h : Resting w)
    (htfd : w.tfdWatched = true) (e : openCtrl w ctrlPath cb a = some (.ok (), w')) :
    w'.toChannel = .opened w'.reqFd w'.evFd := by
  have hopened := openCtrl_spec h e
  calc
    w'.toChannel = ⟨w'.reqFd, w'.evFd, w'.req, w'.tfdWatched⟩ := rfl
    _ = .opened w'.reqFd w'.evFd := by rw [(hopened.ok rfl).2, hopened.tfd, htfd, Channel.opened]

/-- An open of an open channel fails. -/
theorem openCtrl_serving {ctrlPath : Path} {cb : Option Nat} {a : OpenAnswers} (h : Serving w) :
    openCtrl w ctrlPath cb a = some (.error .EALREADY, w) :=
  if_pos h.isOpen

theorem openCtrl_tfd {ctrlPath : Path} {cb : Option Nat} {a : OpenAnswers}
    {r : Except Errno Unit} (h : Resting w ∨ Serving w)
    (e : openCtrl w ctrlPath cb a = some (r, w')) : w'.tfdWatched = w.tfdWatched := by
  rcases h with h | h
  · exact (openCtrl_spec h e).tfd
  · rw [openCtrl_serving h] at e
    cases e
    rfl

/-- **`owfd_wpa_ctrl_close`.** -/
theorem closeCtrl_spec {a : Answers} (h : Resting w ∨ Serving w) (e : closeCtrl w a = some w') :
    Resting w' ∧ w'.tfdWatched = w.tfdWatched := by
  unfold closeCtrl at e
  rcases h with h | h
  · rw [if_neg (by rw [h.closed]; exact Bool.false_ne_true)] at e
    cases e
    exact ⟨h, rfl⟩
  · rw [if_pos h.isOpen] at e
    rcases hd : detach w a with _ | w₁ <;> simp only [hd] at e <;> cases e
    obtain ⟨ev, rfl⟩ := detach_spec hd
    have hrest := (h.congr_ev ev none).errEv
    exact ⟨⟨rfl, hrest.kernel⟩, rfl⟩

end

/-! ### Runs -/

/-- What the entry of an open or a close says of the resources of the channel. -/
def Entry.AllOrNothing : Entry → Prop
  | .opened before (.error _) after =>
    after.kernel = before.kernel ∧ after.tfdWatched = before.tfdWatched ∧
      isOpen after.toChannel = isOpen before.toChannel ∧
      (isOpen before.toChannel = false → after.kernel = .idle)
  | .opened _ (.ok ()) after        => Serving after
  | .closed after                   => Resting after

/-- The invariant of a run. -/
structure Sound (s : Traced) : Prop where
  now : Resting s.toWpaCtrl ∨ Serving s.toWpaCtrl
  log : ∀ e ∈ s.log, e.AllOrNothing

theorem Sound.note {s : Traced} {w : WpaCtrl} {e : Entry} (h : Sound s)
    (now : Resting w ∨ Serving w) (he : e.AllOrNothing) : Sound ⟨w, s.log ++ [e]⟩ :=
  ⟨now, List.forall_mem_append.mpr ⟨h.log, List.forall_mem_singleton.mpr he⟩⟩

/-- What is in the sockets does not matter, nor whether the timer is watched. -/
theorem Sound.quiet {s : Traced} (h : Sound s) (req ev : Sock) (tfdWatched : Bool) :
    Sound { s with req := req, ev := ev, tfdWatched := tfdWatched } := by
  refine ⟨h.now.imp ?_ ?_, h.log⟩
  · exact fun hr => ⟨hr.closed, hr.kernel⟩
  · exact fun hs => ⟨hs.req, hs.ev, hs.fds, hs.names, hs.kernel⟩

theorem sound_move {deaf : Prop} {s s' : Traced} (h : Sound s) (m : Move deaf s s') : Sound s' := by
  cases m with
  | @opened _ _ _ _ r w ho =>
      rcases h.now with hrest | hserve
      · have hopened := openCtrl_spec hrest ho
        rcases r with x | _
        · have hafter := hopened.error x rfl
          have hsame : w.kernel = s.kernel := hafter.kernel.trans hrest.kernel.symm
          exact h.note (Or.inl hafter)
            ⟨hsame, hopened.tfd, hafter.closed.trans hrest.closed.symm, fun _ => hafter.kernel⟩
        · have hafter := (hopened.ok rfl).1
          exact h.note (Or.inr hafter) hafter
      · rw [openCtrl_serving hserve] at ho
        cases ho
        refine h.note (Or.inr hserve) ⟨rfl, rfl, rfl, fun hclosed => ?_⟩
        rw [hserve.isOpen] at hclosed
        cases hclosed
  | closed _ hc =>
      have hrest := (closeCtrl_spec h.now hc).1
      exact h.note (Or.inl hrest) hrest
  | traffic _ req ev => exact h.quiet req ev s.tfdWatched
  | deaf _ _ => exact h.quiet s.req s.ev false

theorem sound_fresh (pid : Nat) (counter : UInt64) : Sound ⟨.fresh pid counter, []⟩ :=
  ⟨Or.inl ⟨rfl, rfl⟩, List.forall_mem_nil _⟩

/-- **Open is all or nothing.**  In every run, whichever system calls fail, an open that fails
leaves the kernel as it was, with nothing of a closed channel in it; one that succeeds leaves two
sockets, open, bound and watched, and an armed timer; and a close leaves nothing. -/
theorem open_all_or_nothing {pid : Nat} {counter : UInt64}
    {ls : List (Call × Except Errno (List UInt8))} {s : Traced}
    (run : ctrlLts.Run ⟨.fresh pid counter, []⟩ ls s) :
    (∀ e ∈ s.log, e.AllOrNothing) ∧ (Resting s.toWpaCtrl ∨ Serving s.toWpaCtrl) := by
  have h : Sound s := by
    refine run.invariant (sound_fresh pid counter) ?_
    intro s l s' hs e
    exact closure_invariant (moves_of_exec e) hs fun _ _ => sound_move
  exact ⟨h.log, h.now⟩

/-- The second socket cannot be connected; then the channel is opened and closed. -/
theorem open_all_or_nothing_retry :
    ∃ ls s, ctrlLts.Run ⟨.fresh 7 0, []⟩ ls s ∧
      ls.map Prod.snd = [.error (.other 110), .ok [], .ok []] ∧
      s.log.length = 3 ∧ (∀ e ∈ s.log, e.AllOrNothing) ∧
      (Resting s.toWpaCtrl ∨ Serving s.toWpaCtrl) := by
  have hrun : ∃ s, ctrlLts.Run ⟨.fresh 7 0, []⟩
      [(.op (.openCtrl (str "/run/wpa") (some 0)
          ⟨none, ⟨.ok 5, ⟨⟨str "aaaaaa", rfl⟩, some .EADDRINUSE, none⟩, none, none⟩,
            ⟨.ok 6, ⟨⟨str "bbbbbb", rfl⟩, none, none⟩, some (.other 110), none⟩,
            ⟨0, [], 0, []⟩, ⟨0, [], 0, []⟩⟩), .error (.other 110)),
        (.op (.openCtrl (str "/run/wpa") (some 0)
          ⟨none, ⟨.ok 5, ⟨⟨str "cccccc", rfl⟩, none, none⟩, none, none⟩,
            ⟨.ok 6, ⟨⟨str "dddddd", rfl⟩, none, none⟩, none, none⟩,
            ⟨0, [⟨[], .ready false false, .ok 6, 0⟩], 0,
              [⟨[.answer (str "OK\n")], .ready false false, none, 0⟩]⟩, ⟨0, [], 0, []⟩⟩), .ok []),
        (.op (.close ⟨0, [⟨[], .timedOut, .ok 0, 0⟩], 0, []⟩), .ok [])] s ∧ s.log.length = 3 :=
    ⟨_, .cons rfl (.cons rfl (.one rfl)), rfl⟩
  obtain ⟨s, hrun, hlen⟩ := hrun
  obtain ⟨hlog, hnow⟩ := open_all_or_nothing hrun
  exact ⟨_, s, hrun, rfl, hlen, hlog, hnow⟩

end OpenWfd.Wpa
