import OpenWfd.Ctrl.Acts

/-!
# Ctrl — the outgoing stream

`send_all` offers the whole ring to `writev` and never calls `shl_ring_pull`, so the ring of an open
channel is everything queued since the channel was opened, and every `writev` starts over at its
first byte (`Streams`).

* `wrote_prefix`: what the socket accepted is a prefix of what was queued in every run in which, in
  each open period, only one `writev` accepts bytes.
* `live_send`: a message queued on a channel that waits for no `EPOLLOUT` stalls, unless the ring
  was empty and `epoll_ctl` succeeds; `live_run`: nothing else makes the output stall.
-/

namespace OpenWfd.Ctrl

/-! ### What a log says -/

/-- The open period a log ends in: the bytes queued, the bytes the socket accepted, and how many
bytes from the first one on some `writev` reached. -/
structure Tally where
  pushed : List UInt8
  wrote : List UInt8
  covered : Nat

def Tally.step (t : Tally) : Event → Tally
  | .opened _ _       => ⟨[], [], 0⟩
  | .pushed buf _ _ _ => { t with pushed := t.pushed ++ buf }
  | .wrote bytes      =>
    { t with wrote := t.wrote ++ bytes, covered := max t.covered bytes.length }
  | .closed           => t
  | .received _ _     => t
  | .called _ _       => t

def tally (log : List Event) : Tally := log.foldl Tally.step ⟨[], [], 0⟩

@[simp] theorem tally_concat (log : List Event) (e : Event) :
    tally (log ++ [e]) = (tally log).step e := by
  rw [tally, List.foldl_concat]
  rfl

/-- What `writev` accepts starts at the first byte of the open period. -/
def FromStart (pre : List Event) (e : Event) : Prop :=
  ∀ bytes, e = .wrote bytes → bytes <+: (tally pre).pushed

/-- `writev` accepts bytes only if it has accepted none before in the open period. -/
def FirstWrite (pre : List Event) (e : Event) : Prop :=
  ∀ bytes, e = .wrote bytes → bytes ≠ [] → (tally pre).wrote = []

/-- One write that starts at the first byte writes a prefix. -/
theorem wrote_prefix_of_first {log pre : List Event} (hs : Throughout FromStart log)
    (hf : Throughout FirstWrite log) (hp : pre <+: log) :
    (tally pre).wrote <+: (tally pre).pushed := by
  induction pre using List.reverseRecOn with
  | nil => exact List.prefix_rfl
  | append_singleton pre e ih =>
      have hpre := ih ((List.prefix_append pre [e]).trans hp)
      rw [tally_concat]
      cases e with
      | opened fd cb => exact List.prefix_rfl
      | closed => exact hpre
      | pushed buf armed empty refused => exact hpre.trans (List.prefix_append _ buf)
      | received fd bytes => exact hpre
      | called cb data => exact hpre
      | wrote bytes =>
          by_cases hnil : bytes = []
          · subst hnil
            simpa only [Tally.step, List.append_nil] using hpre
          · have hnone := (hf.of_prefix hp).last bytes rfl hnil
            simpa only [Tally.step, hnone, List.nil_append] using
              (hs.of_prefix hp).last bytes rfl

/-! ### The ring and the log -/

/-- **The ring of an open channel is all that was queued in the open period.** -/
structure Streams (c : Channel) : Prop where
  ring : c.outRing.WF
  queue : isOpen c = true → c.outRing.contents = (tally c.log).pushed
  shut : isOpen c = false → c.outRing.contents = []
  fromStart : Throughout FromStart c.log
  within : (tally c.log).covered ≤ (tally c.log).pushed.length

theorem streams_fresh : Streams .fresh where
  ring := ShlRing.wf_zeroed
  queue := fun h => absurd h (by decide)
  shut := fun _ => ShlRing.contents_zeroed
  fromStart := throughout_nil
  within := le_rfl

section

variable {c c' : Channel}

/-- Neither the tally nor the ring sees the event. -/
theorem Streams.note (s : Streams c) {e : Event} (he : (tally c.log).step e = tally c.log)
    (hw : ∀ bytes, e ≠ .wrote bytes) : Streams (note c e) where
  ring := s.ring
  queue := fun h => by rw [note_log, tally_concat, he]; exact s.queue h
  shut := s.shut
  fromStart := s.fromStart.concat fun bytes h => absurd h (hw bytes)
  within := by rw [note_log, tally_concat, he]; exact s.within

theorem streams_openTcpFd (s : Streams c) {fd : Int} {cb : Option Nat} {a : OpenAnswers}
    {r : Except Errno Unit} (e : openTcpFd c fd cb a = (r, c')) : Streams c' := by
  rcases openTcpFd_spec e with ⟨-, rfl⟩ | ⟨-, hshut, hfd, rfl⟩
  · exact s
  · refine ⟨s.ring, ?_, ?_, ?_, ?_⟩
    · intro _
      rw [note_log, tally_concat]
      exact s.shut hshut
    · intro hopen
      exact absurd (decide_eq_true hfd) (by rw [show decide (0 ≤ fd) = false from hopen]; decide)
    · refine s.fromStart.concat ?_
      intro bytes h
      cases h
    · rw [note_log, tally_concat]
      exact Nat.zero_le _

theorem streams_close (s : Streams c) : Streams (close c) := by
  unfold close
  split_ifs with hopen
  · refine ⟨ShlRing.wf_flush s.ring, ?_, ?_, ?_, ?_⟩
    · intro h
      cases h
    · intro _
      exact ShlRing.contents_flush c.outRing
    · refine s.fromStart.concat ?_
      intro bytes h
      cases h
    · rw [note_log, tally_concat]
      exact s.within
  · exact s

/-- Bytes were queued and logged. -/
theorem Streams.push (s : Streams c) (hopen : isOpen c = true) {ring : ShlRing} {buf : List UInt8}
    (w : ring.WF) (hc : ring.contents = c.outRing.contents ++ buf) (armed empty refused : Bool) :
    Streams (Ctrl.note { c with outRing := ring } (.pushed buf armed empty refused)) where
  ring := w
  queue := fun _ => by rw [note_log, tally_concat, note_outRing, hc, s.queue hopen]; rfl
  shut := fun h => absurd hopen (by rw [show isOpen c = false from h]; decide)
  fromStart := s.fromStart.concat fun bytes h => by cases h
  within := by
    rw [note_log, tally_concat]
    exact s.within.trans (List.prefix_append _ buf).length_le

theorem streams_send (s : Streams c) {buf : List UInt8} {a : SendAnswers} {r : Except Errno Unit}
    (hbuf : buf.length ≤ SizeT.ptrdiffMax) (e : send c buf a = (r, c')) : Streams c' := by
  rcases send_spec s.ring hbuf e with rfl | ⟨ring, hopen, w, hc, hcase⟩
  · exact s
  rcases hcase with ⟨-, -, rfl⟩ | ⟨-, -, rfl⟩ | ⟨-, rfl⟩
  · have hp := s.push hopen w hc (armed c) true false
    exact ⟨hp.ring, hp.queue, hp.shut, hp.fromStart, hp.within⟩
  · exact s.push hopen w hc (armed c) true true
  · exact s.push hopen w hc (armed c) false a.mod.isSome

/-- Bytes from the front of the ring were written and logged. -/
theorem Streams.write (s : Streams c) (l : Nat) :
    Streams (Ctrl.note c (.wrote (c.outRing.contents.take l))) := by
  have hprefix : c.outRing.contents.take l <+: (tally c.log).pushed := by
    rcases hopen : isOpen c with _ | _
    · rw [s.shut hopen, List.take_nil]
      exact List.nil_prefix
    · rw [← s.queue hopen]
      exact List.take_prefix l _
  refine ⟨s.ring, ?_, s.shut, ?_, ?_⟩
  · intro h
    rw [note_log, tally_concat]
    exact s.queue h
  · refine s.fromStart.concat ?_
    intro bytes h
    cases h
    exact hprefix
  · rw [note_log, tally_concat]
    exact max_le s.within hprefix.length_le

theorem streams_sendAll (s : Streams c) {a : WriteAnswers} {r : Except Errno Unit}
    (e : sendAll c a = (r, c')) : Streams c' := by
  rcases sendAll_spec s.ring e with rfl | ⟨-, rfl⟩ | ⟨l, -, rfl | ⟨-, rfl⟩⟩
  · exact s
  · exact ⟨s.ring, s.queue, s.shut, s.fromStart, s.within⟩
  · exact s.write l
  · have hw := s.write l
    exact ⟨hw.ring, hw.queue, hw.shut, hw.fromStart, hw.within⟩

theorem streams_act (s : Streams c) (h : Act c c') : Streams c' := by
  cases h with
  | openTcpFd fd cb a => exact streams_openTcpFd s rfl
  | close => exact streams_close s
  | send buf a hbuf => exact streams_send s hbuf rfl
  | connected => exact ⟨s.ring, s.queue, s.shut, s.fromStart, s.within⟩
  | received bytes => exact s.note rfl (by intro b h; cases h)
  | called cb data => exact s.note rfl (by intro b h; cases h)
  | sendAll a => exact streams_sendAll s rfl

end

theorem streams_run {ls : List (Call × Except Errno Unit)} {c : Channel}
    (run : channelLts.Run .fresh ls c) : Streams c :=
  run_acts streams_fresh (fun _ _ => streams_act) run

/-! ### What the socket gets -/

/-- **What the socket accepted is a prefix of what was queued**, at every point of a run in which no
`writev` accepts bytes after another one of the same open period did. -/
theorem wrote_prefix {ls : List (Call × Except Errno Unit)} {c : Channel}
    (run : channelLts.Run .fresh ls c) (hf : Throughout FirstWrite c.log) :
    ∀ pre, pre <+: c.log → (tally pre).wrote <+: (tally pre).pushed := by
  intro pre hp
  exact wrote_prefix_of_first (streams_run run).fromStart hf hp

/-- A callback that sends when it is called; one write takes both messages. -/
theorem wrote_prefix_echo :
    ∃ c : Channel, (tally c.log).wrote = [97, 98, 99] ∧
      ∀ pre, pre <+: c.log → (tally pre).wrote <+: (tally pre).pushed := by
  have hrun : channelLts.Run .fresh
      [(.openTcpFd 3 (some 0) ⟨none, none, none⟩, .ok ()),
        (.send ⟨[97, 98], by decide⟩ ⟨[], none⟩, .ok ()),
        (.dispatch ⟨.event true ⟨false, true, false, false⟩, [], ⟨.ok 5, none⟩,
          [[.send ⟨[99], by decide⟩ ⟨[], none⟩]]⟩, .ok ())] _ :=
    .cons rfl (.cons rfl (.one rfl))
  have hfirst : Throughout FirstWrite [.opened 3 (some 0), .pushed [97, 98] true true false,
      .called 0 none, .pushed [99] true false false, .wrote [97, 98, 99]] := by
    refine ((((throughout_nil.concat (e := Event.opened 3 (some 0)) ?_).concat
      (e := Event.pushed [97, 98] true true false) ?_).concat (e := Event.called 0 none) ?_).concat
      (e := Event.pushed [99] true false false) ?_).concat (e := Event.wrote [97, 98, 99]) ?_
    · intro bytes h
      cases h
    · intro bytes h
      cases h
    · intro bytes h
      cases h
    · intro bytes h
      cases h
    · intro _ _ _
      rfl
  exact ⟨_, rfl, wrote_prefix hrun hfirst⟩

/-- A write that is cut short, and the next one: the first byte is sent twice. -/
theorem wrote_prefix_cut :
    ¬ ∀ (ls : List (Call × Except Errno Unit)) (c : Channel), channelLts.Run .fresh ls c →
      ∀ pre, pre <+: c.log → (tally pre).wrote <+: (tally pre).pushed := by
  intro h
  have hrun : channelLts.Run .fresh
      [(.openTcpFd 3 none ⟨none, none, none⟩, .ok ()),
        (.send ⟨[97, 98], by decide⟩ ⟨[], none⟩, .ok ()),
        (.dispatch ⟨.event true ⟨false, true, false, false⟩, [], ⟨.ok 1, none⟩, []⟩, .ok ()),
        (.dispatch ⟨.event true ⟨false, true, false, false⟩, [], ⟨.ok 2, none⟩, []⟩, .ok ())] _ :=
    .cons rfl (.cons rfl (.cons rfl (.one rfl)))
  have hp := h _ _ hrun _ List.prefix_rfl
  have hl : [(97 : UInt8), 97, 98] <+: [97, 98] := hp
  exact absurd hl.length_le (by decide)

/-! ### Stalled output -/

/-- An open channel with bytes in its ring that no `writev` has reached waits for `EPOLLOUT`. -/
def Live (c : Channel) : Prop :=
  isOpen c = true → (tally c.log).covered < c.outRing.contents.length → armed c = true

/-- A message is queued while the channel waits for `EPOLLOUT`, or makes it wait for that. -/
def Event.Served : Event → Prop
  | .pushed buf armed empty refused => buf = [] ∨ armed = true ∨ (empty = true ∧ refused = false)
  | _ => True

section

variable {c c' : Channel}

/-- Of an open channel with a well-formed log: all of the ring was written. -/
theorem Streams.covered_le (s : Streams c) (hopen : isOpen c = true) :
    (tally c.log).covered ≤ c.outRing.contents.length := by
  rw [s.queue hopen]
  exact s.within

/-- **`owfd_rtsp_ctrl_send` leaves the output live exactly when the message is served.** -/
theorem live_send (s : Streams c) (hl : Live c) {buf : List UInt8} {a : SendAnswers}
    {r : Except Errno Unit} (hbuf : buf.length ≤ SizeT.ptrdiffMax) (e : send c buf a = (r, c')) :
    c' = c ∨ ∃ ev : Event, c'.log = c.log ++ [ev] ∧ (Live c' ↔ ev.Served) := by
  rcases send_spec s.ring hbuf e with rfl | ⟨ring, hopen, w, hc, hcase⟩
  · exact Or.inl rfl
  have hle := s.covered_le hopen
  have hlen : ring.contents.length = c.outRing.contents.length + buf.length := by
    rw [hc, List.length_append]
  -- an unarmed channel whose ring holds more than was covered, with the message not empty
  have hstuck : ∀ empty refused : Bool, (empty = true → refused = true) →
      (Live (note { c with outRing := ring } (.pushed buf (armed c) empty refused)) ↔
        Event.Served (.pushed buf (armed c) empty refused)) := by
    intro empty refused hno
    constructor
    · intro hlive
      rcases hnil : buf with _ | ⟨x, xs⟩
      · exact Or.inl rfl
      · refine Or.inr (Or.inl (hlive hopen ?_))
        rw [note_log, tally_concat, note_outRing, hlen]
        subst hnil
        exact Nat.lt_of_le_of_lt hle (Nat.lt_add_of_pos_right (Nat.zero_lt_succ _))
    · rintro (rfl | harmed | ⟨hempty, hrefused⟩) _ hlt
      · rw [note_log, tally_concat, note_outRing, hlen] at hlt
        exact hl hopen hlt
      · exact harmed
      · rw [hno hempty] at hrefused
        cases hrefused
  rcases hcase with ⟨-, -, rfl⟩ | ⟨-, -, rfl⟩ | ⟨-, rfl⟩
  · refine Or.inr ⟨_, rfl, fun _ => Or.inr (Or.inr ⟨rfl, rfl⟩), ?_⟩
    intro _ _ _
    exact armed_of_epoll (register_self _ c.fd .all)
  · exact Or.inr ⟨_, rfl, hstuck true true fun _ => rfl⟩
  · exact Or.inr ⟨_, rfl, hstuck false a.mod.isSome fun h => by cases h⟩

theorem live_sendAll (s : Streams c) (hl : Live c) {a : WriteAnswers} {r : Except Errno Unit}
    (e : sendAll c a = (r, c')) : Live c' := by
  rcases sendAll_spec s.ring e with rfl | ⟨hnil, rfl⟩ | ⟨l, hle, rfl | ⟨rfl, rfl⟩⟩
  · exact hl
  · intro _ hlt
    rw [register_outRing, hnil] at hlt
    cases hlt
  · intro hopen hlt
    rw [note_log, tally_concat] at hlt
    exact hl hopen (lt_of_le_of_lt (le_max_left _ _) hlt)
  · intro _ hlt
    rw [register_log, note_log, tally_concat] at hlt
    refine absurd hlt (not_lt.mpr (le_trans ?_ (le_max_right _ _)))
    rw [List.take_length]
    rfl

theorem live_openTcpFd (hl : Live c) {fd : Int} {cb : Option Nat} {a : OpenAnswers}
    {r : Except Errno Unit} (e : openTcpFd c fd cb a = (r, c')) : Live c' := by
  rcases openTcpFd_spec e with ⟨-, rfl⟩ | ⟨-, -, -, rfl⟩
  · exact hl
  · intro _ _
    refine armed_of_epoll (?_ : _ = some Events.all)
    exact register_self c fd .all

theorem live_close (hl : Live c) : Live (close c) := by
  unfold close
  split_ifs
  · intro hopen
    cases hopen
  · exact hl

/-- What was queued in a live state and is served leaves a live state, and so does every other
act. -/
theorem live_act (s : Streams c) (hl : (∀ e ∈ c.log, e.Served) → Live c) (h : Act c c')
    (hs : ∀ e ∈ c'.log, e.Served) : Live c' := by
  have hl := hl fun e he => hs e ((log_act s.ring h).subset he)
  cases h with
  | openTcpFd fd cb a => exact live_openTcpFd hl rfl
  | close => exact live_close hl
  | send buf a hbuf =>
      generalize hr : send c buf a = res at hs ⊢
      obtain ⟨r, c'⟩ := res
      rcases live_send s hl hbuf hr with rfl | ⟨ev, hlog, hiff⟩
      · exact hl
      · refine hiff.mpr (hs ev ?_)
        rw [hlog]
        exact List.mem_append_right _ (List.mem_singleton_self ev)
  | connected => exact hl
  | received bytes =>
      intro hopen hlt
      rw [note_log, tally_concat] at hlt
      exact hl hopen hlt
  | called cb data =>
      intro hopen hlt
      rw [note_log, tally_concat] at hlt
      exact hl hopen hlt
  | sendAll a => exact live_sendAll s hl rfl

end

/-- **No stalled output**, in every state reached by a run in which every message queued is served:
it is empty, or `EPOLLOUT` was registered already, or the ring was empty and `epoll_ctl`
succeeded. -/
theorem live_run {ls : List (Call × Except Errno Unit)} {c : Channel}
    (run : channelLts.Run .fresh ls c) (hs : ∀ e ∈ c.log, e.Served) : Live c := by
  have hinv : Streams c ∧ ((∀ e ∈ c.log, e.Served) → Live c) := by
    refine run_acts (I := fun c => Streams c ∧ ((∀ e ∈ c.log, e.Served) → Live c)) ?_ ?_ run
    · refine ⟨streams_fresh, fun _ hopen => ?_⟩
      cases hopen
    · rintro c c' ⟨s, hl⟩ h
      exact ⟨streams_act s h, live_act s hl h⟩
  exact hinv.2 hs

/-- A message cut short by `writev` is waited for. -/
theorem live_run_cut :
    ∃ c : Channel, (tally c.log).covered = 1 ∧ c.outRing.contents.length = 2 ∧ Live c := by
  have hrun : channelLts.Run .fresh
      [(.openTcpFd 3 none ⟨none, none, none⟩, .ok ()),
        (.send ⟨[97, 98], by decide⟩ ⟨[], none⟩, .ok ()),
        (.dispatch ⟨.event true ⟨false, true, false, false⟩, [], ⟨.ok 1, none⟩, []⟩, .ok ())] _ :=
    .cons rfl (.cons rfl (.one rfl))
  have hs : ∀ e ∈ [Event.opened 3 none, .pushed [97, 98] true true false, .wrote [97]],
      e.Served := by
    rintro e (_ | ⟨_, _ | ⟨_, _ | ⟨_, ⟨⟩⟩⟩⟩)
    · exact trivial
    · exact Or.inr (Or.inl rfl)
    · exact trivial
  exact ⟨_, rfl, rfl, live_run hrun hs⟩

/-- The ring still holds the first message after it was written, so the second one is queued without
waiting for `EPOLLOUT`. -/
theorem live_run_second :
    ¬ ∀ (ls : List (Call × Except Errno Unit)) (c : Channel), channelLts.Run .fresh ls c →
      Live c := by
  intro h
  have hrun : channelLts.Run .fresh
      [(.openTcpFd 3 none ⟨none, none, none⟩, .ok ()),
        (.send ⟨[97], by decide⟩ ⟨[], none⟩, .ok ()),
        (.dispatch ⟨.event true ⟨false, true, false, false⟩, [], ⟨.ok 1, none⟩, []⟩, .ok ()),
        (.send ⟨[98], by decide⟩ ⟨[], none⟩, .ok ())] _ :=
    .cons rfl (.cons rfl (.cons rfl (.one rfl)))
  have harmed := h _ _ hrun rfl (Nat.lt_succ_self 1)
  cases harmed

end OpenWfd.Ctrl
