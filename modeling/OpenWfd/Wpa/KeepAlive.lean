import OpenWfd.Wpa.Resources

/-!
# Wpa — KeepAlive

The PING timer is armed by every open, but registered only once, by `owfd_wpa_ctrl_new`.  When
`dispatch_tfd` fails it takes the timer out of the epoll set, and nothing puts it back: a channel
that is opened again is not watched (`keep_alive_unanswered`).

* `keep_alive`: while no timer event fails, every open leaves the timer armed and watched.
* `watched_iff`: at the end of a run the timer is watched exactly if none has failed.
-/

namespace OpenWfd.Wpa

/-- The PING timer is armed and in the epoll set. -/
structure Watched (w : WpaCtrl) : Prop where
  armed : w.kernel.timer = 10000000
  tfd : w.tfdWatched = true

/-- An open that succeeds leaves the timer armed and watched. -/
def Entry.KeepsAlive : Entry → Prop
  | .opened _ (.ok ()) after           => Watched after
  | .opened _ (.error _) _ | .closed _ => True

/-- The calls do not meet a timer event that `dispatch_tfd` fails on. -/
def steadyLts : Lts Traced (Call × Except Errno (List UInt8)) :=
  ctrlLts.guard fun s l => Steady s l.1

/-- The invariant of a run of steady calls. -/
structure Kept (s : Traced) : Prop where
  sound : Sound s
  tfd : s.tfdWatched = true
  log : ∀ e ∈ s.log, e.KeepsAlive

theorem Kept.note {s : Traced} {w : WpaCtrl} {e : Entry} (h : Kept s) (hs : Sound ⟨w, s.log ++ [e]⟩)
    (htfd : w.tfdWatched = s.tfdWatched) (he : e.KeepsAlive) : Kept ⟨w, s.log ++ [e]⟩ :=
  ⟨hs, htfd.trans h.tfd, List.forall_mem_append.mpr ⟨h.log, List.forall_mem_singleton.mpr he⟩⟩

theorem kept_move {s s' : Traced} (h : Kept s) (m : Move False s s') : Kept s' := by
  have hs := sound_move h.sound m
  cases m with
  | @opened _ _ _ _ r w ho =>
      have htfd := openCtrl_tfd h.sound.now ho
      refine h.note hs htfd ?_
      rcases r with x | _
      · exact trivial
      · have hserve : Serving w := hs.log _ List.mem_concat_self
        exact ⟨by rw [hserve.kernel], htfd.trans h.tfd⟩
  | closed _ hc => exact h.note hs (closeCtrl_spec h.sound.now hc).2 trivial
  | traffic _ req ev => exact ⟨hs, h.tfd, h.log⟩
  | deaf hf _ => exact hf.elim

theorem kept_run {pid : Nat} {counter : UInt64} {ls : List (Call × Except Errno (List UInt8))}
    {s : Traced} (run : steadyLts.Run ⟨.fresh pid counter, []⟩ ls s) : Kept s := by
  refine run.invariant ⟨sound_fresh pid counter, rfl, List.forall_mem_nil _⟩ ?_
  rintro s l s' hs ⟨hsteady, e⟩
  have hmoves : Moves False s s' := moves_exec (fun _ => hsteady) e
  exact closure_invariant hmoves hs fun _ _ => kept_move

/-- **Keep-alive.**  While every `PING` is answered in time, every open that succeeds leaves the
timer armed and watched, and so it stays until the channel is closed. -/
theorem keep_alive {pid : Nat} {counter : UInt64} {ls : List (Call × Except Errno (List UInt8))}
    {s : Traced} (run : steadyLts.Run ⟨.fresh pid counter, []⟩ ls s) :
    (∀ e ∈ s.log, e.KeepsAlive) ∧ (isOpen s.toChannel = true → Watched s.toWpaCtrl) := by
  have h := kept_run run
  refine ⟨h.log, fun hopen => ?_⟩
  rcases h.sound.now with hrest | hserve
  · rw [hrest.closed] at hopen
    cases hopen
  · exact ⟨by rw [hserve.kernel], h.tfd⟩

/-- The timer expires once, and the supplicant answers. -/
theorem keep_alive_answered :
    ∃ ls s, steadyLts.Run ⟨.fresh 7 0, []⟩ ls s ∧ ls.map Prod.snd = [.ok [], .ok []] ∧
      (∀ e ∈ s.log, e.KeepsAlive) ∧ (isOpen s.toChannel = true → Watched s.toWpaCtrl) := by
  have hrun : ∃ s, steadyLts.Run ⟨.fresh 7 0, []⟩
      [(.op (.openCtrl (str "/run/wpa") (some 0)
          ⟨none, ⟨.ok 5, ⟨⟨str "cccccc", rfl⟩, none, none⟩, none, none⟩,
            ⟨.ok 6, ⟨⟨str "dddddd", rfl⟩, none, none⟩, none, none⟩,
            ⟨0, [⟨[], .ready false false, .ok 6, 0⟩], 0,
              [⟨[.answer (str "OK\n")], .ready false false, none, 0⟩]⟩, ⟨0, [], 0, []⟩⟩), .ok []),
        (.dispatch (.ok [.tfd true false (.ok 8) ⟨0, [⟨[], .ready false false, .ok 4, 0⟩], 0,
          [⟨[.answer (str "PONG\n")], .ready false false, none, 0⟩]⟩]), .ok [])] s := by
    refine ⟨_, .cons ⟨trivial, rfl⟩ (.one ⟨?_, rfl⟩)⟩
    rintro -
    refine ⟨⟨rfl, fun _ => ⟨nofun, ?_⟩⟩, fun _ _ _ => trivial⟩
    rintro - r s ⟨⟩
    exact ⟨_, rfl, rfl⟩
  obtain ⟨s, hrun⟩ := hrun
  exact ⟨_, s, hrun, rfl, keep_alive hrun⟩

/-- The supplicant does not answer one `PING`; the channel is closed and opened again, without its
timer. -/
theorem keep_alive_unanswered :
    ¬ ∀ (pid : Nat) (counter : UInt64) (ls : List (Call × Except Errno (List UInt8))) (s : Traced),
      ctrlLts.Run ⟨.fresh pid counter, []⟩ ls s → ∀ e ∈ s.log, e.KeepsAlive := by
  intro h
  let openOk : Call × Except Errno (List UInt8) :=
    (.op (.openCtrl (str "/run/wpa") (some 0)
      ⟨none, ⟨.ok 5, ⟨⟨str "cccccc", rfl⟩, none, none⟩, none, none⟩,
        ⟨.ok 6, ⟨⟨str "dddddd", rfl⟩, none, none⟩, none, none⟩,
        ⟨0, [⟨[], .ready false false, .ok 6, 0⟩], 0,
          [⟨[.answer (str "OK\n")], .ready false false, none, 0⟩]⟩, ⟨0, [], 0, []⟩⟩), .ok [])
  have hrun : ∃ before w s, ctrlLts.Run ⟨.fresh 7 0, []⟩
      [openOk,
        (.dispatch (.ok [.tfd true false (.ok 8) ⟨0, [⟨[], .ready false false, .ok 4, 0⟩], 0,
          [⟨[], .timedOut, none, 10000000⟩]⟩]), .error .ETIMEDOUT),
        (.op (.close ⟨0, [⟨[], .timedOut, .ok 0, 0⟩], 0, []⟩), .ok []), openOk] s ∧
      s.log.getLast? = some (.opened before (.ok ()) w) ∧ w.tfdWatched = false :=
    ⟨_, _, _, .cons rfl (.cons rfl (.cons rfl (.one rfl))), rfl, rfl⟩
  obtain ⟨before, w, s, hrun, hlast, htfd⟩ := hrun
  have hwatched : Watched w := h 7 0 _ s hrun _ (List.mem_of_getLast? hlast)
  rw [hwatched.tfd] at htfd
  cases htfd

/-! ### Exactly when the timer is watched -/

section

variable {s s' : Traced} {r : Except Errno (List UInt8)}

/-- No call puts the timer back. -/
theorem deaf_moves {deaf : Prop} (hs : Sound s) (h : s.tfdWatched = false)
    (m : Moves deaf s s') : Sound s' ∧ s'.tfdWatched = false := by
  refine closure_invariant (I := fun s => Sound s ∧ s.tfdWatched = false) m ⟨hs, h⟩ ?_
  rintro s s' ⟨hs, h⟩ m
  refine ⟨sound_move hs m, ?_⟩
  cases m with
  | opened _ ho => exact (openCtrl_tfd hs.now ho).trans h
  | closed _ hc => exact (closeCtrl_spec hs.now hc).2.trans h
  | traffic _ req ev => exact h
  | deaf _ _ => rfl

theorem sound_event {ev : EpollEvent} (hs : Sound s) (e : dispatchEvent s ev = some (r, s')) :
    Sound s' := by
  have hmoves : Moves True s s' := moves_event (fun hn => absurd trivial hn) e
  exact closure_invariant hmoves hs fun _ _ => sound_move

theorem deaf_event {ev : EpollEvent} (h : ¬ Alive s.toChannel ev)
    (e : dispatchEvent s ev = some (r, s')) : s'.tfdWatched = false := by
  cases ev with
  | ev input broken rounds => exact absurd trivial h
  | req input broken rounds => exact absurd trivial h
  | tfd input broken l a =>
      obtain ⟨c, hc, rfl⟩ := Traced.within_eq e
      obtain ⟨ha, -⟩ | ⟨-, req, rfl⟩ := dispatchTfd_spec hc
      · exact absurd ha h
      · rfl

theorem deaf_events {evs : List EpollEvent} (hs : Sound s) (h : ¬ AllAlive evs s)
    (e : dispatchEvents evs s = some (r, s')) : s'.tfdWatched = false := by
  induction evs generalizing s with
  | nil => exact absurd trivial h
  | cons ev evs ih =>
      unfold dispatchEvents at e
      by_cases halive : Alive s.toChannel ev
      · -- the event is handled, so it is a later one that is not
        have hlater : ∃ b s₁, dispatchEvent s ev = some (.ok b, s₁) ∧ ¬ AllAlive evs s₁ := by
          by_contra hn
          exact h ⟨halive, fun b s₁ hd => by_contra fun hbad => hn ⟨b, s₁, hd, hbad⟩⟩
        obtain ⟨b, s₁, hd, hbad⟩ := hlater
        simp only [hd] at e
        exact ih (sound_event hs hd) hbad e
      · rcases hd : dispatchEvent s ev with _ | ⟨x | b, s₁⟩ <;> simp only [hd] at e
        · cases e
        · cases e
          exact deaf_event halive hd
        · have hmoves : Moves True s₁ s' := moves_events (fun hn => absurd trivial hn) e
          exact (deaf_moves (sound_event hs hd) (deaf_event halive hd) hmoves).2

theorem deaf_exec {call : Call} (hs : Sound s) (h : ¬ Steady s call)
    (e : call.exec s = some (r, s')) : s'.tfdWatched = false := by
  cases call with
  | op o => exact absurd trivial h
  | supplicant req ev => exact absurd trivial h
  | dispatch wait =>
      rcases wait with x | events
      · exact absurd trivial h
      · have hopen : isOpen s.toChannel = true := by
          by_contra hn
          exact h fun ho => absurd ho hn
        rw [Call.exec] at e
        unfold dispatch at e
        rw [if_pos hopen] at e
        exact deaf_events hs (fun hall => h fun _ => hall) e

theorem steady_of_watched {ls : List (Call × Except Errno (List UInt8))} (hs : Sound s)
    (run : ctrlLts.Run s ls s') (h : s'.tfdWatched = true) : steadyLts.Run s ls s' := by
  induction run with
  | nil => exact .nil _
  | @cons s s₁ s' l ls e t ih =>
      have hs₁ : Sound s₁ := closure_invariant (moves_of_exec e) hs fun _ _ => sound_move
      refine .cons ⟨?_, e⟩ (ih hs₁ h)
      by_contra hbad
      have hdeaf : Sound s' ∧ s'.tfdWatched = false := by
        refine t.invariant (I := fun s => Sound s ∧ s.tfdWatched = false)
          ⟨hs₁, deaf_exec hs hbad e⟩ ?_
        rintro s l s' ⟨hs, h⟩ e
        exact deaf_moves hs h (moves_of_exec e)
      rw [hdeaf.2] at h
      cases h

end

/-- **The timer is watched at the end of a run exactly if none of its events has failed.** -/
theorem watched_iff {pid : Nat} {counter : UInt64} {ls : List (Call × Except Errno (List UInt8))}
    {s : Traced} (run : ctrlLts.Run ⟨.fresh pid counter, []⟩ ls s) :
    s.tfdWatched = true ↔ steadyLts.Run ⟨.fresh pid counter, []⟩ ls s :=
  ⟨steady_of_watched (sound_fresh pid counter) run, fun h => (kept_run h).tfd⟩

end OpenWfd.Wpa
