import OpenWfd.Ctrl.Definitions
import Mathlib.Tactic.Common

/-!
# Ctrl — reopening in a callback

A callback may close its channel and open it on another descriptor.  Closing clears `connected`, and
opening leaves it clear, so `connect_done` and `recv_all` take the new channel for a closed one and
answer `-EPIPE`, and `owfd_rtsp_ctrl_dispatch` closes it.  Only a callback that dispatches the new
channel itself, until that is connected, returns with a channel that looks alive; then the outer
dispatch goes on with the new descriptor, and whatever it runs into there, or finds in the event of
the old one, still closes it.

`dispatchCtrl_spec` says which dispatches succeed (`Undisturbed`), and `Tracked` is the invariant by
which a channel that is open is the one opened last.  Together: `reopen_iff`.
-/

namespace OpenWfd.Ctrl

variable {Op : Type} [Callback Op]

/-! ### What a dispatch tells the callback -/

/-- The connect notification, if it is still to come. -/
def greet (c : Channel) : List (Option (List UInt8)) := if c.connected then [] else [none]

/-- The data that `n` rounds of the read loop hand to the callback. -/
def received : Nat → Reads → List (List UInt8)
  | n + 1, .ok bytes :: reads =>
    if bytes.take 4096 = [] then [] else bytes.take 4096 :: received n reads
  | _, _ => []

/-- One of `n` rounds of the read loop fails, and not because it would have to wait. -/
def refused : Nat → Reads → Bool
  | n + 1, .ok bytes :: reads => if bytes.take 4096 = [] then false else refused n reads
  | _ + 1, .error e :: _      => !wouldBlock e
  | _, _                      => false

/-- All that a dispatch with the events `ev` tells the callback. -/
def handed (c : Channel) (ev : Events) (reads : Reads) : List (Option (List UInt8)) :=
  (if ev.input || ev.output then greet c else []) ++
    if ev.input then (received 128 reads).map some else []

/-- The callback is told one thing more. -/
def notify (x : Channel × Scripts Op) : Option (List UInt8) → Channel × Scripts Op
  | none       => callback { x.1 with connected := true } none x.2
  | some bytes => callback (note x.1 (.received x.1.fd bytes)) (some bytes) x.2

/-- Each time the callback returns, the channel is connected. -/
def Stays : Channel × Scripts Op → List (Option (List UInt8)) → Prop
  | _, []      => True
  | x, d :: ds => (notify x d).1.connected = true ∧ Stays (notify x d) ds

/-- The `writev` and the `epoll_ctl` of `send_all` succeed, as far as they are called. -/
structure Sent (c : Channel) (w : WriteAnswers) : Prop where
  writev : c.outRing.peek ≠ [] → ∀ e, w.writev = .error e → wouldBlock e = true
  mod : (c.outRing.peek ≠ [] → ∃ l, w.writev = .ok l ∧ (c.outRing.peek.map List.length).sum ≤ l) →
    w.mod = none

/-- The dispatch runs into nothing: the event is no error, each time the callback returns the
channel is connected, and what follows of reads and writes succeeds. -/
structure Undisturbed (c : Channel) (ev : Events) (a : DispatchAnswers Op) : Prop where
  quiet : ev.hup = false ∧ ev.err = false
  stays : Stays (c, a.scripts) (handed c ev a.reads)
  read : ev.input = true → refused 128 a.reads = false
  sent : ev.output = true → Sent ((handed c ev a.reads).foldl notify (c, a.scripts)).1 a.write

/-! ### Which dispatches succeed -/

section Succeed

variable {c : Channel} {scripts : Scripts Op} {x : Channel × Scripts Op}
  {ds ds' : List (Option (List UInt8))}

theorem stays_append : Stays x (ds ++ ds') ↔ Stays x ds ∧ Stays (ds.foldl notify x) ds' := by
  induction ds generalizing x with
  | nil => simp [Stays]
  | cons d ds ih => simp only [List.cons_append, Stays, List.foldl_cons, ih, and_assoc]

/-- The channel is connected after the last of the calls. -/
theorem Stays.connected (h : Stays x ds) (hx : x.1.connected = true) :
    (ds.foldl notify x).1.connected = true := by
  induction ds generalizing x with
  | nil => exact hx
  | cons d ds ih => exact ih h.2 h.1

/-- **`connect_done`**. -/
theorem connectDone_spec (c : Channel) (scripts : Scripts Op) :
    (Stays (c, scripts) (greet c) ∧
        connectDone c scripts = (.ok (), (greet c).foldl notify (c, scripts)) ∧
        ((greet c).foldl notify (c, scripts)).1.connected = true) ∨
      (¬ Stays (c, scripts) (greet c) ∧ ∃ e x, connectDone c scripts = (.error e, x)) := by
  unfold connectDone greet
  by_cases hc : c.connected = true
  · simp only [if_pos hc]
    exact Or.inl ⟨trivial, rfl, hc⟩
  · simp only [if_neg hc, Stays, and_true, List.foldl_cons, List.foldl_nil]
    by_cases hn : (notify (c, scripts) none).1.connected = true
    · exact Or.inl
        ⟨hn, by rw [if_pos (show (callback _ none scripts).1.connected = true from hn)]; rfl, hn⟩
    · exact Or.inr ⟨hn, .EPIPE, _,
        by rw [if_neg (show ¬ (callback _ none scripts).1.connected = true from hn)]⟩

/-- **The loop of `recv_all`** on a connected channel. -/
theorem recvRounds_spec (hc : c.connected = true) (n : Nat) (reads : Reads) (scripts : Scripts Op) :
    (Stays (c, scripts) ((received n reads).map some) ∧ refused n reads = false ∧
        recvRounds n c reads scripts =
          (.ok (), ((received n reads).map some).foldl notify (c, scripts))) ∨
      (¬ (Stays (c, scripts) ((received n reads).map some) ∧ refused n reads = false) ∧
        ∃ e x, recvRounds n c reads scripts = (.error e, x)) := by
  induction n generalizing c reads scripts with
  | zero => exact Or.inl ⟨trivial, rfl, by simp [recvRounds, received, hc]⟩
  | succ n ih =>
      rcases reads with - | ⟨e | bytes, reads⟩
      · refine Or.inl ⟨trivial, rfl, ?_⟩
        simp [recvRounds, received, hc, wouldBlock]
      · unfold recvRounds
        simp only [List.headD_cons, received, refused, List.map_nil, Stays, true_and]
        by_cases he : wouldBlock e = true
        · exact Or.inl ⟨by simp [he], by simp [he, hc]⟩
        · exact Or.inr ⟨by simp [he], e, (c, scripts), by simp [he]⟩
      · unfold recvRounds
        simp only [List.headD_cons, received, refused]
        by_cases hempty : bytes.take 4096 = []
        · simp only [if_pos hempty, hc]
          exact Or.inl ⟨trivial, trivial, rfl⟩
        · simp only [if_neg hempty, List.map_cons, Stays, List.foldl_cons, List.tail_cons]
          by_cases hn : (notify (c, scripts) (some (bytes.take 4096))).1.connected = true
          · have hn' : (callback (note c (.received c.fd (bytes.take 4096)))
                (some (bytes.take 4096)) scripts).1.connected = true := hn
            simp only [if_pos hn', hn, true_and]
            exact ih hn' reads _
          · have hn' : ¬ (callback (note c (.received c.fd (bytes.take 4096)))
                (some (bytes.take 4096)) scripts).1.connected = true := hn
            simp only [if_neg hn']
            exact Or.inr ⟨fun h => hn h.1.1, _, _, rfl⟩

/-- What `writev` does with the ring: all is written, or not all, or it fails. -/
theorem writevAll_cases (c : Channel) (w : WriteAnswers) : ∃ c', c'.connected = c.connected ∧
    ((writevAll c w.writev = (.ok true, c') ∧ (c.outRing.peek ≠ [] →
        ∃ l, w.writev = .ok l ∧ (c.outRing.peek.map List.length).sum ≤ l)) ∨
      (writevAll c w.writev = (.ok false, c') ∧ c.outRing.peek ≠ [] ∧
        ((∃ e, w.writev = .error e ∧ wouldBlock e = true) ∨
          ∃ l, w.writev = .ok l ∧ l < (c.outRing.peek.map List.length).sum)) ∨
      ∃ e, writevAll c w.writev = (.error e, c') ∧ c.outRing.peek ≠ [] ∧ w.writev = .error e ∧
        wouldBlock e = false) := by
  by_cases hp : c.outRing.peek = []
  · exact ⟨c, rfl, Or.inl ⟨if_pos hp, fun h => absurd hp h⟩⟩
  cases hw : w.writev with
  | error e =>
      have heq : writevAll c (.error e) = (if wouldBlock e then .ok false else .error e, c) :=
        if_neg hp
      refine ⟨c, rfl, Or.inr ?_⟩
      cases he : wouldBlock e with
      | true => exact Or.inl ⟨by rw [heq, he]; rfl, hp, Or.inl ⟨e, rfl, he⟩⟩
      | false => exact Or.inr ⟨e, by rw [heq, he]; rfl, hp, rfl, he⟩
  | ok l =>
      obtain ⟨c', hc', heq⟩ : ∃ c' : Channel, c'.connected = c.connected ∧
          writevAll c (.ok l) = (.ok (!(l < (c.outRing.peek.map List.length).sum)), c') := by
        refine ⟨_, ?_, (if_neg hp).trans (Prod.ext (congrArg Except.ok ?_) rfl)⟩
        · rfl
        · have hmin : ∀ n : Nat, min l n < n ↔ l < n := by omega
          exact congrArg Bool.not (decide_eq_decide.mpr (hmin _))
      refine ⟨c', hc', ?_⟩
      by_cases hl : l < (c.outRing.peek.map List.length).sum
      · exact Or.inr (Or.inl ⟨by rw [heq]; simp [hl], hp, Or.inr ⟨l, rfl, hl⟩⟩)
      · exact Or.inl ⟨by rw [heq]; simp [hl], fun _ => ⟨l, rfl, Nat.le_of_not_lt hl⟩⟩

/-- **`send_all`**. -/
theorem sendAll_sent (c : Channel) (w : WriteAnswers) :
    (Sent c w ∧ ∃ c', sendAll c w = (.ok (), c') ∧ c'.connected = c.connected) ∨
      (¬ Sent c w ∧ ∃ e c', sendAll c w = (.error e, c')) := by
  obtain ⟨c', hc', ⟨heq, hall⟩ | ⟨heq, hp, hshort⟩ | ⟨e, heq, hp, hw, he⟩⟩ :=
    writevAll_cases c w <;>
    simp only [sendAll, heq]
  · cases hmod : w.mod with
    | some e => exact Or.inr ⟨fun h => absurd (hmod.symm.trans (h.mod hall)) nofun, e, c', rfl⟩
    | none =>
        refine Or.inl ⟨⟨fun hp e he => ?_, fun _ => hmod⟩, _, rfl, hc'⟩
        obtain ⟨l, hl, -⟩ := hall hp
        rw [he] at hl
        cases hl
  · refine Or.inl ⟨⟨fun _ e he => ?_, fun h => ?_⟩, c', rfl, hc'⟩
    · rcases hshort with ⟨e', he', hb⟩ | ⟨l, hl, -⟩
      · rw [he] at he'
        cases he'
        exact hb
      · rw [he] at hl
        cases hl
    · obtain ⟨l, hl, hle⟩ := h hp
      rcases hshort with ⟨e', he', -⟩ | ⟨l', hl', hlt⟩
      · rw [hl] at he'
        cases he'
      · rw [hl] at hl'
        cases hl'
        omega
  · exact Or.inr ⟨fun h => Bool.false_ne_true (he.symm.trans (h.writev hp e hw)), e, c', rfl⟩

/-- The `EPOLLIN` half of **`dispatch_ctrl`**. -/
theorem dispatchIn_spec (c : Channel) (reads : Reads) (scripts : Scripts Op) :
    (Stays (c, scripts) (greet c ++ (received 128 reads).map some) ∧ refused 128 reads = false ∧
        dispatchIn c reads scripts =
          (.ok (), (greet c ++ (received 128 reads).map some).foldl notify (c, scripts)) ∧
        ((greet c ++ (received 128 reads).map some).foldl notify (c, scripts)).1.connected = true) ∨
      (¬ (Stays (c, scripts) (greet c ++ (received 128 reads).map some) ∧
        refused 128 reads = false) ∧
        ∃ e x, dispatchIn c reads scripts = (.error e, x)) := by
  unfold dispatchIn
  rw [stays_append, List.foldl_append]
  rcases connectDone_spec c scripts with ⟨hs, heq, hc⟩ | ⟨hs, e, x, heq⟩
  · simp only [heq, recvAll]
    rcases recvRounds_spec hc 128 reads ((greet c).foldl notify (c, scripts)).2 with
      ⟨hr, href, hrun⟩ | ⟨hr, e, x, hrun⟩
    · exact Or.inl ⟨⟨hs, hr⟩, href, hrun, hr.connected hc⟩
    · exact Or.inr ⟨fun h => hr ⟨h.1.2, h.2⟩, e, x, hrun⟩
  · simp only [heq]
    exact Or.inr ⟨fun h => hs h.1.1, e, x, rfl⟩

/-- The `EPOLLOUT` half. -/
theorem dispatchOut_spec (c : Channel) (w : WriteAnswers) (scripts : Scripts Op) :
    (Stays (c, scripts) (greet c) ∧ Sent ((greet c).foldl notify (c, scripts)).1 w ∧
        ∃ c', dispatchOut c w scripts = (.ok (), c') ∧ c'.connected = true) ∨
      (¬ (Stays (c, scripts) (greet c) ∧ Sent ((greet c).foldl notify (c, scripts)).1 w) ∧
        ∃ e c', dispatchOut c w scripts = (.error e, c')) := by
  unfold dispatchOut
  rcases connectDone_spec c scripts with ⟨hs, heq, hc⟩ | ⟨hs, e, x, heq⟩ <;> simp only [heq]
  · rcases sendAll_sent ((greet c).foldl notify (c, scripts)).1 w with
      ⟨hsent, c', heq', hc'⟩ | ⟨hsent, e, c', heq'⟩
    · exact Or.inl ⟨hs, hsent, c', heq', hc'.trans hc⟩
    · exact Or.inr ⟨fun h => hsent h.2, e, c', heq'⟩
  · exact Or.inr ⟨fun h => hs h.1, e, x.1, rfl⟩

theorem greet_connected (h : c.connected = true) : greet c = [] := if_pos h

theorem handed_input {ev : Events} (h : ev.input = true) (reads : Reads) :
    handed c ev reads = greet c ++ (received 128 reads).map some := by
  simp [handed, h]

theorem handed_output {ev : Events} (hin : ev.input = false) (hout : ev.output = true)
    (reads : Reads) : handed c ev reads = greet c := by
  simp [handed, hin, hout]

/-- **`dispatch_ctrl` succeeds exactly if it is undisturbed.** -/
theorem dispatchCtrl_spec (c : Channel) (ev : Events) (a : DispatchAnswers Op) :
    (Undisturbed c ev a ∧ ∃ c', dispatchCtrl c ev a = (.ok (), c') ∧
        (ev.input = true ∨ ev.output = true → c'.connected = true)) ∨
      (¬ Undisturbed c ev a ∧ ∃ e c', dispatchCtrl c ev a = (.error e, c')) := by
  -- the event's own errors come last
  have hquiet : ∀ c' : Channel, ((ev.hup = false ∧ ev.err = false) ∧
      ((if ev.hup || ev.err then .error .EPIPE else .ok (), c') : Except Errno Unit × Channel) =
        (.ok (), c')) ∨
      (¬ (ev.hup = false ∧ ev.err = false) ∧
        ((if ev.hup || ev.err then .error .EPIPE else .ok (), c') : Except Errno Unit × Channel) =
          (.error .EPIPE, c')) := by
    intro c'
    cases ev.hup <;> cases ev.err <;> simp
  unfold dispatchCtrl
  cases hin : ev.input with
  | false =>
      simp only [Bool.false_eq_true, if_false, false_or]
      cases hout : ev.output with
      | false =>
          simp only [Bool.false_eq_true, if_false]
          rcases hquiet c with ⟨hq, heq⟩ | ⟨hq, heq⟩ <;> rw [heq]
          · refine Or.inl ⟨⟨hq, ?_, by simp [hin], by simp [hout]⟩, c, rfl, nofun⟩
            simp [handed, hin, hout, Stays]
          · exact Or.inr ⟨fun h => hq h.quiet, _, c, rfl⟩
      | true =>
          have hh := @handed_output c ev hin hout a.reads
          simp only [if_true]
          rcases dispatchOut_spec c a.write a.scripts with ⟨hs, hsent, c', heq, hc'⟩ |
            ⟨hs, e, c', heq⟩ <;>
            simp only [heq]
          · rcases hquiet c' with ⟨hq, heq'⟩ | ⟨hq, heq'⟩ <;> rw [heq']
            · exact Or.inl ⟨⟨hq, hh ▸ hs, by simp [hin], fun _ => hh ▸ hsent⟩, c', rfl,
                fun _ => hc'⟩
            · exact Or.inr ⟨fun h => hq h.quiet, _, c', rfl⟩
          · exact Or.inr ⟨fun h => hs ⟨hh ▸ h.stays, hh ▸ h.sent hout⟩, e, c', rfl⟩
  | true =>
      have hh := @handed_input c ev hin a.reads
      simp only [if_true]
      rcases dispatchIn_spec c a.reads a.scripts with ⟨hs, href, heq, hc⟩ | ⟨hs, e, x, heq⟩ <;>
        simp only [heq]
      · rw [← hh] at hs hc
        rw [← hh]
        cases hout : ev.output with
        | false =>
            simp only [Bool.false_eq_true, if_false]
            rcases hquiet ((handed c ev a.reads).foldl notify (c, a.scripts)).1 with
              ⟨hq, heq'⟩ | ⟨hq, heq'⟩ <;> rw [heq']
            · exact Or.inl ⟨⟨hq, hs, fun _ => href, by simp [hout]⟩, _, rfl, fun _ => hc⟩
            · exact Or.inr ⟨fun h => hq h.quiet, _, _, rfl⟩
        | true =>
            have hnone := greet_connected hc
            simp only [if_true]
            rcases dispatchOut_spec ((handed c ev a.reads).foldl notify (c, a.scripts)).1 a.write
                ((handed c ev a.reads).foldl notify (c, a.scripts)).2 with
              ⟨-, hsent, c', heq', hc'⟩ | ⟨hbad, e, c', heq'⟩ <;>
              simp only [heq']
            · rw [hnone] at hsent
              rcases hquiet c' with ⟨hq, heq''⟩ | ⟨hq, heq''⟩ <;> rw [heq'']
              · exact Or.inl ⟨⟨hq, hs, fun _ => href, fun _ => hsent⟩, c', rfl, fun _ => hc'⟩
              · exact Or.inr ⟨fun h => hq h.quiet, _, c', rfl⟩
            · rw [hnone] at hbad
              exact Or.inr ⟨fun h => hbad ⟨trivial, h.sent hout⟩, e, c', rfl⟩
      · rw [← hh] at hs
        exact Or.inr ⟨fun h => hs ⟨h.stays, h.read hin⟩, e, x.1, rfl⟩

end Succeed

/-! ### The channel that was opened last -/

/-- The descriptor and the callback that an event opens. -/
def Event.opening : Event → Option (Int × Option Nat)
  | .opened fd cb => some (fd, cb)
  | _             => none

/-- What was opened last. -/
def lastOpened (log : List Event) : Option (Int × Option Nat) :=
  (log.filterMap Event.opening).getLast?

/-- If the channel is open, it is on the descriptor that was opened last after the first `n` entries
of the log; and it is not connected unless it is open. -/
structure Tracked (n : Nat) (c : Channel) : Prop where
  within : n ≤ c.log.length
  linked : c.connected = true → isOpen c = true
  last : isOpen c = true → ∀ fd cb, lastOpened (c.log.drop n) = some (fd, cb) →
    c.fd = fd ∧ c.cb = cb

section Track

variable {n : Nat} {c c' : Channel}

theorem lastOpened_concat (h : n ≤ c.log.length) (e : Event) :
    lastOpened ((c.log ++ [e]).drop n) =
      (match e.opening with
        | some x => some x
        | none   => lastOpened (c.log.drop n)) := by
  rw [List.drop_append_of_le_length h, lastOpened, List.filterMap_append]
  cases he : e.opening with
  | none => simp [he, lastOpened]
  | some x => simp [he]

/-- Events that open nothing, and changes elsewhere. -/
theorem Tracked.congr (h : Tracked n c) (hfd : c'.fd = c.fd) (hcb : c'.cb = c.cb)
    (hconn : c'.connected = true → c.connected = true ∨ isOpen c = true)
    (hlog : c'.log = c.log ∨ ∃ e, c'.log = c.log ++ [e] ∧ e.opening = none) : Tracked n c' := by
  have hopen : isOpen c' = isOpen c := by rw [isOpen, isOpen, hfd]
  have hlast : n ≤ c'.log.length ∧ lastOpened (c'.log.drop n) = lastOpened (c.log.drop n) := by
    rcases hlog with hlog | ⟨e, hlog, he⟩
    · rw [hlog]
      exact ⟨h.within, rfl⟩
    · rw [hlog, lastOpened_concat h.within, he, List.length_append]
      exact ⟨Nat.le_add_right_of_le h.within, rfl⟩
  refine ⟨hlast.1, fun hc => ?_, fun ho fd cb hl => ?_⟩
  · rw [hopen]
    exact (hconn hc).elim h.linked id
  · rw [hopen] at ho
    rw [hlast.2] at hl
    rw [hfd, hcb]
    exact h.last ho fd cb hl

theorem isOpen_close (c : Channel) : isOpen (close c) = false := by
  unfold close
  split_ifs with hopen
  · rfl
  · exact Bool.eq_false_iff.mpr hopen

theorem connected_close (h : Tracked n c) : (close c).connected = false := by
  unfold close
  split_ifs with hopen
  · rfl
  · exact Bool.eq_false_iff.mpr fun hc => hopen (h.linked hc)

theorem tracked_close (h : Tracked n c) : Tracked n (close c) := by
  refine ⟨?_, fun hc => ?_, fun ho => ?_⟩
  · unfold close
    split_ifs
    · rw [note_log, List.length_append]
      exact Nat.le_add_right_of_le h.within
    · exact h.within
  · exact absurd hc (by rw [connected_close h]; exact Bool.false_ne_true)
  · exact absurd ho (by rw [isOpen_close]; exact Bool.false_ne_true)

theorem tracked_openTcpFd (h : Tracked n c) (fd : Int) (cb : Option Nat) (a : OpenAnswers) :
    Tracked n (openTcpFd c fd cb a).2 := by
  unfold openTcpFd
  split_ifs with hopen hneg
  · exact h
  · exact h
  · rcases a with ⟨_ | x, _ | y, _ | z⟩
    · refine ⟨?_, nofun, fun _ fd' cb' hl => ?_⟩
      · rw [note_log, List.length_append]
        exact Nat.le_add_right_of_le h.within
      · have hl' : lastOpened ((c.log ++ [Event.opened fd cb]).drop n) = some (fd', cb') := hl
        rw [lastOpened_concat h.within] at hl'
        cases hl'
        exact ⟨rfl, rfl⟩
    all_goals exact h

theorem tracked_send (h : Tracked n c) (buf : List UInt8) (a : SendAnswers) :
    Tracked n (send c buf a).2 := by
  obtain ⟨heap, mod⟩ := a
  unfold send
  split_ifs
  · dsimp only
    rcases c.outRing.push buf heap with ⟨x | _, ring, heap⟩
    · exact h.congr rfl rfl Or.inl (Or.inl rfl)
    · dsimp only
      split_ifs
      · cases mod with
        | none => exact h.congr rfl rfl Or.inl (Or.inr ⟨_, rfl, rfl⟩)
        | some x => exact h.congr rfl rfl Or.inl (Or.inr ⟨_, rfl, rfl⟩)
      · exact h.congr rfl rfl Or.inl (Or.inr ⟨_, rfl, rfl⟩)
  · exact h

theorem tracked_op (h : Tracked n c) (o : CbOp) : Tracked n (o.run c) := by
  cases o with
  | openTcpFd fd cb a => exact tracked_openTcpFd h fd cb a
  | close => exact tracked_close h
  | send buf a => exact tracked_send h buf a

/-- The calls of a callback keep the invariant. -/
def Keeps (Op : Type) [Callback Op] (n : Nat) : Prop :=
  ∀ (c : Channel) (o : Op), Tracked n c → Tracked n (Callback.run c o)

theorem tracked_callback (k : Keeps Op n) (h : Tracked n c) (data : Option (List UInt8))
    (scripts : Scripts Op) : Tracked n (callback c data scripts).1 := by
  have hops : ∀ (os : List Op) (c : Channel), Tracked n c →
      Tracked n (os.foldl Callback.run c) := by
    intro os
    induction os with
    | nil => exact fun c h => h
    | cons o os ih => exact fun c h => ih _ (k c o h)
  unfold callback
  cases c.cb with
  | none => exact h
  | some cb => exact hops _ _ (h.congr rfl rfl Or.inl (Or.inr ⟨_, rfl, rfl⟩))

theorem tracked_connectDone (k : Keeps Op n) (h : Tracked n c) (hopen : isOpen c = true)
    (scripts : Scripts Op) : Tracked n (connectDone c scripts).2.1 := by
  unfold connectDone
  split_ifs
  · exact h
  · have hconn : Tracked n { c with connected := true } :=
      h.congr rfl rfl (fun _ => Or.inr hopen) (Or.inl rfl)
    exact tracked_callback k hconn none scripts

theorem tracked_recvRounds (k : Keeps Op n) (h : Tracked n c) (rounds : Nat) (reads : Reads)
    (scripts : Scripts Op) : Tracked n (recvRounds rounds c reads scripts).2.1 := by
  induction rounds generalizing c reads scripts with
  | zero => exact h
  | succ rounds ih =>
      unfold recvRounds
      cases reads.headD (.error .EAGAIN) with
      | error e =>
          dsimp only
          split_ifs <;> exact h
      | ok bytes =>
          have hnote : Tracked n (note c (.received c.fd (bytes.take 4096))) :=
            h.congr rfl rfl Or.inl (Or.inr ⟨_, rfl, rfl⟩)
          have hcall := tracked_callback k hnote (some (bytes.take 4096)) scripts
          dsimp only
          by_cases hempty : bytes.take 4096 = []
          · rw [if_pos hempty]
            exact h
          · rw [if_neg hempty]
            split_ifs
            · exact ih hcall _ _
            · exact hcall

theorem tracked_sendAll (h : Tracked n c) (w : WriteAnswers) : Tracked n (sendAll c w).2 := by
  have hw : Tracked n (writevAll c w.writev).2 := by
    unfold writevAll
    dsimp only
    split_ifs
    · exact h
    · cases w.writev with
      | error e => exact h
      | ok l => exact h.congr rfl rfl Or.inl (Or.inr ⟨_, rfl, rfl⟩)
  unfold sendAll
  rcases hr : writevAll c w.writev with ⟨e | _ | _, c'⟩ <;> rw [hr] at hw
  · exact hw
  · exact hw
  · cases w.mod with
    | none => exact hw.congr rfl rfl Or.inl (Or.inl rfl)
    | some e => exact hw

/-- **`dispatch_ctrl`** on an open channel. -/
theorem tracked_dispatchCtrl (k : Keeps Op n) (h : Tracked n c) (hopen : isOpen c = true)
    (ev : Events) (a : DispatchAnswers Op) : Tracked n (dispatchCtrl c ev a).2 := by
  have hin : Tracked n (dispatchIn c a.reads a.scripts).2.1 := by
    have hc := tracked_connectDone k h hopen a.scripts
    unfold dispatchIn
    rcases hd : connectDone c a.scripts with ⟨e | _, c', scripts⟩ <;> rw [hd] at hc
    · exact hc
    · exact tracked_recvRounds k hc 128 a.reads scripts
  have hout : ∀ {c : Channel} (scripts : Scripts Op), Tracked n c → isOpen c = true →
      Tracked n (dispatchOut c a.write scripts).2 := by
    intro c scripts h hopen
    have hc := tracked_connectDone k h hopen scripts
    unfold dispatchOut
    rcases hd : connectDone c scripts with ⟨e | _, c', scripts'⟩ <;> rw [hd] at hc
    · exact hc
    · exact tracked_sendAll hc a.write
  unfold dispatchCtrl
  cases ev.input with
  | false =>
      cases ev.output with
      | false => exact h
      | true =>
          have ho := hout a.scripts h hopen
          simp only [Bool.false_eq_true, if_false, if_true]
          rcases hd : dispatchOut c a.write a.scripts with ⟨e | _, c'⟩ <;>
            rw [hd] at ho <;> exact ho
  | true =>
      simp only [if_true]
      rcases dispatchIn_spec c a.reads a.scripts with ⟨-, -, heq, hconn⟩ | ⟨-, e, x, heq⟩ <;>
        rw [heq] at hin <;> simp only [heq]
      · cases ev.output with
        | false => exact hin
        | true =>
            generalize (greet c ++ (received 128 a.reads).map some).foldl notify (c, a.scripts) = x
              at hin hconn
            have ho := hout x.2 hin (hin.linked hconn)
            simp only [if_true]
            rcases hd : dispatchOut x.1 a.write x.2 with ⟨e | _, c'⟩ <;> rw [hd] at ho <;> exact ho
      · exact hin

theorem tracked_dispatch (k : Keeps Op n) (h : Tracked n c) (a : DispatchAnswers Op) :
    Tracked n (dispatch c a).2 := by
  unfold dispatch
  by_cases hopen : isOpen c = true
  · rw [if_pos hopen]
    rcases a.wait with e | _ | ⟨_ | _, ev⟩
    · exact h
    · exact h
    · exact h
    · have hd := tracked_dispatchCtrl k h hopen ev a
      dsimp only
      rcases hr : dispatchCtrl c ev a with ⟨e | _, c'⟩ <;> rw [hr] at hd
      · exact tracked_close hd
      · exact hd
  · rw [if_neg hopen]
    exact h

/-- Dispatches in callbacks of dispatches keep it, however deep. -/
theorem keeps_deep (n : Nat) : ∀ k, Keeps (Deep k) n
  | 0 => fun _ (o : CbOp) h => tracked_op h o
  | k + 1 => fun _ (o : Nested (Deep k)) h =>
    match o with
    | .op o       => tracked_op h o
    | .dispatch a => tracked_dispatch (keeps_deep n k) h a

end Track

/-! ### Reopening -/

/-- The channel is open on the descriptor, with the callback. -/
def Survives (c : Channel) (fd : Int) (cb : Option Nat) : Prop :=
  isOpen c = true ∧ c.fd = fd ∧ c.cb = cb

section Reopen

variable {c : Channel} {a : DispatchAnswers Op} {ev : Events}

theorem dispatch_event (hopen : isOpen c = true) (hwait : a.wait = .event true ev) :
    dispatch c a =
      match dispatchCtrl c ev a with
      | (.error e, c) => (.error e, close c)
      | (.ok (), c)   => (.ok (), c) := by
  rcases hr : dispatchCtrl c ev a with ⟨e | _, c'⟩ <;> simp [dispatch, hopen, hwait, hr]

/-- Without an event of its socket the channel stays as it is. -/
theorem dispatch_nothing (h : isOpen c = true → ∀ ev, a.wait ≠ .event true ev) :
    (dispatch c a).2 = c := by
  unfold dispatch
  split_ifs with hopen
  · have hwait := h hopen
    generalize a.wait = wait at hwait
    rcases wait with e | _ | ⟨_ | _, ev⟩
    · rfl
    · rfl
    · rfl
    · exact absurd rfl (hwait ev)
  · rfl

theorem dispatchCtrl_idle (hin : ev.input = false) (hout : ev.output = false) :
    (dispatchCtrl c ev a).2 = c := by
  simp [dispatchCtrl, hin, hout]

theorem lastOpened_start (c : Channel) : lastOpened (c.log.drop c.log.length) = none := by
  rw [List.drop_length]
  rfl

/-- **Reopening.**  A channel that callbacks opened in a dispatch, last of all, outlives the
dispatch exactly if nothing disturbs that: the event is no error, each callback returns with the
channel connected, and what follows of reads and writes succeeds.  The callbacks may themselves
dispatch the channel, to any depth. -/
theorem reopen_iff {k : Nat} (c : Channel) (a : DispatchAnswers (Deep k)) {fd : Int}
    {cb : Option Nat} (h : lastOpened ((dispatch c a).2.log.drop c.log.length) = some (fd, cb)) :
    Survives (dispatch c a).2 fd cb ↔ ∃ ev, a.wait = .event true ev ∧ Undisturbed c ev a := by
  have hsame : (dispatch c a).2 ≠ c := by
    intro hc
    rw [hc, lastOpened_start] at h
    cases h
  obtain ⟨hopen, ev, hwait⟩ : isOpen c = true ∧ ∃ ev, a.wait = .event true ev := by
    by_contra hno
    exact hsame (dispatch_nothing fun ho ev he => hno ⟨ho, ev, he⟩)
  have hstart : Tracked c.log.length c :=
    ⟨Nat.le_refl _, fun _ => hopen, fun _ fd cb hl => absurd (lastOpened_start c ▸ hl) nofun⟩
  have hlast := (tracked_dispatch (keeps_deep _ k) hstart a).last
  have hctrl := tracked_dispatchCtrl (keeps_deep _ k) hstart hopen ev a
  have hev : (∃ ev, a.wait = .event true ev ∧ Undisturbed c ev a) ↔ Undisturbed c ev a := by
    constructor
    · rintro ⟨ev', he, hu⟩
      rw [hwait] at he
      cases he
      exact hu
    · exact fun hu => ⟨ev, hwait, hu⟩
  rw [hev]
  have heq := dispatch_event hopen hwait
  rcases dispatchCtrl_spec c ev a with ⟨hu, c', hr, hconn⟩ | ⟨hu, e, c', hr⟩ <;>
    rw [hr] at heq hctrl
  · have hio : ev.input = true ∨ ev.output = true := by
      by_contra hno
      rw [not_or, Bool.not_eq_true, Bool.not_eq_true] at hno
      have hidle := dispatchCtrl_idle (c := c) (a := a) hno.1 hno.2
      rw [hr] at hidle
      exact hsame (by rw [heq]; exact hidle)
    have ho : isOpen (dispatch c a).2 = true := by
      rw [heq]
      exact hctrl.linked (hconn hio)
    exact iff_of_true ⟨ho, hlast ho fd cb h⟩ hu
  · refine iff_of_false (fun hs => ?_) hu
    rw [heq] at hs
    exact Bool.false_ne_true ((isOpen_close c').symm.trans hs.1)

/-- If anything was opened after the first `n` entries of the log, the channel is not connected. -/
def Unconnected (n : Nat) (c : Channel) : Prop :=
  n ≤ c.log.length ∧ (lastOpened (c.log.drop n) ≠ none → c.connected = false)

theorem Unconnected.note {n : Nat} (h : Unconnected n c) {e : Event} (he : e.opening = none) :
    Unconnected n (note c e) := by
  refine ⟨?_, fun hl => h.2 ?_⟩
  · rw [note_log, List.length_append]
    exact Nat.le_add_right_of_le h.1
  · rwa [note_log, lastOpened_concat h.1, he] at hl

theorem unconnected_op {n : Nat} (h : Unconnected n c) (o : CbOp) : Unconnected n (o.run c) := by
  cases o with
  | openTcpFd fd cb a =>
      simp only [CbOp.run]
      unfold openTcpFd
      split_ifs
      · exact h
      · exact h
      · rcases a with ⟨_ | x, _ | y, _ | z⟩
        · refine ⟨?_, fun _ => rfl⟩
          rw [note_log, List.length_append]
          exact Nat.le_add_right_of_le h.1
        all_goals exact h
  | close =>
      simp only [CbOp.run]
      unfold close
      split_ifs
      · refine ⟨?_, fun _ => rfl⟩
        rw [note_log, List.length_append]
        exact Nat.le_add_right_of_le h.1
      · exact h
  | send buf a =>
      obtain ⟨heap, mod⟩ := a
      simp only [CbOp.run]
      unfold send
      split_ifs
      · dsimp only
        rcases c.outRing.push buf heap with ⟨x | _, ring, heap⟩
        · exact h
        · have hnote := @Unconnected.note { c with outRing := ring } n h
            (.pushed buf (armed c) (c.outRing.peek = [] : Bool) mod.isSome) rfl
          dsimp only
          split_ifs
          · cases mod with
            | none => exact hnote
            | some x => exact hnote
          · exact hnote
      · exact h

/-- Only a dispatch connects a channel that a callback has opened: one that sends, closes and opens
leaves it unconnected. -/
theorem callback_unconnected (data : Option (List UInt8)) (scripts : Scripts)
    (h : lastOpened ((callback c data scripts).1.log.drop c.log.length) ≠ none) :
    (callback c data scripts).1.connected = false := by
  have hstart : Unconnected c.log.length c :=
    ⟨Nat.le_refl _, fun hl => absurd (lastOpened_start c) hl⟩
  have hops : ∀ (os : List CbOp) (c' : Channel), Unconnected c.log.length c' →
      Unconnected c.log.length (os.foldl CbOp.run c') := by
    intro os
    induction os with
    | nil => exact fun c' h => h
    | cons o os ih => exact fun c' h => ih _ (unconnected_op h o)
  revert h
  unfold callback
  cases c.cb with
  | none => exact hstart.2
  | some cb => exact (hops _ _ (hstart.note rfl)).2

end Reopen

/-- A channel on descriptor 3. -/
def waiting : Channel := (openTcpFd .fresh 3 (some 1) ⟨none, none, none⟩).2

/-- A callback closes the channel and opens it on descriptor 5. -/
def again : List CbOp := [.close, .openTcpFd 5 (some 2) ⟨none, none, none⟩]

/-- The callback of the connect notification reopens the channel and dispatches it: the channel is
connected when the callback returns, a byte is read from it, and it survives. -/
theorem reopen_iff_dispatched :
    let a : DispatchAnswers (Deep 1) := ⟨.event true ⟨true, true, false, false⟩, [.ok [120]],
      ⟨.ok 0, none⟩, [again.map .op ++ [.dispatch ⟨.event true ⟨false, true, false, false⟩, [],
        ⟨.ok 0, none⟩, []⟩]]⟩
    Survives (dispatch waiting a).2 5 (some 2) := by
  intro a
  refine (reopen_iff waiting a (by decide)).mpr ⟨_, rfl, ⟨rfl, rfl⟩, ?_, fun _ => rfl, ?_⟩
  · exact ⟨by decide, by decide, trivial⟩
  · refine fun _ => ⟨fun _ e he => ?_, fun _ => rfl⟩
    cases he

/-- The callback of the connect notification reopens the channel and returns: the dispatch closes
it. -/
theorem reopen_lost :
    ¬ ∀ (k : Nat) (c : Channel) (a : DispatchAnswers (Deep k)) (fd : Int) (cb : Option Nat),
      lastOpened ((dispatch c a).2.log.drop c.log.length) = some (fd, cb) →
        Survives (dispatch c a).2 fd cb := by
  intro hall
  have h := hall 0 waiting ⟨.event true ⟨false, true, false, false⟩, [], ⟨.ok 0, none⟩, [again]⟩ 5
    (some 2) (by decide)
  exact absurd h.1 (by decide)

end OpenWfd.Ctrl
