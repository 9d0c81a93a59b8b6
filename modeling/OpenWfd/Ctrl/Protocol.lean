import OpenWfd.Ctrl.Acts

/-!
# Ctrl — the callback protocol

What a callback can rely on.  `protocol` is an automaton over what the channel does: a period begins
with `opened`, its first callback call is the connect notification, then every read is delivered
before anything else is done, and nothing is delivered after `closed`.

* `run_follows`: the log of every run is a run of the automaton.  `connected` is the only guard:
  it is set right before the connect notification, and a callback that closes the channel clears it,
  also when it opens another descriptor at once.
* `callback_protocol`: what the automaton says of the events of one open period.
-/

namespace OpenWfd.Ctrl

/-! ### The protocol -/

/-- Where an open period is: over, or not begun; without a callback call so far; connected; with
bytes read that are not delivered yet. -/
inductive Phase where
  | shut
  | waiting (fd : Int) (cb : Option Nat)
  | connected (fd : Int) (cb : Nat)
  | holding (fd : Int) (cb : Nat) (bytes : List UInt8)

/-- What may happen next. -/
inductive Phase.Next : Phase → Event → Phase → Prop where
  | opened (fd : Int) (cb : Option Nat) : Next .shut (.opened fd cb) (.waiting fd cb)
  | connect (fd : Int) (cb : Nat) :
      Next (.waiting fd (some cb)) (.called cb none) (.connected fd cb)
  | unheard (fd : Int) (bytes : List UInt8) :
      Next (.waiting fd none) (.received fd bytes) (.waiting fd none)
  | read (fd : Int) (cb : Nat) {bytes : List UInt8} (hmin : 1 ≤ bytes.length)
      (hmax : bytes.length ≤ 4096) :
      Next (.connected fd cb) (.received fd bytes) (.holding fd cb bytes)
  | deliver (fd : Int) (cb : Nat) (bytes : List UInt8) :
      Next (.holding fd cb bytes) (.called cb (some bytes)) (.connected fd cb)
  | closeWaiting (fd : Int) (cb : Option Nat) : Next (.waiting fd cb) .closed .shut
  | closeConnected (fd : Int) (cb : Nat) : Next (.connected fd cb) .closed .shut
  | pushed (p : Phase) (buf : List UInt8) (armed empty refused : Bool) :
      Next p (.pushed buf armed empty refused) p
  | wrote (p : Phase) (bytes : List UInt8) : Next p (.wrote bytes) p

def protocol : Lts Phase Event := ⟨Phase.Next⟩

/-! ### The channel follows it -/

/-- The channel is in the phase.  It never rests with bytes that are not delivered. -/
def Phase.Of (c : Channel) : Phase → Prop
  | .shut            => isOpen c = false ∧ c.connected = false
  | .waiting fd cb   => isOpen c = true ∧ c.fd = fd ∧ c.cb = cb ∧ (cb ≠ none → c.connected = false)
  | .connected fd cb => isOpen c = true ∧ c.fd = fd ∧ c.cb = some cb ∧ c.connected = true
  | .holding _ _ _   => False

/-- The log is a run of the protocol, to the phase the channel is in. -/
def Follows (c : Channel) : Prop := ∃ p : Phase, protocol.Run .shut c.log p ∧ p.Of c

theorem follows_fresh : Follows .fresh := ⟨.shut, .nil _, rfl, rfl⟩

section

variable {c c' : Channel}

/-- A connected channel is open. -/
theorem Follows.isOpen (h : Follows c) (hc : c.connected = true) : isOpen c = true := by
  obtain ⟨p, -, hp⟩ := h
  cases p with
  | shut => exact absurd hc (by rw [hp.2]; exact Bool.false_ne_true)
  | waiting fd cb => exact hp.1
  | connected fd cb => exact hp.1
  | holding fd cb bytes => exact hp.elim

theorem follows_openTcpFd (h : Follows c) {fd : Int} {cb : Option Nat} {a : OpenAnswers}
    {r : Except Errno Unit} (e : openTcpFd c fd cb a = (r, c')) : Follows c' := by
  rcases openTcpFd_spec e with ⟨-, rfl⟩ | ⟨-, hshut, hfd, rfl⟩
  · exact h
  obtain ⟨p, hrun, hp⟩ := h
  cases p with
  | shut =>
      exact ⟨.waiting fd cb, hrun.concat (.opened fd cb), decide_eq_true hfd, rfl, rfl,
        fun _ => rfl⟩
  | waiting fd' cb' => exact (Bool.false_ne_true (hshut.symm.trans hp.1)).elim
  | connected fd' cb' => exact (Bool.false_ne_true (hshut.symm.trans hp.1)).elim
  | holding fd' cb' bytes => exact hp.elim

theorem follows_close (h : Follows c) : Follows (close c) := by
  unfold close
  split_ifs with hopen
  · obtain ⟨p, hrun, hp⟩ := h
    cases p with
    | shut => exact (Bool.false_ne_true (hp.1.symm.trans hopen)).elim
    | waiting fd cb => exact ⟨.shut, hrun.concat (.closeWaiting fd cb), rfl, rfl⟩
    | connected fd cb => exact ⟨.shut, hrun.concat (.closeConnected fd cb), rfl, rfl⟩
    | holding fd cb bytes => exact hp.elim
  · exact h

/-- What leaves the phase alone, apart from an event that no phase minds. -/
theorem Follows.note (h : Follows c) {e : Event} (he : ∀ p, Phase.Next p e p)
    (hc' : c' = Ctrl.note c e) : Follows c' := by
  subst hc'
  obtain ⟨p, hrun, hp⟩ := h
  exact ⟨p, hrun.concat (he p), by cases p <;> exact hp⟩

theorem Follows.register (h : Follows c) (fd : Int) (ev : Events) : Follows (register c fd ev) := by
  obtain ⟨p, hrun, hp⟩ := h
  exact ⟨p, hrun, by cases p <;> exact hp⟩

theorem Follows.setRing (h : Follows c) (ring : ShlRing) : Follows { c with outRing := ring } := by
  obtain ⟨p, hrun, hp⟩ := h
  exact ⟨p, hrun, by cases p <;> exact hp⟩

theorem follows_send (h : Follows c) (buf : List UInt8) (a : SendAnswers) :
    Follows (send c buf a).2 := by
  obtain ⟨heap, mod⟩ := a
  unfold send
  split_ifs
  · dsimp only
    rcases c.outRing.push buf heap with ⟨x | _, ring, heap⟩
    · exact h.setRing ring
    · have hpush := (h.setRing ring).note (fun p => .pushed p buf (armed c)
        (c.outRing.peek = [] : Bool) mod.isSome) rfl
      dsimp only
      split_ifs
      · cases mod with
        | none => exact hpush.register c.fd .all
        | some x => exact hpush
      · exact hpush
  · exact h

theorem follows_sendAll (h : Follows c) (a : WriteAnswers) : Follows (sendAll c a).2 := by
  have hw : Follows (writevAll c a.writev).2 := by
    unfold writevAll
    dsimp only
    split_ifs
    · exact h
    · rcases a.writev with x | l
      · exact h
      · exact h.note (fun p => .wrote p _) rfl
  unfold sendAll
  rcases hr : writevAll c a.writev with ⟨x | _ | _, c'⟩ <;> rw [hr] at hw
  · exact hw
  · exact hw
  · rcases a.mod with _ | x
    · exact hw.register c'.fd .quiet
    · exact hw

theorem follows_ops (h : Follows c) (os : List CbOp) : Follows (os.foldl CbOp.run c) := by
  induction os generalizing c with
  | nil => exact h
  | cons o os ih =>
      refine ih ?_
      cases o with
      | openTcpFd fd cb a => exact follows_openTcpFd h rfl
      | close => exact follows_close h
      | send buf a => exact follows_send h buf a

theorem callback_none (h : c.cb = none) (data : Option (List UInt8)) (scripts : Scripts) :
    callback c data scripts = (c, scripts) := by
  rw [callback, h]

theorem callback_some {cb : Nat} (h : c.cb = some cb) (data : Option (List UInt8))
    (scripts : Scripts) :
    callback c data scripts =
      ((scripts.headD []).foldl CbOp.run (Ctrl.note c (.called cb data)), scripts.tail) := by
  rw [callback, h]
  rfl

/-- **The connect notification** is the first call of its period. -/
theorem follows_connectDone (h : Follows c) (hopen : isOpen c = true) (scripts : Scripts) :
    Follows (connectDone c scripts).2.1 := by
  unfold connectDone
  split_ifs with hc
  · exact h
  obtain ⟨p, hrun, hp⟩ := h
  cases p with
  | shut => exact (Bool.false_ne_true (hp.1.symm.trans hopen)).elim
  | holding fd cb bytes => exact hp.elim
  | connected fd cb => exact absurd hp.2.2.2 hc
  | waiting fd cb =>
      obtain ⟨-, hfd, hcb, -⟩ := hp
      cases cb with
      | none =>
          have hcall := callback_none (c := { c with connected := true }) hcb none scripts
          simp only [hcall]
          exact ⟨.waiting fd none, hrun, hopen, hfd, hcb, fun hne => absurd rfl hne⟩
      | some cb =>
          have hcall := callback_some (c := { c with connected := true }) hcb none scripts
          simp only [hcall]
          refine follows_ops ⟨.connected fd cb, hrun.concat (.connect fd cb), ?_⟩ _
          exact ⟨hopen, hfd, hcb, rfl⟩

theorem connectDone_ok {scripts scripts' : Scripts}
    (e : connectDone c scripts = (.ok (), c', scripts')) : c'.connected = true := by
  unfold connectDone at e
  split_ifs at e with hc
  · cases e
    exact hc
  · rcases hcb : callback { c with connected := true } none scripts with ⟨c₁, scripts₁⟩
    simp only [hcb] at e
    split_ifs at e with h₁
    · cases e
      exact h₁
    · cases e

/-- **A read** is delivered at once. -/
theorem follows_read (h : Follows c) (hc : c.connected = true) {bytes : List UInt8}
    (hne : bytes ≠ []) (hmax : bytes.length ≤ 4096) (scripts : Scripts) :
    Follows (callback (Ctrl.note c (.received c.fd bytes)) (some bytes) scripts).1 := by
  obtain ⟨p, hrun, hp⟩ := h
  have hmin : 1 ≤ bytes.length := List.length_pos_of_ne_nil hne
  cases p with
  | shut => exact absurd hc (by rw [hp.2]; exact Bool.false_ne_true)
  | holding fd cb bytes => exact hp.elim
  | waiting fd cb =>
      obtain ⟨hopen, rfl, hcb, hwait⟩ := hp
      cases cb with
      | some cb =>
          exact absurd hc (by rw [hwait (Option.some_ne_none cb)]; exact Bool.false_ne_true)
      | none =>
          rw [callback_none (c := Ctrl.note c (.received c.fd bytes)) hcb]
          exact ⟨.waiting c.fd none, hrun.concat (.unheard c.fd bytes), hopen, rfl, hcb, hwait⟩
  | connected fd cb =>
      obtain ⟨hopen, rfl, hcb, -⟩ := hp
      rw [callback_some (c := Ctrl.note c (.received c.fd bytes)) hcb]
      dsimp only
      have hread := (hrun.concat (.read c.fd cb hmin hmax)).concat (.deliver c.fd cb bytes)
      have hf : Follows
          (Ctrl.note (Ctrl.note c (.received c.fd bytes)) (.called cb (some bytes))) :=
        ⟨.connected c.fd cb, hread, hopen, rfl, hcb, hc⟩
      exact follows_ops hf _

theorem follows_recvRounds (rounds : Nat) (h : Follows c) (hc : c.connected = true) (reads : Reads)
    (scripts : Scripts) :
    Follows (recvRounds rounds c reads scripts).2.1 ∧
      ((recvRounds rounds c reads scripts).1 = .ok () →
        (recvRounds rounds c reads scripts).2.1.connected = true) := by
  induction rounds generalizing c reads scripts with
  | zero => exact ⟨h, fun _ => hc⟩
  | succ rounds ih =>
      unfold recvRounds
      cases reads.headD (.error .EAGAIN) with
      | error e =>
          dsimp only
          split_ifs <;> exact ⟨h, fun _ => hc⟩
      | ok bytes =>
          dsimp only
          by_cases hempty : bytes.take 4096 = []
          · rw [if_pos hempty]
            exact ⟨h, fun _ => hc⟩
          · rw [if_neg hempty]
            have hread := follows_read h hc hempty (List.length_take_le 4096 bytes) scripts
            rcases hcb : callback (Ctrl.note c (.received c.fd (bytes.take 4096)))
              (some (bytes.take 4096)) scripts with ⟨c', scripts'⟩
            rw [hcb] at hread
            dsimp only at hread ⊢
            split_ifs with hc'
            · exact ih hread hc' reads.tail scripts'
            · refine ⟨hread, ?_⟩
              intro hok
              cases hok

theorem follows_dispatchIn (h : Follows c) (hopen : isOpen c = true) (reads : Reads)
    (scripts : Scripts) :
    Follows (dispatchIn c reads scripts).2.1 ∧
      ((dispatchIn c reads scripts).1 = .ok () →
        (dispatchIn c reads scripts).2.1.connected = true) := by
  have hd := follows_connectDone h hopen scripts
  unfold dispatchIn
  rcases hr : connectDone c scripts with ⟨e | _, c', scripts'⟩ <;> rw [hr] at hd
  · refine ⟨hd, ?_⟩
    intro hok
    cases hok
  · exact follows_recvRounds 128 hd (connectDone_ok hr) reads scripts'

theorem follows_dispatchOut (h : Follows c) (hopen : isOpen c = true) (w : WriteAnswers)
    (scripts : Scripts) : Follows (dispatchOut c w scripts).2 := by
  have hd := follows_connectDone h hopen scripts
  unfold dispatchOut
  rcases hr : connectDone c scripts with ⟨e | _, c', scripts'⟩ <;> rw [hr] at hd
  · exact hd
  · exact follows_sendAll hd w

theorem follows_dispatchCtrl (h : Follows c) (hopen : isOpen c = true) (ev : Events)
    (a : DispatchAnswers) : Follows (dispatchCtrl c ev a).2 := by
  have hin : ∀ r, (if ev.input then dispatchIn c a.reads a.scripts
      else (.ok (), c, a.scripts)) = r → Follows r.2.1 ∧ (r.1 = .ok () → isOpen r.2.1 = true) := by
    intro r hr
    split_ifs at hr <;> subst hr
    · obtain ⟨hf, hok⟩ := follows_dispatchIn h hopen a.reads a.scripts
      exact ⟨hf, fun hr => hf.isOpen (hok hr)⟩
    · exact ⟨h, fun _ => hopen⟩
  unfold dispatchCtrl
  rcases hr : (if ev.input then dispatchIn c a.reads a.scripts else (.ok (), c, a.scripts)) with
    ⟨e | _, c', scripts⟩
  · exact (hin _ hr).1
  · have hout : Follows (if ev.output then dispatchOut c' a.write scripts else (.ok (), c')).2 := by
      split_ifs
      · exact follows_dispatchOut (hin _ hr).1 ((hin _ hr).2 rfl) a.write scripts
      · exact (hin _ hr).1
    dsimp only
    rcases hr' : (if ev.output then dispatchOut c' a.write scripts else (.ok (), c')) with
      ⟨e | _, c''⟩ <;> rw [hr'] at hout <;> exact hout

theorem follows_dispatch (h : Follows c) (a : DispatchAnswers) : Follows (dispatch c a).2 := by
  unfold dispatch
  split_ifs with hopen
  · rcases a.wait with e | _ | ⟨_ | _, ev⟩
    · exact h
    · exact h
    · exact h
    · have hd := follows_dispatchCtrl h hopen ev a
      dsimp only
      rcases hr : dispatchCtrl c ev a with ⟨e | _, c'⟩ <;> rw [hr] at hd
      · exact follows_close hd
      · exact hd
  · exact h

end

/-- **Every run follows the protocol.** -/
theorem run_follows {ls : List (Call × Except Errno Unit)} {c : Channel}
    (run : channelLts.Run .fresh ls c) : Follows c := by
  refine run.invariant follows_fresh ?_
  rintro c ⟨call, r⟩ c' h e
  rw [show c' = (exec c call).2 from (congrArg Prod.snd e).symm]
  cases call with
  | openTcpFd fd cb a => exact follows_openTcpFd h rfl
  | close => exact follows_close h
  | send buf a => exact follows_send h buf.1 a
  | dispatch a => exact follows_dispatch h a

/-! ### One open period -/

/-- The callback call in an event. -/
def Event.call : Event → Option (Nat × Option (List UInt8))
  | .called cb data => some (cb, data)
  | _               => none

/-- The bytes read in an event, and where. -/
def Event.read : Event → Option (Int × List UInt8)
  | .received fd bytes => some (fd, bytes)
  | _                  => none

def Event.Opens : Event → Prop
  | .opened _ _ => True
  | _           => False

/-- The callback calls, in order. -/
def calls (log : List Event) : List (Nat × Option (List UInt8)) := log.filterMap Event.call

/-- The reads, in order. -/
def reads (log : List Event) : List (Int × List UInt8) := log.filterMap Event.read

/-- `period` is what happens after an `opened fd cb`, up to the next `opened` or the end. -/
def Period (log : List Event) (fd : Int) (cb : Option Nat) (period : List Event) : Prop :=
  ∃ pre post, log = pre ++ .opened fd cb :: (period ++ post) ∧ (∀ e ∈ period, ¬ e.Opens) ∧
    ∀ e ∈ post.head?, e.Opens

/-- The connect notification, and then data calls of 1 to 4096 bytes whose concatenation is what was
read, all from `fd`. -/
def Delivered (fd : Int) (cb : Nat) (cs : List (Nat × Option (List UInt8)))
    (rs : List (Int × List UInt8)) : Prop :=
  ∃ data : List (List UInt8), cs = (cb, none) :: data.map (fun bytes => (cb, some bytes)) ∧
    (∀ bytes ∈ data, 1 ≤ bytes.length ∧ bytes.length ≤ 4096) ∧
    data.flatten = (rs.map Prod.snd).flatten ∧ ∀ r ∈ rs, r.1 = fd

/-- Nothing was delivered, and nothing read if there is a callback; or all that was read was
delivered. -/
def Told (fd : Int) (cb : Option Nat) (period : List Event) : Prop :=
  (calls period = [] ∧ (cb = none ∨ reads period = [])) ∨
    ∃ k, cb = some k ∧ Delivered fd k (calls period) (reads period)

/-- A callback call comes before the period is closed. -/
def BeforeClose (pre : List Event) (e : Event) : Prop := e.call.isSome → .closed ∉ pre

/-- What was told in a period that has come to the phase. -/
def Phase.Told (fd : Int) (cb : Option Nat) (period : List Event) : Phase → Prop
  | .shut              => Ctrl.Told fd cb period
  | .waiting fd' cb'   => fd' = fd ∧ cb' = cb ∧ .closed ∉ period ∧ calls period = [] ∧
      (cb = none ∨ reads period = [])
  | .connected fd' k   => fd' = fd ∧ cb = some k ∧ .closed ∉ period ∧
      Delivered fd k (calls period) (reads period)
  | .holding fd' k bytes => fd' = fd ∧ cb = some k ∧ .closed ∉ period ∧ 1 ≤ bytes.length ∧
      bytes.length ≤ 4096 ∧ ∃ rs, reads period = rs ++ [(fd, bytes)] ∧
        Delivered fd k (calls period) rs

section

variable {fd : Int} {cb : Option Nat} {period : List Event} {p p' : Phase} {e : Event}

theorem calls_concat (log : List Event) (e : Event) :
    calls (log ++ [e]) = calls log ++ e.call.toList := by
  rw [calls, List.filterMap_append]
  cases e <;> rfl

theorem reads_concat (log : List Event) (e : Event) :
    reads (log ++ [e]) = reads log ++ e.read.toList := by
  rw [reads, List.filterMap_append]
  cases e <;> rfl

/-- An event that is neither a call nor a read, nor the close. -/
theorem Phase.Told.idle (h : p.Told fd cb period) (hcall : e.call = none) (hread : e.read = none)
    (hclosed : e ≠ .closed) : p.Told fd cb (period ++ [e]) := by
  have hcalls : calls (period ++ [e]) = calls period := by
    rw [calls_concat, hcall]
    exact List.append_nil _
  have hreads : reads (period ++ [e]) = reads period := by
    rw [reads_concat, hread]
    exact List.append_nil _
  have hmem : .closed ∈ period ++ [e] ↔ .closed ∈ period := by
    simp [hclosed.symm]
  unfold Phase.Told Ctrl.Told at *
  rwa [hcalls, hreads, hmem]

/-- **One event** of a period. -/
theorem told_next (h : p.Told fd cb period) (hn : p.Next e p') (hopens : ¬ e.Opens) :
    p'.Told fd cb (period ++ [e]) := by
  cases hn with
  | opened => exact absurd trivial hopens
  | pushed => exact h.idle rfl rfl (fun e => by cases e)
  | wrote => exact h.idle rfl rfl (fun e => by cases e)
  | connect fd' k =>
      obtain ⟨rfl, rfl, hclosed, hcalls, hnone | hreads⟩ := h
      · cases hnone
      · refine ⟨rfl, rfl, by simpa using hclosed, [], ?_, ?_, ?_, ?_⟩
        · rw [calls_concat, hcalls]
          rfl
        · intro bytes hb
          cases hb
        · rw [reads_concat, hreads]
          rfl
        · rw [reads_concat, hreads]
          intro r hr
          cases hr
  | unheard fd' bytes =>
      obtain ⟨rfl, rfl, hclosed, hcalls, -⟩ := h
      refine ⟨rfl, rfl, by simpa using hclosed, ?_, Or.inl rfl⟩
      rw [calls_concat, hcalls]
      rfl
  | read fd' k hmin hmax =>
      obtain ⟨rfl, rfl, hclosed, hd⟩ := h
      refine ⟨rfl, rfl, by simpa using hclosed, hmin, hmax, reads period, reads_concat .., ?_⟩
      rw [calls_concat]
      simpa only [Event.call, Option.toList_none, List.append_nil] using hd
  | deliver fd' k bytes =>
      obtain ⟨rfl, rfl, hclosed, hmin, hmax, rs, hreads, data, hcalls, hsizes, hflat, hfd⟩ := h
      refine ⟨rfl, rfl, by simpa using hclosed, data ++ [bytes], ?_, ?_, ?_, ?_⟩
      · rw [calls_concat, hcalls, List.map_append]
        rfl
      · intro b hb
        rcases List.mem_append.mp hb with hb | hb
        · exact hsizes b hb
        · rw [List.mem_singleton.mp hb]
          exact ⟨hmin, hmax⟩
      · rw [reads_concat, hreads]
        simp only [Event.read, Option.toList_none, List.append_nil, List.map_append,
          List.map_cons, List.map_nil, List.flatten_append, List.flatten_singleton, hflat]
      · rw [reads_concat, hreads]
        intro r hr
        simp only [Event.read, Option.toList_none, List.append_nil] at hr
        rcases List.mem_append.mp hr with hr | hr
        · exact hfd r hr
        · rw [List.mem_singleton.mp hr]
  | closeWaiting fd' cb' =>
      obtain ⟨rfl, rfl, -, hcalls, hreads⟩ := h
      refine Or.inl ⟨?_, ?_⟩
      · rw [calls_concat, hcalls]
        rfl
      · rw [reads_concat]
        simpa only [Event.read, Option.toList_none, List.append_nil] using hreads
  | closeConnected fd' k =>
      obtain ⟨rfl, rfl, -, hd⟩ := h
      refine Or.inr ⟨k, rfl, ?_⟩
      rw [calls_concat, reads_concat]
      simpa only [Event.call, Event.read, Option.toList_none, List.append_nil] using hd

/-- A period is open where it calls back. -/
theorem beforeClose_next (h : p.Told fd cb period) (hn : p.Next e p') : BeforeClose period e := by
  intro hcall
  cases hn with
  | connect fd' k => exact h.2.2.1
  | deliver fd' k bytes => exact h.2.2.1
  | opened | unheard | read | closeWaiting | closeConnected | pushed | wrote => cases hcall

/-- **A period of the protocol**, up to any phase. -/
theorem told_run (run : protocol.Run (.waiting fd cb) period p)
    (hopens : ∀ e ∈ period, ¬ e.Opens) : p.Told fd cb period ∧ Throughout BeforeClose period := by
  induction period using List.reverseRecOn generalizing p with
  | nil =>
      cases run with
      | nil => exact ⟨⟨rfl, rfl, List.not_mem_nil, rfl, Or.inr rfl⟩, throughout_nil⟩
  | append_singleton period e ih =>
      obtain ⟨p₁, h₁, h₂⟩ := run.split
      have hn : p₁.Next e p := Lts.run_singleton h₂
      obtain ⟨ht, hb⟩ := ih h₁ fun e he => hopens e (List.mem_append_left _ he)
      have hlast : ¬ e.Opens := hopens e (List.mem_append_right _ (List.mem_singleton_self e))
      exact ⟨told_next ht hn hlast, hb.concat (beforeClose_next ht hn)⟩

/-- The next period begins when this one is shut. -/
theorem shut_of_opens {post : List Event} (h : ∀ e ∈ post.head?, e.Opens)
    (run : protocol.Run p post p') : p = .shut ∨ post = [] := by
  cases run with
  | nil => exact Or.inr rfl
  | @cons _ p₁ _ e ls hn t =>
      have he : e.Opens := h e rfl
      have hn : p.Next e p₁ := hn
      cases hn with
      | opened => exact Or.inl rfl
      | connect | unheard | read | deliver | closeWaiting | closeConnected | pushed | wrote =>
          exact he.elim

end

/-- **The callback protocol.**  In every run, also when callbacks send, close and open, each open
period has no callback call, or one connect notification and then data calls of 1 to 4096 bytes:
what was read from the descriptor of the period, in order.  No call comes after the close. -/
theorem callback_protocol {ls : List (Call × Except Errno Unit)} {c : Channel}
    (run : channelLts.Run .fresh ls c) {fd : Int} {cb : Option Nat} {period : List Event}
    (h : Period c.log fd cb period) : Told fd cb period ∧ Throughout BeforeClose period := by
  obtain ⟨pre, post, hlog, hopens, hpost⟩ := h
  obtain ⟨p, hrun, hp⟩ := run_follows run
  rw [hlog] at hrun
  obtain ⟨p₁, -, h₁⟩ := hrun.split
  cases h₁ with
  | @cons _ p₂ _ _ _ hopen hrest =>
      have hopen : p₁.Next (.opened fd cb) p₂ := hopen
      cases hopen
      obtain ⟨p₃, hperiod, hend⟩ := hrest.split
      obtain ⟨ht, hb⟩ := told_run hperiod hopens
      refine ⟨?_, hb⟩
      rcases shut_of_opens hpost hend with rfl | rfl
      · exact ht
      · -- the period reaches to the end of the log, where the channel rests
        cases hend
        cases p with
        | shut => exact ht
        | waiting fd' cb' => exact Or.inl ht.2.2.2
        | connected fd' k => exact Or.inr ⟨k, ht.2.1, ht.2.2.2⟩
        | holding fd' k bytes => exact hp.elim

/-- The callback closes the channel when it is given the first bytes, and opens another
descriptor. -/
theorem callback_protocol_reopen :
    ∃ log period : List Event, Period log 3 (some 0) period ∧
      calls period = [(0, none), (0, some [97, 98])] ∧ Told 3 (some 0) period ∧
      Throughout BeforeClose period := by
  have hrun : channelLts.Run .fresh
      [(.openTcpFd 3 (some 0) ⟨none, none, none⟩, .ok ()),
        (.dispatch ⟨.event true ⟨true, true, false, false⟩, [.ok [97, 98], .ok [99]],
          ⟨.ok 0, none⟩, [[], [.close, .openTcpFd 4 (some 1) ⟨none, none, none⟩]]⟩,
          .error .EPIPE)] _ :=
    .cons rfl (.one rfl)
  have hperiod : Period [.opened 3 (some 0), .called 0 none, .received 3 [97, 98],
      .called 0 (some [97, 98]), .closed, .opened 4 (some 1), .closed] 3 (some 0)
      [.called 0 none, .received 3 [97, 98], .called 0 (some [97, 98]), .closed] := by
    refine ⟨[], [.opened 4 (some 1), .closed], rfl, ?_, ?_⟩
    · rintro e (_ | ⟨_, _ | ⟨_, _ | ⟨_, _ | ⟨_, ⟨⟩⟩⟩⟩⟩) <;> exact id
    · rintro e ⟨⟩
      exact trivial
  exact ⟨_, _, hperiod, rfl, callback_protocol hrun hperiod⟩

end OpenWfd.Ctrl
