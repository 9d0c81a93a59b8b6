import OpenWfd.Wpa.Open
import OpenWfd.Support.Trace

/-!
# Wpa — Moves

Whatever the callback does in the middle of a dispatch, a call is a sequence of moves
(`moves_exec`): an open, a close, a change of what is in the two sockets, and the removal of the
PING timer from the epoll set.  The last is a move only where `dispatch_tfd` fails, which `Steady`
excludes.
-/

namespace OpenWfd.Wpa

/-- The timer can be read, and if it has expired the supplicant answers `PING` in time. -/
def Answered (c : Channel) (l : Except Errno Nat) (a : Answers) : Prop :=
  (∀ e, l = .error e → wouldBlock e = true) ∧
    (l = .ok 8 → ∀ r s, wpaRequest c.reqFd (str "PING") (some 10) none a c.req = some (r, s) →
      ∃ d, r = .ok d ∧ d.bytes = str "PONG\n")

/-- A timer event that `dispatch_tfd` handles: neither `EPOLLHUP` nor `EPOLLERR`, and the supplicant
answers. -/
def Alive (c : Channel) : EpollEvent → Prop
  | .tfd input broken l a => broken = false ∧ (input = true → Answered c l a)
  | .ev .. | .req ..      => True

/-- Every timer event of the loop of `owfd_wpa_ctrl_dispatch` is one that `dispatch_tfd` handles. -/
def AllAlive : List EpollEvent → Traced → Prop
  | [], _      => True
  | e :: es, s =>
    Alive s.toChannel e ∧ ∀ b s', dispatchEvent s e = some (.ok b, s') → AllAlive es s'

/-- The call does not meet a timer event that `dispatch_tfd` fails on. -/
def Steady (s : Traced) : Call → Prop
  | .dispatch (.ok events) => isOpen s.toChannel = true → AllAlive (reported s.toWpaCtrl events) s
  | _                      => True

/-- One move.  `deaf` allows the removal of the timer. -/
inductive Move (deaf : Prop) : Traced → Traced → Prop where
  | opened (s : Traced) {ctrlPath : Path} {cb : Option Nat} {a : OpenAnswers}
      {r : Except Errno Unit} {w : WpaCtrl}
      (h : openCtrl s.toWpaCtrl ctrlPath cb a = some (r, w)) :
      Move deaf s ⟨w, s.log ++ [.opened s.toWpaCtrl r w]⟩
  | closed (s : Traced) {a : Answers} {w : WpaCtrl} (h : closeCtrl s.toWpaCtrl a = some w) :
      Move deaf s ⟨w, s.log ++ [.closed w]⟩
  | traffic (s : Traced) (req ev : Sock) : Move deaf s { s with req := req, ev := ev }
  | deaf (h : deaf) (s : Traced) : Move deaf s { s with tfdWatched := false }

/-- Any number of them. -/
abbrev Moves (deaf : Prop) : Traced → Traced → Prop := Relation.ReflTransGen (Move deaf)

/-! ### Requests -/

section

variable {c c' : Channel} {a : Answers} {r : Except Errno (List UInt8)}

theorem request_channel {cmd : List UInt8} {cap : Option Nat} {timeout : Int}
    (e : request c cmd cap timeout a = some (r, c')) : ∃ req, c' = { c with req := req } := by
  unfold request at e
  split_ifs at e
  · rcases hr : wpaRequest c.reqFd cmd cap (some (timeoutUs timeout)) a c.req with
      _ | ⟨_ | _, req⟩ <;> simp only [hr] at e <;> cases e
    · exact ⟨req, rfl⟩
    · exact ⟨req, rfl⟩
  · cases e
    exact ⟨c.req, rfl⟩

theorem requestOk_channel {cmd : List UInt8} {timeout : Int}
    (e : requestOk c cmd timeout a = some (r, c')) : ∃ req, c' = { c with req := req } := by
  unfold requestOk at e
  rcases hr : request c cmd (some reqReplyMax) timeout a with _ | ⟨_ | _, c₁⟩ <;>
    simp only [hr] at e <;> cases e
  · exact request_channel hr
  · exact request_channel hr

theorem dispatchReq_channel {input broken : Bool} {rounds : List (List Act × Option Errno)}
    (e : dispatchReq c input broken rounds = some (r, c')) : ∃ req, c' = { c with req := req } := by
  unfold dispatchReq at e
  rcases hr : (if input then readReq rounds c.req else some (.ok [], c.req)) with
    _ | ⟨_ | _, req⟩ <;> simp only [hr] at e <;> cases e
  · exact ⟨req, rfl⟩
  · exact ⟨req, rfl⟩

/-- `read_tfd` fails exactly if the supplicant does not answer. -/
theorem readTfd_spec {l : Except Errno Nat} (e : readTfd c l a = some (r, c')) :
    (∃ req, c' = { c with req := req }) ∧
      ((Answered c l a ∧ ∃ b, r = .ok b) ∨ (¬ Answered c l a ∧ ∃ x, r = .error x)) := by
  unfold readTfd at e
  rcases l with x | n
  · cases e
    refine ⟨⟨c.req, rfl⟩, ?_⟩
    by_cases hx : wouldBlock x = true
    · rw [if_pos hx]
      refine Or.inl ⟨⟨?_, nofun⟩, [], rfl⟩
      rintro y ⟨⟩
      exact hx
    · rw [if_neg hx]
      exact Or.inr ⟨fun h => hx (h.1 x rfl), x, rfl⟩
  · dsimp only at e
    by_cases hn : n = 8
    · subst hn
      rw [if_pos rfl] at e
      rcases hr : wpaRequest c.reqFd (str "PING") (some 10) none a c.req with
        _ | ⟨x | d, req⟩ <;> simp only [hr] at e <;> cases e
      · refine ⟨⟨req, rfl⟩, Or.inr ⟨?_, x, rfl⟩⟩
        rintro ⟨-, h⟩
        obtain ⟨d, hd, -⟩ := h rfl _ _ hr
        cases hd
      · refine ⟨⟨req, rfl⟩, ?_⟩
        by_cases hd : d.bytes = str "PONG\n"
        · rw [if_pos hd]
          refine Or.inl ⟨⟨nofun, ?_⟩, [], rfl⟩
          intro _ r s h
          rw [hr] at h
          cases h
          exact ⟨d, rfl, hd⟩
        · rw [if_neg hd]
          refine Or.inr ⟨?_, .ETIMEDOUT, rfl⟩
          rintro ⟨-, h⟩
          obtain ⟨d', hd', hpong⟩ := h rfl _ _ hr
          cases hd'
          exact hd hpong
    · rw [if_neg hn] at e
      cases e
      refine ⟨⟨c.req, rfl⟩, Or.inl ⟨⟨nofun, ?_⟩, [], rfl⟩⟩
      rintro ⟨⟩
      exact absurd rfl hn

/-- **The PING timer is removed exactly by an event that `dispatch_tfd` does not handle.** -/
theorem dispatchTfd_spec {input broken : Bool} {l : Except Errno Nat}
    (e : dispatchTfd c input broken l a = some (r, c')) :
    (Alive c (.tfd input broken l a) ∧ ∃ req, c' = { c with req := req }) ∨
      (¬ Alive c (.tfd input broken l a) ∧
        ∃ req, c' = { c with req := req, tfdWatched := false }) := by
  unfold dispatchTfd at e
  cases broken with
  | true =>
      cases e
      exact Or.inr ⟨(fun h => nomatch h.1), c.req, rfl⟩
  | false =>
      cases input with
      | false =>
          cases e
          exact Or.inl ⟨⟨rfl, nofun⟩, c.req, rfl⟩
      | true =>
          rcases hr : readTfd c l a with _ | ⟨x | b, c₁⟩ <;>
            simp only [hr, Bool.false_eq_true, if_false, if_true] at e <;> cases e
          · obtain ⟨⟨req, rfl⟩, ⟨-, b, hb⟩ | ⟨hna, -⟩⟩ := readTfd_spec hr
            · cases hb
            · exact Or.inr ⟨fun h => hna (h.2 rfl), req, rfl⟩
          · obtain ⟨⟨req, rfl⟩, ⟨ha, -⟩ | ⟨-, x, hx⟩⟩ := readTfd_spec hr
            · exact Or.inl ⟨⟨rfl, fun _ => ha⟩, req, rfl⟩
            · cases hx

end

/-! ### Calls -/

section

variable {deaf : Prop} {s s' : Traced} {r : Except Errno (List UInt8)}

theorem Traced.within_eq {x : Option (Except Errno (List UInt8) × Channel)}
    (e : s.within x = some (r, s')) : ∃ c, x = some (r, c) ∧ s' = { s with toChannel := c } := by
  unfold Traced.within at e
  rcases x with _ | ⟨r, c⟩
  · cases e
  · cases e
    exact ⟨c, rfl, rfl⟩

/-- A change of the request socket. -/
theorem move_req (s : Traced) (req : Sock) :
    Moves deaf s { s with toChannel := { s.toChannel with req := req } } :=
  .single (.traffic s req s.ev)

theorem moves_op {o : CbOp} (e : o.exec s = some (r, s')) : Moves deaf s s' := by
  cases o with
  | openCtrl ctrlPath cb a =>
      rw [CbOp.exec] at e
      rcases ho : openCtrl s.toWpaCtrl ctrlPath cb a with _ | ⟨r, w⟩ <;> rw [ho] at e <;> cases e
      exact .single (.opened s ho)
  | close a =>
      rw [CbOp.exec] at e
      rcases ho : closeCtrl s.toWpaCtrl a with _ | w <;> rw [ho] at e <;> cases e
      exact .single (.closed s ho)
  | request cmd cap timeout a =>
      obtain ⟨c, hc, rfl⟩ := Traced.within_eq e
      obtain ⟨req, rfl⟩ := request_channel hc
      exact move_req s req
  | requestOk cmd timeout a =>
      obtain ⟨c, hc, rfl⟩ := Traced.within_eq e
      obtain ⟨req, rfl⟩ := requestOk_channel hc
      exact move_req s req

theorem moves_run {script : List CbOp} (e : CbOp.run s script = some s') : Moves deaf s s' := by
  unfold CbOp.run at e
  induction script generalizing s with
  | nil =>
      cases e
      exact .refl
  | cons o script ih =>
      rw [List.foldlM_cons] at e
      rcases ho : o.exec s with _ | ⟨r, s₁⟩ <;> rw [ho] at e
      · cases e
      · exact (moves_op ho).trans (ih e)

theorem moves_readEv {rounds : List EvRound} (e : readEv rounds s = some (r, s')) :
    Moves deaf s s' := by
  induction rounds generalizing s with
  | nil => cases e
  | cons round rounds ih =>
      have hacts : Moves deaf s { s with ev := s.ev.acts round.acts } :=
        .single (.traffic s s.req (s.ev.acts round.acts))
      unfold readEv at e
      rcases hio : round.io with _ | x
      · rcases hin : (s.ev.acts round.acts).inbox with _ | ⟨d, inbox⟩
        · simp only [hio, hin] at e
          cases e
          exact hacts
        · have hrecv : Moves deaf s { s with ev := { s.ev.acts round.acts with inbox } } :=
            .single (.traffic s s.req { s.ev.acts round.acts with inbox })
          simp only [hio, hin] at e
          split_ifs at e with hempty hcb
          · cases e
            exact hrecv
          · rcases hrun : CbOp.run { s with ev := { s.ev.acts round.acts with inbox } } round.script
              with _ | s₁ <;> rw [hrun] at e
            · cases e
            · have hs₁ := hrecv.trans (moves_run hrun)
              dsimp only at e
              split_ifs at e
              · exact hs₁.trans (ih e)
              · cases e
                exact hs₁
          · dsimp only at e
            split_ifs at e
            · exact hrecv.trans (ih e)
            · cases e
              exact hrecv
      · simp only [hio] at e
        cases e
        exact hacts

theorem moves_event {ev : EpollEvent} (h : ¬ deaf → Alive s.toChannel ev)
    (e : dispatchEvent s ev = some (r, s')) : Moves deaf s s' := by
  cases ev with
  | ev input broken rounds =>
      rw [dispatchEvent, dispatchEv] at e
      cases input with
      | false =>
          cases e
          exact .refl
      | true =>
          rcases hr : readEv rounds s with _ | ⟨_ | _, s₁⟩ <;>
            simp only [hr, if_true] at e <;> cases e
          · exact moves_readEv hr
          · exact moves_readEv hr
  | req input broken rounds =>
      obtain ⟨c, hc, rfl⟩ := Traced.within_eq e
      obtain ⟨req, rfl⟩ := dispatchReq_channel hc
      exact move_req s req
  | tfd input broken l a =>
      obtain ⟨c, hc, rfl⟩ := Traced.within_eq e
      rcases dispatchTfd_spec hc with ⟨-, req, rfl⟩ | ⟨hna, req, rfl⟩
      · exact move_req s req
      · have hdeaf : deaf := not_not.mp fun hn => hna (h hn)
        exact (move_req s req).tail (.deaf hdeaf _)

theorem moves_events {evs : List EpollEvent} (h : ¬ deaf → AllAlive evs s)
    (e : dispatchEvents evs s = some (r, s')) : Moves deaf s s' := by
  induction evs generalizing s with
  | nil =>
      cases e
      exact .refl
  | cons ev evs ih =>
      unfold dispatchEvents at e
      have hev : ∀ {r s₁}, dispatchEvent s ev = some (r, s₁) → Moves deaf s s₁ :=
        moves_event fun hn => (h hn).1
      rcases hd : dispatchEvent s ev with _ | ⟨x | b, s₁⟩ <;> simp only [hd] at e
      · cases e
      · cases e
        exact hev hd
      · exact (hev hd).trans (ih (fun hn => (h hn).2 b s₁ hd) e)

/-- **A call is a sequence of moves.** -/
theorem moves_exec {call : Call} (h : ¬ deaf → Steady s call) (e : call.exec s = some (r, s')) :
    Moves deaf s s' := by
  cases call with
  | op o => exact moves_op e
  | supplicant req ev =>
      cases e
      exact .single (.traffic s (s.req.acts req) (s.ev.acts ev))
  | dispatch wait =>
      rw [Call.exec] at e
      unfold dispatch at e
      split_ifs at e with hopen
      · rcases wait with x | events
        · cases e
          exact .refl
        · exact moves_events (fun hn => h hn hopen) e
      · cases e
        exact .refl

theorem moves_of_exec {call : Call} (e : call.exec s = some (r, s')) : Moves True s s' :=
  moves_exec (fun hn => absurd trivial hn) e

end

end OpenWfd.Wpa
