import OpenWfd.Ctrl.Definitions
import OpenWfd.Ring.Content
import OpenWfd.Support.Trace

/-!
# Ctrl — Acts

Whatever the callback does in the middle of a dispatch, a call of the user is a sequence of acts: a
complete open, close, send or write, or one of the small steps between them (`acts_exec`).  What
every act preserves, every run preserves (`run_acts`), so nothing later has to follow the nesting of
dispatch, read loop and callback.

Then one lemma for each act says all that it can do.
-/

namespace OpenWfd.Ctrl

/-- One act of the channel. -/
inductive Act : Channel → Channel → Prop where
  | openTcpFd (c : Channel) (fd : Int) (cb : Option Nat) (a : OpenAnswers) :
      Act c (openTcpFd c fd cb a).2
  | close (c : Channel) : Act c (close c)
  | send (c : Channel) (buf : List UInt8) (a : SendAnswers) (h : buf.length ≤ SizeT.ptrdiffMax) :
      Act c (send c buf a).2
  | connected (c : Channel) : Act c { c with connected := true }
  | received (c : Channel) (bytes : List UInt8) : Act c (note c (.received c.fd bytes))
  | called (c : Channel) (cb : Nat) (data : Option (List UInt8)) : Act c (note c (.called cb data))
  | sendAll (c : Channel) (a : WriteAnswers) : Act c (sendAll c a).2

/-- Any number of them. -/
abbrev Acts : Channel → Channel → Prop := Relation.ReflTransGen Act

theorem acts_op (c : Channel) (o : CbOp) : Acts c (o.run c) := by
  cases o with
  | openTcpFd fd cb a => exact .single (.openTcpFd c fd cb a)
  | close => exact .single (.close c)
  | send buf a => exact .single (.send c buf a buf.2)

theorem acts_ops (c : Channel) (os : List CbOp) : Acts c (os.foldl CbOp.run c) := by
  induction os generalizing c with
  | nil => exact .refl
  | cons o os ih => exact (acts_op c o).trans (ih (o.run c))

theorem acts_callback (c : Channel) (data : Option (List UInt8)) (scripts : Scripts) :
    Acts c (callback c data scripts).1 := by
  unfold callback
  cases c.cb with
  | none => exact .refl
  | some cb => exact (acts_ops (note c (.called cb data)) _).head (.called c cb data)

theorem acts_connectDone (c : Channel) (scripts : Scripts) :
    Acts c (connectDone c scripts).2.1 := by
  unfold connectDone
  split_ifs
  · exact .refl
  · exact (acts_callback { c with connected := true } none scripts).head (.connected c)

theorem acts_recvRounds (rounds : Nat) (c : Channel) (reads : Reads) (scripts : Scripts) :
    Acts c (recvRounds rounds c reads scripts).2.1 := by
  induction rounds generalizing c reads scripts with
  | zero => exact .refl
  | succ rounds ih =>
      unfold recvRounds
      cases reads.headD (.error .EAGAIN) with
      | error e =>
          dsimp only
          split_ifs <;> exact .refl
      | ok bytes =>
          have hcall := (acts_callback (note c (.received c.fd (bytes.take 4096)))
            (some (bytes.take 4096)) scripts).head (.received c (bytes.take 4096))
          dsimp only
          by_cases hempty : bytes.take 4096 = []
          · rw [if_pos hempty]
          · rw [if_neg hempty]
            rcases hcb : callback (note c (.received c.fd (bytes.take 4096)))
              (some (bytes.take 4096)) scripts with ⟨c', scripts'⟩
            rw [hcb] at hcall
            dsimp only at hcall ⊢
            split_ifs
            · exact hcall.trans (ih c' reads.tail scripts')
            · exact hcall

theorem acts_dispatchIn (c : Channel) (reads : Reads) (scripts : Scripts) :
    Acts c (dispatchIn c reads scripts).2.1 := by
  have hc := acts_connectDone c scripts
  unfold dispatchIn
  rcases hd : connectDone c scripts with ⟨e | _, c', scripts'⟩ <;> rw [hd] at hc
  · exact hc
  · exact hc.trans (acts_recvRounds 128 c' reads scripts')

theorem acts_dispatchOut (c : Channel) (w : WriteAnswers) (scripts : Scripts) :
    Acts c (dispatchOut c w scripts).2 := by
  have hc := acts_connectDone c scripts
  unfold dispatchOut
  rcases hd : connectDone c scripts with ⟨e | _, c', scripts'⟩ <;> rw [hd] at hc
  · exact hc
  · exact hc.tail (.sendAll c' w)

theorem acts_dispatchCtrl (c : Channel) (ev : Events) (a : DispatchAnswers) :
    Acts c (dispatchCtrl c ev a).2 := by
  have hin : Acts c (if ev.input then dispatchIn c a.reads a.scripts
      else (.ok (), c, a.scripts)).2.1 := by
    split_ifs
    · exact acts_dispatchIn c a.reads a.scripts
    · exact .refl
  unfold dispatchCtrl
  generalize (if ev.input then dispatchIn c a.reads a.scripts else (.ok (), c, a.scripts)) = r
    at hin ⊢
  obtain ⟨e | _, c', scripts⟩ := r
  · exact hin
  have hout : Acts c (if ev.output then dispatchOut c' a.write scripts else (.ok (), c')).2 := by
    split_ifs
    · exact hin.trans (acts_dispatchOut c' a.write scripts)
    · exact hin
  dsimp only
  generalize (if ev.output then dispatchOut c' a.write scripts else (.ok (), c')) = r at hout ⊢
  obtain ⟨e | _, c''⟩ := r
  · exact hout
  · exact hout

theorem acts_dispatch (c : Channel) (a : DispatchAnswers) : Acts c (dispatch c a).2 := by
  unfold dispatch
  split_ifs
  · rcases a.wait with e | _ | ⟨_ | _, ev⟩
    · exact .refl
    · exact .refl
    · exact .refl
    · have hd := acts_dispatchCtrl c ev a
      dsimp only
      rcases hr : dispatchCtrl c ev a with ⟨e | _, c'⟩ <;> rw [hr] at hd
      · exact hd.tail (.close c')
      · exact hd
  · exact .refl

/-- **A call is a sequence of acts.** -/
theorem acts_exec (c : Channel) (call : Call) : Acts c (exec c call).2 := by
  cases call with
  | openTcpFd fd cb a => exact .single (.openTcpFd c fd cb a)
  | close => exact .single (.close c)
  | send buf a => exact .single (.send c buf a buf.2)
  | dispatch a => exact acts_dispatch c a

/-- **What every act preserves, a run preserves.** -/
theorem run_acts {I : Channel → Prop} (h₀ : I .fresh) (hstep : ∀ c c', I c → Act c c' → I c')
    {c : Channel} {ls : List (Call × Except Errno Unit)} (h : channelLts.Run .fresh ls c) :
    I c := by
  refine h.invariant h₀ ?_
  intro c l c' hc e
  have ha := acts_exec c l.1
  rw [show exec c l.1 = (l.2, c') from e] at ha
  exact closure_invariant ha hc hstep

/-! ### What each act does -/

section Specs

variable {c c' : Channel}

theorem openTcpFd_spec {fd : Int} {cb : Option Nat} {a : OpenAnswers} {r : Except Errno Unit}
    (e : openTcpFd c fd cb a = (r, c')) :
    (r ≠ .ok () ∧ c' = c) ∨
      (r = .ok () ∧ isOpen c = false ∧ 0 ≤ fd ∧ c' = note { register c fd .all with
        fd := fd, connected := false, cb := cb } (.opened fd cb)) := by
  unfold openTcpFd at e
  split_ifs at e with h₁ h₂
  · cases e
    exact Or.inl ⟨by simp, rfl⟩
  · cases e
    exact Or.inl ⟨by simp, rfl⟩
  · rcases a with ⟨_ | x, _ | y, _ | z⟩ <;> cases e
    · exact Or.inr ⟨rfl, by simpa using h₁, not_lt.mp h₂, rfl⟩
    all_goals exact Or.inl ⟨by simp, rfl⟩

/-- The ring is empty when it has no segments. -/
theorem send_spec (w : c.outRing.WF) {buf : List UInt8} {a : SendAnswers} {r : Except Errno Unit}
    (hbuf : buf.length ≤ SizeT.ptrdiffMax) (e : send c buf a = (r, c')) :
    c' = c ∨ ∃ ring, isOpen c = true ∧ ring.WF ∧ ring.contents = c.outRing.contents ++ buf ∧
      ((c.outRing.contents = [] ∧ a.mod = none ∧ c' = register (note { c with outRing := ring }
          (.pushed buf (armed c) true false)) c.fd .all) ∨
        (c.outRing.contents = [] ∧ a.mod.isSome = true ∧ c' = note { c with outRing := ring }
          (.pushed buf (armed c) true true)) ∨
        (c.outRing.contents ≠ [] ∧ c' = note { c with outRing := ring }
          (.pushed buf (armed c) false a.mod.isSome))) := by
  have hpeek := ShlRing.peek_eq_nil_iff w
  unfold send at e
  split_ifs at e with hopen
  · rcases hp : c.outRing.push buf a.heap with ⟨x | _, ring, h⟩
    · simp only [hp] at e
      cases e
      rcases ShlRing.push_spec w hbuf hp with ⟨-, rfl, -⟩ | ⟨hbad, -⟩
      · exact Or.inl rfl
      · cases hbad
    · simp only [hp] at e
      rcases ShlRing.push_spec w hbuf hp with ⟨hbad, -⟩ | ⟨-, w', hc⟩
      · cases hbad
      refine Or.inr ⟨ring, hopen, w', hc, ?_⟩
      by_cases hempty : c.outRing.peek = []
      · have hnil := hpeek.mp hempty
        rcases hm : a.mod with _ | x
        · simp only [hm, if_pos hempty] at e
          cases e
          refine Or.inl ⟨hnil, rfl, ?_⟩
          rw [decide_eq_true hempty]
          rfl
        · simp only [hm, if_pos hempty] at e
          cases e
          refine Or.inr (Or.inl ⟨hnil, rfl, ?_⟩)
          rw [decide_eq_true hempty]
          rfl
      · simp only [if_neg hempty] at e
        cases e
        refine Or.inr (Or.inr ⟨fun hn => hempty (hpeek.mpr hn), ?_⟩)
        rw [decide_eq_false hempty]
  · cases e
    exact Or.inl rfl

theorem sendAll_spec (w : c.outRing.WF) {a : WriteAnswers} {r : Except Errno Unit}
    (e : sendAll c a = (r, c')) :
    c' = c ∨ (c.outRing.contents = [] ∧ c' = register c c.fd .quiet) ∨
      ∃ l ≤ c.outRing.contents.length,
        c' = note c (.wrote (c.outRing.contents.take l)) ∨
          (l = c.outRing.contents.length ∧
            c' = register (note c (.wrote (c.outRing.contents.take l))) c.fd .quiet) := by
  have hpeek := ShlRing.peek_eq_nil_iff w
  unfold sendAll writevAll at e
  by_cases hempty : c.outRing.peek = []
  · simp only [if_pos hempty] at e
    rcases hm : a.mod with _ | x <;> simp only [hm] at e <;> cases e
    · exact Or.inr (Or.inl ⟨hpeek.mp hempty, rfl⟩)
    · exact Or.inl rfl
  · simp only [if_neg hempty, ShlRing.sum_length_peek w, ShlRing.peek_flatten w] at e
    rcases hw : a.writev with x | l <;> simp only [hw] at e
    · by_cases hx : wouldBlock x = true
      · rw [if_pos hx] at e
        cases e
        exact Or.inl rfl
      · rw [if_neg hx] at e
        cases e
        exact Or.inl rfl
    · refine Or.inr (Or.inr ⟨min l c.outRing.contents.length, min_le_right _ _, ?_⟩)
      by_cases hpart : min l c.outRing.contents.length < c.outRing.contents.length
      · rw [decide_eq_true hpart] at e
        cases e
        exact Or.inl rfl
      · rw [decide_eq_false hpart] at e
        have hall : min l c.outRing.contents.length = c.outRing.contents.length :=
          le_antisymm (min_le_right _ _) (not_lt.mp hpart)
        rcases hm : a.mod with _ | x <;> simp only [hm] at e <;> cases e
        · exact Or.inr ⟨hall, rfl⟩
        · exact Or.inl rfl

/-- An act only adds to the log. -/
theorem log_act (w : c.outRing.WF) (h : Act c c') : c.log <+: c'.log := by
  cases h with
  | openTcpFd fd cb a =>
      generalize hr : openTcpFd c fd cb a = res
      obtain ⟨r, c'⟩ := res
      rcases openTcpFd_spec hr with ⟨-, rfl⟩ | ⟨-, -, -, rfl⟩
      · exact List.prefix_rfl
      · exact List.prefix_append ..
  | close =>
      unfold close
      split_ifs
      · exact List.prefix_append ..
      · exact List.prefix_rfl
  | send buf a hbuf =>
      generalize hr : send c buf a = res
      obtain ⟨r, c'⟩ := res
      rcases send_spec w hbuf hr with rfl | ⟨ring, -, -, -, ⟨-, -, rfl⟩ | ⟨-, -, rfl⟩ | ⟨-, rfl⟩⟩
      · exact List.prefix_rfl
      all_goals exact List.prefix_append ..
  | connected => exact List.prefix_rfl
  | received bytes => exact List.prefix_append ..
  | called cb data => exact List.prefix_append ..
  | sendAll a =>
      generalize hr : sendAll c a = res
      obtain ⟨r, c'⟩ := res
      rcases sendAll_spec w hr with rfl | ⟨-, rfl⟩ | ⟨l, -, rfl | ⟨-, rfl⟩⟩
      · exact List.prefix_rfl
      · exact List.prefix_rfl
      all_goals exact List.prefix_append ..

end Specs

end OpenWfd.Ctrl
