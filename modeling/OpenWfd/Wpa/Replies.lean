import OpenWfd.Wpa.Request

/-!
# Wpa — replies and the requests they answer

`wpa_request` pairs a command with the next datagram that is no event.  Answers arrive in the order
of the commands, so what a call hands back answers the oldest command outstanding when it began:
its own if there was none (`replies_own`), and an earlier call's otherwise
(`wpaRequest_own_iff`), as after a call that timed out.
-/

namespace OpenWfd.Wpa

/-- The calls with a command outstanding, oldest first: its answer has not been received, or not
even been given. -/
def Sock.pending (s : Sock) : List Nat :=
  s.inbox.filterMap Datagram.call ++ s.commands.map Command.call

/-! ### One act, one send, one receive -/

@[simp] theorem Sock.act_pending (s : Sock) (a : Act) : (s.act a).pending = s.pending := by
  cases a with
  | event text => simp [Sock.act, Sock.pending, Datagram.call]
  | answer bytes =>
      rcases hc : s.commands with _ | ⟨c, cs⟩
      · simp [Sock.act, Sock.pending, hc]
      · simp [Sock.act, Sock.pending, hc, Datagram.call]

@[simp] theorem Sock.act_calls (s : Sock) (a : Act) : (s.act a).calls = s.calls := by
  unfold Sock.act
  split
  · split <;> rfl
  · rfl

@[simp] theorem Sock.act_handed (s : Sock) (a : Act) : (s.act a).handed = s.handed := by
  unfold Sock.act
  split
  · split <;> rfl
  · rfl

/-- What an `io` may leave behind: `Q b` if it is done with `b`, `I` otherwise. -/
def Outcome {β : Type} (I : Sock → Prop) (Q : β → Sock → Prop) : Except Errno β → Sock → Prop
  | .ok b, s    => Q b s
  | .error _, s => I s

section

variable {α β : Type} {I : Sock → Prop} {Q : β → Sock → Prop}
  {io : Sock → α → Except Errno (Option β) × Sock}

theorem acts_rule {as : List Act} (hact : ∀ a ∈ as, ∀ s, I s → I (s.act a)) {s : Sock} (h : I s) :
    I (s.acts as) := by
  induction as generalizing s with
  | nil => exact h
  | cons a as ih =>
      exact ih (fun a' ha' => hact a' (List.mem_cons_of_mem a ha')) (hact a List.mem_cons_self s h)

/-- **The rule of the waiting loop.**  What the acts of the supplicant and an unfinished `io` keep
holds to the end of the loop. -/
theorem timed_rule {start : Int} {rounds : List (Round α)} {t t' : Int} {s s' : Sock}
    {r : Except Errno β} (hact : ∀ rd ∈ rounds, ∀ a ∈ rd.acts, ∀ s, I s → I (s.act a))
    (hio : ∀ s x, I s → Outcome I (fun o s => o.elim (I s) (Q · s)) (io s x).1 (io s x).2)
    (e : timed io start rounds t s = some (r, t', s')) (h : I s) : Outcome I Q r s' := by
  induction rounds generalizing t s with
  | nil => cases e
  | cons rd rounds ih =>
      have hs : I (s.acts rd.acts) := acts_rule (hact rd List.mem_cons_self) h
      have ha : Outcome I (fun o s => o.elim (I s) (Q · s)) (attempt io (s.acts rd.acts) rd).1
          (attempt io (s.acts rd.acts) rd).2 := by
        unfold attempt
        rcases rd.poll with e | _ | ⟨hup, err⟩
        · dsimp only
          split_ifs <;> exact hs
        · exact hs
        · dsimp only
          split_ifs
          · exact hs
          · exact hio _ _ hs
      unfold timed at e
      rcases hat : attempt io (s.acts rd.acts) rd with ⟨x | _ | b, s₁⟩ <;> rw [hat] at ha <;>
        simp only [hat] at e
      · cases e
        exact ha
      · split_ifs at e
        · cases e
          exact ha
        · exact ih (fun rd' h' => hact rd' (List.mem_cons_of_mem rd h')) e ha
      · cases e
        exact ha

end

/-! ### One request -/

/-- From `s` to `s'` the log and the count stay, and the commands outstanding in `s`, with `k` more
of the call `n`, lose the first ones. -/
structure Drift (n k : Nat) (lost : List Nat) (s s' : Sock) : Prop where
  calls : s'.calls = s.calls
  handed : s'.handed = s.handed
  flow : s.pending ++ List.replicate k n = lost ++ s'.pending

theorem Drift.act {n k : Nat} {lost : List Nat} {s s' : Sock} (d : Drift n k lost s s') (a : Act) :
    Drift n k lost s (s'.act a) :=
  ⟨by rw [Sock.act_calls, d.calls], by rw [Sock.act_handed, d.handed],
    by rw [Sock.act_pending, d.flow]⟩

theorem drift_timedSend {n : Nat} {cmd : List UInt8} {start t t' : Int} {s s' : Sock}
    {rounds : List (Round (Except Errno Nat))} {r : Except Errno Unit}
    (e : timedSend n cmd start rounds t s = some (r, t', s')) : ∃ k, Drift n k [] s s' := by
  have h := timed_rule (I := fun s' => ∃ k, Drift n k [] s s')
    (Q := fun _ s' => ∃ k, Drift n k [] s s') ?_ ?_ e ⟨0, rfl, rfl, by simp⟩
  · cases r <;> exact h
  · rintro rd - a - s₁ ⟨k, d⟩
    exact ⟨k, d.act a⟩
  · rintro s₁ (x | l) ⟨k, d⟩
    · unfold sendIo
      dsimp only
      split_ifs <;> exact ⟨k, d⟩
    · have hd : Drift n (k + 1) [] s
          { s₁ with commands := s₁.commands ++ [⟨n, cmd.take (min l cmd.length)⟩] } := by
        refine ⟨d.calls, d.handed, ?_⟩
        rw [List.replicate_succ', ← List.append_assoc, d.flow]
        simp [Sock.pending]
      unfold sendIo
      dsimp only
      split_ifs
      · exact ⟨k + 1, hd⟩
      · exact ⟨k + 1, hd⟩

/-- What `recv` takes out of the socket. -/
theorem recvIo_spec (cap : Nat) (s : Sock) (x : Option Errno) :
    (recvIo cap s x).2 = s ∧ (∀ d, (recvIo cap s x).1 ≠ .ok (some d)) ∨
      ∃ d inbox, s.inbox = d :: inbox ∧ (recvIo cap s x).2 = { s with inbox } ∧
        (recvIo cap s x).1 = .ok (if d.bytes.take cap ≠ [] ∧ (d.bytes.take cap).head? ≠ some LT
          then some ⟨d.call, d.bytes.take cap⟩ else none) := by
  unfold recvIo
  rcases x with _ | x
  · rcases hin : s.inbox with _ | ⟨d, inbox⟩
    · exact Or.inl ⟨rfl, fun d h => by cases h⟩
    · exact Or.inr ⟨d, inbox, rfl, rfl, rfl⟩
  · dsimp only
    refine Or.inl ⟨rfl, fun d h => ?_⟩
    split_ifs at h
    cases h

/-- An event is never taken for a reply. -/
theorem event_ignored (text : List UInt8) (cap : Nat) :
    ¬ ((Datagram.event text).bytes.take cap ≠ [] ∧
      ((Datagram.event text).bytes.take cap).head? ≠ some LT) := by
  rintro ⟨hne, hlt⟩
  rcases cap with _ | cap
  · exact hne rfl
  · exact hlt rfl

theorem drift_timedRecv {n k cap : Nat} {start t t' : Int} {s s₀ s' : Sock}
    {rounds : List (Round (Option Errno))} {r : Except Errno Reply}
    (e : timedRecv cap start rounds t s = some (r, t', s')) (d : Drift n k [] s₀ s) :
    Outcome (fun s' => ∃ lost, Drift n k lost s₀ s')
      (fun d s' => ∃ lost g, d.call = some g ∧ Drift n k (lost ++ [g]) s₀ s') r s' := by
  refine timed_rule ?_ ?_ e ⟨[], d⟩
  · rintro rd - a - s₁ ⟨lost, d⟩
    exact ⟨lost, d.act a⟩
  · rintro s₁ x ⟨lost, d⟩
    rcases recvIo_spec cap s₁ x with ⟨hs, hnone⟩ | ⟨m, inbox, hin, hs, hr⟩
    · rw [hs]
      rcases hr : (recvIo cap s₁ x).1 with x | _ | b
      · exact ⟨lost, d⟩
      · exact ⟨lost, d⟩
      · exact absurd hr (hnone b)
    · rw [hs, hr]
      cases m with
      | event text =>
          rw [if_neg (event_ignored text cap)]
          refine ⟨lost, d.calls, d.handed, ?_⟩
          rw [d.flow, Sock.pending, hin]
          rfl
      | answer g bytes =>
          have hd : Drift n k (lost ++ [g]) s₀ { s₁ with inbox } := by
            refine ⟨d.calls, d.handed, ?_⟩
            rw [d.flow, List.append_assoc, Sock.pending, hin]
            rfl
          split_ifs
          · exact ⟨lost, g, rfl, hd⟩
          · exact ⟨lost ++ [g], hd⟩

/-- **One call of `wpa_request`.**  What is outstanding, the call's own command included, loses its
first ones; what is handed back answers the last of these. -/
theorem wpaRequest_spec {fd : Int} {cmd : List UInt8} {cap : Option Nat} {t : Option Int}
    {a : Answers} {s s' : Sock} {r : Except Errno Reply}
    (e : wpaRequest fd cmd cap t a s = some (r, s')) :
    (s' = s ∧ r = .error .ENODEV) ∨
      s'.calls = s.calls + 1 ∧ ∃ k lost,
        s.pending ++ List.replicate k s.calls = lost ++ s'.pending ∧
        ((s'.handed = s.handed ∧ ∃ x, r = .error x) ∨
          ∃ d lost' g, r = .ok d ∧ s'.handed = s.handed ++ [(s.calls, d)] ∧ d.call = some g ∧
            lost = lost' ++ [g]) := by
  unfold wpaRequest at e
  split_ifs at e with hfd
  · cases e
    exact Or.inl ⟨rfl, rfl⟩
  · dsimp only at e
    refine Or.inr ?_
    rcases hsend : timedSend s.calls cmd a.sendStart a.sends (clampTimeout (t.getD (-1)))
      { s with calls := s.calls + 1 } with _ | ⟨x | _, t₁, s₁⟩ <;> simp only [hsend] at e
    · cases e
    · cases e
      obtain ⟨k, d⟩ := drift_timedSend hsend
      exact ⟨d.calls, k, [], d.flow, Or.inl ⟨d.handed, x, rfl⟩⟩
    · obtain ⟨k, d⟩ := drift_timedSend hsend
      rcases hrecv : timedRecv (cap.getD reqReplyMax) a.recvStart a.recvs t₁ s₁ with
        _ | ⟨x | b, t₂, s₂⟩ <;> simp only [hrecv] at e
      · cases e
      · cases e
        obtain ⟨lost, d'⟩ := drift_timedRecv hrecv d
        exact ⟨d'.calls, k, lost, d'.flow, Or.inl ⟨d'.handed, x, rfl⟩⟩
      · cases e
        obtain ⟨lost, g, hg, d'⟩ := drift_timedRecv hrecv d
        exact ⟨d'.calls, k, lost ++ [g], d'.flow,
          Or.inr ⟨b, lost, g, rfl, by rw [d'.handed], hg, rfl⟩⟩

/-- A call that begins with nothing outstanding hands back its own answer, or nothing. -/
theorem wpaRequest_own {fd : Int} {cmd : List UInt8} {cap : Option Nat} {t : Option Int}
    {a : Answers} {s s' : Sock} {r : Except Errno Reply}
    (e : wpaRequest fd cmd cap t a s = some (r, s')) (hs : s.pending = []) :
    s'.handed = s.handed ∨
      ∃ d : Reply, s'.handed = s.handed ++ [(s.calls, d)] ∧ d.call = some s.calls := by
  rcases wpaRequest_spec e with ⟨rfl, -⟩ | ⟨-, k, lost, hflow, ⟨hh, -⟩ |
    ⟨d, lost', g, -, hh, hg, rfl⟩⟩
  · exact Or.inl rfl
  · exact Or.inl hh
  · rw [hs, List.nil_append] at hflow
    have hmem : g ∈ List.replicate k s.calls := by
      rw [hflow]
      exact List.mem_append_left _ (List.mem_append_right _ (List.mem_singleton_self g))
    exact Or.inr ⟨d, hh, by rw [hg, List.eq_of_mem_replicate hmem]⟩

/-! ### Exactly when -/

/-- A datagram that a call with room for `cap` bytes does not ignore, unless it is an event. -/
def Datagram.Proper (cap : Nat) : Datagram → Prop
  | .event _        => True
  | .answer _ bytes => bytes.take cap ≠ [] ∧ (bytes.take cap).head? ≠ some LT

def Act.Proper (cap : Nat) : Act → Prop
  | .event _      => True
  | .answer bytes => bytes.take cap ≠ [] ∧ (bytes.take cap).head? ≠ some LT

def Sock.Proper (cap : Nat) (s : Sock) : Prop := ∀ d ∈ s.inbox, d.Proper cap

theorem Sock.Proper.act {cap : Nat} {s : Sock} (hs : s.Proper cap) {a : Act} (ha : a.Proper cap) :
    (s.act a).Proper cap := by
  cases a with
  | event text =>
      exact List.forall_mem_append.mpr ⟨hs, List.forall_mem_singleton.mpr trivial⟩
  | answer bytes =>
      unfold Sock.act
      rcases hc : s.commands with _ | ⟨c, cs⟩
      · exact hs
      · exact List.forall_mem_append.mpr ⟨hs, List.forall_mem_singleton.mpr ha⟩

/-- The supplicant's answers are proper throughout a call. -/
structure Answers.Proper (cap : Nat) (a : Answers) : Prop where
  sends : ∀ rd ∈ a.sends, ∀ x ∈ rd.acts, x.Proper cap
  recvs : ∀ rd ∈ a.recvs, ∀ x ∈ rd.acts, x.Proper cap

theorem proper_timedSend {n cap : Nat} {cmd : List UInt8} {start t t' : Int} {s s' : Sock}
    {rounds : List (Round (Except Errno Nat))} {r : Except Errno Unit} (hs : s.Proper cap)
    (hr : ∀ rd ∈ rounds, ∀ x ∈ rd.acts, x.Proper cap)
    (e : timedSend n cmd start rounds t s = some (r, t', s')) : s'.Proper cap := by
  have h := timed_rule (I := fun s' => s'.Proper cap) (Q := fun _ s' => s'.Proper cap) ?_ ?_ e hs
  · cases r <;> exact h
  · intro rd hrd a ha s₁ h₁
    exact h₁.act (hr rd hrd a ha)
  · rintro s₁ (x | l) h₁
    · unfold sendIo
      dsimp only
      split_ifs <;> exact h₁
    · unfold sendIo
      dsimp only
      split_ifs <;> exact h₁

/-- Proper answers are taken in order: the reply answers the first command outstanding. -/
theorem timedRecv_oldest {n k cap : Nat} {start t t' : Int} {s s₀ s' : Sock} {d : Reply}
    {rounds : List (Round (Option Errno))} (hs : s.Proper cap)
    (hr : ∀ rd ∈ rounds, ∀ x ∈ rd.acts, x.Proper cap) (hd : Drift n k [] s₀ s)
    (e : timedRecv cap start rounds t s = some (.ok d, t', s')) :
    ∃ g, d.call = some g ∧ Drift n k [g] s₀ s' := by
  refine timed_rule (I := fun s' => s'.Proper cap ∧ Drift n k [] s₀ s')
    (Q := fun d s' => ∃ g, d.call = some g ∧ Drift n k [g] s₀ s') ?_ ?_ e ⟨hs, hd⟩
  · rintro rd hrd a ha s₁ ⟨h₁, d₁⟩
    exact ⟨h₁.act (hr rd hrd a ha), d₁.act a⟩
  · rintro s₁ x ⟨h₁, d₁⟩
    rcases recvIo_spec cap s₁ x with ⟨heq, hnone⟩ | ⟨m, inbox, hin, heq, hres⟩
    · rw [heq]
      rcases hres : (recvIo cap s₁ x).1 with x | _ | b
      · exact ⟨h₁, d₁⟩
      · exact ⟨h₁, d₁⟩
      · exact absurd hres (hnone b)
    · have hm : m.Proper cap := h₁ m (by rw [hin]; exact List.mem_cons_self)
      have hflow := d₁.flow
      rw [Sock.pending.eq_1 s₁, hin] at hflow
      rw [heq, hres]
      cases m with
      | event text =>
          rw [if_neg (event_ignored text cap)]
          refine ⟨fun d hd => h₁ d ?_, d₁.calls, d₁.handed, hflow⟩
          rw [hin]
          exact List.mem_cons_of_mem _ hd
      | answer g bytes =>
          obtain ⟨hne, hlt⟩ := hm
          rw [if_pos ⟨hne, hlt⟩]
          exact ⟨g, rfl, d₁.calls, d₁.handed, hflow⟩

/-- **Whose answer it is.**  With proper answers, and earlier calls only outstanding, what a call
hands back is its own answer exactly when it began with nothing outstanding. -/
theorem wpaRequest_own_iff {fd : Int} {cmd : List UInt8} {cap : Option Nat} {t : Option Int}
    {a : Answers} {s s' : Sock} {d : Reply} (hs : s.Proper (cap.getD reqReplyMax))
    (ha : a.Proper (cap.getD reqReplyMax)) (hearlier : ∀ g ∈ s.pending, g < s.calls)
    (e : wpaRequest fd cmd cap t a s = some (.ok d, s')) :
    d.call = some s.calls ↔ s.pending = [] := by
  unfold wpaRequest at e
  split_ifs at e with hfd
  · cases e
  · dsimp only at e
    rcases hsend : timedSend s.calls cmd a.sendStart a.sends (clampTimeout (t.getD (-1)))
      { s with calls := s.calls + 1 } with _ | ⟨x | _, t₁, s₁⟩ <;> simp only [hsend] at e
    · cases e
    · cases e
    · rcases hrecv : timedRecv (cap.getD reqReplyMax) a.recvStart a.recvs t₁ s₁ with
        _ | ⟨x | b, t₂, s₂⟩ <;> simp only [hrecv] at e <;> cases e
      obtain ⟨k, hsent⟩ := drift_timedSend hsend
      have hs₀ : Sock.Proper (cap.getD reqReplyMax) { s with calls := s.calls + 1 } := hs
      obtain ⟨g, hg, hdrift⟩ :=
        timedRecv_oldest (proper_timedSend hs₀ ha.sends hsend) ha.recvs hsent hrecv
      have hflow : s.pending ++ List.replicate k s.calls = g :: s₂.pending := hdrift.flow
      rw [hg, Option.some_inj]
      rcases hp : s.pending with _ | ⟨g', rest⟩ <;> rw [hp] at hflow
      · refine iff_of_true (List.eq_of_mem_replicate (n := k) ?_) rfl
        rw [List.nil_append] at hflow
        rw [hflow]
        exact List.mem_cons_self
      · rw [List.cons_append] at hflow
        obtain ⟨rfl, -⟩ := List.cons.inj hflow
        refine iff_of_false (Nat.ne_of_lt (hearlier g' ?_)) (List.cons_ne_nil _ _)
        rw [hp]
        exact List.mem_cons_self

/-! ### Runs -/

/-- The operation calls `wpa_request`. -/
def Op.Requests : Op → Prop
  | .supplicant _               => False
  | .request _ _ _ _            => True
  | .requestOk _ _ _            => True
  | .dispatchTfd input broken l _ => input = true ∧ broken = false ∧ l = .ok 8
  | .dispatchReq _ _ _          => False

/-- A request that begins here begins with no answer outstanding. -/
def Settled (w : Channel) (l : Op × Except Errno (List UInt8)) : Prop :=
  l.1.Requests → w.req.pending = []

theorem acts_drift (s : Sock) (as : List Act) : Drift 0 0 [] s (s.acts as) :=
  acts_rule (fun a _ _ h => h.act a) ⟨rfl, rfl, List.append_nil _⟩

theorem readReq_drift {rounds : List (List Act × Option Errno)} {s s₀ s' : Sock} {lost : List Nat}
    {r : Except Errno (List UInt8)} (d : Drift 0 0 lost s₀ s)
    (e : readReq rounds s = some (r, s')) : ∃ lost, Drift 0 0 lost s₀ s' := by
  induction rounds generalizing s lost with
  | nil => cases e
  | cons rd rounds ih =>
      obtain ⟨as, x⟩ := rd
      have ha : Drift 0 0 lost s₀ (s.acts as) := acts_rule (fun a _ _ h => h.act a) d
      unfold readReq at e
      rcases x with _ | x
      · rcases hin : (s.acts as).inbox with _ | ⟨m, inbox⟩ <;> simp only [hin] at e
        · cases e
          exact ⟨lost, ha⟩
        · have ht : Drift 0 0 (lost ++ m.call.toList) s₀ { s.acts as with inbox } := by
            refine ⟨ha.calls, ha.handed, ?_⟩
            rw [ha.flow, Sock.pending, hin, List.append_assoc]
            cases m <;> rfl
          split_ifs at e
          · cases e
            exact ⟨_, ht⟩
          · exact ih ht e
      · cases e
        exact ⟨lost, ha⟩

/-- What a call of the user does to the socket. -/
inductive Touch (op : Op) (s s' : Sock) : Prop where
  | acts (as : List Act) (h : s' = s.acts as)
  | request (hop : op.Requests) {fd : Int} {cmd : List UInt8} {cap : Option Nat} {t : Option Int}
      {a : Answers} {r : Except Errno Reply} (h : wpaRequest fd cmd cap t a s = some (r, s'))
  | readReq {rounds : List (List Act × Option Errno)} {r : Except Errno (List UInt8)}
      (h : Wpa.readReq rounds s = some (r, s'))

theorem request_touch {w w' : Channel} {op : Op} (hop : op.Requests) {cmd : List UInt8}
    {cap : Option Nat} {timeout : Int} {a : Answers} {ans : Except Errno (List UInt8)}
    (e : request w cmd cap timeout a = some (ans, w')) : Touch op w.req w'.req := by
  unfold request at e
  split_ifs at e
  · rcases hr : wpaRequest w.reqFd cmd cap (some (timeoutUs timeout)) a w.req with
      _ | ⟨x | d, s⟩ <;> simp only [hr] at e <;> cases e
    · exact .request hop hr
    · exact .request hop hr
  · cases e
    exact .acts [] rfl

theorem readTfd_touch {w w' : Channel} {op : Op} {l : Except Errno Nat}
    (hop : l = .ok 8 → op.Requests) {a : Answers} {ans : Except Errno (List UInt8)}
    (e : readTfd w l a = some (ans, w')) :
    Touch op w.req w'.req := by
  unfold readTfd at e
  rcases l with x | l
  · cases e
    exact .acts [] rfl
  · dsimp only at e
    split_ifs at e with hl
    · rcases hr : wpaRequest w.reqFd (str "PING") (some 10) none a w.req with
        _ | ⟨x | d, s⟩ <;> simp only [hr] at e <;> cases e
      · exact .request (hop (by rw [hl])) hr
      · exact .request (hop (by rw [hl])) hr
    · cases e
      exact .acts [] rfl

theorem exec_touch {w w' : Channel} {op : Op} {ans : Except Errno (List UInt8)}
    (e : exec w op = some (ans, w')) : Touch op w.req w'.req := by
  cases op with
  | supplicant as =>
      cases e
      exact .acts as rfl
  | request cmd cap timeout a => exact request_touch trivial e
  | requestOk cmd timeout a =>
      simp only [exec, requestOk] at e
      rcases hr : request w cmd (some reqReplyMax) timeout a with _ | ⟨x | reply, w₁⟩ <;>
        simp only [hr] at e <;> cases e
      · exact request_touch trivial hr
      · exact request_touch trivial hr
  | dispatchTfd input broken l a =>
      simp only [exec, dispatchTfd] at e
      split_ifs at e with hb hin
      · cases e
        exact .acts [] rfl
      · have hop : l = .ok 8 → (Op.dispatchTfd input broken l a).Requests :=
          fun hl => ⟨hin, Bool.eq_false_iff.mpr hb, hl⟩
        rcases hr : readTfd w l a with _ | ⟨x | b, w₁⟩ <;> simp only [hr] at e <;> cases e
        · have ht : Touch _ w.req w₁.req := readTfd_touch hop hr
          exact ht
        · exact readTfd_touch hop hr
      · cases e
        exact .acts [] rfl
  | dispatchReq input broken rounds =>
      simp only [exec, dispatchReq] at e
      by_cases hin : input = true
      · rw [if_pos hin] at e
        rcases hr : readReq rounds w.req with _ | ⟨x | b, s⟩ <;> simp only [hr] at e <;> cases e
        · exact .readReq hr
        · exact .readReq hr
      · rw [if_neg hin] at e
        cases e
        exact .acts [] rfl

/-- The commands outstanding are those of earlier calls, in every run. -/
theorem pending_earlier {reqFd evFd : Int} {ls : List (Op × Except Errno (List UInt8))}
    {w : Channel} (run : channelLts.Run (.opened reqFd evFd) ls w) :
    ∀ g ∈ w.req.pending, g < w.req.calls := by
  refine run.invariant (I := fun w => ∀ g ∈ w.req.pending, g < w.req.calls) ?_ ?_
  · intro g hg
    cases hg
  · rintro w ⟨op, ans⟩ w' hw hstep g hg
    rcases exec_touch hstep with ⟨as, heq⟩ | ⟨hop, hreq⟩ | ⟨hread⟩
    · have d := acts_drift w.req as
      rw [← heq] at d
      rw [d.calls]
      refine hw g ?_
      rw [← List.append_nil w.req.pending]
      exact d.flow ▸ hg
    · rcases wpaRequest_spec hreq with ⟨heq, -⟩ | ⟨hcalls, k, lost, hflow, -⟩
      · rw [heq] at hg ⊢
        exact hw g hg
      · have hmem : g ∈ w.req.pending ++ List.replicate k w.req.calls := by
          rw [hflow]
          exact List.mem_append_right _ hg
        rw [hcalls]
        rcases List.mem_append.mp hmem with hold | hnew
        · exact Nat.lt_succ_of_lt (hw g hold)
        · rw [List.eq_of_mem_replicate hnew]
          exact Nat.lt_succ_self _
    · obtain ⟨lost, d⟩ := readReq_drift (acts_drift w.req []) hread
      have hmem : g ∈ w.req.pending ++ List.replicate 0 0 := by
        rw [d.flow]
        exact List.mem_append_right _ hg
      rw [d.calls]
      exact hw g (by simpa using hmem)

/-- **Replies match requests**, in every run in which no request begins with an answer
outstanding. -/
theorem replies_own {reqFd evFd : Int} {ls : List (Op × Except Errno (List UInt8))} {w : Channel}
    (run : (channelLts.guard Settled).Run (.opened reqFd evFd) ls w) :
    ∀ h ∈ w.req.handed, h.2.call = some h.1 := by
  refine run.invariant (I := fun w => ∀ h ∈ w.req.handed, h.2.call = some h.1) ?_ ?_
  · intro h hh
    cases hh
  · rintro w ⟨op, ans⟩ w' hw ⟨hsettled, hstep⟩ h hh
    rcases exec_touch hstep with ⟨as, heq⟩ | ⟨hop, hreq⟩ | ⟨hread⟩
    · rw [heq, (acts_drift w.req as).handed] at hh
      exact hw h hh
    · rcases wpaRequest_own hreq (hsettled hop) with hlog | ⟨d, hlog, hown⟩
      · rw [hlog] at hh
        exact hw h hh
      · rw [hlog] at hh
        rcases List.mem_append.mp hh with hold | hnew
        · exact hw h hold
        · rw [List.mem_singleton.mp hnew]
          exact hown
    · obtain ⟨lost, d⟩ := readReq_drift (acts_drift w.req []) hread
      rw [d.handed] at hh
      exact hw h hh

/-- A request whose answer comes after an event, and a `PING` to a silent supplicant. -/
theorem replies_own_twice :
    ∃ w : Channel, w.req.handed = [(0, ⟨some 0, str "OK\n"⟩)] ∧
      ∀ h ∈ w.req.handed, h.2.call = some h.1 := by
  have hrun : (channelLts.guard Settled).Run (.opened 3 4)
      [(.requestOk (str "SCAN") (-1) ⟨0, [⟨[], .ready false false, .ok 4, 1⟩], 1,
          [⟨[.event (str "3>X"), .answer (str "OK\n")], .ready false false, none, 2⟩,
            ⟨[], .ready false false, none, 3⟩]⟩, .ok []),
        (.dispatchTfd true false (.ok 8) ⟨9, [⟨[], .ready false false, .ok 4, 10⟩], 10,
          [⟨[], .timedOut, none, 20⟩]⟩, .error .ETIMEDOUT)] _ :=
    .cons ⟨fun _ => rfl, rfl⟩ (.one ⟨fun _ => rfl, rfl⟩)
  exact ⟨_, rfl, replies_own hrun⟩

/-- A request that times out; its answer comes late, and the next request takes it for its own. -/
theorem replies_own_late :
    ¬ ∀ (reqFd evFd : Int) (ls : List (Op × Except Errno (List UInt8))) (w : Channel),
      channelLts.Run (.opened reqFd evFd) ls w → ∀ h ∈ w.req.handed, h.2.call = some h.1 := by
  intro h
  have hrun : channelLts.Run (.opened 3 4)
      [(.requestOk (str "SCAN") (-1) ⟨0, [⟨[], .ready false false, .ok 4, 1⟩], 1,
          [⟨[], .timedOut, none, 2⟩]⟩, .error .ETIMEDOUT),
        (.supplicant [.answer (str "OK\n")], .ok []),
        (.request (str "STATUS") none (-1) ⟨3, [⟨[], .ready false false, .ok 6, 4⟩], 4,
          [⟨[], .ready false false, none, 5⟩]⟩, .ok (str "OK\n"))] _ :=
    .cons rfl (.cons rfl (.one rfl))
  have hown := h 3 4 _ _ hrun (1, ⟨some 0, str "OK\n"⟩) (List.mem_singleton_self _)
  cases hown

end OpenWfd.Wpa
