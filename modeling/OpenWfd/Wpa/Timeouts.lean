import OpenWfd.Wpa.Request

/-!
# Wpa — timeouts

`timed_send` and `timed_recv` wait in rounds, and after each one recalculate what remains of
`*timeout`: they take from it all the time since they were entered, though earlier rounds have taken
their part already.  So the time before a round counts once for it and once for each later one.

`trace` tells the rounds of a call: the clock after each, and what then remained.  `accounts_iff`
says when every remaining time is what it should be, and then a call gives up in time only.
-/

namespace OpenWfd.Wpa

variable {α β : Type}

/-! ### The rounds of a call -/

/-- The rounds that `timed` goes through: the clock at the end of each, and the remaining time if it
was recalculated. -/
def trace (io : Sock → α → Except Errno (Option β) × Sock) (start : Int) :
    List (Round α) → Int → Sock → List (Int × Option Int)
  | [], _, _ => []
  | r :: rounds, timeout, s =>
    match attempt io (s.acts r.acts) r with
    | (.error _, _) => [(r.now, none)]
    | (.ok done, s) =>
      let t := timeout - (r.now - start)
      (r.now, some (max t 0)) ::
        match done with
        | some _ => []
        | none   => if t ≤ 0 then [] else trace io start rounds t s

/-- The clock when the call was left. -/
def leftAt (start : Int) (tr : List (Int × Option Int)) : Int := tr.foldl (fun _ x => x.1) start

/-- What remained when the call was left. -/
def remained (timeout : Int) (tr : List (Int × Option Int)) : Int :=
  tr.foldl (fun t x => x.2.getD t) timeout

/-- The clock where it was read. -/
def readings (tr : List (Int × Option Int)) : List Int :=
  tr.filterMap fun x => x.2.map fun _ => x.1

/-- The rest of the system, as far as the call comes: the clock does not go back, `ppoll` answers 0
only after the time it was given, and no call fails with `ETIMEDOUT`. -/
def Honest (io : Sock → α → Except Errno (Option β) × Sock) (start : Int) :
    List (Round α) → Int → Int → Sock → Prop
  | [], _, _, _ => True
  | r :: rounds, last, timeout, s =>
    last ≤ r.now ∧ (r.poll = .timedOut → last + timeout ≤ r.now) ∧
      (r.poll ≠ .timedOut → (attempt io (s.acts r.acts) r).1 ≠ .error .ETIMEDOUT) ∧
      ∀ s', attempt io (s.acts r.acts) r = (.ok none, s') → 0 < timeout - (r.now - start) →
        Honest io start rounds r.now (timeout - (r.now - start)) s'

/-- After every round the remaining time is what is left of the timeout `T`, and the call gives up
only after that time. -/
structure Accounts (io : Sock → α → Except Errno (Option β) × Sock) (start T : Int)
    (rounds : List (Round α)) (s : Sock) : Prop where
  remaining : ∀ now t, (now, some t) ∈ trace io start rounds T s → t = max 0 (T - (now - start))
  patient : ∀ t s', timed io start rounds T s = some (.error .ETIMEDOUT, t, s') →
    T ≤ leftAt start (trace io start rounds T s) - start

variable {io : Sock → α → Except Errno (Option β) × Sock} {start T last timeout : Int}
  {r : Round α} {rounds : List (Round α)} {s : Sock}

/-- **One round**: the call is left with an error, or with what it waited for, or too late, or it
waits on. -/
theorem timed_cons (io : Sock → α → Except Errno (Option β) × Sock) (start timeout : Int)
    (r : Round α) (rounds : List (Round α)) (s : Sock) :
    (∃ x s', attempt io (s.acts r.acts) r = (.error x, s') ∧
        timed io start (r :: rounds) timeout s = some (.error x, timeout, s') ∧
        trace io start (r :: rounds) timeout s = [(r.now, none)]) ∨
      (∃ b s', timed io start (r :: rounds) timeout s =
          some (.ok b, max (timeout - (r.now - start)) 0, s') ∧
        trace io start (r :: rounds) timeout s =
          [(r.now, some (max (timeout - (r.now - start)) 0))]) ∨
      (∃ s', timeout - (r.now - start) ≤ 0 ∧
        timed io start (r :: rounds) timeout s = some (.error .ETIMEDOUT, 0, s') ∧
        trace io start (r :: rounds) timeout s = [(r.now, some 0)]) ∨
      ∃ s', attempt io (s.acts r.acts) r = (.ok none, s') ∧ 0 < timeout - (r.now - start) ∧
        timed io start (r :: rounds) timeout s =
          timed io start rounds (timeout - (r.now - start)) s' ∧
        trace io start (r :: rounds) timeout s = (r.now, some (timeout - (r.now - start))) ::
          trace io start rounds (timeout - (r.now - start)) s' := by
  rw [timed, trace]
  rcases attempt io (s.acts r.acts) r with ⟨x | _ | b, s'⟩
  · exact Or.inl ⟨x, s', rfl, rfl, rfl⟩
  · by_cases ht : timeout - (r.now - start) ≤ 0
    · refine Or.inr (Or.inr (Or.inl ⟨s', ht, ?_⟩))
      dsimp only
      rw [if_pos ht, if_pos ht, max_eq_right ht]
      exact ⟨rfl, rfl⟩
    · refine Or.inr (Or.inr (Or.inr ⟨s', rfl, not_le.mp ht, ?_⟩))
      dsimp only
      rw [if_neg ht, if_neg ht, max_eq_left (not_le.mp ht).le]
      exact ⟨rfl, rfl⟩
  · exact Or.inr (Or.inl ⟨b, s', rfl, rfl⟩)

/-- **The trace is of this loop**: what it says remained is what `timed` leaves in `*timeout`. -/
theorem timed_remained {res : Except Errno β} {t : Int} {s' : Sock}
    (e : timed io start rounds timeout s = some (res, t, s')) :
    t = remained timeout (trace io start rounds timeout s) := by
  induction rounds generalizing timeout s with
  | nil => cases e
  | cons r rounds ih =>
      rcases timed_cons io start timeout r rounds s with ⟨x, s₁, -, h, htr⟩ | ⟨b, s₁, h, htr⟩ |
        ⟨s₁, -, h, htr⟩ | ⟨s₁, -, -, h, htr⟩ <;> rw [h] at e <;> rw [htr]
      · cases e
        rfl
      · cases e
        rfl
      · cases e
        rfl
      · exact ih e

/-! ### What should remain -/

/-- **When the remaining times are what they should be.**  The call has been going on for `T -
timeout` by its own account. -/
theorem remaining_iff (hlast : start ≤ last) (hle : timeout ≤ T)
    (hh : Honest io start rounds last timeout s) :
    (∀ now t, (now, some t) ∈ trace io start rounds timeout s → t = max 0 (T - (now - start))) ↔
      (timeout = T ∨ ∀ now ∈ readings (trace io start rounds timeout s), T ≤ now - start) ∧
        (readings (trace io start rounds timeout s)).Pairwise fun earlier now =>
          earlier = start ∨ T ≤ now - start := by
  induction rounds generalizing last timeout s with
  | nil => simp [trace, readings]
  | cons r rounds ih =>
      obtain ⟨hnow, -, -, hnext⟩ := hh
      have hone : ∀ t, t = max 0 (timeout - (r.now - start)) →
          (t = max 0 (T - (r.now - start)) ↔ timeout = T ∨ T ≤ r.now - start) := by
        intro t ht
        omega
      rcases timed_cons io start timeout r rounds s with ⟨x, s₁, -, -, htr⟩ | ⟨b, s₁, -, htr⟩ |
        ⟨s₁, ht, -, htr⟩ | ⟨s₁, ha, ht, -, htr⟩ <;> rw [htr]
      · simp [readings]
      · simpa [readings] using hone _ (max_comm _ _)
      · simpa [readings] using hone 0 (max_eq_left ht).symm
      · have htail := ih (show start ≤ r.now by omega) (by omega) (hnext s₁ ha ht)
        have hhead := hone _ (max_eq_right ht.le).symm
        have hread : readings ((r.now, some (timeout - (r.now - start))) ::
            trace io start rounds (timeout - (r.now - start)) s₁) =
              r.now :: readings (trace io start rounds (timeout - (r.now - start)) s₁) := rfl
        rw [hread, List.pairwise_cons, List.forall_mem_cons]
        constructor
        · intro hall
          have h₁ := hhead.mp (hall r.now _ List.mem_cons_self)
          obtain ⟨h₂, hpair⟩ := htail.mp fun now t h => hall now t (List.mem_cons_of_mem _ h)
          -- the call goes on, so the timeout has not passed, and this round is the first to take
          -- time
          have heq : timeout = T := by omega
          refine ⟨Or.inl heq, ?_, hpair⟩
          intro now hmem
          rcases h₂ with h | h
          · exact Or.inl (by omega)
          · exact Or.inr (h now hmem)
        · rintro ⟨h₁, h₂, hpair⟩
          have heq : timeout = T := by
            rcases h₁ with h | ⟨h, -⟩
            · exact h
            · omega
          have htl := htail.mpr ⟨?_, hpair⟩
          · rintro now t (_ | ⟨_, hm⟩)
            · exact hhead.mpr (Or.inl heq)
            · exact htl now t hm
          · by_cases hs : r.now = start
            · exact Or.inl (by omega)
            · exact Or.inr fun now hm => (h₂ now hm).resolve_left hs

/-- **Giving up in time.**  A call whose remaining times are what they should be has waited for all
of its timeout when it gives up. -/
theorem patient_of_remaining (heq : timeout = T - (last - start))
    (hh : Honest io start rounds last timeout s)
    (hall : ∀ now t, (now, some t) ∈ trace io start rounds timeout s →
      t = max 0 (T - (now - start)))
    {t : Int} {s' : Sock} (e : timed io start rounds timeout s = some (.error .ETIMEDOUT, t, s')) :
    T ≤ leftAt last (trace io start rounds timeout s) - start := by
  induction rounds generalizing last timeout s with
  | nil => cases e
  | cons r rounds ih =>
      obtain ⟨hnow, hpoll, herr, hnext⟩ := hh
      rcases timed_cons io start timeout r rounds s with ⟨x, s₁, ha, h, htr⟩ | ⟨b, s₁, h, htr⟩ |
        ⟨s₁, ht, h, htr⟩ | ⟨s₁, ha, ht, h, htr⟩ <;> rw [h] at e <;> rw [htr] at hall ⊢
      · cases e
        rw [ha] at herr
        have hout : r.poll = .timedOut := by
          by_contra hno
          exact herr hno rfl
        have hwait := hpoll hout
        show T ≤ r.now - start
        omega
      · cases e
      · have hzero := hall r.now 0 List.mem_cons_self
        show T ≤ r.now - start
        omega
      · have ht' := hall r.now _ List.mem_cons_self
        have heq' : timeout - (r.now - start) = T - (r.now - start) := by omega
        exact ih heq' (hnext s₁ ha ht)
          (fun now t h => hall now t (List.mem_cons_of_mem _ h)) e

/-- Each reading of the clock comes before any time has passed, or the timeout has passed by the
next one. -/
def OnTime (start T : Int) (readings : List Int) : Prop :=
  readings.Pairwise fun earlier now => earlier = start ∨ T ≤ now - start

/-- **When a call accounts for its time.** -/
theorem accounts_iff (hh : Honest io start rounds start T s) :
    Accounts io start T rounds s ↔ OnTime start T (readings (trace io start rounds T s)) := by
  have hiff := remaining_iff le_rfl le_rfl hh
  constructor
  · intro h
    exact (hiff.mp h.remaining).2
  · intro hpair
    have hall := hiff.mpr ⟨Or.inl rfl, hpair⟩
    refine ⟨hall, ?_⟩
    intro t s' e
    exact patient_of_remaining (by omega) hh hall e

/-- **The timeouts of `timed_send` and `timed_recv`.**  For any timeout, rounds and clock: after
every round the remaining time is the timeout less the time since the call was entered, and the call
gives up only after its timeout, exactly if no reading of the clock but the last sees time pass
before the timeout has. -/
theorem timeouts_iff (call cap : Nat) (cmd : List UInt8) (start T : Int) (s : Sock)
    {sends : List (Round (Except Errno Nat))} {recvs : List (Round (Option Errno))}
    (hs : Honest (sendIo call cmd) start sends start T s)
    (hr : Honest (recvIo cap) start recvs start T s) :
    (Accounts (sendIo call cmd) start T sends s ↔
        OnTime start T (readings (trace (sendIo call cmd) start sends T s))) ∧
      (Accounts (recvIo cap) start T recvs s ↔
        OnTime start T (readings (trace (recvIo cap) start recvs T s))) :=
  ⟨accounts_iff hs, accounts_iff hr⟩

/-- Ten milliseconds: a wake-up at once and a send after seven, a wake-up after twelve and no
reply. -/
theorem timeouts_iff_once :
    Accounts (sendIo 0 [80]) 0 10000
        [⟨[], .failed .EAGAIN, .ok 0, 0⟩, ⟨[], .ready false false, .ok 1, 7000⟩] .fresh ∧
      Accounts (recvIo 512) 0 10000 [⟨[.event []], .ready false false, none, 12000⟩] .fresh := by
  have hs : Honest (sendIo 0 [80]) 0
      [⟨[], .failed .EAGAIN, .ok 0, 0⟩, ⟨[], .ready false false, .ok 1, 7000⟩] 0 10000 .fresh := by
    simp [Honest, attempt, sendIo]
  have hr : Honest (recvIo 512) 0 [⟨[.event []], .ready false false, none, 12000⟩] 0
      10000 .fresh := by
    simp [Honest, attempt, recvIo, Sock.acts, Sock.act, Sock.fresh, Datagram.bytes]
  have h := timeouts_iff 0 512 [80] 0 10000 .fresh hs hr
  refine ⟨h.1.mpr ?_, h.2.mpr ?_⟩
  · simp [OnTime, readings, trace, attempt, sendIo]
  · simp [OnTime, readings, trace, attempt, recvIo, Sock.acts, Sock.act, Sock.fresh, Datagram.bytes]

/-- Ten milliseconds: wake-ups after four and six, and nothing is left of them for either call. -/
theorem timeouts_short :
    (¬ ∀ (call : Nat) (cmd : List UInt8) (start T : Int) (s : Sock)
      (sends : List (Round (Except Errno Nat))),
        Honest (sendIo call cmd) start sends start T s →
        Accounts (sendIo call cmd) start T sends s) ∧
      ¬ ∀ (cap : Nat) (start T : Int) (s : Sock) (recvs : List (Round (Option Errno))),
        Honest (recvIo cap) start recvs start T s → Accounts (recvIo cap) start T recvs s := by
  refine ⟨fun hall => ?_, fun hall => ?_⟩
  · have haccounts := hall 0 [] 0 10000 .fresh
      [⟨[], .failed .EAGAIN, .ok 0, 4000⟩, ⟨[], .failed .EAGAIN, .ok 0, 6000⟩]
      (by simp [Honest, attempt])
    have hleft := haccounts.remaining 6000 0 (List.mem_cons_of_mem _ List.mem_cons_self)
    exact absurd hleft (by decide)
  · have haccounts := hall 512 0 10000 .fresh
      [⟨[], .failed .EAGAIN, none, 4000⟩, ⟨[.event []], .ready false false, none, 6000⟩]
      (by simp [Honest, attempt, recvIo, Sock.acts, Sock.act, Sock.fresh, Datagram.bytes])
    have hleft := haccounts.remaining 6000 0 (List.mem_cons_of_mem _ List.mem_cons_self)
    exact absurd hleft (by decide)

end OpenWfd.Wpa
