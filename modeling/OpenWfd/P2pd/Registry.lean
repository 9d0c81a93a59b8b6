import OpenWfd.P2pd.Definitions
import OpenWfd.Support.Trace

/-!
# P2pd — Registry

What the list of event users is for.  A registry is the users in order; an event is delivered to
each user that was registered before it, unless it is unregistered before its turn (`deliver`).

* `deliver_fannedOut`: then each of them is called exactly once, and none after it has been
  unregistered, whatever the event functions do.
* `Spares`: no event function unregisters the user that comes next.
-/

namespace OpenWfd.P2pd

/-- The registered users in order, what each registered, and the number of the next. -/
structure Registry where
  list : List Nat
  users : Nat → EventUser
  next : Nat
  log : List Entry

namespace Registry

def register (r : Registry) (eventFn : Option Nat) (data : Nat) : Registry where
  list := r.next :: r.list
  users := Function.update r.users r.next ⟨eventFn, data⟩
  next := r.next + 1
  log := r.log ++ [.registered r.next]

def remove (r : Registry) (u : Nat) : Registry :=
  { r with list := r.list.filter (· ≠ u), log := r.log ++ [.unregistered u] }

/-- The first user with the function and the data goes. -/
def unregister (r : Registry) (eventFn : Option Nat) (data : Nat) : Registry :=
  match r.list.find? fun u => r.users u = ⟨eventFn, data⟩ with
  | none   => r
  | some u => r.remove u

def run (r : Registry) : CbOp → Registry
  | .register eventFn data memory => if memory then r.register eventFn data else r
  | .unregister eventFn data      => r.unregister eventFn data

/-- The event function of `u`, if there is one, is called and does what its script says. -/
def call (r : Registry) (u : Nat) (scripts : Scripts) : Registry × Scripts :=
  match (r.users u).eventFn with
  | none   => (r, scripts)
  | some _ => ((scripts.headD []).foldl run { r with log := r.log ++ [.called u] }, scripts.tail)

/-- Each of `us` that is registered at its turn is called. -/
def deliver : List Nat → Registry → Scripts → Registry
  | [], r, _            => r
  | u :: us, r, scripts =>
    if u ∈ r.list then deliver us (r.call u scripts).1 (r.call u scripts).2
    else deliver us r scripts

/-- No event function unregisters the user whose turn is next. -/
def Spares : List Nat → Registry → Scripts → Prop
  | [], _, _            => True
  | u :: us, r, scripts =>
    if u ∈ r.list then
      (∀ t ∈ us.find? (· ∈ r.list), t ∈ (r.call u scripts).1.list) ∧
        Spares us (r.call u scripts).1 (r.call u scripts).2
    else Spares us r scripts

instance decidableSpares : ∀ us r scripts, Decidable (Spares us r scripts)
  | [], _, _            => inferInstanceAs (Decidable True)
  | u :: us, r, scripts =>
    haveI := decidableSpares us (r.call u scripts).1 (r.call u scripts).2
    haveI := decidableSpares us r scripts
    inferInstanceAs (Decidable (if u ∈ r.list then
      (∀ t ∈ us.find? (· ∈ r.list), t ∈ (r.call u scripts).1.list) ∧
        Spares us (r.call u scripts).1 (r.call u scripts).2
    else Spares us r scripts))

/-! ### What the event functions may change -/

/-- One change of the registry. -/
inductive Change : Registry → Registry → Prop where
  | registered (r : Registry) (eventFn : Option Nat) (data : Nat) :
      Change r (r.register eventFn data)
  | removed {r : Registry} {u : Nat} (h : u ∈ r.list) : Change r (r.remove u)

/-- Any number of them. -/
abbrev Changes : Registry → Registry → Prop := Relation.ReflTransGen Change

theorem changes_run (r : Registry) (o : CbOp) : Changes r (r.run o) := by
  cases o with
  | register eventFn data memory =>
      rw [run]
      split_ifs
      · exact .single (.registered r eventFn data)
      · exact .refl
  | unregister eventFn data =>
      rw [run, unregister]
      rcases hu : r.list.find? fun u => r.users u = ⟨eventFn, data⟩ with _ | u
      · exact .refl
      · exact .single (.removed (List.mem_of_find?_eq_some hu))

theorem changes_script (r : Registry) (script : List CbOp) : Changes r (script.foldl run r) := by
  induction script generalizing r with
  | nil => exact .refl
  | cons o script ih => exact (changes_run r o).trans (ih (r.run o))

/-- The numbers in use are below the next, and who is unregistered does not come back. -/
structure Sane (r : Registry) : Prop where
  nodup : r.list.Nodup
  below : ∀ u ∈ r.list, u < r.next
  gone : ∀ u, Entry.unregistered u ∈ r.log → u ∉ r.list ∧ u < r.next

@[simp] theorem mem_remove {r : Registry} {u v : Nat} :
    v ∈ (r.remove u).list ↔ v ∈ r.list ∧ v ≠ u := by
  simp [remove]

theorem Sane.note {r : Registry} (h : r.Sane) (u : Nat) :
    Sane { r with log := r.log ++ [.called u] } := by
  refine ⟨h.nodup, h.below, ?_⟩
  intro v hv
  rcases List.mem_append.mp hv with hv | hv
  · exact h.gone v hv
  · cases List.mem_singleton.mp hv

theorem Sane.change {r r' : Registry} (h : r.Sane) (c : Change r r') : r'.Sane := by
  cases c with
  | registered eventFn data =>
      refine ⟨?_, ?_, ?_⟩
      · exact List.nodup_cons.mpr ⟨fun hmem => Nat.lt_irrefl _ (h.below _ hmem), h.nodup⟩
      · intro u hu
        rcases List.mem_cons.mp hu with rfl | hu
        · exact Nat.lt_succ_self r.next
        · exact Nat.lt_succ_of_lt (h.below u hu)
      · intro u hu
        rcases List.mem_append.mp hu with hu | hu
        · obtain ⟨hnot, hlt⟩ := h.gone u hu
          refine ⟨?_, Nat.lt_succ_of_lt hlt⟩
          intro hmem
          rcases List.mem_cons.mp hmem with rfl | hmem
          · exact Nat.lt_irrefl _ hlt
          · exact hnot hmem
        · cases List.mem_singleton.mp hu
  | @removed u hu =>
      refine ⟨h.nodup.filter _, fun v hv => h.below v (mem_remove.mp hv).1, ?_⟩
      intro v hv
      rcases List.mem_append.mp hv with hv | hv
      · obtain ⟨hnot, hlt⟩ := h.gone v hv
        exact ⟨fun hmem => hnot (mem_remove.mp hmem).1, hlt⟩
      · cases List.mem_singleton.mp hv
        exact ⟨fun hmem => (mem_remove.mp hmem).2 rfl, h.below u hu⟩

/-! ### What is promised to the users -/

/-- No user is called after it has been unregistered. -/
def NotGone (pre : List Entry) (e : Entry) : Prop :=
  ∀ u, e = .called u → Entry.unregistered u ∉ pre

/-- `u` was unregistered before its turn: before any of the users `behind` it was called. -/
def Gone (behind : List Nat) (u : Nat) (log : List Entry) : Prop :=
  Entry.unregistered u ∈ log ∧
    Throughout (fun pre e => ∀ v ∈ behind, e = .called v → Entry.unregistered u ∈ pre) log

/-- `u` was called exactly once or, unregistered before its turn, not at all. -/
def Served (behind : List Nat) (u : Nat) (log : List Entry) : Prop :=
  log.count (.called u) = 1 ∨ (log.count (.called u) = 0 ∧ Gone behind u log)

/-- Of the users `us`, in this order, each that has an event function is called exactly once unless
it is unregistered before its turn, and none is called after it has been unregistered. -/
structure FannedOut (us : List Nat) (users : Nat → EventUser) (log : List Entry) : Prop where
  served : ∀ front u behind, us = front ++ u :: behind → (users u).eventFn ≠ none →
    Served behind u log
  notGone : Throughout NotGone log

theorem Served.concat {behind : List Nat} {u : Nat} {log : List Entry} (h : Served behind u log)
    {e : Entry} (he : e ≠ .called u) : Served behind u (log ++ [e]) := by
  have hcount : (log ++ [e]).count (.called u) = log.count (.called u) := by
    rw [List.count_append, List.count_singleton]
    simp [he]
  rcases h with hone | ⟨hzero, hmem, hbehind⟩
  · exact Or.inl (hcount.trans hone)
  · exact Or.inr ⟨hcount.trans hzero, List.mem_append_left _ hmem,
      hbehind.concat fun _ _ _ => hmem⟩

/-- The turns of `done` are over, those of `us` are to come.  They registered `users`. -/
structure Turn (users : Nat → EventUser) (done us : List Nat) (r : Registry) : Prop where
  sane : r.Sane
  same : ∀ u ∈ done ++ us, r.users u = users u
  nodup : (done ++ us).Nodup
  below : ∀ u ∈ done ++ us, u < r.next
  calls : ∀ v, Entry.called v ∈ r.log → v ∈ done
  present : ∀ u ∈ done ++ us, u ∈ r.list ∨ Entry.unregistered u ∈ r.log
  notGone : Throughout NotGone r.log
  told : ∀ front u behind, done ++ us = front ++ u :: behind → u ∈ done →
    (users u).eventFn ≠ none → Served behind u r.log

section

variable {users : Nat → EventUser} {done us : List Nat} {r r' : Registry} {u : Nat}

/-- An entry that is no call. -/
theorem Turn.concat {e : Entry} (h : Turn users done us r) (he : ∀ u, e ≠ .called u) (hs : r'.Sane)
    (hnext : r.next ≤ r'.next) (hlog : r'.log = r.log ++ [e])
    (husers : ∀ u < r.next, r'.users u = r.users u)
    (hlist : ∀ u ∈ done ++ us, u ∈ r.list → u ∈ r'.list ∨ e = .unregistered u) :
    Turn users done us r' := by
  refine ⟨hs, ?_, h.nodup, fun u hu => lt_of_lt_of_le (h.below u hu) hnext, ?_, ?_, ?_, ?_⟩
  · exact fun u hu => (husers u (h.below u hu)).trans (h.same u hu)
  · intro v hv
    rw [hlog] at hv
    rcases List.mem_append.mp hv with hv | hv
    · exact h.calls v hv
    · exact absurd (List.mem_singleton.mp hv).symm (he v)
  · intro u hu
    rw [hlog]
    rcases h.present u hu with hmem | hmem
    · rcases hlist u hu hmem with hmem | rfl
      · exact Or.inl hmem
      · exact Or.inr List.mem_concat_self
    · exact Or.inr (List.mem_append_left _ hmem)
  · rw [hlog]
    exact h.notGone.concat fun u heq => absurd heq (he u)
  · intro front u behind heq hu hfn
    rw [hlog]
    exact (h.told front u behind heq hu hfn).concat (he u)

theorem Turn.change (h : Turn users done us r) (c : Change r r') : Turn users done us r' := by
  have hs := h.sane.change c
  cases c with
  | registered eventFn data =>
      refine h.concat (e := .registered r.next) (by simp) hs (Nat.le_succ r.next) rfl ?_ ?_
      · intro u hu
        exact Function.update_of_ne (Nat.ne_of_lt hu) _ _
      · exact fun u _ hmem => Or.inl (List.mem_cons_of_mem _ hmem)
  | @removed u hu =>
      refine h.concat (e := .unregistered u) (by simp) hs le_rfl rfl (fun _ _ => rfl) ?_
      intro v _ hmem
      by_cases hv : v = u
      · exact Or.inr (by rw [hv])
      · exact Or.inl (mem_remove.mpr ⟨hmem, hv⟩)

theorem Turn.script (h : Turn users done us r) (script : List CbOp) :
    Turn users done us (script.foldl run r) :=
  closure_invariant (changes_script r script) h fun _ _ => Turn.change

/-- The turn of `u` is over when it is accounted for. -/
theorem Turn.next (h : Turn users done (u :: us) r)
    (hu : (users u).eventFn ≠ none → Served us u r.log) :
    Turn users (done ++ [u]) us r := by
  have heq : (done ++ [u]) ++ us = done ++ u :: us := by simp
  refine ⟨h.sane, heq ▸ h.same, heq ▸ h.nodup, heq ▸ h.below, ?_, heq ▸ h.present, h.notGone, ?_⟩
  · exact fun v hv => List.mem_append_left _ (h.calls v hv)
  · intro front v behind hsplit hv hfn
    rw [heq] at hsplit
    rcases List.mem_append.mp hv with hv | hv
    · exact h.told front v behind hsplit hv hfn
    · obtain rfl := List.mem_singleton.mp hv
      -- `v` stands in one place only
      obtain ⟨-, hnot, hbehind⟩ := List.nodup_append.mp h.nodup
      have hus : v ∉ us := (List.nodup_cons.mp hnot).1
      have hdone : v ∉ done := fun hmem => hbehind v hmem v List.mem_cons_self rfl
      obtain ⟨-, -, rfl⟩ := (List.append_cons_inj_of_notMem hdone hus).mp hsplit
      exact hu hfn

/-- A user that was unregistered is passed over. -/
theorem Turn.skip (h : Turn users done (u :: us) r) (hu : u ∉ r.list) :
    Turn users (done ++ [u]) us r := by
  have hdisj := (List.nodup_append.mp h.nodup).2.2
  refine h.next fun _ => Or.inr ⟨List.count_eq_zero.mpr ?_, ?_, ?_⟩
  · exact fun hmem => hdisj u (h.calls u hmem) u List.mem_cons_self rfl
  · have hmem : u ∈ done ++ u :: us := List.mem_append_right _ List.mem_cons_self
    exact (h.present u hmem).resolve_left hu
  · -- none of the users behind it has been called
    intro pre e post hlog v hv heq
    have hcalled : Entry.called v ∈ r.log := by
      rw [hlog, heq]
      exact List.mem_append_right _ List.mem_cons_self
    exact absurd rfl (hdisj v (h.calls v hcalled) v (List.mem_cons_of_mem u hv))

/-- A registered user is called. -/
theorem Turn.called (h : Turn users done (u :: us) r) (hu : u ∈ r.list) :
    Turn users (done ++ [u]) us { r with log := r.log ++ [.called u] } := by
  have heq : (done ++ [u]) ++ us = done ++ u :: us := by simp
  have hdisj := (List.nodup_append.mp h.nodup).2.2
  have hnotYet : Entry.called u ∉ r.log :=
    fun hmem => hdisj u (h.calls u hmem) u List.mem_cons_self rfl
  refine ⟨h.sane.note u, heq ▸ h.same, heq ▸ h.nodup, heq ▸ h.below, ?_, ?_, ?_, ?_⟩
  · intro v hv
    rcases List.mem_append.mp hv with hv | hv
    · exact List.mem_append_left _ (h.calls v hv)
    · cases List.mem_singleton.mp hv
      exact List.mem_append_right _ List.mem_cons_self
  · rw [heq]
    exact fun v hv => (h.present v hv).imp_right (List.mem_append_left _)
  · refine h.notGone.concat ?_
    rintro v ⟨⟩ hmem
    exact (h.sane.gone u hmem).1 hu
  · intro front v behind hsplit hv hfn
    rw [heq] at hsplit
    rcases List.mem_append.mp hv with hv | hv
    · refine (h.told front v behind hsplit hv hfn).concat ?_
      rintro ⟨⟩
      exact hdisj u hv u List.mem_cons_self rfl
    · cases List.mem_singleton.mp hv
      refine Or.inl ?_
      rw [List.count_append, List.count_eq_zero.mpr hnotYet, List.count_singleton_self]

/-- Every turn comes. -/
theorem Turn.deliver (h : Turn users done us r) (scripts : Scripts) :
    Turn users (done ++ us) [] (deliver us r scripts) := by
  induction us generalizing done r scripts with
  | nil =>
      rw [List.append_nil]
      exact h
  | cons u us ih =>
      have heq : done ++ u :: us = (done ++ [u]) ++ us := by simp
      rw [heq]
      unfold Registry.deliver
      split_ifs with hu
      · refine ih ?_ _
        have hsame : r.users u = users u := h.same u (List.mem_append_right _ List.mem_cons_self)
        unfold call
        rcases hfn : (r.users u).eventFn with _ | fn
        · exact h.next fun hne => absurd (hsame ▸ hfn) hne
        · exact (h.called hu).script _
      · exact ih (h.skip hu) scripts

end

/-- **Delivery** keeps what is promised, whatever the event functions do. -/
theorem deliver_fannedOut {r : Registry} (hs : r.Sane) (hlog : r.log = []) (scripts : Scripts) :
    FannedOut r.list r.users (deliver r.list r scripts).log := by
  have hstart : Turn r.users [] r.list r := by
    refine ⟨hs, fun _ _ => rfl, hs.nodup, hs.below, ?_, fun u hu => Or.inl hu, ?_, ?_⟩
    · intro v hv
      rw [hlog] at hv
      cases hv
    · rw [hlog]
      exact throughout_nil
    · exact fun _ _ _ _ hu => nomatch hu
  have hend := hstart.deliver scripts
  rw [List.nil_append] at hend
  refine ⟨?_, hend.notGone⟩
  intro front u behind hsplit hfn
  have hu : u ∈ r.list := hsplit ▸ List.mem_append_right _ List.mem_cons_self
  exact hend.told front u behind (by rw [List.append_nil, hsplit]) hu hfn

end Registry

end OpenWfd.P2pd
