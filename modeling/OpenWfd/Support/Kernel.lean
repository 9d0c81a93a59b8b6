import OpenWfd.Support.Memory

/-!
# Support — Kernel

The kernel objects of one process: its sockets, with the path each is bound to and whether an epoll
set watches it, the socket files there are, and one timer.  A call that may fail is told by what
error, if any; the kernel adds the errors it must give itself.

* `establish`: what socket, bind and `EPOLL_CTL_ADD` leave together.
* `release_establish`: `EPOLL_CTL_DEL`, unlink and close take exactly that back.
-/

namespace OpenWfd

variable {π : Type*}

/-- An open socket: the path it is bound to, and whether it is in the epoll set.  Closing a socket
takes it out of the set. -/
structure Socket (π : Type*) where
  fd : Int
  name : Option π
  watched : Bool
  deriving DecidableEq, Repr

/-- `paths` are the socket files, which outlive their sockets.  `timer` is the interval of the timer
in microseconds, 0 if it is disarmed. -/
structure Kernel (π : Type*) where
  sockets : List (Socket π)
  paths : List π
  timer : Int
  deriving DecidableEq, Repr

namespace Kernel

/-- Nothing is open, bound, watched or armed. -/
def idle : Kernel π := ⟨[], [], 0⟩

def fds (k : Kernel π) : List Int := k.sockets.map Socket.fd

/-- The epoll set has the socket `fd`. -/
def watches (k : Kernel π) (fd : Int) : Bool := k.sockets.any fun s => s.fd = fd && s.watched

/-- The socket `fd` becomes `f` of it. -/
def update (k : Kernel π) (fd : Int) (f : Socket π → Socket π) : Kernel π :=
  { k with sockets := k.sockets.map fun s => if s.fd = fd then f s else s }

/-- `socket`, told an error or a number, which is no descriptor in use. -/
def socket (k : Kernel π) : Except Errno Nat → Except Errno Int × Kernel π
  | .error e => (.error e, k)
  | .ok fd   =>
    if (fd : Int) ∈ k.fds then (.error .EMFILE, k)
    else (.ok fd, { k with sockets := ⟨fd, none, false⟩ :: k.sockets })

/-- `close`. -/
def close (k : Kernel π) (fd : Int) : Kernel π :=
  { k with sockets := k.sockets.filter fun s => s.fd ≠ fd }

/-- `epoll_ctl(EPOLL_CTL_ADD)`. -/
def watch (k : Kernel π) (fd : Int) : Option Errno → Except Errno Unit × Kernel π
  | some e => (.error e, k)
  | none   => (.ok (), k.update fd fun s => { s with watched := true })

/-- `epoll_ctl(EPOLL_CTL_DEL)`. -/
def unwatch (k : Kernel π) (fd : Int) : Kernel π :=
  k.update fd fun s => { s with watched := false }

/-- `timerfd_settime`, with `usecs` as first expiry and as interval. -/
def settime (k : Kernel π) (usecs : Int) : Option Errno → Except Errno Unit × Kernel π
  | some e => (.error e, k)
  | none   => (.ok (), { k with timer := usecs })

section

variable [DecidableEq π]

/-- `bind`.  It creates the socket file. -/
def bind (k : Kernel π) (fd : Int) (name : π) : Option Errno → Except Errno Unit × Kernel π
  | some e => (.error e, k)
  | none   =>
    if name ∈ k.paths then (.error .EADDRINUSE, k)
    else (.ok (), { k.update fd fun s => { s with name } with paths := name :: k.paths })

/-- `unlink`. -/
def unlink (k : Kernel π) (name : π) : Kernel π :=
  { k with paths := k.paths.filter (· ≠ name) }

/-- `EPOLL_CTL_DEL`, `unlink` and `close`. -/
def release (k : Kernel π) (fd : Int) (name : π) : Kernel π :=
  ((k.unwatch fd).unlink name).close fd

end

/-- One more socket, and with it some files. -/
def hold (k : Kernel π) (s : Socket π) (files : List π) : Kernel π :=
  { k with sockets := s :: k.sockets, paths := files ++ k.paths }

/-- One more socket, bound to a new file and watched. -/
def establish (k : Kernel π) (fd : Int) (name : π) : Kernel π :=
  k.hold ⟨fd, some name, true⟩ [name]

/-! ### What is given back -/

section

variable {k k' : Kernel π} {fd : Int} {name : π} {s : Socket π} {files : List π}

theorem ne_of_notMem_fds (hfd : fd ∉ k.fds) (hs : s ∈ k.sockets) : s.fd ≠ fd := by
  rintro rfl
  exact hfd (List.mem_map_of_mem hs)

theorem socket_spec {a : Except Errno Nat} {r : Except Errno Int} (e : k.socket a = (r, k')) :
    ((∃ x, r = .error x) ∧ k' = k) ∨
      ∃ fd, 0 ≤ fd ∧ fd ∉ k.fds ∧ r = .ok fd ∧ k' = k.hold ⟨fd, none, false⟩ [] := by
  rcases a with x | n
  · cases e
    exact Or.inl ⟨⟨x, rfl⟩, rfl⟩
  · unfold socket at e
    dsimp only at e
    split_ifs at e with hfd
    · cases e
      exact Or.inl ⟨⟨_, rfl⟩, rfl⟩
    · cases e
      exact Or.inr ⟨n, Int.natCast_nonneg n, hfd, rfl, rfl⟩

/-- An update of the newest socket leaves the others as they are. -/
theorem update_hold (f : Socket π → Socket π) (hs : s.fd = fd) (hfd : fd ∉ k.fds) :
    (k.hold s files).update fd f = k.hold (f s) files := by
  have hrest : (k.sockets.map fun s => if s.fd = fd then f s else s) = k.sockets.map id := by
    refine List.map_congr_left ?_
    intro s hs
    exact if_neg (ne_of_notMem_fds hfd hs)
  rw [List.map_id] at hrest
  simp only [update, hold, List.map_cons, if_pos hs, hrest]

theorem close_hold (hs : s.fd = fd) (hfd : fd ∉ k.fds) : (k.hold s []).close fd = k := by
  have hrest : (k.sockets.filter fun s => s.fd ≠ fd) = k.sockets := by
    refine List.filter_eq_self.mpr ?_
    intro s hs
    exact decide_eq_true (ne_of_notMem_fds hfd hs)
  unfold close hold
  rw [List.filter_cons_of_neg (by simp [hs]), hrest]
  rfl

theorem watch_hold {a : Option Errno} {r : Except Errno Unit} (hfd : fd ∉ k.fds)
    (e : (k.hold ⟨fd, some name, false⟩ [name]).watch fd a = (r, k')) :
    ((∃ x, r = .error x) ∧ k' = k.hold ⟨fd, some name, false⟩ [name]) ∨
      (r = .ok () ∧ k' = k.establish fd name) := by
  rcases a with _ | x
  · unfold watch at e
    rw [update_hold _ rfl hfd] at e
    cases e
    exact Or.inr ⟨rfl, rfl⟩
  · cases e
    exact Or.inl ⟨⟨x, rfl⟩, rfl⟩

variable [DecidableEq π]

theorem unlink_of_notMem (hname : name ∉ k.paths) : k.unlink name = k := by
  have hrest : (k.paths.filter (· ≠ name)) = k.paths := by
    refine List.filter_eq_self.mpr ?_
    intro p hp
    exact decide_eq_true (ne_of_mem_of_not_mem hp hname)
  exact congrArg (fun paths => { k with paths }) hrest

theorem unlink_hold (hname : name ∉ k.paths) : (k.hold s [name]).unlink name = k.hold s [] := by
  unfold unlink hold
  rw [List.cons_append, List.filter_cons_of_neg (by simp)]
  exact congrArg (fun k' : Kernel π => k'.hold s []) (unlink_of_notMem hname)

theorem bind_hold {a : Option Errno} {r : Except Errno Unit} (hfd : fd ∉ k.fds)
    (hname : name ∉ k.paths) (e : (k.hold ⟨fd, none, false⟩ []).bind fd name a = (r, k')) :
    ((∃ x, r = .error x) ∧ k' = k.hold ⟨fd, none, false⟩ []) ∨
      (r = .ok () ∧ k' = k.hold ⟨fd, some name, false⟩ [name]) := by
  rcases a with _ | x
  · have hnew : name ∉ (k.hold ⟨fd, none, false⟩ []).paths := hname
    unfold bind at e
    rw [if_neg hnew, update_hold _ rfl hfd] at e
    cases e
    exact Or.inr ⟨rfl, rfl⟩
  · cases e
    exact Or.inl ⟨⟨x, rfl⟩, rfl⟩

/-- **Releasing a socket takes its establishment back.** -/
theorem release_establish (hfd : fd ∉ k.fds) (hname : name ∉ k.paths) :
    (k.establish fd name).release fd name = k := by
  unfold release establish unwatch
  rw [update_hold _ rfl hfd, unlink_hold hname, close_hold rfl hfd]

end

end Kernel

end OpenWfd
