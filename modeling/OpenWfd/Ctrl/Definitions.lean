import OpenWfd.Ring.Definitions
import OpenWfd.Support.Lts
import Mathlib.Logic.Function.Basic

/-!
# Ctrl — Definitions

`src/rtsp_ctrl.c`: the RTSP control channel over one non-blocking TCP socket.  `owfd_rtsp_ctrl_send`
queues bytes in a ring, `owfd_rtsp_ctrl_dispatch` waits for the socket and writes and reads.

What the system calls answer is given with each call, and so is what the callback does: it may send,
close the channel and open it again in the middle of a dispatch, and dispatch it itself (`Deep`).
Two things outside `struct owfd_rtsp_ctrl` are threaded through with it: the events each descriptor
is registered for in the epoll set, and a log of what the channel did.
-/

namespace OpenWfd.Ctrl

/-- The bits of an epoll event mask that the channel uses. -/
structure Events where
  input : Bool
  output : Bool
  hup : Bool
  err : Bool
  deriving DecidableEq, Repr

/-- `EPOLLHUP | EPOLLERR | EPOLLIN | EPOLLOUT`. -/
def Events.all : Events := ⟨true, true, true, true⟩

/-- `EPOLLHUP | EPOLLERR | EPOLLIN`. -/
def Events.quiet : Events := ⟨true, false, true, true⟩

/-- What a run of the channel leaves behind.  `received` says what was read from which descriptor.
`pushed` says what `owfd_rtsp_ctrl_send` found: whether
`EPOLLOUT` was registered, whether the ring was empty, whether `epoll_ctl` would be refused. -/
inductive Event where
  | opened (fd : Int) (cb : Option Nat)
  | closed
  | pushed (buf : List UInt8) (armed empty refused : Bool)
  | wrote (bytes : List UInt8)
  | received (fd : Int) (bytes : List UInt8)
  | called (cb : Nat) (data : Option (List UInt8))
  deriving DecidableEq, Repr

/-- `struct owfd_rtsp_ctrl`, and the world beside it.  A callback is a number. -/
structure Channel where
  fd : Int
  cb : Option Nat
  outRing : ShlRing
  connected : Bool
  epoll : Int → Option Events
  log : List Event

/-- `owfd_rtsp_ctrl_new`, when it succeeds. -/
def Channel.fresh : Channel := ⟨-1, none, .zeroed, false, fun _ => none, []⟩

def note (c : Channel) (e : Event) : Channel := { c with log := c.log ++ [e] }

/-- `epoll_ctl(efd, op, fd, &ev)` when it succeeds. -/
def register (c : Channel) (fd : Int) (ev : Events) : Channel :=
  { c with epoll := Function.update c.epoll fd (some ev) }

section

variable (c : Channel) (e : Event) (fd : Int) (ev : Events)

@[simp] theorem note_fd : (note c e).fd = c.fd := rfl
@[simp] theorem note_outRing : (note c e).outRing = c.outRing := rfl
@[simp] theorem note_epoll : (note c e).epoll = c.epoll := rfl
@[simp] theorem note_log : (note c e).log = c.log ++ [e] := rfl
@[simp] theorem register_fd : (register c fd ev).fd = c.fd := rfl
@[simp] theorem register_outRing : (register c fd ev).outRing = c.outRing := rfl
@[simp] theorem register_log : (register c fd ev).log = c.log := rfl
@[simp] theorem register_self : (register c fd ev).epoll fd = some ev := Function.update_self ..

end

/-- `owfd_rtsp_ctrl_is_open`. -/
def isOpen (c : Channel) : Bool := 0 ≤ c.fd

/-- `owfd_rtsp_ctrl_is_connected`. -/
def isConnected (c : Channel) : Bool := isOpen c && c.connected

/-- `EPOLLOUT` is registered. -/
def armed (c : Channel) : Bool :=
  match c.epoll c.fd with
  | some ev => ev.output
  | none    => false

theorem armed_of_epoll {c : Channel} {ev : Events} (h : c.epoll c.fd = some ev) :
    armed c = ev.output := by
  rw [armed, h]

/-! ### Open, close, send -/

/-- `owfd_rtsp_ctrl_close`.  Closing a descriptor takes it out of the epoll set. -/
def close (c : Channel) : Channel :=
  if isOpen c then
    note { c with
      fd := -1, connected := false, cb := none, outRing := c.outRing.flush
      epoll := Function.update c.epoll c.fd none } .closed
  else
    c

/-- The answers of `fcntl(F_GETFL)`, `fcntl(F_SETFL)` and `epoll_ctl(EPOLL_CTL_ADD)`. -/
structure OpenAnswers where
  getfl : Option Errno
  setfl : Option Errno
  add : Option Errno

/-- `owfd_rtsp_ctrl_open_tcp_fd`. -/
def openTcpFd (c : Channel) (fd : Int) (cb : Option Nat) (a : OpenAnswers) :
    Except Errno Unit × Channel :=
  if isOpen c then
    (.error .EALREADY, c)
  else if fd < 0 then
    (.error .EINVAL, c)
  else
    match a.getfl, a.setfl, a.add with
    | some e, _, _          => (.error e, c)
    | none, some e, _       => (.error e, c)
    | none, none, some e    => (.error e, c)
    | none, none, none      =>
      -- wait for EPOLLOUT as "CONNECTED" event
      let c := register c fd .all
      (.ok (), note { c with fd := fd, connected := false, cb := cb } (.opened fd cb))

/-- The answers of the allocator and of `epoll_ctl(EPOLL_CTL_MOD)`. -/
structure SendAnswers where
  heap : Allocs
  mod : Option Errno

/-- `owfd_rtsp_ctrl_send`. -/
def send (c : Channel) (buf : List UInt8) (a : SendAnswers) : Except Errno Unit × Channel :=
  if isOpen c then
    let empty := c.outRing.peek = []
    match c.outRing.push buf a.heap with
    | (.error e, ring, _) => (.error e, { c with outRing := ring })
    | (.ok (), ring, _) =>
      let c := note { c with outRing := ring } (.pushed buf (armed c) empty a.mod.isSome)
      if empty then
        match a.mod with
        | some e => (.error e, c)
        | none   => (.ok (), register c c.fd .all)
      else
        (.ok (), c)
  else
    (.error .ENODEV, c)

/-! ### The callback -/

/-- The calls a callback makes on its channel, and what each does to it. -/
class Callback (Op : Type) where
  run : Channel → Op → Channel

/-- A call that sends, closes or opens. -/
inductive CbOp where
  | openTcpFd (fd : Int) (cb : Option Nat) (a : OpenAnswers)
  | close
  | send (buf : Buffer) (a : SendAnswers)

def CbOp.run (c : Channel) : CbOp → Channel
  | .openTcpFd fd cb a => (Ctrl.openTcpFd c fd cb a).2
  | .close             => Ctrl.close c
  | .send buf a        => (Ctrl.send c buf a).2

instance : Callback CbOp := ⟨CbOp.run⟩

/-- What the callback does each time it is called; after the list, nothing. -/
abbrev Scripts (Op : Type := CbOp) := List (List Op)

section

variable {Op : Type} [Callback Op]

/-- `ctrl->cb(ctrl, buf, len, ctrl->data)`, if there is a callback. -/
def callback (c : Channel) (data : Option (List UInt8)) (scripts : Scripts Op) :
    Channel × Scripts Op :=
  match c.cb with
  | none    => (c, scripts)
  | some cb => ((scripts.headD []).foldl Callback.run (note c (.called cb data)), scripts.tail)

/-- `connect_done`. -/
def connectDone (c : Channel) (scripts : Scripts Op) : Except Errno Unit × Channel × Scripts Op :=
  if c.connected then
    (.ok (), c, scripts)
  else
    let (c, scripts) := callback { c with connected := true } none scripts
    -- callback may have called *_close() and *_open_*()
    (if c.connected then .ok () else .error .EPIPE, c, scripts)

/-! ### Reading and writing -/

/-- What a `read` answers; after the list, `EAGAIN`. -/
abbrev Reads := List (Except Errno (List UInt8))

def wouldBlock (e : Errno) : Bool := e = .EAGAIN || e = .EINTR

/-- The loop of `recv_all`. -/
def recvRounds : Nat → Channel → Reads → Scripts Op → Except Errno Unit × Channel × Scripts Op
  | 0, c, _, scripts => (if c.connected then .ok () else .error .EPIPE, c, scripts)
  | rounds + 1, c, reads, scripts =>
    match reads.headD (.error .EAGAIN) with
    | .error e =>
      if wouldBlock e then (if c.connected then .ok () else .error .EPIPE, c, scripts)
      else (.error e, c, scripts)
    | .ok bytes =>
      let bytes := bytes.take 4096
      if bytes = [] then
        (if c.connected then .ok () else .error .EPIPE, c, scripts)
      else
        let (c, scripts) := callback (note c (.received c.fd bytes)) (some bytes) scripts
        if c.connected then recvRounds rounds c reads.tail scripts
        else (.error .EPIPE, c, scripts)

/-- `recv_all`. -/
def recvAll (c : Channel) (reads : Reads) (scripts : Scripts Op) :
    Except Errno Unit × Channel × Scripts Op :=
  recvRounds 128 c reads scripts

end

/-- What `writev` answers (a number of bytes, of those offered) and what `epoll_ctl` answers. -/
structure WriteAnswers where
  writev : Except Errno Nat
  mod : Option Errno

/-- `writev` of the whole ring: what it does, and whether all was written. -/
def writevAll (c : Channel) (w : Except Errno Nat) : Except Errno Bool × Channel :=
  let vec := c.outRing.peek
  if vec = [] then
    (.ok true, c)
  else
    let sum := (vec.map List.length).sum
    match w with
    | .error e => (if wouldBlock e then .ok false else .error e, c)
    | .ok l    =>
      let l := min l sum
      (.ok (!(l < sum)), note c (.wrote (vec.flatten.take l)))

/-- `send_all`. -/
def sendAll (c : Channel) (a : WriteAnswers) : Except Errno Unit × Channel :=
  match writevAll c a.writev with
  | (.error e, c)  => (.error e, c)
  | (.ok false, c) => (.ok (), c)
  | (.ok true, c)  =>
    match a.mod with
    | some e => (.error e, c)
    | none   => (.ok (), register c c.fd .quiet)

/-! ### Dispatch -/

/-- What `epoll_wait` answers: an error, nothing, or one event, of the channel's own socket or
not. -/
inductive Wait where
  | failed (e : Errno)
  | nothing
  | event (own : Bool) (events : Events)

structure DispatchAnswers (Op : Type := CbOp) where
  wait : Wait
  reads : Reads
  write : WriteAnswers
  scripts : Scripts Op

section

variable {Op : Type} [Callback Op]

/-- The `EPOLLIN` half of `dispatch_ctrl`. -/
def dispatchIn (c : Channel) (reads : Reads) (scripts : Scripts Op) :
    Except Errno Unit × Channel × Scripts Op :=
  match connectDone c scripts with
  | (.error e, c, scripts) => (.error e, c, scripts)
  | (.ok (), c, scripts)   => recvAll c reads scripts

/-- The `EPOLLOUT` half of `dispatch_ctrl`. -/
def dispatchOut (c : Channel) (w : WriteAnswers) (scripts : Scripts Op) :
    Except Errno Unit × Channel :=
  match connectDone c scripts with
  | (.error e, c, _) => (.error e, c)
  | (.ok (), c, _)   => sendAll c w

/-- `dispatch_ctrl`. -/
def dispatchCtrl (c : Channel) (ev : Events) (a : DispatchAnswers Op) :
    Except Errno Unit × Channel :=
  match if ev.input then dispatchIn c a.reads a.scripts else (.ok (), c, a.scripts) with
  | (.error e, c, _) => (.error e, c)
  | (.ok (), c, scripts) =>
    match if ev.output then dispatchOut c a.write scripts else (.ok (), c) with
    | (.error e, c) => (.error e, c)
    | (.ok (), c)   => (if ev.hup || ev.err then .error .EPIPE else .ok (), c)

/-- `owfd_rtsp_ctrl_dispatch`. -/
def dispatch (c : Channel) (a : DispatchAnswers Op) : Except Errno Unit × Channel :=
  if isOpen c then
    match a.wait with
    | .failed e        => (if wouldBlock e then .ok () else .error e, c)
    | .nothing         => (.ok (), c)
    | .event false _   => (.ok (), c)
    | .event true ev   =>
      match dispatchCtrl c ev a with
      | (.error e, c) => (.error e, close c)
      | (.ok (), c)   => (.ok (), c)
  else
    (.error .ENODEV, c)

/-- A call of a callback, which may wait for its channel and dispatch it, too; the callbacks of that
dispatch make the calls of `Op`. -/
inductive Nested (Op : Type) where
  | op (o : CbOp)
  | dispatch (a : DispatchAnswers Op)

def Nested.run (c : Channel) : Nested Op → Channel
  | .op o       => o.run c
  | .dispatch a => (Ctrl.dispatch c a).2

instance : Callback (Nested Op) := ⟨Nested.run⟩

end

/-- The calls of a callback, with dispatches in callbacks of dispatches, `k` deep at most. -/
def Deep : Nat → Type
  | 0     => CbOp
  | k + 1 => Nested (Deep k)

instance Deep.callback : (k : Nat) → Callback (Deep k)
  | 0     => inferInstanceAs (Callback CbOp)
  | k + 1 => @instCallbackNested (Deep k) (Deep.callback k)

/-! ### Runs -/

/-- A call of the user. -/
inductive Call where
  | openTcpFd (fd : Int) (cb : Option Nat) (a : OpenAnswers)
  | close
  | send (buf : Buffer) (a : SendAnswers)
  | dispatch (a : DispatchAnswers)

def exec (c : Channel) : Call → Except Errno Unit × Channel
  | .openTcpFd fd cb a => openTcpFd c fd cb a
  | .close             => (.ok (), close c)
  | .send buf a        => send c buf a
  | .dispatch a        => dispatch c a

/-- The channel as a transition system: each call with what it returned. -/
def channelLts : Lts Channel (Call × Except Errno Unit) := .ofExec exec

end OpenWfd.Ctrl
