import OpenWfd.Support.CString
import OpenWfd.Support.Memory
import OpenWfd.Support.Lts

/-!
# Wpa — Request

`src/wpa_ctrl.c`: requests to `wpa_supplicant` over the request socket of a control channel.
`wpa_request` sends a command and takes the next datagram that is no event (`'<'`) for its reply,
both within a timeout.

The socket is two queues of datagrams, with the supplicant at their other end: it answers commands
in order and may send events, in any round of the loops that wait for it.  Everything the loops
learn from the system is given with the call; a call that is still waiting when that is used up has
no result.
-/

namespace OpenWfd.Wpa

/-- `REQ_REPLY_MAX`. -/
def reqReplyMax : Nat := 512

/-! ### The socket -/

/-- A command on its way, with the number of the `wpa_request` that sent it. -/
structure Command where
  call : Nat
  bytes : List UInt8
  deriving DecidableEq, Repr

/-- A datagram from the supplicant: an event, or the answer to a command of the `wpa_request` with
that number. -/
inductive Datagram where
  | event (text : List UInt8)
  | answer (call : Nat) (bytes : List UInt8)
  deriving DecidableEq, Repr

def Datagram.bytes : Datagram → List UInt8
  | .event text     => LT :: text
  | .answer _ bytes => bytes

/-- The `wpa_request` it answers. -/
def Datagram.call : Datagram → Option Nat
  | .event _       => none
  | .answer call _ => some call

/-- What was received: the bytes, which is all the channel sees, and the `wpa_request` they
answer. -/
structure Reply where
  call : Option Nat
  bytes : List UInt8
  deriving DecidableEq, Repr

/-- The request socket: the commands not yet answered and the datagrams not yet received, oldest
first.  Beside it the number of calls of `wpa_request` so far and a log of what those that returned
0 handed back. -/
structure Sock where
  commands : List Command
  inbox : List Datagram
  calls : Nat
  handed : List (Nat × Reply)

def Sock.fresh : Sock := ⟨[], [], 0, []⟩

/-- What the supplicant does: it answers the oldest command, or it sends an event. -/
inductive Act where
  | answer (bytes : List UInt8)
  | event (text : List UInt8)

def Sock.act (s : Sock) : Act → Sock
  | .answer bytes =>
    match s.commands with
    | []      => s
    | c :: cs => { s with commands := cs, inbox := s.inbox ++ [.answer c.call bytes] }
  | .event text   => { s with inbox := s.inbox ++ [.event text] }

def Sock.acts (s : Sock) (as : List Act) : Sock := as.foldl Sock.act s

/-! ### Waiting -/

/-- What `ppoll` answers. -/
inductive Poll where
  | failed (e : Errno)
  | timedOut
  | ready (hup err : Bool)

/-- One round of a waiting loop: what the supplicant does meanwhile, what `ppoll` answers, what the
`send` or `recv` is told, and the clock at the end. -/
structure Round (α : Type) where
  acts : List Act
  poll : Poll
  io : α
  now : Int

/-- `errno` is `EAGAIN` or `EINTR`. -/
def wouldBlock (e : Errno) : Bool := e = .EAGAIN || e = .EINTR

variable {α β : Type}

/-- The first half of a round, up to the clock. -/
def attempt (io : Sock → α → Except Errno (Option β) × Sock) (s : Sock) (r : Round α) :
    Except Errno (Option β) × Sock :=
  match r.poll with
  | .failed e      => (if e = .EAGAIN then .ok none else .error e, s)
  | .timedOut      => (.error .ETIMEDOUT, s)
  | .ready hup err => if hup || err then (.error .EPIPE, s) else io s r.io

/-- The loop of `timed_send` and `timed_recv`.  It returns the new `*timeout` too. -/
def timed (io : Sock → α → Except Errno (Option β) × Sock) (start : Int) :
    List (Round α) → Int → Sock → Option (Except Errno β × Int × Sock)
  | [], _, _ => none
  | r :: rounds, timeout, s =>
    match attempt io (s.acts r.acts) r with
    | (.error e, s) => some (.error e, timeout, s)
    | (.ok done, s) =>
      -- recalculate remaining timeout
      let t := timeout - (r.now - start)
      match done with
      | some b => some (.ok b, max t 0, s)
      | none   => if t ≤ 0 then some (.error .ETIMEDOUT, 0, s) else timed io start rounds t s

/-- `send(fd, cmd, cmd_len, MSG_NOSIGNAL)`, told an error or how much was sent. -/
def sendIo (call : Nat) (cmd : List UInt8) (s : Sock) :
    Except Errno Nat → Except Errno (Option Unit) × Sock
  | .error e => (if wouldBlock e then .ok none else .error e, s)
  | .ok l    =>
    let l := min l cmd.length
    (.ok (if 0 < l then some () else none),
      { s with commands := s.commands ++ [⟨call, cmd.take l⟩] })

/-- `recv(fd, reply, *reply_len, MSG_DONTWAIT)`, told an error or none.  A datagram that is longer
than the buffer is cut; event messages are ignored. -/
def recvIo (cap : Nat) (s : Sock) : Option Errno → Except Errno (Option Reply) × Sock
  | some e => (if wouldBlock e then .ok none else .error e, s)
  | none   =>
    match s.inbox with
    | []         => (.ok none, s)
    | d :: inbox =>
      let bytes := d.bytes.take cap
      (.ok (if bytes ≠ [] ∧ bytes.head? ≠ some LT then some ⟨d.call, bytes⟩ else none),
        { s with inbox })

/-- `timed_send`. -/
def timedSend (call : Nat) (cmd : List UInt8) (start : Int)
    (rounds : List (Round (Except Errno Nat))) (timeout : Int) (s : Sock) :
    Option (Except Errno Unit × Int × Sock) :=
  timed (sendIo call cmd) start rounds timeout s

/-- `timed_recv`. -/
def timedRecv (cap : Nat) (start : Int) (rounds : List (Round (Option Errno))) (timeout : Int)
    (s : Sock) : Option (Except Errno Reply × Int × Sock) :=
  timed (recvIo cap) start rounds timeout s

/-! ### Requests -/

/-- The clock at the start of both loops, and their rounds. -/
structure Answers where
  sendStart : Int
  sends : List (Round (Except Errno Nat))
  recvStart : Int
  recvs : List (Round (Option Errno))

/-- The timeout `wpa_request` starts from: a maximum of 10s. -/
def clampTimeout (t : Int) : Int := if t < 0 ∨ 10000000 < t then 10000000 else t

/-- `wpa_request`.  `cap` is `*reply_len`, `t2` is `*t2`; NULL is `none`. -/
def wpaRequest (fd : Int) (cmd : List UInt8) (cap : Option Nat) (t2 : Option Int) (a : Answers)
    (s : Sock) : Option (Except Errno Reply × Sock) :=
  if fd < 0 then
    some (.error .ENODEV, s)
  else
    let call := s.calls
    let t := clampTimeout (t2.getD (-1))
    match timedSend call cmd a.sendStart a.sends t { s with calls := s.calls + 1 } with
    | none                   => none
    | some (.error e, _, s)  => some (.error e, s)
    | some (.ok (), t, s)    =>
      match timedRecv (cap.getD reqReplyMax) a.recvStart a.recvs t s with
      | none                  => none
      | some (.error e, _, s) => some (.error e, s)
      | some (.ok d, _, s)    => some (.ok d, { s with handed := s.handed ++ [(call, d)] })

/-- `struct owfd_wpa_ctrl`, as far as requests go.  `tfdWatched` says whether the PING timer is in
the epoll set. -/
structure Channel where
  reqFd : Int
  evFd : Int
  req : Sock
  tfdWatched : Bool

/-- A channel that `owfd_wpa_ctrl_open` has opened. -/
def Channel.opened (reqFd evFd : Int) : Channel := ⟨reqFd, evFd, .fresh, true⟩

/-- `owfd_wpa_ctrl_is_open`. -/
def isOpen (w : Channel) : Bool := 0 ≤ w.evFd

/-- The timeout of `owfd_wpa_ctrl_request`, in milliseconds, as the microseconds of
`wpa_request`. -/
def timeoutUs (timeout : Int) : Int :=
  (if timeout < 0 then -1 else if 1000000 < timeout then 1000000 else timeout) * 1000

/-- `owfd_wpa_ctrl_request`. -/
def request (w : Channel) (cmd : List UInt8) (cap : Option Nat) (timeout : Int) (a : Answers) :
    Option (Except Errno (List UInt8) × Channel) :=
  if isOpen w then
    match wpaRequest w.reqFd cmd cap (some (timeoutUs timeout)) a w.req with
    | none              => none
    | some (.error e, s) => some (.error e, { w with req := s })
    | some (.ok d, s)    => some (.ok d.bytes, { w with req := s })
  else
    some (.error .ENODEV, w)

/-- `owfd_wpa_ctrl_request_ok`. -/
def requestOk (w : Channel) (cmd : List UInt8) (timeout : Int) (a : Answers) :
    Option (Except Errno (List UInt8) × Channel) :=
  match request w cmd (some reqReplyMax) timeout a with
  | none                => none
  | some (.error e, w)  => some (.error e, w)
  | some (.ok reply, w) => some (if reply = str "OK\n" then .ok [] else .error .EINVAL, w)

/-- `read_tfd`: `PING` if the timer has expired.  `l` is what `read` answers. -/
def readTfd (w : Channel) (l : Except Errno Nat) (a : Answers) :
    Option (Except Errno (List UInt8) × Channel) :=
  match l with
  | .error e => some (if wouldBlock e then .ok [] else .error e, w)
  | .ok l    =>
    if l = 8 then
      match wpaRequest w.reqFd (str "PING") (some 10) none a w.req with
      | none               => none
      | some (.error e, s) => some (.error e, { w with req := s })
      | some (.ok d, s)    =>
        some (if d.bytes = str "PONG\n" then .ok [] else .error .ETIMEDOUT, { w with req := s })
    else
      some (.ok [], w)

/-- `dispatch_tfd`. -/
def dispatchTfd (w : Channel) (input broken : Bool) (l : Except Errno Nat) (a : Answers) :
    Option (Except Errno (List UInt8) × Channel) :=
  if broken then
    some (.error .EFAULT, { w with tfdWatched := false })
  else if input then
    match readTfd w l a with
    | none              => none
    | some (.error e, w) => some (.error e, { w with tfdWatched := false })
    | some (.ok b, w)    => some (.ok b, w)
  else
    some (.ok [], w)

/-- `read_req`: drain the input queue.  Each `recv` is told an error or none. -/
def readReq : List (List Act × Option Errno) → Sock → Option (Except Errno (List UInt8) × Sock)
  | [], _ => none
  | (acts, e) :: rounds, s =>
    let s := s.acts acts
    match e with
    | some e => some (if wouldBlock e then .ok [] else .error e, s)
    | none   =>
      match s.inbox with
      | []         => some (.ok [], s)
      | d :: inbox =>
        if d.bytes = [] then some (.ok [], { s with inbox }) else readReq rounds { s with inbox }

/-- `dispatch_req`. -/
def dispatchReq (w : Channel) (input broken : Bool) (rounds : List (List Act × Option Errno)) :
    Option (Except Errno (List UInt8) × Channel) :=
  match if input then readReq rounds w.req else some (.ok [], w.req) with
  | none               => none
  | some (.error e, s) => some (.error e, { w with req := s })
  | some (.ok b, s)    => some (if broken then .error .EPIPE else .ok b, { w with req := s })

/-! ### Runs -/

/-- What happens on an open channel.  `owfd_wpa_ctrl_dispatch` is a sequence of its last two
calls. -/
inductive Op where
  | supplicant (acts : List Act)
  | request (cmd : List UInt8) (cap : Option Nat) (timeout : Int) (a : Answers)
  | requestOk (cmd : List UInt8) (timeout : Int) (a : Answers)
  | dispatchTfd (input broken : Bool) (l : Except Errno Nat) (a : Answers)
  | dispatchReq (input broken : Bool) (rounds : List (List Act × Option Errno))

def exec (w : Channel) : Op → Option (Except Errno (List UInt8) × Channel)
  | .supplicant acts              => some (.ok [], { w with req := w.req.acts acts })
  | .request cmd cap timeout a    => request w cmd cap timeout a
  | .requestOk cmd timeout a      => requestOk w cmd timeout a
  | .dispatchTfd input broken l a => dispatchTfd w input broken l a
  | .dispatchReq input broken r   => dispatchReq w input broken r

/-- The channel as a transition system: each call that returns, with what it returned. -/
def channelLts : Lts Channel (Op × Except Errno (List UInt8)) :=
  ⟨fun w l w' => exec w l.1 = some (l.2, w')⟩

end OpenWfd.Wpa
