import OpenWfd.Wpa.Request
import OpenWfd.Support.Kernel
import OpenWfd.Support.Numeral

/-!
# Wpa — Open

`src/wpa_ctrl.c`: the life of a control channel.  `owfd_wpa_ctrl_open` arms the PING timer, builds
two sockets in three steps each and attaches to the events of the supplicant; what it has built is
unwound if a later step fails.  `owfd_wpa_ctrl_dispatch` serves the sockets and the timer.

What the system calls answer is given with each call.  The callback may send requests, close the
channel and open it again in the middle of a dispatch.  `mktemp` always finds a name, and what
undoes the channel's own work (disarming, unlinking, closing) succeeds.
-/

namespace OpenWfd.Wpa

/-- A path of a socket file. -/
abbrev Path := List UInt8

/-- What `mktemp` puts for `XXXXXX`. -/
abbrev Suffix := { bytes : List UInt8 // bytes.length = 6 }

/-- `CTRL_PATH_TEMPLATE` after `snprintf` and `mktemp`. -/
def ctrlName (pid : Nat) (counter : UInt64) (suffix : Suffix) : Path :=
  str "/tmp/openwfd-wpa-ctrl-" ++ decimal pid ++ str "-" ++ decimal counter.toNat ++
  str "-" ++ suffix

/-- `struct owfd_wpa_ctrl`, the event socket, and what lies outside the structure: the process id,
the static counter of `bind_socket` and the kernel.  A callback is a number. -/
structure WpaCtrl extends Channel where
  reqName : Path
  evName : Path
  ev : Sock
  cb : Option Nat
  pid : Nat
  counter : UInt64
  kernel : Kernel Path

/-- `owfd_wpa_ctrl_new`, when it succeeds. -/
def WpaCtrl.fresh (pid : Nat) (counter : UInt64) : WpaCtrl where
  reqFd := -1
  evFd := -1
  req := .fresh
  tfdWatched := true
  reqName := []
  evName := []
  ev := .fresh
  cb := none
  pid := pid
  counter := counter
  kernel := .idle

/-! ### One socket -/

/-- The name `mktemp` makes, and what the two attempts to `bind` are told. -/
structure BindAnswers where
  suffix : Suffix
  first : Option Errno
  second : Option Errno

/-- The `bind` of `bind_socket`, tried again after `EADDRINUSE`. -/
def bindName (k : Kernel Path) (fd : Int) (name : Path) (a : BindAnswers) :
    Except Errno Unit × Kernel Path :=
  match k.bind fd name a.first with
  | (.ok (), k)   => (.ok (), k)
  | (.error e, k) =>
    if e = .EADDRINUSE then (k.unlink name).bind fd name a.second else (.error e, k)

/-- `bind_socket`.  It returns what it has written to `name` too. -/
def bindSocket (w : WpaCtrl) (fd : Int) (a : BindAnswers) : Except Errno Unit × Path × WpaCtrl :=
  let name := ctrlName w.pid w.counter a.suffix
  match bindName w.kernel fd name a with
  | (.error e, k) => (.error e, name, { w with kernel := k })
  | (.ok (), k)   => (.ok (), name, { w with kernel := k, counter := w.counter + 1 })

/-- `connect_socket`, told what `connect` answers.  `sun_path` has 108 bytes. -/
def connectSocket (ctrlPath : Path) (a : Option Errno) : Except Errno Unit :=
  let room := if strncmp ctrlPath (str "@abstract:") 10 = 0 then 108 - 2 else 108 - 1
  if room < ctrlPath.length then
    .error .EINVAL
  else
    match a with
    | some e => .error e
    | none   => .ok ()

/-- The answers of `socket`, `bind`, `connect` and `epoll_ctl(EPOLL_CTL_ADD)`. -/
structure SocketAnswers where
  socket : Except Errno Nat
  bind : BindAnswers
  connect : Option Errno
  add : Option Errno

/-- What comes after `bind_socket` in `open_socket`, with the label `err_name`. -/
def attachSocket (w : WpaCtrl) (fd : Int) (name ctrlPath : Path) (a : SocketAnswers) :
    Except Errno Int × WpaCtrl :=
  match connectSocket ctrlPath a.connect with
  | .error e => (.error e, { w with kernel := (w.kernel.unlink name).close fd })
  | .ok ()   =>
    match w.kernel.watch fd a.add with
    | (.error e, k) => (.error e, { w with kernel := (k.unlink name).close fd })
    | (.ok (), k)   => (.ok fd, { w with kernel := k })

/-- `open_socket`.  It returns what `name` holds at the end too. -/
def openSocket (w : WpaCtrl) (ctrlPath name : Path) (a : SocketAnswers) :
    Except Errno Int × Path × WpaCtrl :=
  match w.kernel.socket a.socket with
  | (.error e, k) => (.error e, name, { w with kernel := k })
  | (.ok fd, k)   =>
    match bindSocket { w with kernel := k } fd a.bind with
    | (.error e, name, w) => (.error e, name, { w with kernel := w.kernel.close fd })
    | (.ok (), name, w)   =>
      match attachSocket w fd name ctrlPath a with
      | (r, w) => (r, name, w)

/-- `close_socket`. -/
def closeSocket (w : WpaCtrl) (fd : Int) (name : Path) : WpaCtrl :=
  { w with kernel := w.kernel.release fd name }

/-- `arm_timer`. -/
def armTimer (w : WpaCtrl) (usecs : Int) (a : Option Errno) : Except Errno Unit × WpaCtrl :=
  match w.kernel.settime usecs a with
  | (r, k) => (r, { w with kernel := k })

/-- `disarm_timer`. -/
def disarmTimer (w : WpaCtrl) : WpaCtrl := (armTimer w 0 none).2

/-! ### Open and close -/

/-- The `int` a function returns: a descriptor or a negative error. -/
def returned : Except Errno Int → Int
  | .ok fd   => fd
  | .error e => -e.number

/-- `wpa_request_ok`. -/
def wpaRequestOk (fd : Int) (cmd : List UInt8) (t : Option Int) (a : Answers) (s : Sock) :
    Option (Except Errno Unit × Sock) :=
  match wpaRequest fd cmd (some reqReplyMax) t a s with
  | none               => none
  | some (.error e, s) => some (.error e, s)
  | some (.ok d, s)    => some (if d.bytes = str "OK\n" then .ok () else .error .EINVAL, s)

/-- The answers of `timerfd_settime`, of both `open_socket`, and of the requests `ATTACH` and, when
that fails, `DETACH`. -/
structure OpenAnswers where
  arm : Option Errno
  req : SocketAnswers
  ev : SocketAnswers
  attach : Answers
  detach : Answers

/-- The label `err_timer` of `owfd_wpa_ctrl_open`. -/
def errTimer (w : WpaCtrl) : WpaCtrl := disarmTimer w

/-- The label `err_req`. -/
def errReq (w : WpaCtrl) : WpaCtrl :=
  errTimer { closeSocket w w.reqFd w.reqName with reqFd := -1 }

/-- The label `err_ev`, after `DETACH`. -/
def errEv (w : WpaCtrl) : WpaCtrl :=
  errReq { closeSocket w w.evFd w.evName with evFd := -1 }

/-- The `DETACH` request, whose outcome is ignored. -/
def detach (w : WpaCtrl) (a : Answers) : Option WpaCtrl :=
  match wpaRequest w.evFd (str "DETACH") none (some 0) a w.ev with
  | none        => none
  | some (_, s) => some { w with ev := s }

/-- `owfd_wpa_ctrl_open` after both sockets are there. -/
def attach (w : WpaCtrl) (cb : Option Nat) (a : OpenAnswers) :
    Option (Except Errno Unit × WpaCtrl) :=
  match wpaRequestOk w.evFd (str "ATTACH") none a.attach w.ev with
  | none               => none
  | some (.ok (), s)   => some (.ok (), { w with ev := s, cb := cb })
  | some (.error e, s) =>
    match detach { w with ev := s } a.detach with
    | none   => none
    | some w => some (.error e, errEv w)

/-- `owfd_wpa_ctrl_open` after the request socket is there. -/
def openEv (w : WpaCtrl) (ctrlPath : Path) (cb : Option Nat) (a : OpenAnswers) :
    Option (Except Errno Unit × WpaCtrl) :=
  match openSocket w ctrlPath w.evName a.ev with
  | (r, name, w) =>
    let w := { w with evFd := returned r, evName := name, ev := .fresh }
    match r with
    | .error e => some (.error e, errReq w)
    | .ok _    => attach w cb a

/-- `owfd_wpa_ctrl_open`. -/
def openCtrl (w : WpaCtrl) (ctrlPath : Path) (cb : Option Nat) (a : OpenAnswers) :
    Option (Except Errno Unit × WpaCtrl) :=
  if isOpen w.toChannel then
    some (.error .EALREADY, w)
  else
    -- 10s PING timer for timeouts
    match armTimer w 10000000 a.arm with
    | (.error e, w) => some (.error e, w)
    | (.ok (), w)   =>
      match openSocket w ctrlPath w.reqName a.req with
      | (r, name, w) =>
        let w := { w with reqFd := returned r, reqName := name, req := .fresh }
        match r with
        | .error e => some (.error e, errTimer w)
        | .ok _    => openEv w ctrlPath cb a

/-- `owfd_wpa_ctrl_close`. -/
def closeCtrl (w : WpaCtrl) (a : Answers) : Option WpaCtrl :=
  if isOpen w.toChannel then
    match detach w a with
    | none   => none
    | some w =>
      let w := { closeSocket w w.evFd w.evName with evFd := -1 }
      let w := { closeSocket w w.reqFd w.reqName with reqFd := -1 }
      some { disarmTimer w with cb := none }
  else
    some w

/-! ### The callback -/

/-- What an open or a close of a run did. -/
inductive Entry where
  | opened (before : WpaCtrl) (r : Except Errno Unit) (after : WpaCtrl)
  | closed (after : WpaCtrl)

/-- A channel with the log of what was done to it. -/
structure Traced extends WpaCtrl where
  log : List Entry

/-- A call that may be made anywhere, also by the callback. -/
inductive CbOp where
  | openCtrl (ctrlPath : Path) (cb : Option Nat) (a : OpenAnswers)
  | close (a : Answers)
  | request (cmd : List UInt8) (cap : Option Nat) (timeout : Int) (a : Answers)
  | requestOk (cmd : List UInt8) (timeout : Int) (a : Answers)

/-- What a call leaves of the channel, when it returns. -/
def Traced.within (s : Traced) (r : Option (Except Errno (List UInt8) × Channel)) :
    Option (Except Errno (List UInt8) × Traced) :=
  r.map fun (r, c) => (r, { s with toChannel := c })

def CbOp.exec (s : Traced) : CbOp → Option (Except Errno (List UInt8) × Traced)
  | .openCtrl ctrlPath cb a =>
    (Wpa.openCtrl s.toWpaCtrl ctrlPath cb a).map fun (r, w) =>
      (r.map fun _ => [], ⟨w, s.log ++ [.opened s.toWpaCtrl r w]⟩)
  | .close a =>
    (Wpa.closeCtrl s.toWpaCtrl a).map fun w => (.ok [], ⟨w, s.log ++ [.closed w]⟩)
  | .request cmd cap timeout a => s.within (Wpa.request s.toChannel cmd cap timeout a)
  | .requestOk cmd timeout a   => s.within (Wpa.requestOk s.toChannel cmd timeout a)

/-- `wpa->cb(wpa, buf, l, wpa->data)`: what the callback does. -/
def CbOp.run (s : Traced) (script : List CbOp) : Option Traced :=
  script.foldlM (fun s o => (o.exec s).map Prod.snd) s

/-! ### Dispatch -/

/-- One round of the loop of `read_ev`: what the supplicant does meanwhile, what `recv` is told, and
what the callback does if it is called. -/
structure EvRound where
  acts : List Act
  io : Option Errno
  script : List CbOp

/-- `read_ev`. -/
def readEv : List EvRound → Traced → Option (Except Errno (List UInt8) × Traced)
  | [], _ => none
  | round :: rounds, s =>
    let s := { s with ev := s.ev.acts round.acts }
    match round.io with
    | some e => some (if wouldBlock e then .ok [] else .error e, s)
    | none   =>
      match s.ev.inbox with
      | []         => some (.ok [], s)
      | d :: inbox =>
        let buf := d.bytes.take reqReplyMax
        let s := { s with ev := { s.ev with inbox } }
        if buf = [] then
          some (.ok [], s)
        else
          -- only handle event-msgs ('<') on ev-socket
          match if s.cb.isSome && buf.head? = some LT then CbOp.run s round.script else some s with
          | none   => none
          | some s =>
            -- exit if the callback closed the connection
            if isOpen s.toChannel then readEv rounds s else some (.error .ENODEV, s)

/-- `dispatch_ev`. -/
def dispatchEv (s : Traced) (input broken : Bool) (rounds : List EvRound) :
    Option (Except Errno (List UInt8) × Traced) :=
  match if input then readEv rounds s else some (.ok [], s) with
  | none               => none
  | some (.error e, s) => some (.error e, s)
  | some (.ok b, s)    => some (if broken then .error .EPIPE else .ok b, s)

/-- An event of `epoll_wait`, with what the system calls answer when it is served.  `broken` is
`EPOLLHUP | EPOLLERR`. -/
inductive EpollEvent where
  | ev (input broken : Bool) (rounds : List EvRound)
  | req (input broken : Bool) (rounds : List (List Act × Option Errno))
  | tfd (input broken : Bool) (l : Except Errno Nat) (a : Answers)

/-- The descriptor of the event is in the epoll set. -/
def EpollEvent.registered (w : WpaCtrl) : EpollEvent → Bool
  | .ev ..  => w.kernel.watches w.evFd
  | .req .. => w.kernel.watches w.reqFd
  | .tfd .. => w.tfdWatched

/-- The body of the loop of `owfd_wpa_ctrl_dispatch`. -/
def dispatchEvent (s : Traced) : EpollEvent → Option (Except Errno (List UInt8) × Traced)
  | .ev input broken rounds  => dispatchEv s input broken rounds
  | .req input broken rounds => s.within (dispatchReq s.toChannel input broken rounds)
  | .tfd input broken l a    => s.within (dispatchTfd s.toChannel input broken l a)

/-- The loop of `owfd_wpa_ctrl_dispatch`. -/
def dispatchEvents : List EpollEvent → Traced → Option (Except Errno (List UInt8) × Traced)
  | [], s      => some (.ok [], s)
  | e :: es, s =>
    match dispatchEvent s e with
    | none               => none
    | some (.error e, s) => some (.error e, s)
    | some (.ok _, s)    => dispatchEvents es s

/-- What `epoll_wait` reports: events of registered descriptors, two at most. -/
def reported (w : WpaCtrl) (events : List EpollEvent) : List EpollEvent :=
  (events.filter (EpollEvent.registered w)).take 2

/-- `owfd_wpa_ctrl_dispatch`, told what `epoll_wait` answers. -/
def dispatch (s : Traced) (wait : Except Errno (List EpollEvent)) :
    Option (Except Errno (List UInt8) × Traced) :=
  if isOpen s.toChannel then
    match wait with
    | .error e   => some (if wouldBlock e then .ok [] else .error e, s)
    | .ok events => dispatchEvents (reported s.toWpaCtrl events) s
  else
    some (.error .ENODEV, s)

/-! ### Runs -/

/-- A call of the user, or what the supplicant does between two calls. -/
inductive Call where
  | op (o : CbOp)
  | dispatch (wait : Except Errno (List EpollEvent))
  | supplicant (req ev : List Act)

def Call.exec (s : Traced) : Call → Option (Except Errno (List UInt8) × Traced)
  | .op o              => o.exec s
  | .dispatch wait     => Wpa.dispatch s wait
  | .supplicant req ev => some (.ok [], { s with req := s.req.acts req, ev := s.ev.acts ev })

/-- A channel as a transition system: each call that returns, with what it returned. -/
def ctrlLts : Lts Traced (Call × Except Errno (List UInt8)) :=
  ⟨fun s l s' => l.1.exec s = some (l.2, s')⟩

end OpenWfd.Wpa
