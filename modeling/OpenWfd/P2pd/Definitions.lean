import OpenWfd.Support.DList
import OpenWfd.Wpa.Event

/-!
# P2pd — Definitions

`src/p2pd_interface.c`: the users of an interface's events, and `wpa_event`, which hands a parsed
event to each of them.  The users are nodes of a list of `shl_dlist.h`, linked at its front, and a
user may register and unregister others, and itself, while it is called.

Memory is accounted for: `calloc` gives each block a number of its own, so a pointer to a freed
block is never valid again.  To read or write a block that is not there has no result.
-/

namespace OpenWfd.P2pd

/-- Where a node of the list is: in the interface, or in the `struct event_user` with a number. -/
inductive Addr where
  | head
  | user (n : Nat)
  deriving DecidableEq, Repr

/-- `struct event_user`, without its node.  A function is a number, NULL is `none`. -/
structure EventUser where
  eventFn : Option Nat
  data : Nat
  deriving DecidableEq, Repr

/-- What happens to the users. -/
inductive Entry where
  | registered (u : Nat)
  | unregistered (u : Nat)
  | called (u : Nat)
  deriving DecidableEq, Repr

/-- `struct owfd_p2pd_interface`, as far as its event users go: the nodes there are, what the blocks
hold beside them, and the number of the next block.  The log says what happened since the last event
began. -/
structure Iface where
  nodes : Nodes Addr
  users : Nat → EventUser
  next : Nat
  log : List Entry

/-- `owfd_p2pd_interface_new`: the list as `shl_dlist_init` leaves it. -/
def Iface.fresh : Iface where
  nodes := Function.update (fun _ => none) .head (some ⟨some .head, some .head⟩)
  users _ := ⟨none, 0⟩
  next := 0
  log := []

/-- `owfd_p2pd_interface_register_event_fn`, told whether `calloc` finds memory. -/
def registerEventFn (s : Iface) (eventFn : Option Nat) (data : Nat) (memory : Bool) :
    Option (Except Errno Unit × Iface) :=
  if memory then
    let e := s.next
    let nodes := Function.update s.nodes (.user e) (some ⟨none, none⟩)
    match DList.link nodes .head (.user e) with
    | none       => none
    | some nodes => some (.ok (), {
        nodes
        users := Function.update s.users e ⟨eventFn, data⟩
        next := e + 1
        log := s.log ++ [.registered e] })
  else
    some (.error .ENOMEM, s)

/-- The loop of `owfd_p2pd_interface_unregister_event_fn`: the first user with the function and the
data. -/
def findUser (s : Iface) (e : EventUser) : Nat → Addr → Option (Option Nat)
  | 0, _                 => none
  | _ + 1, .head         => some none
  | rounds + 1, .user n  =>
    match s.nodes (.user n) with
    | none      => none
    | some node => if s.users n = e then some (some n) else node.next.bind (findUser s e rounds)

/-- `owfd_p2pd_interface_unregister_event_fn`.  There are no more users than blocks. -/
def unregisterEventFn (s : Iface) (eventFn : Option Nat) (data : Nat) : Option Iface := do
  let head ← s.nodes .head
  match ← findUser s ⟨eventFn, data⟩ (s.next + 1) (← head.next) with
  | none   => some s
  | some e =>
    let nodes ← DList.unlink s.nodes (.user e)
    some { s with
      nodes := Function.update nodes (.user e) none
      log := s.log ++ [.unregistered e] }

/-! ### The callbacks -/

/-- A call that an event function makes. -/
inductive CbOp where
  | register (eventFn : Option Nat) (data : Nat) (memory : Bool)
  | unregister (eventFn : Option Nat) (data : Nat)

def CbOp.run (s : Iface) : CbOp → Option Iface
  | .register eventFn data memory => (registerEventFn s eventFn data memory).map Prod.snd
  | .unregister eventFn data      => unregisterEventFn s eventFn data

/-- What the event functions do, one script each time one is called; after the list, nothing. -/
abbrev Scripts := List (List CbOp)

/-- `if (e->event_fn) e->event_fn(iface, &ev, e->data)`. -/
def callEventFn (s : Iface) (e : Nat) (scripts : Scripts) : Option (Iface × Scripts) :=
  match (s.users e).eventFn with
  | none   => some (s, scripts)
  | some _ =>
    match (scripts.headD []).foldlM CbOp.run { s with log := s.log ++ [.called e] } with
    | none   => none
    | some s => some (s, scripts.tail)

/-! ### The event -/

/-- How `wpa_event` ends: it returns, it reads a node that is not there, or it goes on for more
rounds than there are blocks. -/
inductive Outcome where
  | returned (s : Iface)
  | faulted
  | endless

/-- The loop of `wpa_event`, `shl_dlist_for_each_safe(i, t, &iface->event_users)`. -/
def forEachSafe : Nat → Addr → Option Addr → Iface → Scripts → Outcome
  | 0, _, _, _, _                      => .endless
  | _ + 1, .head, _, s, _              => .returned s
  | rounds + 1, .user e, t, s, scripts =>
    match s.nodes (.user e) with
    | none   => .faulted
    | some _ =>
      match callEventFn s e scripts with
      | none              => .faulted
      | some (s, scripts) =>
        -- `i = t, t = i->next`
        match t with
        | none   => .faulted
        | some i =>
          match s.nodes i with
          | none      => .faulted
          | some node => forEachSafe rounds i node.next s scripts

/-- The loop from its start. -/
def forEachUser (s : Iface) (scripts : Scripts) : Outcome :=
  match DList.nextOf s.nodes .head with
  | none   => .faulted
  | some i =>
    match s.nodes i with
    | none      => .faulted
    | some node => forEachSafe (s.next + 1) i node.next s scripts

/-- `wpa_event`.  The log begins anew. -/
def wpaEvent (s : Iface) (buf : CStr) (h : Heap) (scripts : Scripts) : Outcome × Heap :=
  let s := { s with log := [] }
  match Wpa.parse .zero buf h with
  | (.error _, ev, h) => (.returned s, (Wpa.reset ev h).2)
  | (.ok (), ev, h)   =>
    (if ev.type = .unknown then .returned s else forEachUser s scripts, (Wpa.reset ev h).2)

end OpenWfd.P2pd
