import OpenWfd.Dhcp.ClientRuns

/-!
# Dhcp — Search

A search for a server that nobody answers.  Each timeout sends one more DISCOVER of the same
transaction, until the tenth has passed: then the client says that it has no lease, and may be
started again (`search_gives_up`).
-/

namespace OpenWfd.Dhcp

variable {e : Endian} {c c' c₁ c₂ d : Client} {l : Call} {ls : List Call} {n : Nat}

/-- The client looks for a server, and has tried `n` times again. -/
structure Client.Searching (c : Client) (n : Nat) : Prop where
  armed : c.Armed
  state : c.state = .initSelecting
  tried : c.retryTimes.toNat = n
  less : n < 10
  pending : c.sources c.timeout = some (.discoverTimeout, DISCOVER_TIMEOUT)

/-- How a search stands after the client has put out `out`, if it had tried `n` times again
before. -/
inductive Client.Stands (c : Client) (n : Nat) (out : List Act) : Prop where
  | searching (searching : c.Searching (n + (packets out).length)) (noLease : Act.noLease ∉ out)
  | ended (ten : n + (packets out).length = 9) (idle : c.Idle) (noLease : Act.noLease ∈ out)

theorem Client.Sends.cons {k : Mac} {type : UInt8} {x : UInt32} {p : Packet} {out : List Act}
    (h : Says k type x p) (hs : Client.Sends k type x out) :
    Client.Sends k type x (.raw p :: out) := by
  intro q hq
  rcases List.mem_cons.mp (show q ∈ p :: packets out from hq) with rfl | hq
  · exact h
  · exact hs q hq

theorem noLease_cons {p : Packet} {out : List Act} :
    Act.noLease ∈ Act.raw p :: out ↔ Act.noLease ∈ out := by
  simp

/-- One DISCOVER more. -/
theorem Client.Stands.cons {p : Packet} {out : List Act} (h : c.Stands (n + 1) out) :
    c.Stands n (.raw p :: out) := by
  have hcount : n + (packets (.raw p :: out)).length = n + 1 + (packets out).length := by
    show n + ((packets out).length + 1) = _
    omega
  cases h with
  | searching hsearching hno =>
      exact .searching (hcount ▸ hsearching) fun hmem => hno (noLease_cons.mp hmem)
  | ended hten hidle hno => exact .ended (hcount.trans hten) hidle (noLease_cons.mpr hno)

end OpenWfd.Dhcp
