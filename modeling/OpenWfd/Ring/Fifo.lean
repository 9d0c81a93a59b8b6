import OpenWfd.Ring.Content
import OpenWfd.Support.Lts

/-!
# Ring — Fifo

`shl_ring` refines a FIFO byte queue.  The queue (`Fifo.Step`) is a list of bytes with the
operations of the header file, and says of each which answers it may give; the ring runs the same
operations by the functions of `Definitions.lean`.  `ring_refines_fifo`: from a zeroed ring, under
every behaviour of the allocator, every run of the ring is a run of the queue, and the ring is well
formed after it.
-/

namespace OpenWfd

/-- A call on a ring; `push` and `copy` carry the allocator's answers. -/
inductive RingOp where
  | push (u8 : Buffer) (h : Allocs)
  | pull (len : Nat)
  | flush
  | copy (len : Option Nat) (h : Allocs)
  | peek
  | length

/-- What a call returns. -/
inductive RingAns where
  | done
  | code (r : Except Errno Unit)
  | block (b : Option (List UInt8 × Nat))
  | segments (vec : List (List UInt8))
  | count (n : Nat)

/-- One call. -/
def ShlRing.exec (r : ShlRing) : RingOp → RingAns × ShlRing
  | .push u8 h  => let (res, r, _) := r.push u8 h; (.code res, r)
  | .pull len   => (.done, r.pull len)
  | .flush      => (.done, r.flush)
  | .copy len h => (.block (r.copy len h).1, r)
  | .peek       => (.segments r.peek, r)
  | .length     => (.count r.length, r)

/-- The ring as a transition system. -/
def ringLts : Lts ShlRing (RingOp × RingAns) := .ofExec ShlRing.exec

/-- A byte queue.  An allocation that fails makes `push` and `copy` fail; `push` also fails once the
content would reach `2⁶³` bytes. -/
inductive Fifo.Step : List UInt8 → RingOp × RingAns → List UInt8 → Prop where
  | push (q u8 h) : Step q (.push u8 h, .code (.ok ())) (q ++ u8.1)
  | pushFails (q u8 h) (why : h = [] → 2 ^ 63 ≤ q.length + u8.1.length) :
      Step q (.push u8 h, .code (.error .ENOMEM)) q
  | pull (q n) : Step q (.pull n, .done) (q.drop (min n q.length))
  | flush (q) : Step q (.flush, .done) []
  | copy (q n h) :
      Step q (.copy (some n) h, .block (some (q.take (min n q.length) ++ [0], min n q.length))) q
  | copyAll (q h) : Step q (.copy none h, .block (some (q ++ [0], q.length))) q
  | copyFails (q len h) (why : h ≠ []) : Step q (.copy len h, .block none) q
  | peek (q vec) (two : vec.length ≤ 2) (nil : vec = [] ↔ q = []) (all : vec.flatten = q) :
      Step q (.peek, .segments vec) q
  | length (q) : Step q (.length, .count q.length) q

/-- The queue as a transition system. -/
def fifoLts : Lts (List UInt8) (RingOp × RingAns) := ⟨Fifo.Step⟩

/-- A well-formed ring represents the queue of its content. -/
def Represents (r : ShlRing) (q : List UInt8) : Prop := r.WF ∧ r.contents = q

/-- **One call.**  The ring answers as the queue it represents may, and represents the queue after
the call. -/
theorem ring_simulates_fifo : ringLts.Simulates fifoLts Represents := by
  rintro r ⟨op, ans⟩ r' q ⟨w, rfl⟩ (hstep : r.exec op = (ans, r'))
  cases op with
  | push u8 h =>
      rcases hp : r.push u8 h with ⟨res, r₁, h₁⟩
      simp only [ShlRing.exec, hp] at hstep
      cases hstep
      rcases ShlRing.push_spec w u8.2 hp with ⟨rfl, rfl, why⟩ | ⟨rfl, w', hc⟩
      · exact ⟨_, .pushFails _ u8 h why, w, rfl⟩
      · exact ⟨_, .push _ u8 h, w', hc⟩
  | pull n =>
      cases hstep
      refine ⟨_, .pull _ n, ShlRing.wf_pull w n, ?_⟩
      rw [ShlRing.contents_pull w]
      rcases Nat.le_total n r.contents.length with h | h
      · rw [Nat.min_eq_left h]
      · rw [Nat.min_eq_right h, List.drop_length, List.drop_eq_nil_of_le h]
  | flush =>
      cases hstep
      exact ⟨_, .flush _, ShlRing.wf_flush w, ShlRing.contents_flush r⟩
  | copy len h =>
      have hc := ShlRing.copy_eq w len h
      simp only [ShlRing.exec, hc] at hstep
      rcases hn : h.next with ⟨_ | f, h₁⟩
      · rw [hn] at hstep
        cases hstep
        refine ⟨_, .copyFails _ len h ?_, w, rfl⟩
        rintro rfl
        cases hn
      · rw [hn] at hstep
        cases hstep
        cases len with
        | none =>
            rw [ShlRing.copyLimit, List.take_length]
            exact ⟨_, .copyAll _ h, w, rfl⟩
        | some n =>
            rw [ShlRing.copyLimit_some]
            exact ⟨_, .copy _ n h, w, rfl⟩
  | peek =>
      cases hstep
      exact ⟨_, .peek _ _ (ShlRing.peek_length_le r) (ShlRing.peek_eq_nil_iff w)
        (ShlRing.peek_flatten w), w, rfl⟩
  | length =>
      cases hstep
      refine ⟨_, ?_, w, rfl⟩
      rw [← ShlRing.length_contents w]
      exact .length _

/-- **`shl_ring` refines a FIFO byte queue.**  Along every run from a zeroed ring the answers are
those of the queue, whose final state is the content of the ring; and the ring is well formed. -/
theorem ring_refines_fifo {ls : List (RingOp × RingAns)} {r : ShlRing}
    (run : ringLts.Run .zeroed ls r) : r.WF ∧ fifoLts.Run [] ls r.contents := by
  obtain ⟨q, hq, w, rfl⟩ := ring_simulates_fifo.run run
    (t := []) ⟨ShlRing.wf_zeroed, ShlRing.contents_zeroed⟩
  exact ⟨w, hq⟩

/-- A push into a zeroed ring, a pull that crosses the end of the content, and a failing push. -/
theorem ring_refines_fifo_run :
    ∃ r : ShlRing, r.WF ∧ fifoLts.Run []
      [(.push ⟨[1, 2, 3], by decide⟩ [], .code (.ok ())), (.pull 5, .done),
        (.push ⟨[4, 5], by decide⟩ [none], .code (.ok ())),
        (.push ⟨[6, 7], by decide⟩ [none], .code (.error .ENOMEM)), (.length, .count 2)]
      r.contents :=
  ⟨_, ring_refines_fifo
    (.cons rfl (.cons rfl (.cons rfl (.cons rfl (.cons rfl (.nil _))))))⟩

end OpenWfd
