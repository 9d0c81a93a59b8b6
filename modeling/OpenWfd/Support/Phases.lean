import Mathlib.Data.List.Basic
import Mathlib.Tactic.Common

/-!
# Support — Phases

A stream of letters that come in phases: no letter of an earlier phase after one of a later
(`Phased`).  Taking letters out keeps the phases apart, and so does appending letters of the last
phase; once a letter of the last phase is at the head, nothing else is left.
-/

namespace OpenWfd

variable {α : Type*}

/-- The letters of the stream come in the order of their phases. -/
def Phased (phase : α → Nat) (ls : List α) : Prop := ls.Pairwise fun a b => phase a ≤ phase b

namespace Phased

variable {phase : α → Nat} {ls ls' : List α} {a b : α} {top : Nat}

theorem nil : Phased phase [] := List.Pairwise.nil

theorem sublist (h : Phased phase ls) (hs : ls'.Sublist ls) : Phased phase ls' :=
  List.Pairwise.sublist hs h

/-- A stream of one phase is phased. -/
theorem const (top : Nat) (h : ∀ a ∈ ls, phase a = top) : Phased phase ls :=
  List.pairwise_of_forall_mem_list fun a ha b hb => Nat.le_of_eq ((h a ha).trans (h b hb).symm)

/-- Behind a letter of the last phase there are only such letters. -/
theorem top_of_mem (h : Phased phase (ls ++ a :: ls')) (hb : b ∈ ls) (hphase : top ≤ phase b) :
    top ≤ phase a :=
  Nat.le_trans hphase ((List.pairwise_append.mp h).2.2 b hb a List.mem_cons_self)

theorem top_of_head (h : Phased phase (a :: ls)) (hphase : top ≤ phase a) (hb : b ∈ ls) :
    top ≤ phase b :=
  Nat.le_trans hphase ((List.pairwise_cons.mp h).1 b hb)

/-- Letters of the last phase may be appended. -/
theorem append (h : Phased phase ls) (hle : ∀ a ∈ ls, phase a ≤ top)
    (hmore : ∀ b ∈ ls', phase b = top) :
    Phased phase (ls ++ ls') := by
  refine List.pairwise_append.mpr ⟨h, const _ hmore, fun a ha b hb => ?_⟩
  rw [hmore b hb]
  exact hle a ha

end Phased

end OpenWfd
