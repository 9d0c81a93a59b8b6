import OpenWfd.Dhcp.Server
import OpenWfd.Support.Tenure
import Mathlib.Data.List.Sort

/-!
# Dhcp — Leases

The lease table as a book of who holds which address until when (`Server.book`).  `Consistent` is
the invariant: the list, the hash table and the heap hold the same leases, every address and every
hardware address at most once, all in the server's range.  From a consistent table no operation uses
a freed lease, none is lost, and

* `getLease_spec`, `addLease_spec`: writing a lease writes one entry over those of its holder and
  its address;
* `removeLease_spec`: removing one drops its holder's;
* `leaseSetExpire_spec`: setting its end rewrites its holder's.
-/

namespace OpenWfd.Dhcp

open Tenure (Entry Exclusive)

/-- What a lease says. -/
def Lease.entry (l : Lease) : Entry Mac UInt32 := ⟨l.leaseMac, l.leaseNip, l.expire⟩

/-- What `get_lease` asks of an address and a hardware address. -/
structure Usable (c : Config) (nip : UInt32) (mac : Mac) : Prop where
  not_zero : nip ≠ 0
  start : c.startIp ≤ nip
  last : nip ≤ c.endIp
  not_bcast : mac ≠ MAC_BCAST_ADDR
  not_any : mac ≠ MAC_ANY_ADDR

namespace Server

/-- Who holds which address until when. -/
def book (s : Server) : Set (Entry Mac UInt32) := {x | ∃ p l, s.heap p = some l ∧ x = l.entry}

/-- The list, the hash table and the heap agree, and no address and no hardware address has two
leases. -/
structure Consistent (s : Server) : Prop where
  nodup : s.leaseList.Nodup
  listed : ∀ p, p ∈ s.leaseList ↔ ∃ l, s.heap p = some l
  hashed : ∀ nip p, s.nipLeaseHash nip = some p ↔ ∃ l, s.heap p = some l ∧ l.leaseNip = nip
  macs : ∀ p q l m, s.heap p = some l → s.heap q = some m → l.leaseMac = m.leaseMac → p = q
  usable : ∀ p l, s.heap p = some l → Usable s.toConfig l.leaseNip l.leaseMac
  fresh : ∀ p, s.next ≤ p → s.heap p = none

theorem consistent_new (c : Config) : (new c).Consistent := by
  refine ⟨List.nodup_nil, ?_, ?_, ?_, ?_, fun _ _ => rfl⟩
  · simp [new]
  · simp [new]
  · simp [new]
  · simp [new]

@[simp] theorem book_new (c : Config) : (new c).book = ∅ := by
  simp [book, new]

variable {s s' : Server} {p : Nat} {l m : Lease}

theorem deref_eq (h : s.heap p = some l) : s.deref p = .ok l := by
  rw [deref, h]

theorem Consistent.nips (h : s.Consistent) {q : Nat} (hp : s.heap p = some l)
    (hq : s.heap q = some m) (he : l.leaseNip = m.leaseNip) : p = q := by
  have h₁ := (h.hashed l.leaseNip p).mpr ⟨l, hp, rfl⟩
  have h₂ := (h.hashed l.leaseNip q).mpr ⟨m, hq, he.symm⟩
  exact Option.some.inj (h₁.symm.trans h₂)

/-- **No address and no hardware address twice.** -/
theorem Consistent.exclusive (h : s.Consistent) : Exclusive s.book := by
  rintro x ⟨p, l, hp, rfl⟩ y ⟨q, m, hq, rfl⟩
  by_cases hpq : p = q
  · subst hpq
    rw [hp] at hq
    cases hq
    exact Or.inl rfl
  · exact Or.inr ⟨fun he => hpq (h.macs p q l m hp hq he), fun he => hpq (h.nips hp hq he)⟩

/-! ### The order of the list -/

/-- When the lease at `p` ends. -/
def expireAt (s : Server) (p : Nat) : Option Int := (s.heap p).map Lease.expire

/-- When the leases end, in the order of the list. -/
def expires (s : Server) : List Int := s.leaseList.filterMap s.expireAt

/-- The times for which `compare_expire` does not overflow. -/
def InTime (t : Int) : Prop := 0 ≤ t ∧ t < 2 ^ 31

/-- The list ends with the oldest lease. -/
structure Ordered (s : Server) : Prop where
  inTime : ∀ t ∈ s.expires, InTime t
  sorted : s.expires.Pairwise (· ≥ ·)

theorem ordered_new (c : Config) : (new c).Ordered :=
  ⟨fun _ h => absurd h List.not_mem_nil, List.Pairwise.nil⟩

theorem Ordered.sublist (h : s.Ordered) (hs : s'.expires.Sublist s.expires) : s'.Ordered :=
  ⟨fun t ht => h.inTime t (hs.subset ht), h.sorted.sublist hs⟩

theorem expires_unlist (nip : UInt32) : ((s.unlist p).unhash nip).expires.Sublist s.expires :=
  List.Sublist.filterMap _ List.erase_sublist

/-- What is compared is only what is on the heap. -/
theorem insertSorted_congr {t : Server} (ht : s.heap = t.heap) (p : Nat) (l : Lease)
    (ps : List Nat) : s.insertSorted p l ps = t.insertSorted p l ps := by
  induction ps with
  | nil => rfl
  | cons q qs ih => simp only [insertSorted, deref, ht, ih]

theorem compareExpire_pos (hl : InTime l.expire) (hm : InTime m.expire) :
    compareExpire l m > 0 ↔ ¬ l.expire ≥ m.expire := by
  obtain ⟨hl₀, hl₁⟩ := hl
  obtain ⟨hm₀, hm₁⟩ := hm
  rw [compareExpire, Int.bmod_eq_of_le (by omega) (by omega)]
  omega

/-- **`g_list_insert_sorted`.**  The lease is put in, and where `compare_expire` does not overflow
the order is kept. -/
theorem insertSorted_spec (hp : s.heap p = some l) {ps : List Nat}
    (hps : ∀ q ∈ ps, ∃ m, s.heap q = some m) :
    ∃ ps', s.insertSorted p l ps = .ok ps' ∧ ps'.Perm (p :: ps) ∧
      (InTime l.expire → (∀ t ∈ ps.filterMap s.expireAt, InTime t) →
        ps'.filterMap s.expireAt = (ps.filterMap s.expireAt).orderedInsert (· ≥ ·) l.expire) := by
  have hpe : s.expireAt p = some l.expire := by rw [expireAt, hp]; rfl
  induction ps with
  | nil => exact ⟨[p], rfl, List.Perm.refl _, fun _ _ => by simp [hpe]⟩
  | cons q qs ih =>
      obtain ⟨m, hm⟩ := hps q List.mem_cons_self
      obtain ⟨rest, hrest, hperm, hord⟩ := ih fun r hr => hps r (List.mem_cons_of_mem _ hr)
      have hqe : s.expireAt q = some m.expire := by rw [expireAt, hm]; rfl
      have hqs : (q :: qs).filterMap s.expireAt = m.expire :: qs.filterMap s.expireAt :=
        List.filterMap_cons_some hqe
      by_cases hcmp : compareExpire l m > 0
      · refine ⟨q :: rest, ?_, (hperm.cons q).trans (List.Perm.swap p q qs), fun hl hall => ?_⟩
        · simp only [insertSorted, deref_eq hm, bind, Except.bind, if_pos hcmp, hrest]
        · rw [hqs] at hall ⊢
          have hm' := hall _ List.mem_cons_self
          rw [List.orderedInsert_of_not_le _ _ ((compareExpire_pos hl hm').mp hcmp),
            List.filterMap_cons_some hqe, hord hl fun t ht => hall t (List.mem_cons_of_mem _ ht)]
      · refine ⟨p :: q :: qs, ?_, List.Perm.refl _, fun hl hall => ?_⟩
        · simp only [insertSorted, deref_eq hm, bind, Except.bind, if_neg hcmp]
        · rw [hqs] at hall ⊢
          have hge : l.expire ≥ m.expire := by
            by_contra hlt
            exact hcmp ((compareExpire_pos hl (hall _ List.mem_cons_self)).mpr hlt)
          rw [List.orderedInsert_cons_of_le _ _ hge, List.filterMap_cons_some hpe, hqs]

/-! ### Taking a lease out -/

/-- `s` without the lease `l` at `p`. -/
def cut (s : Server) (p : Nat) (l : Lease) : Server := ((s.unlist p).unhash l.leaseNip).place p none

theorem cut_heap {q : Nat} : (s.cut p l).heap q = some m ↔ q ≠ p ∧ s.heap q = some m := by
  by_cases hq : q = p <;> simp [cut, place, unhash, unlist, hq]

theorem Consistent.cut (h : s.Consistent) (hp : s.heap p = some l) : (s.cut p l).Consistent := by
  refine ⟨h.nodup.erase p, fun q => ?_, fun nip q => ?_, ?_, ?_, fun q hq => ?_⟩
  · simp only [cut_heap, exists_and_left]
    rw [← h.listed q]
    exact h.nodup.mem_erase_iff
  · simp only [cut_heap]
    have hhash : (s.cut p l).nipLeaseHash nip = if nip = l.leaseNip then none
        else s.nipLeaseHash nip := rfl
    rw [hhash]
    split_ifs with hn
    · subst hn
      refine ⟨nofun, ?_⟩
      rintro ⟨m, ⟨hqp, hq⟩, hnip⟩
      exact absurd (h.nips hq hp hnip) hqp
    · rw [h.hashed]
      constructor
      · rintro ⟨m, hq, hnip⟩
        refine ⟨m, ⟨?_, hq⟩, hnip⟩
        rintro rfl
        rw [hp] at hq
        cases hq
        exact hn hnip.symm
      · rintro ⟨m, ⟨-, hq⟩, hnip⟩
        exact ⟨m, hq, hnip⟩
  · intro a b x y ha hb
    exact h.macs a b x y (cut_heap.mp ha).2 (cut_heap.mp hb).2
  · intro a x ha
    exact h.usable a x (cut_heap.mp ha).2
  · have hnone := h.fresh q hq
    by_cases hqp : q = p
    · rw [hqp, hp] at hnone
      cases hnone
    · show (if q = p then none else s.heap q) = none
      rw [if_neg hqp]
      exact hnone

theorem Consistent.expires_cut (h : s.Consistent) (hp : s.heap p = some l) :
    (s.cut p l).expires.Sublist s.expires := by
  have hsame : (s.cut p l).expires = ((s.unlist p).unhash l.leaseNip).expires := by
    refine List.filterMap_congr fun q hq => ?_
    obtain ⟨m, hm⟩ := ((h.cut hp).listed q).mp hq
    rw [expireAt, expireAt, hm, show ((s.unlist p).unhash l.leaseNip).heap q = some m
      from (cut_heap.mp hm).2]
  rw [hsame]
  exact expires_unlist _

/-- What is left are the entries that have nothing in common with the lease. -/
theorem Consistent.book_cut (h : s.Consistent) (hp : s.heap p = some l) :
    (s.cut p l).book = {x ∈ s.book | x.Apart l.entry} := by
  ext x
  constructor
  · rintro ⟨q, m, hq, rfl⟩
    obtain ⟨hqp, hq⟩ := cut_heap.mp hq
    refine ⟨⟨q, m, hq, rfl⟩, fun he => ?_, fun he => ?_⟩
    · exact hqp (h.macs q p m l hq hp he)
    · exact hqp (h.nips hq hp he)
  · rintro ⟨⟨q, m, hq, rfl⟩, hapart⟩
    refine ⟨q, m, cut_heap.mpr ⟨?_, hq⟩, rfl⟩
    rintro rfl
    rw [hp] at hq
    cases hq
    exact hapart.1 rfl

/-- **`remove_lease`.** -/
theorem removeLease_eq (hp : s.heap p = some l) : s.removeLease p = .ok (s.cut p l) := by
  have hheap : ((s.unlist p).unhash l.leaseNip).heap p = some l := hp
  simp only [removeLease, deref_eq hp, free, bind, Except.bind]
  rw [hheap]
  rfl

/-! ### `get_lease` -/

/-- The lease at `p` is neither in the list nor in the hash table, and the others are consistent. -/
structure Taken (s : Server) (p : Nat) : Prop where
  others : (s.place p none).Consistent
  alive : ∃ l, s.heap p = some l
  old : p < s.next

/-- The lease at `p` does not count. -/
theorem Taken.expires (h : s.Taken p) : (s.place p none).expires = s.expires := by
  refine List.filterMap_congr fun q hq => ?_
  obtain ⟨m, hm⟩ := (h.others.listed q).mp hq
  have hqp : q ≠ p := by
    rintro rfl
    rw [show (s.place q none).heap q = none from if_pos rfl] at hm
    cases hm
  rw [expireAt, expireAt, show (s.place p none).heap q = s.heap q from if_neg hqp]

/-- The entries that have neither this hardware address nor this address. -/
def beside (s : Server) (mac : Mac) (nip : UInt32) : Set (Entry Mac UInt32) :=
  {x ∈ s.book | x.holder ≠ mac ∧ x.resource ≠ nip}

theorem findMac_spec (h : s.Consistent) (mac : Mac) {ps : List Nat} (hps : ps ⊆ s.leaseList) :
    (s.findMac mac ps = .ok none ∧ ∀ p ∈ ps, ∀ l, s.heap p = some l → l.leaseMac ≠ mac) ∨
      ∃ p l, s.findMac mac ps = .ok (some p) ∧ s.heap p = some l ∧ l.leaseMac = mac := by
  induction ps with
  | nil => exact Or.inl ⟨rfl, by simp⟩
  | cons p ps ih =>
      obtain ⟨hp, hps⟩ := List.cons_subset.mp hps
      obtain ⟨l, hl⟩ := (h.listed p).mp hp
      by_cases hmac : l.leaseMac = mac
      · refine Or.inr ⟨p, l, ?_, hl, hmac⟩
        simp only [findMac, deref_eq hl, bind, Except.bind, if_pos hmac]
      · have hstep : s.findMac mac (p :: ps) = s.findMac mac ps := by
          simp only [findMac, deref_eq hl, bind, Except.bind, if_neg hmac]
        rw [hstep]
        rcases ih hps with ⟨hnone, hall⟩ | hfound
        · refine Or.inl ⟨hnone, ?_⟩
          rintro q hq m hm
          rcases List.mem_cons.mp hq with rfl | hq
          · rw [hl] at hm
            cases hm
            exact hmac
          · exact hall q hq m hm
        · exact Or.inr hfound

/-- **`find_lease_by_mac`.** -/
theorem findLeaseByMac_spec (h : s.Consistent) (mac : Mac) :
    (s.findLeaseByMac mac = .ok none ∧ ∀ x ∈ s.book, x.holder ≠ mac) ∨
      ∃ p l, s.findLeaseByMac mac = .ok (some p) ∧ s.heap p = some l ∧ l.leaseMac = mac := by
  rcases findMac_spec h mac (List.Subset.refl s.leaseList) with ⟨hnone, hall⟩ | hfound
  · refine Or.inl ⟨hnone, ?_⟩
    rintro x ⟨p, l, hp, rfl⟩
    exact hall p ((h.listed p).mpr ⟨l, hp⟩) l hp
  · exact Or.inr hfound

theorem findLeaseByMac_ok (h : s.Consistent) (mac : Mac) :
    ∃ lease, s.findLeaseByMac mac = .ok lease := by
  rcases findLeaseByMac_spec h mac with ⟨hfind, -⟩ | ⟨p, -, hfind, -, -⟩
  · exact ⟨none, hfind⟩
  · exact ⟨some p, hfind⟩

theorem Consistent.unhashed (h : s.Consistent) {nip : UInt32} (hn : s.nipLeaseHash nip = none) :
    ∀ x ∈ s.book, x.resource ≠ nip := by
  rintro x ⟨p, l, hp, rfl⟩ hnip
  rw [(h.hashed nip p).mpr ⟨l, hp, hnip⟩] at hn
  cases hn

theorem Consistent.lt_next (h : s.Consistent) (hp : s.heap p = some l) : p < s.next := by
  by_contra hle
  rw [h.fresh p (by omega)] at hp
  cases hp

theorem place_place_comm {q : Nat} (hpq : p ≠ q) (a b : Option Lease) :
    (s.place q a).place p b = (s.place p b).place q a := by
  simp only [place, Server.mk.injEq, true_and, and_true]
  funext r
  by_cases hp : r = p <;> by_cases hq : r = q <;> simp_all

/-- Of two entries of a consistent table, to differ in one address is to differ in both. -/
theorem Consistent.apart_iff (h : s.Consistent) (hp : s.heap p = some l) {x : Entry Mac UInt32}
    (hx : x ∈ s.book) :
    (x.Apart l.entry ↔ x.resource ≠ l.leaseNip) ∧ (x.Apart l.entry ↔ x.holder ≠ l.leaseMac) := by
  rcases h.exclusive x hx l.entry ⟨p, l, hp, rfl⟩ with rfl | ha
  · exact ⟨⟨fun ha => absurd rfl ha.2, fun hn => absurd rfl hn⟩,
      ⟨fun ha => absurd rfl ha.1, fun hn => absurd rfl hn⟩⟩
  · exact ⟨⟨fun _ => ha.2, fun _ => ha⟩, ⟨fun _ => ha.1, fun _ => ha⟩⟩

/-- Taking out one lease. -/
theorem Consistent.taken (h : s.Consistent) (hp : s.heap p = some l) :
    ((s.unlist p).unhash l.leaseNip).Taken p :=
  ⟨h.cut hp, ⟨l, hp⟩, h.lt_next hp⟩

theorem heap_alloc (h : s.Consistent) : ((s.alloc false).2.place s.next none).heap = s.heap := by
  funext q
  show (if q = s.next then none else if q = s.next then _ else s.heap q) = s.heap q
  by_cases hq : q = s.next
  · rw [if_pos hq, h.fresh q (by omega)]
  · rw [if_neg hq, if_neg hq]

theorem book_alloc (h : s.Consistent) : ((s.alloc false).2.place s.next none).book = s.book := by
  simp only [book, heap_alloc h]

theorem expires_alloc (h : s.Consistent) :
    ((s.alloc false).2.place s.next none).expires = s.expires := by
  have hat : ((s.alloc false).2.place s.next none).expireAt = s.expireAt := by
    funext q
    rw [expireAt, expireAt, heap_alloc h]
  rw [expires, expires, hat]
  rfl

theorem taken_alloc (h : s.Consistent) : (s.alloc false).2.Taken s.next := by
  refine ⟨⟨h.nodup, ?_, ?_, ?_, ?_, fun q hq => ?_⟩, ⟨_, if_pos rfl⟩, Nat.lt_succ_self _⟩
  · rw [heap_alloc h]
    exact h.listed
  · rw [heap_alloc h]
    exact h.hashed
  · rw [heap_alloc h]
    exact h.macs
  · rw [heap_alloc h]
    exact h.usable
  · rw [heap_alloc h]
    exact h.fresh q (Nat.le_of_succ_le hq)

/-- Taking out `l` at `p` where nothing else has its hardware address leaves what is beside both. -/
theorem Consistent.beside_nip (h : s.Consistent) (hp : s.heap p = some l) {mac : Mac}
    (hmac : l.leaseMac = mac ∨ ∀ x ∈ s.book, x.holder ≠ mac) :
    (s.cut p l).book = s.beside mac l.leaseNip := by
  rw [h.book_cut hp]
  ext x
  constructor
  · rintro ⟨hx, hap⟩
    refine ⟨hx, ?_, hap.2⟩
    rcases hmac with rfl | hnone
    · exact hap.1
    · exact hnone x hx
  · rintro ⟨hx, -, hnip⟩
    exact ⟨hx, (h.apart_iff hp hx).1.mpr hnip⟩

/-- The same where nothing else has its address. -/
theorem Consistent.beside_mac (h : s.Consistent) (hp : s.heap p = some l) {nip : UInt32}
    (hnip : ∀ x ∈ s.book, x.resource ≠ nip) : (s.cut p l).book = s.beside l.leaseMac nip := by
  rw [h.book_cut hp]
  ext x
  constructor
  · rintro ⟨hx, hap⟩
    exact ⟨hx, hap.1, hnip x hx⟩
  · rintro ⟨hx, hmac, -⟩
    exact ⟨hx, (h.apart_iff hp hx).2.mpr hmac⟩

/-- Both leases under the two addresses taken out: the one at `p` is kept, the one at `q`
removed. -/
theorem Consistent.taken_both {q : Nat} (h : s.Consistent) (hp : s.heap p = some l)
    (hq : s.heap q = some m) (hpq : p ≠ q) :
    ∃ s', ((s.unlist p).unhash l.leaseNip).removeLease q = .ok s' ∧ s'.toConfig = s.toConfig ∧
      s'.Taken p ∧ (s'.place p none).book = s.beside m.leaseMac l.leaseNip ∧
      s'.expires.Sublist s.expires := by
  have hq₁ : ((s.unlist p).unhash l.leaseNip).heap q = some m := hq
  have hcut : (s.cut p l).heap q = some m := cut_heap.mpr ⟨hpq.symm, hq⟩
  have hplace : (((s.unlist p).unhash l.leaseNip).cut q m).place p none = (s.cut p l).cut q m :=
    place_place_comm hpq none none
  have htaken : (((s.unlist p).unhash l.leaseNip).cut q m).Taken p := by
    refine ⟨?_, ⟨l, cut_heap.mpr ⟨hpq, hp⟩⟩, h.lt_next hp⟩
    rw [hplace]
    exact (h.cut hp).cut hcut
  refine ⟨_, removeLease_eq hq₁, rfl, htaken, ?_, ?_⟩
  · rw [hplace, (h.cut hp).book_cut hcut, h.book_cut hp]
    ext x
    constructor
    · rintro ⟨⟨hx, hap⟩, hap'⟩
      exact ⟨hx, hap'.1, hap.2⟩
    · rintro ⟨hx, hmac, hnip⟩
      exact ⟨⟨hx, (h.apart_iff hp hx).1.mpr hnip⟩, (h.apart_iff hq hx).2.mpr hmac⟩
  · rw [← htaken.expires, hplace]
    exact ((h.cut hp).expires_cut hcut).trans (h.expires_cut hp)

/-- **`get_lease`.**  It takes out what stands under either address, and keeps one lease of it to
write to. -/
theorem getLease_spec (h : s.Consistent) (y : UInt32) (mac : Mac) (oom : Bool) :
    (s.getLease y mac oom = .ok (none, s) ∧
        (¬ Usable s.toConfig y mac ∨ oom = true ∧ ∀ x ∈ s.book, x.holder ≠ mac ∧ x.resource ≠ y)) ∨
      ∃ p s', s.getLease y mac oom = .ok (some p, s') ∧ Usable s.toConfig y mac ∧
        s'.toConfig = s.toConfig ∧ s'.Taken p ∧ (s'.place p none).book = s.beside mac y ∧
        s'.expires.Sublist s.expires := by
  by_cases hu : Usable s.toConfig y mac
  · obtain ⟨h0, h1, h2, h3, h4⟩ := id hu
    have hguards := And.intro h0 (And.intro (UInt32.not_lt.mpr h1) (And.intro (UInt32.not_lt.mpr h2)
      (And.intro h3 h4)))
    rcases hnip : s.nipLeaseHash y with - | p
    · have hfree := h.unhashed hnip
      rcases findLeaseByMac_spec h mac with ⟨hfind, hnone⟩ | ⟨q, m, hfind, hq, rfl⟩
      · -- neither address has a lease
        cases oom with
        | true =>
            refine Or.inl ⟨?_, Or.inr ⟨rfl, fun x hx => ⟨hnone x hx, hfree x hx⟩⟩⟩
            simp [getLease, hguards, hfind, hnip, bind, Except.bind, alloc]
        | false =>
            refine Or.inr ⟨s.next, (s.alloc false).2, ?_, hu, rfl, taken_alloc h, ?_, ?_⟩
            · simp [getLease, hguards, hfind, hnip, bind, Except.bind, alloc]
            · rw [book_alloc h]
              ext x
              exact ⟨fun hx => ⟨hx, hnone x hx, hfree x hx⟩, fun hx => hx.1⟩
            · rw [← (taken_alloc h).expires, expires_alloc h]
      · -- only the hardware address has one
        refine Or.inr ⟨q, (s.unlist q).unhash m.leaseNip, ?_, hu, rfl, h.taken hq,
          h.beside_mac hq hfree, expires_unlist _⟩
        have hderef : (s.unlist q).deref q = .ok m := deref_eq hq
        simp [getLease, hguards, hfind, hnip, hderef, bind, Except.bind]
    · obtain ⟨l, hp, rfl⟩ := (h.hashed y p).mp hnip
      rcases findLeaseByMac_spec h mac with ⟨hfind, hnone⟩ | ⟨q, m, hfind, hq, rfl⟩
      · -- only the address has one
        refine Or.inr ⟨p, (s.unlist p).unhash l.leaseNip, ?_, hu, rfl, h.taken hp,
          h.beside_nip hp (Or.inr hnone), expires_unlist _⟩
        simp [getLease, hguards, hfind, hnip, bind, Except.bind]
      · by_cases hpq : p = q
        · -- both have the same one
          subst hpq
          rw [hp] at hq
          cases hq
          refine Or.inr ⟨p, (s.unlist p).unhash l.leaseNip, ?_, hu, rfl, h.taken hp,
            h.beside_nip hp (Or.inl rfl), expires_unlist _⟩
          simp [getLease, hguards, hfind, hnip, bind, Except.bind]
        · obtain ⟨s', hrem, hconf, htaken, hbook, hsub⟩ := h.taken_both hp hq hpq
          refine Or.inr ⟨p, s', ?_, hu, hconf, htaken, hbook, hsub⟩
          simp [getLease, hguards, hfind, hnip, hpq, hrem, bind, Except.bind]
  · refine Or.inl ⟨?_, Or.inl hu⟩
    unfold getLease
    split_ifs with h0 h1 h2 h3 h4
    · rfl
    · rfl
    · rfl
    · rfl
    · rfl
    · exact absurd ⟨h0, UInt32.not_lt.mp h1, UInt32.not_lt.mp h2, h3, h4⟩ hu

/-! ### Writing a lease -/

/-- `l` written to `p`, which is in the list and the hash table again. -/
def put (s : Server) (p : Nat) (l : Lease) (list : List Nat) : Server :=
  { (s.place p (some l)).hash l.leaseNip p with leaseList := list }

theorem put_heap {list : List Nat} {q : Nat} :
    (s.put p l list).heap q = some m ↔ (q = p ∧ m = l) ∨ (q ≠ p ∧ s.heap q = some m) := by
  by_cases hq : q = p
  · simp [put, place, hash, hq, eq_comm]
  · simp [put, place, hash, hq]

theorem place_heap {q : Nat} : (s.place p none).heap q = some m ↔ q ≠ p ∧ s.heap q = some m := by
  by_cases hq : q = p <;> simp [place, hq]

/-- **The invariant, where a lease is written.** -/
theorem Taken.consistent_put (h : s.Taken p) (hu : Usable s.toConfig l.leaseNip l.leaseMac)
    (hap : ∀ x ∈ (s.place p none).book, x.Apart l.entry) {list : List Nat}
    (hperm : list.Perm (p :: s.leaseList)) : (s.put p l list).Consistent := by
  have hnot : p ∉ s.leaseList := by
    intro hp
    obtain ⟨m, hm⟩ := (h.others.listed p).mp hp
    exact (place_heap.mp hm).1 rfl
  have hapart : ∀ q m, q ≠ p → s.heap q = some m → m.entry.Apart l.entry :=
    fun q m hqp hm => hap _ ⟨q, m, place_heap.mpr ⟨hqp, hm⟩, rfl⟩
  refine ⟨hperm.nodup_iff.mpr (List.nodup_cons.mpr ⟨hnot, h.others.nodup⟩), fun q => ?_,
    fun nip q => ?_, fun a b x y ha hb hxy => ?_, fun q m hq => ?_, fun q hq => ?_⟩
  · rw [show (s.put p l list).leaseList = list from rfl, hperm.mem_iff, List.mem_cons]
    simp only [put_heap]
    by_cases hqp : q = p
    · simp [hqp]
    · have hothers : q ∈ s.leaseList ↔ _ := h.others.listed q
      simp only [place_heap] at hothers
      simpa [hqp] using hothers
  · have hothers := h.others.hashed nip q
    simp only [place_heap] at hothers
    simp only [put_heap]
    show (if nip = l.leaseNip then some p else s.nipLeaseHash nip) = some q ↔ _
    split_ifs with hn
    · subst hn
      constructor
      · intro hq
        cases hq
        exact ⟨l, Or.inl ⟨rfl, rfl⟩, rfl⟩
      · rintro ⟨m, ⟨rfl, rfl⟩ | ⟨hqp, hm⟩, hnip⟩
        · rfl
        · exact absurd hnip (hapart q m hqp hm).2
    · rw [show s.nipLeaseHash nip = some q ↔ _ from hothers]
      constructor
      · rintro ⟨m, hm, hnip⟩
        exact ⟨m, Or.inr hm, hnip⟩
      · rintro ⟨m, ⟨rfl, rfl⟩ | hm, hnip⟩
        · exact absurd hnip.symm hn
        · exact ⟨m, hm, hnip⟩
  · rcases put_heap.mp ha with ⟨rfl, rfl⟩ | ⟨hap', ha'⟩ <;>
      rcases put_heap.mp hb with ⟨rfl, rfl⟩ | ⟨hbp, hb'⟩
    · rfl
    · exact absurd hxy.symm (hapart b y hbp hb').1
    · exact absurd hxy (hapart a x hap' ha').1
    · exact h.others.macs a b x y (place_heap.mpr ⟨hap', ha'⟩) (place_heap.mpr ⟨hbp, hb'⟩) hxy
  · rcases put_heap.mp hq with ⟨rfl, rfl⟩ | ⟨hqp, hm⟩
    · exact hu
    · exact h.others.usable q m (place_heap.mpr ⟨hqp, hm⟩)
  · have hqp : q ≠ p := by
      rintro rfl
      exact absurd h.old (Nat.not_lt.mpr hq)
    have hnone := h.others.fresh q hq
    show (if q = p then some l else s.heap q) = none
    rw [if_neg hqp]
    rwa [show (s.place p none).heap q = s.heap q from if_neg hqp] at hnone

theorem book_put {list : List Nat} : (s.put p l list).book = (s.place p none).book ∪ {l.entry} := by
  ext x
  constructor
  · rintro ⟨q, m, hq, rfl⟩
    rcases put_heap.mp hq with ⟨rfl, rfl⟩ | ⟨hqp, hm⟩
    · exact Or.inr rfl
    · exact Or.inl ⟨q, m, place_heap.mpr ⟨hqp, hm⟩, rfl⟩
  · rintro (⟨q, m, hq, rfl⟩ | rfl)
    · exact ⟨q, m, put_heap.mpr (Or.inr (place_heap.mp hq)), rfl⟩
    · exact ⟨p, l, put_heap.mpr (Or.inl ⟨rfl, rfl⟩), rfl⟩

/-- **A lease is written, and the list stays in order.** -/
theorem Taken.write (h : s.Taken p) (hu : Usable s.toConfig l.leaseNip l.leaseMac)
    (hap : ∀ x ∈ (s.place p none).book, x.Apart l.entry) :
    ∃ list, (s.place p (some l)).insertSorted p l s.leaseList = .ok list ∧
      (s.put p l list).Consistent ∧ (s.put p l list).book = (s.place p none).book ∪ {l.entry} ∧
      (s.Ordered → InTime l.expire → (s.put p l list).Ordered) := by
  have halive : ∀ q ∈ s.leaseList, q ≠ p ∧ ∃ m, s.heap q = some m := by
    intro q hq
    obtain ⟨m, hm⟩ := (h.others.listed q).mp hq
    exact ⟨(place_heap.mp hm).1, m, (place_heap.mp hm).2⟩
  have hsame : s.leaseList.filterMap (s.place p (some l)).expireAt = s.expires := by
    refine List.filterMap_congr fun q hq => ?_
    rw [expireAt, expireAt, show (s.place p (some l)).heap q = s.heap q from if_neg (halive q hq).1]
  have hplaced : ∀ q ∈ s.leaseList, ∃ m, (s.place p (some l)).heap q = some m := by
    intro q hq
    obtain ⟨hqp, m, hm⟩ := halive q hq
    exact ⟨m, (if_neg hqp).trans hm⟩
  obtain ⟨list, hins, hperm, hord⟩ := insertSorted_spec (show _ = some l from if_pos rfl) hplaced
  refine ⟨list, hins, h.consistent_put hu hap hperm, book_put, fun hs hl => ?_⟩
  rw [hsame] at hord
  have hexp : (s.put p l list).expires = s.expires.orderedInsert (· ≥ ·) l.expire :=
    hord hl hs.inTime
  constructor
  · intro t ht
    rw [hexp, List.mem_orderedInsert] at ht
    rcases ht with rfl | ht
    · exact hl
    · exact hs.inTime t ht
  · rw [hexp]
    exact hs.sorted.orderedInsert _ _

/-- The end `add_lease` gives a lease. -/
def ends (s : Server) (now : Int) (expire : UInt32) : Int :=
  if expire = 0 then now + s.leaseSeconds.toNat else expire.toNat

theorem beside_eq (s : Server) (x : Entry Mac UInt32) :
    s.beside x.holder x.resource ∪ {x} = Tenure.assign s.book x := rfl

/-- **`add_lease`.**  The table is as it was, or the entry is written in it, over those of its
holder and its address. -/
theorem addLease_spec (h : s.Consistent) (now : Int) (expire : UInt32) (mac : Mac) (y : UInt32)
    (oom : Bool) :
    (s.addLease now expire mac y oom = .ok (none, s) ∧
        (¬ Usable s.toConfig y mac ∨ oom = true ∧ ∀ x ∈ s.book, x.holder ≠ mac ∧ x.resource ≠ y)) ∨
      ∃ p s', s.addLease now expire mac y oom = .ok (some p, s') ∧ Usable s.toConfig y mac ∧
        s'.toConfig = s.toConfig ∧ s'.Consistent ∧
        s'.book = Tenure.assign s.book ⟨mac, y, s.ends now expire⟩ ∧
        (s.Ordered → InTime (s.ends now expire) → s'.Ordered) := by
  rcases getLease_spec h y mac oom with ⟨hget, hwhy⟩ | ⟨p, s₁, hget, hu, hconf, htaken, hbook, hsub⟩
  · refine Or.inl ⟨?_, hwhy⟩
    simp only [addLease, hget, bind, Except.bind]
  · have hends : s₁.ends now expire = s.ends now expire := by rw [ends, ends, hconf]
    let l : Lease := ⟨s.ends now expire, y, mac⟩
    have hap : ∀ x ∈ (s₁.place p none).book, x.Apart l.entry := by
      intro x hx
      rw [hbook] at hx
      exact hx.2
    obtain ⟨list, hins, hcons, hbook', hord⟩ := htaken.write (l := l) (by rw [hconf]; exact hu) hap
    refine Or.inr ⟨p, s₁.put p l list, ?_, hu, hconf, hcons, ?_,
      fun ho hl => hord (ho.sublist hsub) hl⟩
    · obtain ⟨m, hm⟩ := htaken.alive
      have hstore : s₁.store p l = .ok (s₁.place p (some l)) := by rw [store, hm]
      have hl : (⟨if expire = 0 then now + s₁.leaseSeconds.toNat else expire.toNat, y, mac⟩ :
        Lease) = l := by
        rw [← ends, hends]
      simp only [addLease, hget, bind, Except.bind, hl, hstore]
      rw [show (s₁.place p (some l)).leaseList = s₁.leaseList from rfl, hins]
      rfl
    · rw [hbook', hbook]
      exact beside_eq s l.entry

/-- **`lease_set_expire`.** -/
theorem leaseSetExpire_spec (h : s.Consistent) (hp : s.heap p = some l) (expire : UInt32) :
    ∃ s', s.leaseSetExpire p expire = .ok s' ∧ s'.toConfig = s.toConfig ∧ s'.Consistent ∧
      s'.book = Tenure.assign s.book ⟨l.leaseMac, l.leaseNip, expire.toNat⟩ ∧
      (s.Ordered → InTime expire.toNat → s'.Ordered) := by
  let l' : Lease := { l with expire := expire.toNat }
  have htaken := h.taken hp
  have hbook : (s.cut p l).book = s.beside l.leaseMac l.leaseNip := h.beside_nip hp (Or.inl rfl)
  have hap : ∀ x ∈ (((s.unlist p).unhash l.leaseNip).place p none).book, x.Apart l'.entry := by
    intro x hx
    rw [show (((s.unlist p).unhash l.leaseNip).place p none).book = _ from hbook] at hx
    exact hx.2
  obtain ⟨list, hins, hcons, hbook', hord⟩ := htaken.write (l := l') (h.usable p l hp) hap
  refine ⟨((s.unlist p).unhash l.leaseNip).put p l' list, ?_, rfl, hcons, ?_,
    fun ho hl => hord (ho.sublist (expires_unlist _)) hl⟩
  · have hderef : (s.unlist p).deref p = .ok l := deref_eq hp
    have hstore : (s.unlist p).store p l' = .ok ((s.unlist p).place p (some l')) := by
      rw [store, show (s.unlist p).heap p = some l from hp]
    have hins' : ((s.unlist p).place p (some l')).insertSorted p l' (s.unlist p).leaseList =
        .ok list :=
      (insertSorted_congr (by rfl) _ _ _).trans hins
    have hhash : (((s.unlist p).unhash l.leaseNip).put p l' list).nipLeaseHash =
        s.nipLeaseHash := by
      funext n
      show (if n = l.leaseNip then some p else if n = l.leaseNip then none
        else s.nipLeaseHash n) = _
      split_ifs with hn
      · rw [hn]
        exact ((h.hashed l.leaseNip p).mpr ⟨l, hp, rfl⟩).symm
      · rfl
    simp only [leaseSetExpire, hderef, bind, Except.bind]
    rw [show ({ l with expire := (expire.toNat : Int) } : Lease) = l' from rfl, hstore]
    simp only
    rw [show ((s.unlist p).place p (some l')).leaseList = (s.unlist p).leaseList from rfl, hins']
    refine congrArg Except.ok ?_
    rw [Server.mk.injEq]
    exact ⟨rfl, rfl, hhash.symm, rfl, rfl⟩
  · rw [hbook', show (((s.unlist p).unhash l.leaseNip).place p none).book = _ from hbook]
    exact beside_eq s l'.entry

/-- **`remove_lease`** drops what its holder has. -/
theorem removeLease_spec (h : s.Consistent) (hp : s.heap p = some l) :
    s.removeLease p = .ok (s.cut p l) ∧ (s.cut p l).Consistent ∧
      (s.cut p l).book = Tenure.drop s.book l.leaseMac ∧ (s.Ordered → (s.cut p l).Ordered) := by
  refine ⟨removeLease_eq hp, h.cut hp, ?_, fun ho => ho.sublist (h.expires_cut hp)⟩
  rw [h.book_cut hp]
  ext x
  constructor
  · rintro ⟨hx, hap⟩
    exact ⟨hx, hap.1⟩
  · rintro ⟨hx, hmac⟩
    exact ⟨hx, (h.apart_iff hp hx).2.mpr hmac⟩

/-! ### The end -/

theorem freeAll_spec {ps : List Nat} (hps : ps.Nodup) (hlive : ∀ p ∈ ps, ∃ l, s.heap p = some l) :
    ∃ s', s.freeAll ps = .ok s' ∧ ∀ q, s'.heap q = if q ∈ ps then none else s.heap q := by
  induction ps generalizing s with
  | nil => exact ⟨s, rfl, fun q => by simp⟩
  | cons p ps ih =>
      obtain ⟨hp, hps⟩ := List.nodup_cons.mp hps
      obtain ⟨l, hl⟩ := hlive p List.mem_cons_self
      have hlive' : ∀ q ∈ ps, ∃ m, (s.place p none).heap q = some m := by
        intro q hq
        obtain ⟨m, hm⟩ := hlive q (List.mem_cons_of_mem _ hq)
        refine ⟨m, place_heap.mpr ⟨?_, hm⟩⟩
        rintro rfl
        exact hp hq
      obtain ⟨s', hfree, hheap⟩ := ih hps hlive'
      refine ⟨s', ?_, fun q => ?_⟩
      · simp only [freeAll, free, hl, bind, Except.bind, hfree]
      · rw [hheap q]
        by_cases hq : q = p
        · simp [place, hq]
        · simp [place, hq]

/-- **`destroy_lease_table`** frees every lease once. -/
theorem destroyLeaseTable_spec (h : s.Consistent) :
    ∃ s', s.destroyLeaseTable = .ok s' ∧ s'.heap = fun _ => none := by
  obtain ⟨s', hfree, hheap⟩ := freeAll_spec (s := { s with nipLeaseHash := fun _ => none }) h.nodup
    fun p hp => (h.listed p).mp hp
  refine ⟨{ s' with leaseList := [] }, ?_, ?_⟩
  · simp only [destroyLeaseTable, bind, Except.bind, hfree]
  · funext q
    show s'.heap q = none
    rw [hheap q]
    split_ifs with hq
    · rfl
    · rcases hl : s.heap q with - | l
      · rfl
      · exact absurd ((h.listed q).mpr ⟨l, hl⟩) hq

end Server

end OpenWfd.Dhcp
