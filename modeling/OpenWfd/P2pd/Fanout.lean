import OpenWfd.P2pd.Registry
import Mathlib.Data.List.Perm.Subperm

/-!
# P2pd — Fanout

The interface refines a registry: the list in memory holds the users in order (`Rep`), and
registering, unregistering and calling do to it what they do to the registry.  The loop of
`wpa_event` saves the node after the one it is at; if an event function unregisters the user of that
node, the loop goes on in freed memory, and otherwise it delivers (`forEachSafe_spec`).
-/

namespace OpenWfd.P2pd

open DList

/-- The users of the interface, in order. -/
structure Registered (s : Iface) (us : List Nat) : Prop where
  list : IsList s.nodes .head (us.map .user)
  there : ∀ u, (s.nodes (.user u)).isSome = true ↔ u ∈ us
  below : ∀ u ∈ us, u < s.next

/-- The interface represents the registry. -/
structure Rep (s : Iface) (r : Registry) : Prop where
  registered : Registered s r.list
  users : s.users = r.users
  next : s.next = r.next
  log : s.log = r.log
  sane : r.Sane

/-- The first of the users, or the head if there is none. -/
def first : List Nat → Addr
  | []     => .head
  | u :: _ => .user u

theorem head?_first (us : List Nat) :
    (us.map Addr.user ++ [Addr.head]).head? = some (first us) := by
  cases us <;> rfl

theorem user_injective : Function.Injective Addr.user := fun _ _ h => Addr.user.inj h

theorem user_mem_iff {u : Nat} {us : List Nat} :
    Addr.user u ∈ Addr.head :: us.map Addr.user ↔ u ∈ us := by
  simp

section

variable {s s' : Iface} {us : List Nat} {r : Registry}

/-- A list of nodes has no number twice. -/
theorem Registered.nodup (h : Registered s us) : us.Nodup :=
  List.Nodup.of_map _ (List.nodup_cons.mp h.list.nodup).2

theorem Registered.length_le (h : Registered s us) : us.length ≤ s.next := by
  have hsub : us ⊆ List.range s.next := fun u hu => List.mem_range.mpr (h.below u hu)
  have hle := (List.subperm_of_subset h.nodup hsub).length_le
  rwa [List.length_range] at hle

theorem Registered.nextOf_head (h : Registered s us) : nextOf s.nodes .head = some (first us) := by
  have hx : Addr.head :: us.map Addr.user = [] ++ Addr.head :: us.map Addr.user := rfl
  rw [h.list.nextOf_eq hx, head?_first]

theorem Registered.nextOf_user {front rest : List Nat} {u : Nat} (h : Registered s us)
    (hus : us = front ++ u :: rest) : nextOf s.nodes (.user u) = some (first rest) := by
  have hx : Addr.head :: us.map Addr.user =
      (Addr.head :: front.map Addr.user) ++ Addr.user u :: rest.map Addr.user := by
    rw [hus, List.map_append, List.map_cons, List.cons_append]
  rw [h.list.nextOf_eq hx, head?_first]

theorem Registered.isSome_first {front rest : List Nat} (h : Registered s us)
    (hus : us = front ++ rest) : (s.nodes (first rest)).isSome = true := by
  cases rest with
  | nil => exact h.list.isSome List.mem_cons_self
  | cons u rest => exact (h.there u).mpr (hus ▸ List.mem_append_right _ List.mem_cons_self)

/-! ### Registering and unregistering -/

theorem registerEventFn_spec (h : Rep s r) (eventFn : Option Nat) (data : Nat) :
    ∃ s', registerEventFn s eventFn data true = some (.ok (), s') ∧
      Rep s' (r.register eventFn data) := by
  have hsane := h.sane.change (.registered r eventFn data)
  have hnew : s.next ∉ r.list := fun hmem => Nat.lt_irrefl _ (h.registered.below _ hmem)
  have haddr : Addr.user s.next ∉ Addr.head :: r.list.map Addr.user :=
    fun hmem => hnew (user_mem_iff.mp hmem)
  have hlist : IsList (Function.update s.nodes (.user s.next) (some ⟨none, none⟩)) .head
      (r.list.map .user) := by
    refine h.registered.list.congr ?_
    intro a ha
    exact Function.update_of_ne (ne_of_mem_of_not_mem ha haddr) _ _
  obtain ⟨nodes, hlink, hl, hsame⟩ := link_spec hlist haddr (by rw [Function.update_self]; rfl)
  refine ⟨⟨nodes, Function.update s.users s.next ⟨eventFn, data⟩, s.next + 1,
    s.log ++ [.registered s.next]⟩, ?_, ⟨⟨?_, ?_, ?_⟩, ?_, ?_, ?_, hsane⟩⟩
  · rw [registerEventFn, if_pos rfl]
    dsimp only
    rw [hlink]
  · rw [Registry.register, ← h.next]
    exact hl
  · intro u
    rw [hsame, Registry.register, ← h.next]
    by_cases hu : u = s.next
    · subst hu
      simp
    · rw [Function.update_of_ne (user_injective.ne hu), h.registered.there]
      simp [hu]
  · intro u hu
    have hlt := hsane.below u hu
    rw [h.next]
    exact hlt
  · rw [Registry.register, ← h.next, h.users]
  · rw [Registry.register, h.next]
  · rw [Registry.register, h.next, h.log]

/-- The search finds the first user that matches. -/
theorem findUser_spec (h : Rep s r) (e : EventUser) {front rest : List Nat} {rounds : Nat}
    (hlist : r.list = front ++ rest) (hrounds : rest.length < rounds) :
    findUser s e rounds (first rest) = some (rest.find? fun u => r.users u = e) := by
  induction rest generalizing front rounds with
  | nil =>
      obtain ⟨n, rfl⟩ := Nat.exists_eq_add_of_lt hrounds
      rw [List.length_nil, Nat.zero_add]
      rfl
  | cons u rest ih =>
      obtain ⟨n, rfl⟩ : ∃ n, rounds = n + 1 := Nat.exists_eq_succ_of_ne_zero (by omega)
      have hmem : u ∈ r.list := hlist ▸ List.mem_append_right _ List.mem_cons_self
      obtain ⟨node, hnode⟩ := Option.isSome_iff_exists.mp ((h.registered.there u).mpr hmem)
      have hnext := h.registered.nextOf_user hlist
      rw [nextOf, hnode] at hnext
      have hnext : node.next = some (first rest) := hnext
      unfold first findUser
      rw [hnode, h.users]
      dsimp only
      by_cases hu : r.users u = e
      · rw [if_pos hu, List.find?_cons, decide_eq_true hu]
      · have hsplit : r.list = (front ++ [u]) ++ rest := by
          rw [hlist, List.append_assoc, List.singleton_append]
        rw [if_neg hu, List.find?_cons, decide_eq_false hu, hnext, Option.bind_some]
        exact ih hsplit (Nat.lt_of_succ_lt_succ hrounds)

/-- The user goes, with its node. -/
theorem Rep.remove {nodes : Nodes Addr} {front rest : List Nat} {u : Nat} (h : Rep s r)
    (hsplit : r.list = front ++ u :: rest) (hl : IsList nodes .head ((front ++ rest).map .user))
    (hsame : SameNodes s.nodes nodes) :
    Rep { s with nodes := Function.update nodes (.user u) none, log := s.log ++ [.unregistered u] }
      (r.remove u) := by
  have hmem : u ∈ r.list := hsplit ▸ List.mem_append_right _ List.mem_cons_self
  have hsane := h.sane.change (.removed hmem)
  have hnodup := h.sane.nodup
  rw [hsplit] at hnodup
  obtain ⟨-, hrest, hdisj⟩ := List.nodup_append.mp hnodup
  have hgone : u ∉ front ++ rest := by
    intro hu
    rcases List.mem_append.mp hu with hu | hu
    · exact hdisj u hu u List.mem_cons_self rfl
    · exact (List.nodup_cons.mp hrest).1 hu
  have hlist : (r.remove u).list = front ++ rest := by
    have hkeep : (front ++ rest).filter (· ≠ u) = front ++ rest :=
      List.filter_eq_self.mpr fun v hv => decide_eq_true (ne_of_mem_of_not_mem hv hgone)
    rw [List.filter_append] at hkeep
    rw [Registry.remove, hsplit, List.filter_append, List.filter_cons_of_neg (by simp)]
    exact hkeep
  refine ⟨⟨?_, ?_, ?_⟩, h.users, h.next, ?_, hsane⟩
  · rw [hlist]
    refine hl.congr ?_
    intro a ha
    exact Function.update_of_ne (ne_of_mem_of_not_mem ha fun hu => hgone (user_mem_iff.mp hu)) _ _
  · intro v
    rw [Registry.mem_remove]
    dsimp only
    by_cases hv : v = u
    · subst hv
      simp
    · rw [Function.update_of_ne (user_injective.ne hv), hsame, h.registered.there]
      exact ⟨fun hm => ⟨hm, hv⟩, And.left⟩
  · exact fun v hv => h.registered.below v (Registry.mem_remove.mp hv).1
  · rw [Registry.remove, h.log]

theorem unregisterEventFn_spec (h : Rep s r) (eventFn : Option Nat) (data : Nat) :
    ∃ s', unregisterEventFn s eventFn data = some s' ∧ Rep s' (r.unregister eventFn data) := by
  have hhead := h.registered.nextOf_head
  obtain ⟨head, hnode⟩ := Option.isSome_iff_exists.mp (isSome_of_nextOf hhead)
  rw [nextOf, hnode] at hhead
  have hfirst : head.next = some (first r.list) := hhead
  have hfind := findUser_spec h ⟨eventFn, data⟩ (List.nil_append r.list).symm
    (Nat.lt_succ_of_le h.registered.length_le)
  unfold unregisterEventFn Registry.unregister
  simp only [hnode, hfirst, hfind, Option.bind_eq_bind, Option.bind_some]
  rcases hu : r.list.find? fun u => r.users u = ⟨eventFn, data⟩ with _ | u
  · exact ⟨s, rfl, h⟩
  · obtain ⟨front, rest, hsplit⟩ := List.append_of_mem (List.mem_of_find?_eq_some hu)
    have hlist := h.registered.list
    rw [hsplit, List.map_append, List.map_cons] at hlist
    obtain ⟨nodes, hunlink, hl, hsame⟩ := unlink_spec hlist
    rw [← List.map_append] at hl
    refine ⟨_, ?_, h.remove hsplit hl hsame⟩
    simp only [hunlink, Option.bind_some]

/-! ### What an event function does -/

theorem run_spec (h : Rep s r) (o : CbOp) : ∃ s', o.run s = some s' ∧ Rep s' (r.run o) := by
  cases o with
  | register eventFn data memory =>
      cases memory with
      | true =>
          obtain ⟨s', hs', h'⟩ := registerEventFn_spec h eventFn data
          refine ⟨s', ?_, h'⟩
          rw [CbOp.run, hs']
          rfl
      | false => exact ⟨s, rfl, h⟩
  | unregister eventFn data => exact unregisterEventFn_spec h eventFn data

theorem script_spec (h : Rep s r) (script : List CbOp) :
    ∃ s', script.foldlM CbOp.run s = some s' ∧ Rep s' (script.foldl Registry.run r) := by
  induction script generalizing s r with
  | nil => exact ⟨s, rfl, h⟩
  | cons o script ih =>
      obtain ⟨s₁, hs₁, h₁⟩ := run_spec h o
      obtain ⟨s', hs', h'⟩ := ih h₁
      refine ⟨s', ?_, h'⟩
      rw [List.foldlM_cons, hs₁]
      exact hs'

theorem callEventFn_spec (h : Rep s r) (u : Nat) (scripts : Scripts) :
    ∃ s', callEventFn s u scripts = some (s', (r.call u scripts).2) ∧
      Rep s' (r.call u scripts).1 := by
  have huser : s.users u = r.users u := by rw [h.users]
  unfold callEventFn Registry.call
  rw [huser]
  rcases (r.users u).eventFn with _ | fn
  · exact ⟨s, rfl, h⟩
  · have hnote : Rep { s with log := s.log ++ [.called u] }
        { r with log := r.log ++ [.called u] } :=
      ⟨⟨h.registered.list, h.registered.there, h.registered.below⟩, h.users, h.next,
        congrArg (· ++ [Entry.called u]) h.log, h.sane.note u⟩
    obtain ⟨s', hs', h'⟩ := script_spec hnote (scripts.headD [])
    refine ⟨s', ?_, h'⟩
    dsimp only
    rw [hs']

/-! ### The loop -/

end

/-- Of `us`, those still registered are the end of the list: new users come in front. -/
structure Ahead (us : List Nat) (r : Registry) : Prop where
  below : ∀ u ∈ us, u < r.next
  behind : ∃ front, r.list = front ++ us.filter (· ∈ r.list)

/-- From `r` on, no user below `r.next` has come back. -/
structure Older (r r' : Registry) : Prop where
  next : r.next ≤ r'.next
  mem : ∀ u < r.next, u ∈ r'.list → u ∈ r.list

section

variable {us : List Nat} {r r' : Registry} {u : Nat}

theorem Ahead.change (h : Ahead us r) (c : Registry.Change r r') : Ahead us r' := by
  obtain ⟨front, hfront⟩ := h.behind
  cases c with
  | registered eventFn data =>
      have hsame : us.filter (· ∈ (r.register eventFn data).list) = us.filter (· ∈ r.list) := by
        refine List.filter_congr ?_
        intro u hu
        have hne : u ≠ r.next := Nat.ne_of_lt (h.below u hu)
        simp [Registry.register, hne]
      refine ⟨fun u hu => Nat.lt_succ_of_lt (h.below u hu), r.next :: front, ?_⟩
      rw [hsame, List.cons_append, ← hfront]
      rfl
  | @removed u hu =>
      have hsame : us.filter (· ∈ (r.remove u).list) = (us.filter (· ∈ r.list)).filter (· ≠ u) := by
        rw [List.filter_filter]
        refine List.filter_congr ?_
        intro v _
        simp [and_comm]
      refine ⟨h.below, front.filter (· ≠ u), ?_⟩
      rw [hsame, ← List.filter_append, ← hfront]
      rfl

theorem Older.change {r₀ : Registry} (h : Older r₀ r) (c : Registry.Change r r') : Older r₀ r' := by
  cases c with
  | registered eventFn data =>
      refine ⟨Nat.le_succ_of_le h.next, ?_⟩
      intro u hu hmem
      rcases List.mem_cons.mp hmem with rfl | hmem
      · exact absurd hu (Nat.not_lt.mpr h.next)
      · exact h.mem u hu hmem
  | removed hu => exact ⟨h.next, fun v hv hmem => h.mem v hv (Registry.mem_remove.mp hmem).1⟩

theorem Ahead.call (h : Ahead us r) (u : Nat) (scripts : Scripts) :
    Ahead us (r.call u scripts).1 := by
  unfold Registry.call
  rcases (r.users u).eventFn with _ | fn
  · exact h
  · exact closure_invariant (Registry.changes_script _ _) ⟨h.below, h.behind⟩ fun _ _ =>
      Ahead.change

theorem older_call (r : Registry) (u : Nat) (scripts : Scripts) :
    Older r (r.call u scripts).1 := by
  unfold Registry.call
  rcases (r.users u).eventFn with _ | fn
  · exact ⟨le_rfl, fun _ _ => id⟩
  · exact closure_invariant (Registry.changes_script _ _) ⟨le_rfl, fun _ _ => id⟩
      fun _ _ => Older.change

theorem Ahead.tail (h : Ahead (u :: us) r) : Ahead us r := by
  obtain ⟨front, hfront⟩ := h.behind
  refine ⟨fun v hv => h.below v (List.mem_cons_of_mem u hv), ?_⟩
  by_cases hu : u ∈ r.list
  · rw [List.filter_cons_of_pos (by simp [hu])] at hfront
    refine ⟨front ++ [u], ?_⟩
    rw [List.append_assoc, List.singleton_append]
    exact hfront
  · rw [List.filter_cons_of_neg (by simp [hu])] at hfront
    exact ⟨front, hfront⟩

/-- The node where the loop is, before the turn of `us`. -/
def pos (us : List Nat) (r : Registry) : Addr := first (us.filter (· ∈ r.list))

theorem pos_cons_of_mem (hu : u ∈ r.list) : pos (u :: us) r = .user u := by
  rw [pos, List.filter_cons_of_pos (by simp [hu])]
  rfl

theorem pos_cons_of_notMem (hu : u ∉ r.list) : pos (u :: us) r = pos us r := by
  rw [pos, List.filter_cons_of_neg (by simp [hu])]
  rfl

/-- The saved node is the next one, if its user is still there. -/
theorem pos_eq (h : Ahead us r) (ho : Older r r')
    (ht : ∀ t ∈ us.find? (· ∈ r.list), t ∈ r'.list) : pos us r' = pos us r := by
  induction us with
  | nil => rfl
  | cons u us ih =>
      by_cases hu : u ∈ r.list
      · have hu' : u ∈ r'.list := ht u (by rw [List.find?_cons, decide_eq_true hu]; rfl)
        rw [pos_cons_of_mem hu, pos_cons_of_mem hu']
      · have hu' : u ∉ r'.list := fun hmem => hu (ho.mem u (h.below u List.mem_cons_self) hmem)
        rw [pos_cons_of_notMem hu, pos_cons_of_notMem hu']
        refine ih h.tail ?_
        intro t htt
        exact ht t (by rw [List.find?_cons, decide_eq_false hu]; exact htt)

theorem pos_of_find? {t : Nat} (ht : us.find? (· ∈ r.list) = some t) : pos us r = .user t := by
  rw [← List.head?_filter] at ht
  rcases hf : us.filter (· ∈ r.list) with _ | ⟨v, rest⟩ <;> rw [hf] at ht <;> cases ht
  rw [pos, hf]
  rfl

/-- One round of the loop: the saved node is still there. -/
theorem forEachSafe_next {s s₁ : Iface} {scripts scripts₁ : Scripts} {n : Nat} {i : Addr}
    {node node₁ : Node Addr} (hnode : s.nodes (.user u) = some node)
    (hcall : callEventFn s u scripts = some (s₁, scripts₁)) (hi : s₁.nodes i = some node₁) :
    forEachSafe (n + 1) (.user u) (some i) s scripts = forEachSafe n i node₁.next s₁ scripts₁ := by
  rw [forEachSafe]
  simp only [hnode, hcall, hi]

/-- Or it has been freed. -/
theorem forEachSafe_freed {s s₁ : Iface} {scripts scripts₁ : Scripts} {n : Nat} {i : Addr}
    {node : Node Addr} (hnode : s.nodes (.user u) = some node)
    (hcall : callEventFn s u scripts = some (s₁, scripts₁)) (hi : s₁.nodes i = none) :
    forEachSafe (n + 1) (.user u) (some i) s scripts = .faulted := by
  rw [forEachSafe]
  simp only [hnode, hcall, hi]

/-- **The loop** delivers to every user, if no event function unregisters the user whose turn is
next. Otherwise it reads a freed node. -/
theorem forEachSafe_spec {s : Iface} {scripts : Scripts} {rounds : Nat} {node : Node Addr}
    (h : Rep s r) (ha : Ahead us r) (hrounds : us.length < rounds)
    (hnode : s.nodes (pos us r) = some node) :
    (Registry.Spares us r scripts →
      ∃ s', forEachSafe rounds (pos us r) node.next s scripts = .returned s' ∧
        Rep s' (Registry.deliver us r scripts)) ∧
    (¬ Registry.Spares us r scripts →
      forEachSafe rounds (pos us r) node.next s scripts = .faulted) := by
  induction us generalizing s r scripts rounds node with
  | nil =>
      obtain ⟨n, rfl⟩ : ∃ n, rounds = n + 1 := Nat.exists_eq_succ_of_ne_zero (by omega)
      exact ⟨fun _ => ⟨s, rfl, h⟩, fun hn => absurd trivial hn⟩
  | cons u us ih =>
      unfold Registry.Spares Registry.deliver
      by_cases hu : u ∈ r.list
      · simp only [if_pos hu]
        rw [pos_cons_of_mem hu] at hnode ⊢
        obtain ⟨n, rfl⟩ : ∃ n, rounds = n + 1 := Nat.exists_eq_succ_of_ne_zero (by omega)
        obtain ⟨front, hfront⟩ := ha.behind
        rw [List.filter_cons_of_pos (by simp [hu])] at hfront
        have hnext : node.next = some (pos us r) := by
          have hn := h.registered.nextOf_user hfront
          rw [nextOf, hnode] at hn
          exact hn
        obtain ⟨s₁, hcall, h₁⟩ := callEventFn_spec h u scripts
        have ha₁ : Ahead us (r.call u scripts).1 := ha.tail.call u scripts
        rw [hnext]
        by_cases ht : ∀ t ∈ us.find? (· ∈ r.list), t ∈ (r.call u scripts).1.list
        · have hpos := pos_eq ha.tail (older_call r u scripts) ht
          obtain ⟨front₁, hfront₁⟩ := ha₁.behind
          have hthere := h₁.registered.isSome_first hfront₁
          obtain ⟨node₁, hnode₁⟩ := Option.isSome_iff_exists.mp hthere
          have hnode₁ : s₁.nodes (pos us (r.call u scripts).1) = some node₁ := hnode₁
          obtain ⟨hgood, hbad⟩ := @ih _ _ (r.call u scripts).2 _ _ h₁ ha₁
            (Nat.lt_of_succ_lt_succ hrounds) hnode₁
          rw [hpos] at hnode₁ hgood hbad
          rw [forEachSafe_next hnode hcall hnode₁]
          exact ⟨fun hs => hgood hs.2, fun hs => hbad fun hs' => hs ⟨ht, hs'⟩⟩
        · -- the saved node has been freed
          refine ⟨fun hs => absurd hs.1 ht, fun _ => ?_⟩
          obtain ⟨t, htt, hgone⟩ : ∃ t, us.find? (· ∈ r.list) = some t ∧
              t ∉ (r.call u scripts).1.list := by
            by_contra hn
            exact ht fun t htt => by_contra fun hgone => hn ⟨t, htt, hgone⟩
          have hfreed : s₁.nodes (.user t) = none := by
            rw [← Option.not_isSome_iff_eq_none, h₁.registered.there]
            exact hgone
          rw [pos_of_find? htt]
          exact forEachSafe_freed hnode hcall hfreed
      · simp only [if_neg hu]
        rw [pos_cons_of_notMem hu] at hnode ⊢
        exact ih h ha.tail (Nat.lt_of_succ_lt hrounds) hnode

end

/-! ### The event -/

/-- The event is parsed, and its type is known. -/
def Recognised (buf : CStr) (h : Heap) : Prop :=
  ∃ ev h', Wpa.parse .zero buf h = (.ok (), ev, h') ∧ ev.type ≠ .unknown

/-- `wpa_event` returns, so it reads no node of a user that has been unregistered, and has kept what
is promised to the users. -/
def Delivered (s : Iface) (us : List Nat) : Outcome → Prop
  | .returned s'         => Registry.FannedOut us s.users s'.log
  | .faulted | .endless  => False

/-- The registry when an event begins. -/
def Iface.registry (s : Iface) (us : List Nat) : Registry := ⟨us, s.users, s.next, []⟩

section

variable {s : Iface} {us : List Nat}

theorem Registered.rep (h : Registered s us) : Rep { s with log := [] } (s.registry us) :=
  ⟨⟨h.list, h.there, h.below⟩, rfl, rfl, rfl, h.nodup, h.below, fun _ hu => nomatch hu⟩

theorem wpaEvent_recognised {buf : CStr} {h : Heap} (hev : Recognised buf h) (scripts : Scripts) :
    (wpaEvent s buf h scripts).1 = forEachUser { s with log := [] } scripts := by
  obtain ⟨ev, h', hparse, htype⟩ := hev
  unfold wpaEvent
  dsimp only
  rw [hparse]
  exact if_neg htype

theorem forEachUser_spec (h : Registered s us) (scripts : Scripts) :
    (Registry.Spares us (s.registry us) scripts →
      ∃ s', forEachUser { s with log := [] } scripts = .returned s' ∧
        Rep s' (Registry.deliver us (s.registry us) scripts)) ∧
    (¬ Registry.Spares us (s.registry us) scripts →
      forEachUser { s with log := [] } scripts = .faulted) := by
  have hrep := h.rep
  have hfilter : us.filter (· ∈ (s.registry us).list) = us :=
    List.filter_eq_self.mpr fun u hu => decide_eq_true hu
  have ha : Ahead us (s.registry us) := ⟨h.below, [], by rw [hfilter]; rfl⟩
  have hpos : pos us (s.registry us) = first us := by rw [pos, hfilter]
  obtain ⟨node, hnode⟩ := Option.isSome_iff_exists.mp (h.isSome_first (List.nil_append us).symm)
  have hstart : forEachUser { s with log := [] } scripts =
      forEachSafe (s.next + 1) (first us) node.next { s with log := [] } scripts := by
    unfold forEachUser
    rw [show nextOf ({ s with log := [] } : Iface).nodes .head = _ from h.nextOf_head]
    dsimp only
    rw [hnode]
  rw [hstart, ← hpos]
  exact forEachSafe_spec hrep ha (Nat.lt_succ_of_le h.length_le) (hpos ▸ hnode)

/-- **Fan-out.**  `wpa_event` keeps what is promised to the users exactly if no event function
unregisters the user whose turn is next. -/
theorem fan_out_iff (hs : Registered s us) {buf : CStr} {h : Heap} (hev : Recognised buf h)
    (scripts : Scripts) :
    Delivered s us (wpaEvent s buf h scripts).1 ↔
      Registry.Spares us (s.registry us) scripts := by
  rw [wpaEvent_recognised hev]
  obtain ⟨hgood, hbad⟩ := forEachUser_spec hs scripts
  by_cases hsp : Registry.Spares us (s.registry us) scripts
  · obtain ⟨s', hret, hrep⟩ := hgood hsp
    refine ⟨fun _ => hsp, fun _ => ?_⟩
    rw [hret]
    change Registry.FannedOut us s.users s'.log
    rw [hrep.log]
    exact Registry.deliver_fannedOut hs.rep.sane rfl scripts
  · rw [hbad hsp]
    exact ⟨False.elim, fun h => absurd h hsp⟩

end

/-! ### The interfaces there are -/

theorem rep_fresh : Rep .fresh ⟨[], Iface.fresh.users, 0, []⟩ := by
  refine ⟨⟨⟨List.nodup_singleton _, ?_⟩, ?_, List.forall_mem_nil _⟩, rfl, rfl, rfl,
    ⟨List.nodup_nil, List.forall_mem_nil _, fun _ hu => nomatch hu⟩⟩
  · exact .cons_cons ⟨rfl, rfl⟩ (.singleton _)
  · intro u
    simp [Iface.fresh]

/-- What calls of the users and events that return make of a new interface. -/
inductive Reached : Iface → Prop where
  | fresh : Reached .fresh
  | op {s s' : Iface} (h : Reached s) {o : CbOp} (e : o.run s = some s') : Reached s'
  | event {s s' : Iface} (h : Reached s) {buf : CStr} {heap : Heap} {scripts : Scripts}
      (e : (wpaEvent s buf heap scripts).1 = .returned s') : Reached s'

/-- **Every interface has its list of users**, from one event to the next. -/
theorem reached_registered {s : Iface} (h : Reached s) : ∃ us, Registered s us := by
  have hrep : ∃ r, Rep s r := by
    induction h with
    | fresh => exact ⟨_, rep_fresh⟩
    | @op s s' _ o e ih =>
        obtain ⟨r, hr⟩ := ih
        obtain ⟨s₁, he, h₁⟩ := run_spec hr o
        rw [e] at he
        cases he
        exact ⟨_, h₁⟩
    | @event s s' _ buf heap scripts e ih =>
        obtain ⟨r, hr⟩ := ih
        obtain ⟨hgood, hbad⟩ := forEachUser_spec hr.registered scripts
        unfold wpaEvent at e
        dsimp only at e
        rcases hparse : Wpa.parse .zero buf heap with ⟨x | _, ev, heap'⟩ <;>
          simp only [hparse] at e
        · cases e
          exact ⟨_, hr.registered.rep⟩
        · split_ifs at e
          · cases e
            exact ⟨_, hr.registered.rep⟩
          · by_cases hsp : Registry.Spares r.list (s.registry r.list) scripts
            · obtain ⟨s₁, hret, h₁⟩ := hgood hsp
              rw [hret] at e
              cases e
              exact ⟨_, h₁⟩
            · rw [hbad hsp] at e
              cases e
  obtain ⟨r, hr⟩ := hrep
  exact ⟨r.list, hr.registered⟩

/-- Two users; the first unregisters itself and registers a third. -/
theorem fan_out_iff_itself :
    ∃ s us buf h scripts, Reached s ∧ Registered s us ∧ us = [1, 0] ∧ Recognised buf h ∧
      Delivered s us (wpaEvent s buf h scripts).1 := by
  obtain ⟨s₁, e₁, h₁⟩ := run_spec rep_fresh (.register (some 0) 7 true)
  obtain ⟨s₂, e₂, h₂⟩ := run_spec h₁ (.register (some 0) 8 true)
  have hreached : Reached s₂ := .op (.op .fresh e₁) e₂
  have hev : Recognised ⟨str "<3>P2P-FIND-STOPPED", by decide⟩ (.fresh []) :=
    ⟨_, _, rfl, by decide⟩
  have hspares : Registry.Spares [1, 0] (s₂.registry [1, 0])
      [[.unregister (some 0) 8, .register none 9 true]] := by
    rw [Iface.registry, h₂.users, h₂.next]
    decide
  have hfan := fan_out_iff h₂.registered hev [[.unregister (some 0) 8, .register none 9 true]]
  exact ⟨s₂, [1, 0], _, _, _, hreached, h₂.registered, rfl, hev, hfan.mpr hspares⟩

/-- Two users; the first unregisters the second, whose node is read afterwards. -/
theorem fan_out_next :
    ¬ ∀ s us, Registered s us → ∀ buf h, Recognised buf h → ∀ scripts : Scripts,
      Delivered s us (wpaEvent s buf h scripts).1 := by
  intro hall
  obtain ⟨s₁, e₁, h₁⟩ := run_spec rep_fresh (.register (some 0) 7 true)
  obtain ⟨s₂, e₂, h₂⟩ := run_spec h₁ (.register (some 0) 8 true)
  have hev : Recognised ⟨str "<3>P2P-FIND-STOPPED", by decide⟩ (.fresh []) :=
    ⟨_, _, rfl, by decide⟩
  have hdel := hall s₂ [1, 0] h₂.registered _ _ hev [[.unregister (some 0) 7]]
  have hnot : ¬ Registry.Spares [1, 0] (s₂.registry [1, 0]) [[.unregister (some 0) 7]] := by
    rw [Iface.registry, h₂.users, h₂.next]
    decide
  rw [wpaEvent_recognised hev, (forEachUser_spec h₂.registered _).2 hnot] at hdel
  exact hdel

end OpenWfd.P2pd
