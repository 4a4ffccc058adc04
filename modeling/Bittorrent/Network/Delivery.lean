import Bittorrent.Lib.Pipeline
import Bittorrent.Network.Routing

/-!
# What the network does to packets

The tables lead a packet from router to router (`way`), each one link nearer to its destination, so the queues
that the packets of one source for one destination pass are a row (`stage`) and no other packets of theirs are
anywhere else. Read from its end, that row holds them in the order in which they entered. `Carried` says so of
the states between events and `InHand` of those in which a router has a packet and has to do something with
it: `recv` delivers it, drops it or puts it in the next queue of the row, and never finds no queue.

The accounts are kept one flow at a time. For a source and a destination, `between` reads the row of queues
from its far end, and `Accounts` says that what has come out, followed by what is inside, is what went in
without what was dropped. An event takes one packet in hand, from outside or from the head of a queue
(`Carried.enter`, `Carried.leave`), and puts it somewhere: out, away, or to the end of the next queue
(`InHand.recv`). Only the flow of that packet changes, and the others do not see the write
(`between_write`). That the packet's router has a queue for it is where the tables come in: it waits for a
link of the way, and at the end of that link is the next router of the same way (`way_next`).
-/

namespace Bittorrent

open SimpleGraph

variable {t : Topology} {tables : Nat → Nat → Option Nat} {src dest v w i k : Nat} {pkt : List UInt8} {h h' : Hupsim}
  {log l : List HupsimAction}

/-- Every node is at a router. -/
def Topology.NodesAtRouters (t : Topology) : Prop := ∀ n ∈ t.nodes, n.node ∈ t.routers

theorem Topology.NodesAtRouters.destNode (hnodes : t.NodesAtRouters) (hdest : destNode t pkt = some dest) :
    dest ∈ t.routers := by
  unfold Bittorrent.destNode Topology.node at hdest
  obtain ⟨n, hfind, rfl⟩ := Option.map_eq_some_iff.mp hdest
  exact hnodes n (List.mem_reverse.mp (List.mem_of_find?_eq_some hfind))

/-- Every line has a rate of a byte a second at least. -/
def Topology.Rated (t : Topology) : Prop := ∀ l ∈ t.topo, 8 ≤ l.rate

theorem Topology.Rated.rate (hrated : t.Rated) (hadj : t.graph.Adj v w) : t.rate v w ≠ 0 := by
  obtain ⟨-, l, hl, hjoins⟩ := hadj
  obtain ⟨l', hl'⟩ : ∃ l', t.line v w = some l' :=
    Option.isSome_iff_exists.mp (List.find?_isSome.mpr ⟨l, List.mem_reverse.mpr hl, decide_eq_true hjoins⟩)
  have hrate := hrated l' (List.mem_reverse.mp (List.mem_of_find?_eq_some hl'))
  simp only [Topology.rate, hl']
  omega

/-! ## The way of a packet -/

/-- The `i`-th router on the way to `dest`. -/
def way (tables : Nat → Nat → Option Nat) (src dest : Nat) : Nat → Nat
  | 0 => src
  | i + 1 => (tables (way tables src dest i) dest).getD dest

section

variable (hconn : t.Connected) (hright : RoutesRight t tables) (hsrc : src ∈ t.routers) (hdest : dest ∈ t.routers)

include hright hsrc hdest

theorem way_dist (hi : i ≤ t.graph.dist src dest) :
    way tables src dest i ∈ t.routers ∧ t.graph.dist (way tables src dest i) dest + i = t.graph.dist src dest := by
  induction i with
  | zero => exact ⟨hsrc, rfl⟩
  | succ i ih =>
    obtain ⟨hrouter, hdist⟩ := ih (Nat.le_of_succ_le hi)
    have hne : dest ≠ way tables src dest i := by
      intro heq
      rw [← heq, dist_self] at hdist
      omega
    obtain ⟨next, htable, hadj, hnext⟩ := hright _ hrouter dest hdest hne
    rw [way, htable]
    refine ⟨Topology.adj_router hadj, ?_⟩
    simp only [Option.getD_some]
    omega

theorem way_next (hi : i < t.graph.dist src dest) :
    way tables src dest i ≠ dest ∧ tables (way tables src dest i) dest = some (way tables src dest (i + 1)) ∧
      t.graph.Adj (way tables src dest i) (way tables src dest (i + 1)) := by
  obtain ⟨hrouter, hdist⟩ := way_dist hright hsrc hdest (Nat.le_of_lt hi)
  have hne : dest ≠ way tables src dest i := by
    intro heq
    rw [← heq, dist_self] at hdist
    omega
  obtain ⟨next, htable, hadj, -⟩ := hright _ hrouter dest hdest hne
  have hway : way tables src dest (i + 1) = next := by
    rw [way, htable]
    rfl
  rw [hway]
  exact ⟨hne.symm, htable, hadj⟩

include hconn in
theorem way_end : way tables src dest (t.graph.dist src dest) = dest := by
  obtain ⟨hrouter, hdist⟩ := way_dist hright hsrc hdest le_rfl
  exact (hconn.reachable _ hrouter dest hdest).dist_eq_zero_iff.mp (by omega)

theorem way_injective (hi : i ≤ t.graph.dist src dest) (hk : k ≤ t.graph.dist src dest)
    (heq : way tables src dest i = way tables src dest k) : i = k := by
  have hfirst := (way_dist hright hsrc hdest hi).2
  have hsecond := (way_dist hright hsrc hdest hk).2
  rw [heq] at hfirst
  omega

include hconn in
theorem way_from (hi : i ≤ t.graph.dist src dest) : t.graph.dist src (way tables src dest i) = i := by
  obtain ⟨hrouter, hdist⟩ := way_dist hright hsrc hdest hi
  have hle : ∀ j ≤ i, t.graph.dist src (way tables src dest j) ≤ j := by
    intro j hj
    induction j with
    | zero => exact dist_self.le
    | succ j ih =>
      have hreach := hconn.reachable src hsrc _ (way_dist hright hsrc hdest (show j ≤ _ by omega)).1
      have hstep := dist_le_succ hreach (way_next hright hsrc hdest (show j < _ by omega)).2.2
      have hbefore := ih (by omega)
      omega
  have htriangle := (hconn.reachable src hsrc _ hrouter).dist_triangle_left dest
  have hlast := hle i le_rfl
  omega

end

/-! ## The packets of a source for a destination -/

/-- The packets from one router to another. -/
def OfFlow (t : Topology) (src dest : Nat) (pkt : List UInt8) : Bool :=
  sourceNode pkt = src ∧ destNode t pkt = some dest

namespace HupsimAction

/-- The packets that an action is about, if it is of one kind. -/
def entering : HupsimAction → Option (List UInt8)
  | .entered _ pkt => some pkt
  | _ => none

def leaving : HupsimAction → Option (List UInt8)
  | .delivered _ pkt => some pkt
  | _ => none

def lost : HupsimAction → Option (List UInt8)
  | .dropped _ pkt => some pkt
  | _ => none

end HupsimAction

open HupsimAction (entering leaving lost)

/-- The packets of a log that some actions are about, of those from `src` for `dest`. -/
def logged (act : HupsimAction → Option (List UInt8)) (t : Topology) (src dest : Nat) (log : List HupsimAction) :
    List (List UInt8) :=
  (log.filterMap act).filter (OfFlow t src dest)

theorem logged_append {act : HupsimAction → Option (List UInt8)} :
    logged act t src dest (log ++ l) = logged act t src dest log ++ logged act t src dest l := by
  rw [logged, List.filterMap_append, List.filter_append]
  rfl

theorem recv_entering (hrecv : h.recv t tables v pkt = .ok (h', l)) : l.filterMap entering = [] := by
  unfold Hupsim.recv at hrecv
  split at hrecv
  · cases hrecv
    rfl
  · split_ifs at hrecv
    · cases hrecv
      rfl
    · split at hrecv
      · cases hrecv
      · simp only [Hupsim.enQ] at hrecv
        split_ifs at hrecv
        · cases hrecv
          rfl
        · cases hrecv
          rfl

/-- What waits at the `i`-th router of the way. -/
def stage (t : Topology) (tables : Nat → Nat → Option Nat) (src dest : Nat) (h : Hupsim) (i : Nat) : List (List UInt8) :=
  (h.queue (way tables src dest i) (way tables src dest (i + 1))).filter (OfFlow t src dest)

/-- What is in the network between the `i`-th and the `k`-th router of the way, what is farther first. -/
def between (t : Topology) (tables : Nat → Nat → Option Nat) (src dest : Nat) (h : Hupsim) (i k : Nat) :
    List (List UInt8) :=
  content (stage t tables src dest h) i k

/-- What has come out and what is inside is what went in, in that order, without what was dropped. -/
structure Accounts (t : Topology) (src dest : Nat) (log : List HupsimAction) (inside : List (List UInt8)) : Prop where
  order : (logged leaving t src dest log ++ inside).Sublist (logged entering t src dest log)
  count : (logged leaving t src dest log).length + inside.length + (logged lost t src dest log).length =
    (logged entering t src dest log).length

/-- A packet waits for a link of the way from its source to its destination. -/
def OnItsWay (t : Topology) (tables : Nat → Nat → Option Nat) (pkt : List UInt8) (v w : Nat) : Prop :=
  sourceNode pkt ∈ t.routers ∧ ∃ dest i, destNode t pkt = some dest ∧ i < t.graph.dist (sourceNode pkt) dest ∧
    v = way tables (sourceNode pkt) dest i ∧ w = way tables (sourceNode pkt) dest (i + 1)

/-- The queues and what has been delivered, whatever else is in hand. -/
structure Settled (t : Topology) (tables : Nat → Nat → Option Nat) (h : Hupsim) (log : List HupsimAction) : Prop where
  placed : ∀ v w, ∀ pkt ∈ h.queue v w, OnItsWay t tables pkt v w
  bounded : ∀ v w, (h.queue v w).length ≤ t.queueMax v w
  arrived : ∀ v pkt, .delivered v pkt ∈ log → destNode t pkt = some v

/-- The invariant between two events. -/
structure Carried (t : Topology) (tables : Nat → Nat → Option Nat) (h : Hupsim) (log : List HupsimAction) : Prop
    extends Settled t tables h log where
  accounts : ∀ src ∈ t.routers, ∀ dest ∈ t.routers,
    Accounts t src dest log (between t tables src dest h 0 (t.graph.dist src dest))

/-- Router `v` has taken `pkt` and has yet to say what becomes of it. -/
structure InHand (t : Topology) (tables : Nat → Nat → Option Nat) (h : Hupsim) (log : List HupsimAction)
    (v : Nat) (pkt : List UInt8) : Prop extends Settled t tables h log where
  source : sourceNode pkt ∈ t.routers
  others : ∀ src ∈ t.routers, ∀ dest ∈ t.routers, OfFlow t src dest pkt = false →
    Accounts t src dest log (between t tables src dest h 0 (t.graph.dist src dest))
  own : ∀ dest, destNode t pkt = some dest → ∃ i ≤ t.graph.dist (sourceNode pkt) dest,
    v = way tables (sourceNode pkt) dest i ∧ Accounts t (sourceNode pkt) dest log
      (between t tables (sourceNode pkt) dest h i (t.graph.dist (sourceNode pkt) dest) ++
        pkt :: between t tables (sourceNode pkt) dest h 0 i)

/-! ## Keeping account -/

namespace Accounts

variable {inside front back : List (List UInt8)}

theorem other (h : Accounts t src dest log inside) (hother : OfFlow t src dest pkt = false) (a : HupsimAction)
    (ha : a = .entered v pkt ∨ a = .delivered v pkt ∨ a = .dropped v pkt) : Accounts t src dest (log ++ [a]) inside := by
  have hnone : logged entering t src dest [a] = [] ∧ logged leaving t src dest [a] = [] ∧
      logged lost t src dest [a] = [] := by
    rcases ha with rfl | rfl | rfl <;> simp [logged, entering, leaving, lost, hother]
  obtain ⟨hentering, hleaving, hlost⟩ := hnone
  refine ⟨?_, ?_⟩
  · rw [logged_append, logged_append, hentering, hleaving, List.append_nil, List.append_nil]
    exact h.order
  · rw [logged_append, logged_append, logged_append, hentering, hleaving, hlost, List.append_nil, List.append_nil,
      List.append_nil]
    exact h.count

variable (hflow : OfFlow t src dest pkt = true)

include hflow

theorem enter (h : Accounts t src dest log inside) : Accounts t src dest (log ++ [.entered v pkt]) (inside ++ [pkt]) := by
  obtain ⟨horder, hcount⟩ := h
  have hentering : logged entering t src dest [.entered v pkt] = [pkt] := by simp [logged, entering, hflow]
  have hleaving : logged leaving t src dest [.entered v pkt] = [] := rfl
  have hlost : logged lost t src dest [.entered v pkt] = [] := rfl
  refine ⟨?_, ?_⟩
  · rw [logged_append, logged_append, hentering, hleaving, List.append_nil, ← List.append_assoc]
    exact horder.append (List.Sublist.refl _)
  · simp only [logged_append, hentering, hleaving, hlost, List.length_append, List.length_nil, List.length_singleton]
    omega

theorem deliver (h : Accounts t src dest log (pkt :: inside)) : Accounts t src dest (log ++ [.delivered v pkt]) inside := by
  obtain ⟨horder, hcount⟩ := h
  have hentering : logged entering t src dest [.delivered v pkt] = [] := rfl
  have hleaving : logged leaving t src dest [.delivered v pkt] = [pkt] := by simp [logged, leaving, hflow]
  have hlost : logged lost t src dest [.delivered v pkt] = [] := rfl
  refine ⟨?_, ?_⟩
  · rw [logged_append, logged_append, hentering, hleaving, List.append_nil, List.append_assoc]
    exact horder
  · simp only [logged_append, hentering, hleaving, hlost, List.length_append, List.length_nil,
      List.length_cons] at hcount ⊢
    omega

theorem drop (h : Accounts t src dest log (front ++ pkt :: back)) :
    Accounts t src dest (log ++ [.dropped v pkt]) (front ++ back) := by
  obtain ⟨horder, hcount⟩ := h
  have hentering : logged entering t src dest [.dropped v pkt] = [] := rfl
  have hleaving : logged leaving t src dest [.dropped v pkt] = [] := rfl
  have hlost : logged lost t src dest [.dropped v pkt] = [pkt] := by simp [logged, lost, hflow]
  refine ⟨?_, ?_⟩
  · rw [logged_append, logged_append, hentering, hleaving, List.append_nil, List.append_nil]
    have hless : (front ++ back).Sublist (front ++ pkt :: back) :=
      (List.Sublist.refl front).append (List.sublist_cons_self pkt back)
    exact ((List.Sublist.refl _).append hless).trans horder
  · simp only [logged_append, hentering, hleaving, hlost, List.length_append, List.length_nil,
      List.length_cons] at hcount ⊢
    omega

end Accounts

/-! ## Queues -/

theorem write_queue (h : Hupsim) (v w : Nat) (queue : List (List UInt8)) (v' w' : Nat) :
    (h.write v w queue).queue v' w' = if v' = v ∧ w' = w then queue else h.queue v' w' := by
  change Function.update h.queue v (Function.update (h.queue v) w queue) v' w' = _
  by_cases hv : v' = v
  · subst hv
    rw [Function.update_self]
    by_cases hw : w' = w
    · subst hw
      rw [Function.update_self, if_pos ⟨rfl, rfl⟩]
    · rw [Function.update_of_ne hw, if_neg fun hboth => hw hboth.2]
  · rw [Function.update_of_ne hv, if_neg fun hboth => hv hboth.1]

theorem between_write {queue : List (List UInt8)}
    (hsame : queue.filter (OfFlow t src dest) = (h.queue v w).filter (OfFlow t src dest)) :
    between t tables src dest (h.write v w queue) i k = between t tables src dest h i k := by
  refine content_congr fun j _ _ => ?_
  rw [stage, write_queue]
  split_ifs with hboth
  · rw [hsame, stage, hboth.1, hboth.2]
  · rfl

theorem ofFlow_iff : OfFlow t src dest pkt = true ↔ sourceNode pkt = src ∧ destNode t pkt = some dest := by
  rw [OfFlow, decide_eq_true_iff]

/-! ## One router after another -/

section

variable {queue : List (List UInt8)} (hright : RoutesRight t tables) (hsrc : src ∈ t.routers) (hdest : dest ∈ t.routers)
  (hi : i < t.graph.dist src dest)

include hright hsrc hdest hi

theorem stage_write (hk : k < t.graph.dist src dest) (hne : k ≠ i) :
    stage t tables src dest (h.write (way tables src dest i) (way tables src dest (i + 1)) queue) k =
      stage t tables src dest h k := by
  rw [stage, write_queue, if_neg, stage]
  exact fun hboth => hne (way_injective hright hsrc hdest (Nat.le_of_lt hk) (Nat.le_of_lt hi) hboth.1)

theorem between_push (hflow : OfFlow t src dest pkt = true) :
    between t tables src dest (h.write (way tables src dest i) (way tables src dest (i + 1))
        (h.queue (way tables src dest i) (way tables src dest (i + 1)) ++ [pkt])) 0 (t.graph.dist src dest) =
      between t tables src dest h i (t.graph.dist src dest) ++ pkt :: between t tables src dest h 0 i := by
  refine content_push hi ?_ fun k hk hne => stage_write hright hsrc hdest hi hk hne
  rw [stage, write_queue, if_pos ⟨rfl, rfl⟩, List.filter_append, stage]
  simp [hflow]

theorem between_pop (hflow : OfFlow t src dest pkt = true)
    (hhead : h.queue (way tables src dest i) (way tables src dest (i + 1)) = pkt :: queue) :
    between t tables src dest h 0 (t.graph.dist src dest) =
      between t tables src dest (h.write (way tables src dest i) (way tables src dest (i + 1)) queue) (i + 1)
          (t.graph.dist src dest) ++
        pkt :: between t tables src dest (h.write (way tables src dest i) (way tables src dest (i + 1)) queue)
          0 (i + 1) := by
  refine content_pop hi ?_ fun k hk hne => stage_write hright hsrc hdest hi hk hne
  rw [stage, stage, hhead, write_queue, if_pos ⟨rfl, rfl⟩, List.filter_cons_of_pos hflow]

end

theorem forall_flows {P : Nat → Nat → Prop} (hdest : destNode t pkt = some dest) (hown : P (sourceNode pkt) dest)
    (hothers : ∀ src ∈ t.routers, ∀ dest ∈ t.routers, OfFlow t src dest pkt = false → P src dest) :
    ∀ src ∈ t.routers, ∀ dest ∈ t.routers, P src dest := by
  intro src hsrc dest' hdest'
  rcases hof : OfFlow t src dest' pkt with _ | _
  · exact hothers src hsrc dest' hdest' hof
  · obtain ⟨rfl, heq⟩ := ofFlow_iff.mp hof
    obtain rfl := Option.some.inj (hdest.symm.trans heq)
    exact hown

namespace Settled

theorem dropped (hsettled : Settled t tables h log) : Settled t tables h (log ++ [.dropped v pkt]) := by
  refine ⟨hsettled.placed, hsettled.bounded, fun v' pkt' hmem => hsettled.arrived v' pkt' ?_⟩
  simpa using hmem

theorem entered (hsettled : Settled t tables h log) : Settled t tables h (log ++ [.entered v pkt]) := by
  refine ⟨hsettled.placed, hsettled.bounded, fun v' pkt' hmem => hsettled.arrived v' pkt' ?_⟩
  simpa using hmem

theorem delivered (hsettled : Settled t tables h log) (hdest : destNode t pkt = some v) :
    Settled t tables h (log ++ [.delivered v pkt]) := by
  refine ⟨hsettled.placed, hsettled.bounded, fun v' pkt' hmem => ?_⟩
  rcases List.mem_append.mp hmem with hmem | hmem
  · exact hsettled.arrived v' pkt' hmem
  · obtain ⟨rfl, rfl⟩ := HupsimAction.delivered.inj (List.mem_singleton.mp hmem)
    exact hdest

theorem write {queue : List (List UInt8)} (hsettled : Settled t tables h log)
    (hway : ∀ pkt ∈ queue, OnItsWay t tables pkt v w) (hmax : queue.length ≤ t.queueMax v w) :
    Settled t tables (h.write v w queue) log := by
  refine ⟨fun v' w' pkt' hmem => ?_, fun v' w' => ?_, hsettled.arrived⟩
  · rw [write_queue] at hmem
    split_ifs at hmem with hboth
    · obtain ⟨rfl, rfl⟩ := hboth
      exact hway pkt' hmem
    · exact hsettled.placed v' w' pkt' hmem
  · rw [write_queue]
    split_ifs with hboth
    · obtain ⟨rfl, rfl⟩ := hboth
      exact hmax
    · exact hsettled.bounded v' w'

end Settled

namespace InHand

theorem drop (hhand : InHand t tables h log v pkt) : Carried t tables h (log ++ [.dropped v pkt]) := by
  refine ⟨hhand.toSettled.dropped, ?_⟩
  have hothers : ∀ src ∈ t.routers, ∀ dest ∈ t.routers, OfFlow t src dest pkt = false →
      Accounts t src dest (log ++ [.dropped v pkt]) (between t tables src dest h 0 (t.graph.dist src dest)) :=
    fun src hsrc dest hdest hother => (hhand.others src hsrc dest hdest hother).other hother _ (Or.inr (Or.inr rfl))
  rcases hdest : destNode t pkt with _ | dest
  · exact fun src hsrc dest hdest' => hothers src hsrc dest hdest' (by simp [OfFlow, hdest])
  · refine forall_flows hdest ?_ hothers
    obtain ⟨i, hi, -, haccounts⟩ := hhand.own dest hdest
    rw [between, content_split _ (Nat.zero_le i) hi]
    exact haccounts.drop (ofFlow_iff.mpr ⟨rfl, hdest⟩)

variable (hright : RoutesRight t tables) (hdest : dest ∈ t.routers) (hnode : destNode t pkt = some dest)

include hright hdest hnode

theorem deliver (hconn : t.Connected) (hhand : InHand t tables h log dest pkt) :
    Carried t tables h (log ++ [.delivered dest pkt]) := by
  refine ⟨hhand.toSettled.delivered hnode, forall_flows hnode ?_ fun src hsrc dest hdest hother =>
    (hhand.others src hsrc dest hdest hother).other hother _ (Or.inr (Or.inl rfl))⟩
  obtain ⟨i, hi, hv, haccounts⟩ := hhand.own dest hnode
  have hend := way_end hconn hright hhand.source hdest
  obtain rfl := way_injective hright hhand.source hdest hi le_rfl (hv.symm.trans hend.symm)
  rw [between, content_self, List.nil_append] at haccounts
  exact haccounts.deliver (ofFlow_iff.mpr ⟨rfl, hnode⟩)

theorem forward (hconn : t.Connected) (hhand : InHand t tables h log v pkt) (hne : dest ≠ v) :
    ∃ w, tables v dest = some w ∧ t.graph.Adj v w ∧
      ((h.queue v w).length < t.queueMax v w → Carried t tables (h.write v w (h.queue v w ++ [pkt])) log) := by
  obtain ⟨i, hi, hv, haccounts⟩ := hhand.own dest hnode
  have hi' : i < t.graph.dist (sourceNode pkt) dest := by
    refine lt_of_le_of_ne hi fun heq => hne ?_
    rw [hv, heq, way_end hconn hright hhand.source hdest]
  obtain ⟨-, htable, hadj⟩ := way_next hright hhand.source hdest hi'
  subst hv
  refine ⟨_, htable, hadj, fun hmax => ⟨hhand.toSettled.write ?_ (by simpa using hmax), forall_flows hnode ?_ ?_⟩⟩
  · intro pkt' hmem
    rcases List.mem_append.mp hmem with hmem | hmem
    · exact hhand.placed _ _ pkt' hmem
    · obtain rfl := List.mem_singleton.mp hmem
      exact ⟨hhand.source, dest, i, hnode, hi', rfl, rfl⟩
  · rw [between_push hright hhand.source hdest hi' (ofFlow_iff.mpr ⟨rfl, hnode⟩)]
    exact haccounts
  · intro src hsrc dest' hdest' hother
    rw [between_write (by simp [hother])]
    exact hhand.others src hsrc dest' hdest' hother

end InHand

/-! ## Events -/

theorem Carried.enter (hnodes : t.NodesAtRouters) (hcarried : Carried t tables h log)
    (hsource : sourceNode pkt ∈ t.routers) :
    InHand t tables h (log ++ [.entered (sourceNode pkt) pkt]) (sourceNode pkt) pkt := by
  refine ⟨hcarried.toSettled.entered, hsource, fun src hsrc dest hdest hother => ?_, fun dest hnode => ?_⟩
  · exact (hcarried.accounts src hsrc dest hdest).other hother _ (Or.inl rfl)
  · refine ⟨0, Nat.zero_le _, rfl, ?_⟩
    have haccounts := hcarried.accounts _ hsource dest (hnodes.destNode hnode)
    rw [between, between, content_self]
    exact haccounts.enter (ofFlow_iff.mpr ⟨rfl, hnode⟩)

theorem Carried.leave {queue : List (List UInt8)} (hnodes : t.NodesAtRouters) (hright : RoutesRight t tables)
    (hcarried : Carried t tables h log) (hhead : h.queue v w = pkt :: queue) :
    InHand t tables (h.write v w queue) log w pkt := by
  have hmem : ∀ pkt' ∈ queue, pkt' ∈ h.queue v w := fun pkt' hmem => hhead ▸ List.mem_cons_of_mem pkt hmem
  have hmax : queue.length ≤ t.queueMax v w := by
    have hbounded := hcarried.bounded v w
    rw [hhead, List.length_cons] at hbounded
    omega
  obtain ⟨hsource, dest, i, hnode, hi, rfl, rfl⟩ := hcarried.placed v w pkt (hhead ▸ List.mem_cons_self)
  have hdest := hnodes.destNode hnode
  refine ⟨hcarried.toSettled.write (fun pkt' hpkt' => hcarried.placed _ _ pkt' (hmem pkt' hpkt')) hmax, hsource,
    fun src hsrc dest' hdest' hother => ?_, fun dest' hnode' => ?_⟩
  · rw [between_write (by rw [hhead, List.filter_cons_of_neg (by simp [hother])])]
    exact hcarried.accounts src hsrc dest' hdest'
  · obtain rfl := Option.some.inj (hnode.symm.trans hnode')
    refine ⟨i + 1, hi, rfl, ?_⟩
    rw [← between_pop hright hsource hdest hi (ofFlow_iff.mpr ⟨rfl, hnode⟩) hhead]
    exact hcarried.accounts _ hsource dest hdest

theorem carried_init : Carried t tables initHupsim [] := by
  refine ⟨⟨fun v w pkt hmem => absurd hmem List.not_mem_nil, fun v w => Nat.zero_le _,
    fun v pkt hmem => absurd hmem List.not_mem_nil⟩, fun src _ dest _ => ?_⟩
  have hempty : between t tables src dest initHupsim 0 (t.graph.dist src dest) = [] := by
    simp [between, content, stage, initHupsim]
  rw [hempty]
  exact ⟨List.Sublist.refl _, rfl⟩

section

variable (hconn : t.Connected) (hnodes : t.NodesAtRouters) (hright : RoutesRight t tables)

include hconn hnodes hright

theorem InHand.recv (hhand : InHand t tables h log v pkt) (hrecv : h.recv t tables v pkt = .ok (h', l)) :
    Carried t tables h' (log ++ l) := by
  unfold Hupsim.recv at hrecv
  split at hrecv
  · cases hrecv
    exact hhand.drop
  · rename_i dest hnode
    have hdest := hnodes.destNode hnode
    split_ifs at hrecv with hlast
    · subst hlast
      cases hrecv
      exact hhand.deliver hright hdest hnode hconn
    · obtain ⟨w, htable, -, hqueued⟩ := hhand.forward hright hdest hnode hconn hlast
      simp only [htable, Hupsim.enQ] at hrecv
      split_ifs at hrecv with hfull
      · cases hrecv
        exact hhand.drop
      · cases hrecv
        rw [List.append_nil]
        exact hqueued (not_le.mp hfull)

theorem InHand.recv_ok (hrated : t.Rated) (hhand : InHand t tables h log v pkt) :
    ∃ r, h.recv t tables v pkt = .ok r := by
  rcases hnode : destNode t pkt with _ | dest
  · exact ⟨(h, [.dropped v pkt]), by rw [Hupsim.recv, hnode]⟩
  · by_cases hlast : dest = v
    · exact ⟨(h, [.delivered v pkt]), by simp only [Hupsim.recv, hnode, if_pos hlast]⟩
    · obtain ⟨w, htable, hadj, -⟩ := hhand.forward hright (hnodes.destNode hnode) hnode hconn hlast
      simp only [Hupsim.recv, hnode, if_neg hlast, htable, Hupsim.enQ, if_neg (hrated.rate hadj)]
      split_ifs
      · exact ⟨_, rfl⟩
      · exact ⟨_, rfl⟩

theorem Carried.step {e : HupsimEvent} (hcarried : Carried t tables h log)
    (hstep : (hupsimMachine t tables).step e h = .ok (h', l)) : Carried t tables h' (log ++ l) := by
  have hsame : Carried t tables h (log ++ []) := by rwa [List.append_nil]
  cases e with
  | inbound datagram =>
    by_cases hsource : sourceNode (datagram.take packetSizeMax) ∈ t.routers
    · simp only [hupsimMachine, if_pos hsource] at hstep
      split at hstep
      · cases hstep
      · rename_i h₁ l₁ hrecv
        cases hstep
        have hcarried' := (hcarried.enter hnodes hsource).recv hconn hnodes hright hrecv
        rwa [List.append_assoc] at hcarried'
    · simp only [hupsimMachine, if_neg hsource] at hstep
      cases hstep
      exact hsame
  | release v w =>
    rcases hqueue : h.queue v w with _ | ⟨pkt, queue⟩
    · simp only [hupsimMachine, hqueue] at hstep
      cases hstep
      exact hsame
    · simp only [hupsimMachine, hqueue] at hstep
      exact (hcarried.leave hnodes hright hqueue).recv hconn hnodes hright hstep

theorem Carried.step_ok (hrated : t.Rated) (hcarried : Carried t tables h log) (e : HupsimEvent) :
    ∃ r, (hupsimMachine t tables).step e h = .ok r := by
  cases e with
  | inbound datagram =>
    by_cases hsource : sourceNode (datagram.take packetSizeMax) ∈ t.routers
    · obtain ⟨r, hrecv⟩ := (hcarried.enter hnodes hsource).recv_ok hconn hnodes hright hrated
      exact ⟨(r.1, .entered (sourceNode (datagram.take packetSizeMax)) (datagram.take packetSizeMax) :: r.2),
        by simp only [hupsimMachine, if_pos hsource, hrecv]⟩
    · exact ⟨(h, []), by simp only [hupsimMachine, if_neg hsource]⟩
  | release v w =>
    rcases hqueue : h.queue v w with _ | ⟨pkt, queue⟩
    · exact ⟨(h, []), by simp only [hupsimMachine, hqueue]⟩
    · obtain ⟨r, hrecv⟩ := (hcarried.leave hnodes hright hqueue).recv_ok hconn hnodes hright hrated
      exact ⟨r, by simp only [hupsimMachine, hqueue, hrecv]⟩

theorem carried (hreach : (hupsimMachine t tables).Reach (· = initHupsim) Machine.Any h log) :
    Carried t tables h log :=
  hreach.invariant (fun _ hs => hs ▸ carried_init) fun _ _ _ _ _ _ hcarried _ hstep =>
    hcarried.step hconn hnodes hright hstep

end

/-! ## Results -/

/-- Two routers with a link between them. -/
def pairTopology : Topology := ⟨[⟨1, 2, 8000, 10⟩], [⟨1, localhost, 1⟩, ⟨2, localhost, 2⟩]⟩

/-- Three routers in a row. -/
def rowTopology : Topology :=
  ⟨[⟨1, 2, 8000, 10⟩, ⟨2, 3, 8000, 10⟩], [⟨1, localhost, 1⟩, ⟨2, localhost, 2⟩, ⟨3, localhost, 3⟩]⟩

theorem Topology.connected_star (c : Nat) (hstar : ∀ v ∈ t.routers, v ≠ c → ∃ l ∈ t.topo, l.Joins c v)
    (hrouters : t.routers.length ≤ routeInfinity) : t.Connected := by
  have hcenter : ∀ v ∈ t.routers, t.graph.Reachable c v := by
    intro v hv
    by_cases hne : v = c
    · exact hne ▸ Reachable.rfl
    · obtain ⟨l, hl, hjoins⟩ := hstar v hv hne
      have hadj : t.graph.Adj c v := ⟨Ne.symm hne, l, hl, hjoins⟩
      exact hadj.reachable
  exact ⟨fun v hv w hw => (hcenter v hv).symm.trans (hcenter w hw), hrouters⟩

theorem pairTopology_connected : pairTopology.Connected := Topology.connected_star 1 (by decide) (by decide)

theorem rowTopology_connected : rowTopology.Connected := Topology.connected_star 2 (by decide) (by decide)

/-- In a connected topology no search dies, and the tables lead from every router to every other one over as
many links as a shortest path has. -/
theorem routing_shortest (hconn : t.Connected) :
    ∃ tables, routingTables t = .ok tables ∧ ∀ src ∈ t.routers, ∀ dest ∈ t.routers,
      way tables src dest (t.graph.dist src dest) = dest ∧
      ∀ i < t.graph.dist src dest, way tables src dest i ≠ dest ∧
        tables (way tables src dest i) dest = some (way tables src dest (i + 1)) ∧
        t.graph.Adj (way tables src dest i) (way tables src dest (i + 1)) := by
  obtain ⟨tables, htables, hright⟩ := routingTables_ok hconn
  exact ⟨tables, htables, fun src hsrc dest hdest =>
    ⟨way_end hconn hright hsrc hdest, fun i hi => way_next hright hsrc hdest hi⟩⟩

/-- From router 1 to router 3 over router 2. -/
theorem routing_shortest_row :
    ∃ tables, routingTables rowTopology = .ok tables ∧ ∀ src ∈ rowTopology.routers, ∀ dest ∈ rowTopology.routers,
      way tables src dest (rowTopology.graph.dist src dest) = dest ∧
      ∀ i < rowTopology.graph.dist src dest, way tables src dest i ≠ dest ∧
        tables (way tables src dest i) dest = some (way tables src dest (i + 1)) ∧
        rowTopology.graph.Adj (way tables src dest i) (way tables src dest (i + 1)) :=
  routing_shortest rowTopology_connected

/-- Whatever enters and whenever it leaves its queues, the simulator does not die, no queue is too long and
every packet in one is on a shortest path from its source to its destination. A packet comes out at its
destination only, and for each source and destination what came out and what is inside is what went in,
unchanged and in that order, but for the packets that were dropped. -/
theorem network_fifo (hconn : t.Connected) (hrated : t.Rated) (hnodes : t.NodesAtRouters)
    (htables : routingTables t = .ok tables)
    (hreach : (hupsimMachine t tables).Reach (· = initHupsim) Machine.Any h log) :
    (∀ e, ∃ r, (hupsimMachine t tables).step e h = .ok r) ∧
    (∀ v w, (h.queue v w).length ≤ t.queueMax v w ∧ ∀ pkt ∈ h.queue v w, ∃ dest, destNode t pkt = some dest ∧
      t.graph.Adj v w ∧
      t.graph.dist (sourceNode pkt) v + 1 + t.graph.dist w dest = t.graph.dist (sourceNode pkt) dest) ∧
    (∀ v pkt, .delivered v pkt ∈ log → destNode t pkt = some v) ∧
    ∀ src ∈ t.routers, ∀ dest ∈ t.routers,
      Accounts t src dest log (between t tables src dest h 0 (t.graph.dist src dest)) := by
  obtain ⟨tables', htables', hright⟩ := routingTables_ok hconn
  obtain rfl := Except.ok.inj (htables'.symm.trans htables)
  have hcarried := carried hconn hnodes hright hreach
  refine ⟨hcarried.step_ok hconn hnodes hright hrated, fun v w => ⟨hcarried.bounded v w, fun pkt hmem => ?_⟩,
    hcarried.arrived, hcarried.accounts⟩
  · obtain ⟨hsource, dest, i, hnode, hi, rfl, rfl⟩ := hcarried.placed v w pkt hmem
    have hdest := hnodes.destNode hnode
    have hfrom := way_from hconn hright hsource hdest (Nat.le_of_lt hi)
    have hleft := (way_dist hright hsource hdest (show i + 1 ≤ t.graph.dist _ _ from hi)).2
    exact ⟨dest, hnode, (way_next hright hsource hdest hi).2.2, by omega⟩

/-- The tables of `pairTopology`. -/
def pairTables : Nat → Nat → Option Nat :=
  match routingTables pairTopology with
  | .ok tables => tables
  | .error _ => fun _ _ => none

/-- A packet of node 1 for node 2. -/
def pairPacket : List UInt8 := [0, 0, 0, 1, 0, 0, 0, 0, 127, 0, 0, 1, 0, 1, 0, 2, 5]

theorem pairTopology_nodes : pairTopology.NodesAtRouters := by
  unfold Topology.NodesAtRouters
  decide

theorem rowTopology_nodes : rowTopology.NodesAtRouters := by
  unfold Topology.NodesAtRouters
  decide

theorem rowTopology_rated : rowTopology.Rated := by
  unfold Topology.Rated
  decide

theorem pairPacket_run : (hupsimMachine pairTopology pairTables).Reach (· = initHupsim) Machine.Any
    (initHupsim.write 1 2 []) [.entered 1 pairPacket, .delivered 2 pairPacket] := by
  have hstart : (hupsimMachine pairTopology pairTables).Reach (· = initHupsim) Machine.Any initHupsim [] := .start rfl
  have hrun : (hupsimMachine pairTopology pairTables).run [.inbound pairPacket, .release 1 2] initHupsim =
      .ok ((initHupsim.write 1 2 [pairPacket]).write 1 2 [], [.entered 1 pairPacket, .delivered 2 pairPacket]) := rfl
  have htwice : (initHupsim.write 1 2 [pairPacket]).write 1 2 [] = initHupsim.write 1 2 [] := by simp [Hupsim.write]
  rw [htwice] at hrun
  exact hstart.runAny _ hrun

/-- The tables of `rowTopology`. -/
def rowTables : Nat → Nat → Option Nat :=
  match routingTables rowTopology with
  | .ok tables => tables
  | .error _ => fun _ _ => none

/-- A packet of node 1 for node 3. -/
def rowPacket : List UInt8 := [0, 0, 0, 1, 0, 0, 0, 0, 127, 0, 0, 1, 0, 1, 0, 3, 5]

/-- The packet goes over router 2. -/
theorem network_fifo_row : ∃ h, (hupsimMachine rowTopology rowTables).run
      [.inbound rowPacket, .release 1 2, .release 2 3] initHupsim =
        .ok (h, [.entered 1 rowPacket, .delivered 3 rowPacket]) ∧
    Accounts rowTopology 1 3 [.entered 1 rowPacket, .delivered 3 rowPacket]
      (between rowTopology rowTables 1 3 h 0 (rowTopology.graph.dist 1 3)) := by
  have hstart : (hupsimMachine rowTopology rowTables).Reach (· = initHupsim) Machine.Any initHupsim [] := .start rfl
  obtain ⟨h, hrun⟩ : ∃ h, (hupsimMachine rowTopology rowTables).run
      [.inbound rowPacket, .release 1 2, .release 2 3] initHupsim =
        .ok (h, [.entered 1 rowPacket, .delivered 3 rowPacket]) := ⟨_, rfl⟩
  have hreach := hstart.runAny _ hrun
  exact ⟨h, hrun, (network_fifo rowTopology_connected rowTopology_rated rowTopology_nodes rfl hreach).2.2.2
    1 (by decide) 3 (by decide)⟩

end Bittorrent
