import Bittorrent.Network.Delivery
import Mathlib.Algebra.BigOperators.Group.Finset.Basic

/-!
# The network drains

What a packet in a queue still has to go is known: the links that are left on its way (`toGo`), and the one it
waits for. All of this together (`load`) grows only when a packet enters, and every packet that leaves a queue
makes it less by one at least. So no packet is moved more often than there are links on a path, and with no
more packets entering the queues can be served in any order for as long as one of them holds a packet
(`Serves`): that ends, and then the network is empty.

The potential is a sum over the queues, so a write to one queue changes one term (`load_write`). A release
takes a packet with `m` links to go out of its term, and puts it back with `m - 1`, or not at all
(`release_load`, `recv_load`). Counted over a run this bounds the moves (`moves_le`); for a run without new
packets it makes every order of service end (`Carried.serve`, by induction over the events). When no release
is left every queue is empty, and `Accounts` with nothing inside is what is to be shown.
-/

namespace Bittorrent

open SimpleGraph
open HupsimAction (entering leaving lost)

variable {t : Topology} {tables : Nat → Nat → Option Nat} {src dest v w n : Nat} {pkt : List UInt8} {h h' : Hupsim}
  {log l : List HupsimAction}

/-! ## What is still to do -/

/-- The links from a router to where a packet is for. -/
noncomputable def toGo (t : Topology) (v : Nat) (pkt : List UInt8) : Nat :=
  (destNode t pkt).elim 0 fun dest => t.graph.dist v dest

/-- What the packets of the queue from `v` to `w` still have to go. -/
noncomputable def queueLoad (t : Topology) (w : Nat) (queue : List (List UInt8)) : Nat :=
  (queue.map fun pkt => toGo t w pkt + 1).sum

noncomputable def load (t : Topology) (h : Hupsim) : Nat :=
  ∑ v ∈ t.routers.toFinset, ∑ w ∈ t.routers.toFinset, queueLoad t w (h.queue v w)

theorem sum_change {ι : Type} [DecidableEq ι] {s : Finset ι} {f g : ι → Nat} {a : ι} (ha : a ∈ s)
    (hsame : ∀ b ∈ s, b ≠ a → g b = f b) : ∑ b ∈ s, g b + f a = ∑ b ∈ s, f b + g a := by
  have hrest : ∑ b ∈ s.erase a, g b = ∑ b ∈ s.erase a, f b :=
    Finset.sum_congr rfl fun b hb => hsame b (Finset.mem_of_mem_erase hb) (Finset.ne_of_mem_erase hb)
  rw [← Finset.sum_erase_add s g ha, ← Finset.sum_erase_add s f ha, hrest]
  omega

theorem load_write (queue : List (List UInt8)) (hv : v ∈ t.routers) (hw : w ∈ t.routers) :
    load t (h.write v w queue) + queueLoad t w (h.queue v w) = load t h + queueLoad t w queue := by
  have hrow : ∑ w' ∈ t.routers.toFinset, queueLoad t w' ((h.write v w queue).queue v w') + queueLoad t w (h.queue v w) =
      ∑ w' ∈ t.routers.toFinset, queueLoad t w' (h.queue v w') + queueLoad t w queue := by
    have hchange := sum_change (f := fun w' => queueLoad t w' (h.queue v w'))
      (g := fun w' => queueLoad t w' ((h.write v w queue).queue v w')) (List.mem_toFinset.mpr hw) fun w' _ hne => by
        rw [write_queue, if_neg fun hboth => hne hboth.2]
    rw [write_queue, if_pos ⟨rfl, rfl⟩] at hchange
    exact hchange
  have hrows := sum_change (f := fun v' => ∑ w' ∈ t.routers.toFinset, queueLoad t w' (h.queue v' w'))
    (g := fun v' => ∑ w' ∈ t.routers.toFinset, queueLoad t w' ((h.write v w queue).queue v' w'))
    (List.mem_toFinset.mpr hv) fun v' _ hne => Finset.sum_congr rfl fun w' _ => by
      rw [write_queue, if_neg fun hboth => hne hboth.1]
  simp only [load]
  omega

theorem toGo_some (hnode : destNode t pkt = some dest) : toGo t v pkt = t.graph.dist v dest := by
  rw [toGo, hnode]
  rfl

/-! ## Events -/

section

variable (hnodes : t.NodesAtRouters) (hright : RoutesRight t tables)

include hnodes hright

theorem recv_load {pkt : List UInt8} (hv : v ∈ t.routers) (hrecv : h.recv t tables v pkt = .ok (h', l)) :
    load t h' ≤ load t h + toGo t v pkt := by
  unfold Hupsim.recv at hrecv
  split at hrecv
  · cases hrecv
    exact Nat.le_add_right _ _
  · rename_i dest hnode
    split_ifs at hrecv with hlast
    · cases hrecv
      exact Nat.le_add_right _ _
    · obtain ⟨w, htable, hadj, hdist⟩ := hright v hv dest (hnodes.destNode hnode) hlast
      simp only [htable, Hupsim.enQ] at hrecv
      split_ifs at hrecv
      · cases hrecv
        exact Nat.le_add_right _ _
      · cases hrecv
        have hwrite := load_write (h := h) (h.queue v w ++ [pkt]) hv (Topology.adj_router hadj)
        have hqueue : queueLoad t w (h.queue v w ++ [pkt]) = queueLoad t w (h.queue v w) + (toGo t w pkt + 1) := by
          simp [queueLoad]
        rw [hqueue, toGo_some hnode] at hwrite
        rw [toGo_some hnode]
        omega

theorem release_load {queue : List (List UInt8)} (hcarried : Carried t tables h log) (hhead : h.queue v w = pkt :: queue)
    (hrecv : (h.write v w queue).recv t tables w pkt = .ok (h', l)) : load t h' + 1 ≤ load t h := by
  obtain ⟨hsource, dest, i, hnode, hi, hv, hw⟩ := hcarried.placed v w pkt (hhead ▸ List.mem_cons_self)
  have hdest := hnodes.destNode hnode
  have hv' : v ∈ t.routers := hv ▸ (way_dist hright hsource hdest (Nat.le_of_lt hi)).1
  have hw' : w ∈ t.routers := hw ▸ (way_dist hright hsource hdest hi).1
  have hafter := recv_load hnodes hright hw' hrecv
  have hwrite := load_write (h := h) queue hv' hw'
  have hqueue : queueLoad t w (h.queue v w) = toGo t w pkt + 1 + queueLoad t w queue := by
    rw [hhead]
    simp [queueLoad]
  omega

end

/-! ## Runs -/

/-- How many packets have left a queue. -/
def countMoves (n : Nat) (h : Hupsim) (e : HupsimEvent) (_ : List HupsimAction) (_ : Hupsim) : Nat :=
  match e with
  | .inbound _ => n
  | .release v w => if h.queue v w = [] then n else n + 1

theorem toGo_le (hconn : t.Connected) (hnodes : t.NodesAtRouters) (hv : v ∈ t.routers) :
    toGo t v pkt ≤ t.routers.length - 1 := by
  rcases hnode : destNode t pkt with _ | dest
  · rw [toGo, hnode]
    exact Nat.zero_le _
  · have hlt := Topology.dist_lt hv (hconn.reachable v hv dest (hnodes.destNode hnode))
    rw [toGo_some hnode]
    omega

section

variable (hconn : t.Connected) (hnodes : t.NodesAtRouters) (hright : RoutesRight t tables)

include hconn hnodes hright

theorem moves_le {s : Hupsim × Nat}
    (hreach : ((hupsimMachine t tables).observe countMoves).Reach (· = (initHupsim, 0)) Machine.Any s log) :
    s.2 + load t s.1 ≤ (log.filterMap entering).length * (t.routers.length - 1) := by
  refine Machine.Reach.invariant (I := fun s log => s.2 + load t s.1 ≤ (log.filterMap entering).length *
    (t.routers.length - 1)) (fun s hs => ?_) (fun s log e s' l hreach hle _ hstep => ?_) hreach
  · have hempty : load t initHupsim = 0 := Finset.sum_eq_zero fun v _ => Finset.sum_eq_zero fun w _ => rfl
    rw [hs, hempty]
    exact Nat.zero_le _
  · have hforget : (hupsimMachine t tables).Reach (· = initHupsim) Machine.Any s.1 log :=
      hreach.forget (fun s hs => by rw [hs]) fun _ _ _ _ => trivial
    have hcarried := carried hconn hnodes hright hforget
    obtain ⟨hstep, hmoves⟩ := Machine.observe_step.mp hstep
    cases e with
    | inbound datagram =>
      rw [hmoves, countMoves, List.filterMap_append, List.length_append, Nat.add_mul]
      by_cases hsource : sourceNode (datagram.take packetSizeMax) ∈ t.routers
      · simp only [hupsimMachine, if_pos hsource] at hstep
        split at hstep
        · cases hstep
        · rename_i h' l' hrecv
          obtain ⟨rfl, rfl⟩ := Prod.mk.inj (Except.ok.inj hstep)
          have hafter := recv_load hnodes hright hsource hrecv
          have hbound : toGo t _ (datagram.take packetSizeMax) ≤ t.routers.length - 1 := toGo_le hconn hnodes hsource
          simp only [List.filterMap_cons, entering, recv_entering hrecv, List.length_singleton]
          omega
      · simp only [hupsimMachine, if_neg hsource] at hstep
        obtain ⟨hsame, rfl⟩ := Prod.mk.inj (Except.ok.inj hstep)
        rw [← hsame]
        exact Nat.le_add_right_of_le hle
    | release v w =>
      rw [hmoves, countMoves]
      rcases hqueue : s.1.queue v w with _ | ⟨pkt, queue⟩
      · simp only [hupsimMachine, hqueue] at hstep
        obtain ⟨hsame, rfl⟩ := Prod.mk.inj (Except.ok.inj hstep)
        rw [← hsame, if_pos rfl, List.append_nil]
        exact hle
      · simp only [hupsimMachine, hqueue] at hstep
        have hless := release_load hnodes hright hcarried hqueue hstep
        rw [if_neg (List.cons_ne_nil _ _), List.filterMap_append, recv_entering hstep, List.append_nil]
        omega

/-- The release of a packet that waits. -/
def Serves (h : Hupsim) (e : HupsimEvent) : Prop := ∃ v w, e = .release v w ∧ h.queue v w ≠ []

theorem Carried.serve (hrated : t.Rated) (hcarried : Carried t tables h log) (es : List HupsimEvent)
    (hserves : (hupsimMachine t tables).Holds Serves es h) :
    ∃ h' l, (hupsimMachine t tables).run es h = .ok (h', l) ∧ es.length + load t h' ≤ load t h ∧
      Carried t tables h' (log ++ l) := by
  induction es generalizing h log with
  | nil => exact ⟨h, [], rfl, by simp, (List.append_nil log).symm ▸ hcarried⟩
  | cons e es ih =>
    obtain ⟨⟨v, w, rfl, hne⟩, hrest⟩ := hserves
    obtain ⟨pkt, queue, hqueue⟩ := List.exists_cons_of_ne_nil hne
    obtain ⟨⟨h₁, l₁⟩, hstep⟩ := hcarried.step_ok hconn hnodes hright hrated (.release v w)
    have hrecv : (h.write v w queue).recv t tables w pkt = .ok (h₁, l₁) := by
      simpa only [hupsimMachine, hqueue] using hstep
    have hless := release_load hnodes hright hcarried hqueue hrecv
    obtain ⟨h', l, hrun, hle, hcarried'⟩ := ih (hcarried.step hconn hnodes hright hstep) (hrest h₁ l₁ hstep)
    refine ⟨h', l₁ ++ l, Machine.run_cons hstep hrun, ?_, ?_⟩
    · rw [List.length_cons]
      omega
    · rwa [← List.append_assoc]

end

/-- The packets of a run leave queues at most as often as all that entered have links to go. And from wherever
the run is, however the queues are served one packet after another: nothing dies, what is left to do bounds the
number of packets served, and when no queue holds a packet, then for each source and destination what came out
is what went in, unchanged and in that order, but for the packets that were dropped. -/
theorem network_drains (hconn : t.Connected) (hrated : t.Rated) (hnodes : t.NodesAtRouters)
    (htables : routingTables t = .ok tables)
    (hreach : ((hupsimMachine t tables).observe countMoves).Reach (· = (initHupsim, 0)) Machine.Any (h, n) log) :
    n + load t h ≤ (log.filterMap entering).length * (t.routers.length - 1) ∧
    ∀ es, (hupsimMachine t tables).Holds Serves es h → ∃ h' l,
      (hupsimMachine t tables).run es h = .ok (h', l) ∧ es.length + load t h' ≤ load t h ∧
      ((∃ e, Serves h' e) ∨ (∀ v w, h'.queue v w = []) ∧
        ∀ src ∈ t.routers, ∀ dest ∈ t.routers, Accounts t src dest (log ++ l) []) := by
  obtain ⟨tables', htables', hright⟩ := routingTables_ok hconn
  obtain rfl := Except.ok.inj (htables'.symm.trans htables)
  have hforget : (hupsimMachine t tables').Reach (· = initHupsim) Machine.Any h log :=
    hreach.forget (fun s hs => by rw [hs]) fun _ _ _ _ => trivial
  refine ⟨moves_le hconn hnodes hright hreach, fun es hserves => ?_⟩
  have hcarried := carried hconn hnodes hright hforget
  obtain ⟨h', l, hrun, hle, hcarried⟩ := hcarried.serve hconn hnodes hright hrated es hserves
  refine ⟨h', l, hrun, hle, ?_⟩
  by_cases hempty : ∀ v w, h'.queue v w = []
  · refine Or.inr ⟨hempty, fun src hsrc dest hdest => ?_⟩
    have haccounts := hcarried.accounts src hsrc dest hdest
    have hnone : between t tables' src dest h' 0 (t.graph.dist src dest) = [] :=
      List.flatMap_eq_nil_iff.mpr fun i _ => by rw [stage, hempty, List.filter_nil]
    rwa [hnone] at haccounts
  · simp only [not_forall] at hempty
    obtain ⟨v, w, hne⟩ := hempty
    exact Or.inl ⟨.release v w, v, w, rfl, hne⟩

/-- A packet has entered at router 1, for node 3, and is served at router 1 and at router 2. -/
theorem network_drains_row : ∃ h l, (hupsimMachine rowTopology rowTables).run [.release 1 2, .release 2 3]
      (initHupsim.write 1 2 [rowPacket]) = .ok (h, l) ∧ l = [.delivered 3 rowPacket] ∧
    2 + load rowTopology h ≤ load rowTopology (initHupsim.write 1 2 [rowPacket]) ∧
    ((∃ e, Serves h e) ∨ (∀ v w, h.queue v w = []) ∧
      ∀ src ∈ rowTopology.routers, ∀ dest ∈ rowTopology.routers,
        Accounts rowTopology src dest ([.entered 1 rowPacket] ++ l) []) := by
  have hstart : ((hupsimMachine rowTopology rowTables).observe countMoves).Reach (· = (initHupsim, 0)) Machine.Any
      (initHupsim, 0) [] := .start rfl
  have hreach : ((hupsimMachine rowTopology rowTables).observe countMoves).Reach (· = (initHupsim, 0)) Machine.Any
      (initHupsim.write 1 2 [rowPacket], 0) [.entered 1 rowPacket] :=
    hstart.step (e := .inbound rowPacket) trivial rfl
  have hserves : (hupsimMachine rowTopology rowTables).Holds Serves [.release 1 2, .release 2 3]
      (initHupsim.write 1 2 [rowPacket]) := by
    refine ⟨⟨1, 2, rfl, by decide⟩, fun h₁ l₁ hstep => ?_⟩
    cases hstep
    exact ⟨⟨2, 3, rfl, by decide⟩, fun _ _ _ => trivial⟩
  obtain ⟨h, l, hrun, hle, hdone⟩ :=
    (network_drains rowTopology_connected rowTopology_rated rowTopology_nodes rfl hreach).2 _ hserves
  refine ⟨h, l, hrun, ?_, hle, hdone⟩
  cases hrun
  rfl

end Bittorrent
