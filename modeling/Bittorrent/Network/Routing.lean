import Bittorrent.Lib.ShortestPaths
import Bittorrent.Model.Hupsim

/-!
# The tables of the routers

`createTable` is Dijkstra's algorithm on the links of the topology: each round is a visit of the nearest router
(`RouteSearch.visit_searching`), after as many rounds as there are routers the search is done, and the
predecessors lead from every router back to one next to the start. So in a connected topology every table is
filled, and sending by the tables gets one link nearer to the destination each time (`routing_shortest`),
whatever predecessors an earlier search has left.

The mathematics is in `ShortestPaths`, for any graph; here it is shown that the hash tables of the source
are such a search. `Searching` is the library's invariant with the code's infinity, which no distance
reaches as there are at most as many routers. A visit marks the vertex of least distance and relaxes its
edges (`nextVertex_cases`, `relax_edges`), so one more router is done each time (`countP_visit`). The
predecessors of a search that is over lead back to the start, and the vertex before the start is the next
hop (`startRoute_hop`). A predecessor that an earlier search has left belongs to a vertex with distance
infinity, which is overwritten before it is read.
-/

namespace Bittorrent

open SimpleGraph

variable {t : Topology} {self v w next : Nat} {s : RouteSearch} {predecessor : Nat → Option Nat}

/-! ## The graph of a topology -/

namespace TopoLine

theorem joins_symm {l : TopoLine} (h : l.Joins v w) : l.Joins w v := h.symm

theorem Joins.ends {l : TopoLine} (h : l.Joins v w) : l.Ends v ∧ l.Ends w := by
  rcases h with ⟨rfl, rfl⟩ | ⟨rfl, rfl⟩
  · exact ⟨Or.inl rfl, Or.inr rfl⟩
  · exact ⟨Or.inr rfl, Or.inl rfl⟩

end TopoLine

namespace Topology

/-- The routers with the links between them. -/
def graph (t : Topology) : SimpleGraph Nat where
  Adj v w := v ≠ w ∧ ∃ l ∈ t.topo, l.Joins v w
  symm := ⟨fun _ _ ⟨hne, l, hl, hjoins⟩ => ⟨hne.symm, l, hl, TopoLine.joins_symm hjoins⟩⟩
  loopless := ⟨fun _ h => h.1 rfl⟩

theorem lt_size {l : TopoLine} (hl : l ∈ t.topo) (hends : l.Ends v) : v < t.size := by
  have hmax : ∀ {lines : List Nat} {n : Nat}, n ∈ lines → n ≤ lines.foldr max 0 := by
    intro lines n hn
    induction lines with
    | nil => cases hn
    | cons m lines ih =>
      rcases List.mem_cons.mp hn with rfl | hn
      · exact le_max_left _ _
      · exact (ih hn).trans (le_max_right _ _)
  have hle := hmax (List.mem_map_of_mem (f := fun l : TopoLine => max l.src l.dst) hl)
  have hv : v ≤ max l.src l.dst := by
    rcases hends with rfl | rfl
    · exact le_max_left _ _
    · exact le_max_right _ _
  exact Nat.lt_succ_of_le (hv.trans hle)

theorem mem_routers : v ∈ t.routers ↔ ∃ l ∈ t.topo, l.Ends v := by
  simp only [routers, List.mem_filter, List.mem_range, List.any_eq_true, decide_eq_true_eq]
  exact ⟨And.right, fun ⟨l, hl, hends⟩ => ⟨lt_size hl hends, l, hl, hends⟩⟩

theorem mem_routes : w ∈ t.routes v ↔ ∃ l ∈ t.topo, l.Joins v w := by
  simp only [routes, List.mem_filter, List.mem_range, List.any_eq_true, decide_eq_true_eq]
  exact ⟨And.right, fun ⟨l, hl, hjoins⟩ => ⟨lt_size hl hjoins.ends.2, l, hl, hjoins⟩⟩

theorem adj_iff : t.graph.Adj v w ↔ v ≠ w ∧ w ∈ t.routes v := and_congr_right fun _ => mem_routes.symm

theorem adj_router (h : t.graph.Adj v w) : w ∈ t.routers := by
  obtain ⟨-, l, hl, hjoins⟩ := h
  exact mem_routers.mpr ⟨l, hl, hjoins.ends.2⟩

theorem walk_routers (hv : v ∈ t.routers) (walk : t.graph.Walk v w) : ∀ u ∈ walk.support, u ∈ t.routers := by
  induction walk with
  | nil =>
    intro u hu
    rw [Walk.support_nil, List.mem_singleton] at hu
    exact hu ▸ hv
  | cons hadj walk ih =>
    intro u hu
    rw [Walk.support_cons, List.mem_cons] at hu
    rcases hu with rfl | hu
    · exact hv
    · exact ih (adj_router hadj) u hu

theorem reachable_router (hv : v ∈ t.routers) (h : t.graph.Reachable v w) : w ∈ t.routers := by
  obtain ⟨walk⟩ := h
  exact walk_routers hv walk w walk.end_mem_support

theorem dist_lt (hv : v ∈ t.routers) (h : t.graph.Reachable v w) : t.graph.dist v w < t.routers.length := by
  obtain ⟨path, hpath, hlength⟩ := h.exists_path_of_dist
  have hsub := (hpath.support_nodup.subperm (walk_routers hv path)).length_le
  rw [Walk.length_support, hlength] at hsub
  omega

/-- Every router is reached from every other one, and there are not more than `$INFINITY`. -/
structure Connected (t : Topology) : Prop where
  reachable : ∀ v ∈ t.routers, ∀ w ∈ t.routers, t.graph.Reachable v w
  routers : t.routers.length ≤ routeInfinity

end Topology

/-! ## A search -/

namespace RouteSearch

theorem nextVertex_cases (s : RouteSearch) (vs : List Nat) (min : Nat) (next : Option Nat) :
    (s.nextVertex vs min next = next ∧ ∀ v ∈ vs, s.done v = false → min ≤ s.distance v) ∨
      ∃ v ∈ vs, s.nextVertex vs min next = some v ∧ s.done v = false ∧ s.distance v < min ∧
        ∀ u ∈ vs, s.done u = false → s.distance v ≤ s.distance u := by
  induction vs generalizing min next with
  | nil => exact Or.inl ⟨rfl, fun v hv => absurd hv List.not_mem_nil⟩
  | cons v vs ih =>
    rw [nextVertex]
    split_ifs with hnearer
    · obtain ⟨hv, hlt⟩ := hnearer
      rcases ih (s.distance v) (some v) with ⟨hsame, hle⟩ | ⟨u, hu, hnext, hdone, hmin, hle⟩
      · exact Or.inr ⟨v, List.mem_cons_self, hsame, hv, hlt, List.forall_mem_cons.mpr ⟨fun _ => le_rfl, hle⟩⟩
      · exact Or.inr ⟨u, List.mem_cons_of_mem v hu, hnext, hdone, hmin.trans hlt,
          List.forall_mem_cons.mpr ⟨fun _ => hmin.le, hle⟩⟩
    · have hfar : s.done v = false → min ≤ s.distance v := fun hv => not_lt.mp fun hlt => hnearer ⟨hv, hlt⟩
      rcases ih min next with ⟨hsame, hle⟩ | ⟨u, hu, hnext, hdone, hmin, hle⟩
      · exact Or.inl ⟨hsame, List.forall_mem_cons.mpr ⟨hfar, hle⟩⟩
      · exact Or.inr ⟨u, List.mem_cons_of_mem v hu, hnext, hdone, hmin,
          List.forall_mem_cons.mpr ⟨fun hv => hmin.le.trans (hfar hv), hle⟩⟩

theorem relax_edges (next : Nat) (vs : List Nat) (s : RouteSearch) :
    (vs.foldl (relax next) s).done = s.done ∧
      ∀ v, (v ∈ vs ∧ s.distance next + 1 < s.distance v →
          (vs.foldl (relax next) s).distance v = s.distance next + 1 ∧
            (vs.foldl (relax next) s).predecessor v = some next) ∧
        (¬ (v ∈ vs ∧ s.distance next + 1 < s.distance v) →
          (vs.foldl (relax next) s).distance v = s.distance v ∧
            (vs.foldl (relax next) s).predecessor v = s.predecessor v) := by
  induction vs generalizing s with
  | nil => exact ⟨rfl, fun v => ⟨fun h => absurd h.1 List.not_mem_nil, fun _ => ⟨rfl, rfl⟩⟩⟩
  | cons w vs ih =>
    obtain ⟨hdone, hvs⟩ := ih (relax next s w)
    have hsame : ∀ v, ¬ (v = w ∧ s.distance next + 1 < s.distance v) →
        (relax next s w).distance v = s.distance v ∧ (relax next s w).predecessor v = s.predecessor v := by
      intro v hv
      rw [relax]
      split_ifs with hlt
      · have hne : v ≠ w := by
          rintro rfl
          exact hv ⟨rfl, hlt⟩
        exact ⟨Function.update_of_ne hne _ _, Function.update_of_ne hne _ _⟩
      · exact ⟨rfl, rfl⟩
    have hnext := (hsame next fun h => by omega).1
    rw [List.foldl_cons]
    refine ⟨hdone.trans (by rw [relax]; split_ifs <;> rfl), fun v => ?_⟩
    obtain ⟨hnearer, hrest⟩ := hvs v
    rw [hnext] at hnearer hrest
    by_cases hv : v = w ∧ s.distance next + 1 < s.distance v
    · obtain ⟨rfl, hlt⟩ := hv
      have hset : (relax next s v).distance v = s.distance next + 1 ∧
          (relax next s v).predecessor v = some next := by
        rw [relax, if_pos hlt]
        exact ⟨Function.update_self _ _ _, Function.update_self _ _ _⟩
      obtain ⟨hdist, hpred⟩ := hrest fun h => by
        rw [hset.1] at h
        exact lt_irrefl _ h.2
      exact ⟨fun _ => ⟨hdist.trans hset.1, hpred.trans hset.2⟩,
        fun h => absurd ⟨List.mem_cons_self, hlt⟩ h⟩
    · obtain ⟨hdist, hpred⟩ := hsame v hv
      rw [hdist, hpred] at hrest
      rw [hdist] at hnearer
      refine ⟨fun ⟨hmem, hlt⟩ => hnearer ⟨?_, hlt⟩,
        fun h => hrest fun h' => h ⟨List.mem_cons_of_mem w h'.1, h'.2⟩⟩
      exact (List.mem_cons.mp hmem).resolve_left fun heq => hv ⟨heq, hlt⟩

/-- A search of a router under way. -/
structure Searching (t : Topology) (router : Nat) (s : RouteSearch) : Prop where
  searched : Searched t.graph router routeInfinity (fun v => s.done v = true) s.distance s.predecessor
  finite : ∀ v, s.distance v ≤ routeInfinity

/-- How many routers are not done. -/
def left (t : Topology) (s : RouteSearch) : Nat := t.routers.countP fun v => !s.done v

theorem start_searching (hconn : t.Connected) (hself : self ∈ t.routers) (predecessor : Nat → Option Nat) :
    Searching t self (start self predecessor) where
  searched := by
    have hfalse : (fun v => (start self predecessor).done v = true) = fun _ => False :=
      funext fun _ => eq_false Bool.false_ne_true
    rw [hfalse]
    refine searched_start (fun v hv => ?_) (if_pos rfl) fun v hv => if_neg hv
    have hlt := Topology.dist_lt hself hv
    have hrouters := hconn.routers
    omega
  finite v := by
    simp only [start]
    split_ifs
    · exact Nat.zero_le _
    · exact le_rfl

theorem countP_visit {done : Nat → Bool} (hdone : done next = false) (vs : List Nat) :
    vs.countP (fun v => !Function.update done next true v) + vs.count next = vs.countP fun v => !done v := by
  induction vs with
  | nil => rfl
  | cons v vs ih =>
    simp only [List.countP_cons, List.count_cons, Function.update_apply, beq_iff_eq] at ih ⊢
    by_cases hv : v = next
    · subst hv
      simp only [if_true, hdone, Bool.not_true, Bool.not_false, Bool.false_eq_true, if_false]
      omega
    · simp only [if_neg hv]
      omega

theorem visit_searching (hconn : t.Connected) (hself : self ∈ t.routers) (h : Searching t self s) :
    Searching t self (s.visit t) ∧ (s.visit t).left t ≤ s.left t - 1 := by
  rcases s.nextVertex_cases t.routers (routeInfinity + 1) none with ⟨hnone, hall⟩ |
    ⟨next, hnext, hsome, hdone, -, hleast⟩
  · have hvisit : s.visit t = s := by rw [visit, hnone]
    have hleft : s.left t = 0 := by
      rw [left, List.countP_eq_zero]
      intro v hv hnot
      have hle := hall v hv (Bool.not_eq_true' _ ▸ hnot)
      have hfinite := h.finite v
      omega
    rw [hvisit]
    exact ⟨h, by omega⟩
  · obtain ⟨hsame, hedges⟩ := relax_edges next (t.routes next) s
    have hvisit : s.visit t = { (t.routes next).foldl (relax next) s with
        done := Function.update s.done next true } := by rw [visit, hsome, ← hsame]
    have hrouter : ∀ v, t.graph.Reachable self v → v ∈ t.routers := fun v => Topology.reachable_router hself
    have hdone' : ∀ v, Function.update s.done next true v = true ↔ s.done v = true ∨ v = next := by
      intro v
      rw [Function.update_apply]
      split_ifs with hv
      · simp [hv]
      · simp [hv]
    have hedge : ∀ v, t.graph.Adj next v ∧ s.distance next + 1 < s.distance v ↔
        v ∈ t.routes next ∧ s.distance next + 1 < s.distance v := by
      intro v
      rw [Topology.adj_iff]
      refine ⟨fun h => ⟨h.1.2, h.2⟩, fun h => ⟨⟨?_, h.1⟩, h.2⟩⟩
      rintro rfl
      omega
    rw [hvisit]
    refine ⟨⟨?_, fun v => ?_⟩, ?_⟩
    · refine h.searched.visit (hconn.reachable self hself next hnext) (by simp [hdone])
        (fun v hv hv' => hleast v (hrouter v hv) (Bool.eq_false_iff.mpr hv')) hdone'
        (fun v hadj hlt => (hedges v).1 ((hedge v).mp ⟨hadj, hlt⟩))
        fun v hnot => (hedges v).2 fun hcase => hnot ((hedge v).mpr hcase)
    · by_cases hv : v ∈ t.routes next ∧ s.distance next + 1 < s.distance v
      · exact ((hedges v).1 hv).1.le.trans (hv.2.le.trans (h.finite v))
      · exact ((hedges v).2 hv).1.le.trans (h.finite v)
    · -- one router fewer is left
      have hcount := countP_visit hdone t.routers
      have hpos := List.count_pos_iff.mpr hnext
      simp only [left]
      omega

theorem visits_searching (hconn : t.Connected) (hself : self ∈ t.routers) {α : Type} (rounds : List α)
    (h : Searching t self s) : Searching t self (rounds.foldl (fun s _ => s.visit t) s) ∧
      (rounds.foldl (fun s _ => s.visit t) s).left t ≤ s.left t - rounds.length := by
  induction rounds generalizing s with
  | nil => exact ⟨h, le_rfl⟩
  | cons round rounds ih =>
    obtain ⟨hvisit, hleft⟩ := visit_searching hconn hself h
    obtain ⟨hrest, hlefts⟩ := ih hvisit
    refine ⟨hrest, ?_⟩
    simp only [List.foldl_cons, List.length_cons]
    omega

end RouteSearch

theorem routeSearch_done (hconn : t.Connected) (hself : self ∈ t.routers) (predecessor : Nat → Option Nat) :
    RouteSearch.Searching t self (routeSearch t self predecessor) ∧
      ∀ v ∈ t.routers, (routeSearch t self predecessor).done v = true := by
  obtain ⟨hsearching, hleft⟩ := RouteSearch.visits_searching hconn hself t.routers
    (RouteSearch.start_searching hconn hself predecessor)
  have hle : (RouteSearch.start self predecessor).left t ≤ t.routers.length := List.countP_le_length
  have hnone : (routeSearch t self predecessor).left t = 0 := by
    rw [routeSearch]
    omega
  refine ⟨hsearching, fun v hv => ?_⟩
  have hdone := List.countP_eq_zero.mp hnone v hv
  simpa using hdone

/-! ## A table -/

/-- The neighbour to send to for `dest`: one link nearer. -/
def NextHop (t : Topology) (v dest : Nat) (w : Option Nat) : Prop :=
  ∃ next, w = some next ∧ t.graph.Adj v next ∧ t.graph.dist next dest + 1 = t.graph.dist v dest

theorem startRoute_ok {n fuel : Nat} (h : LeadsBack predecessor self w n v) (hfuel : n ≤ fuel) :
    startRoute self predecessor fuel v = .ok w := by
  induction h generalizing fuel with
  | last hback =>
    obtain ⟨fuel, rfl⟩ := Nat.exists_eq_succ_of_ne_zero (show fuel ≠ 0 by omega)
    simp only [startRoute, hback, if_true]
  | step hback hne _ ih =>
    obtain ⟨fuel, rfl⟩ := Nat.exists_eq_succ_of_ne_zero (show fuel ≠ 0 by omega)
    simp only [startRoute, hback, if_neg hne]
    exact ih (by omega)

theorem startRoute_hop (hconn : t.Connected) (hself : self ∈ t.routers) (predecessor : Nat → Option Nat)
    (hv : v ∈ t.routers) (hne : v ≠ self) :
    ∃ w, startRoute self (routeSearch t self predecessor).predecessor t.routers.length v = .ok w ∧
      w ∈ t.routes self ∧ NextHop t self v (some w) := by
  obtain ⟨hsearching, hdone⟩ := routeSearch_done hconn hself predecessor
  have hfinite : ∀ u, t.graph.Reachable self u → t.graph.dist self u < routeInfinity := fun u hu =>
    (Topology.dist_lt hself hu).trans_le hconn.routers
  have hreach := hconn.reachable self hself v hv
  obtain ⟨w, hback, hadj, -, hdist⟩ := hsearching.searched.firstStep hfinite
    (fun u hu => hdone u (Topology.reachable_router hself hu)) hreach hne
  exact ⟨w, startRoute_ok hback (Topology.dist_lt hself hreach).le, (Topology.adj_iff.mp hadj).2, w, rfl, hadj, hdist⟩

theorem fillTable_ok (hconn : t.Connected) (hself : self ∈ t.routers) (predecessor : Nat → Option Nat)
    (vs : List Nat) (hvs : vs ⊆ t.routers) (table : Nat → Option Nat) :
    ∃ table', fillTable t self (routeSearch t self predecessor).predecessor vs table = .ok table' ∧
      ∀ v, (v ∉ vs → table' v = table v) ∧ (v ∈ vs → v ≠ self → NextHop t self v (table' v)) := by
  induction vs generalizing table with
  | nil => exact ⟨table, rfl, fun v => ⟨fun _ => rfl, fun hv => absurd hv List.not_mem_nil⟩⟩
  | cons u vs ih =>
    obtain ⟨hu, hvs⟩ := List.cons_subset.mp hvs
    by_cases hne : u = self
    · obtain ⟨table', hfill, hspec⟩ := ih hvs table
      refine ⟨table', by rw [fillTable, if_pos hne, hfill], fun v => ⟨fun hv => ?_, fun hv hv' => ?_⟩⟩
      · exact (hspec v).1 fun hmem => hv (List.mem_cons_of_mem u hmem)
      · exact (hspec v).2 ((List.mem_cons.mp hv).resolve_left fun heq => hv' (heq.trans hne)) hv'
    · obtain ⟨w, hstart, hroute, hhop⟩ := startRoute_hop hconn hself predecessor hu hne
      obtain ⟨table', hfill, hspec⟩ := ih hvs (Function.update table u (some w))
      refine ⟨table', ?_, fun v => ⟨fun hv => ?_, fun hv hv' => ?_⟩⟩
      · rw [fillTable, if_neg hne]
        simp only [hstart, if_pos hroute, hfill]
      · obtain ⟨hvu, hmem⟩ := not_or.mp (List.mem_cons.not.mp hv)
        rw [(hspec v).1 hmem, Function.update_of_ne hvu]
      · by_cases hmem : v ∈ vs
        · exact (hspec v).2 hmem hv'
        · obtain rfl := (List.mem_cons.mp hv).resolve_right hmem
          rw [(hspec v).1 hmem, Function.update_self]
          exact hhop

/-! ## All tables -/

/-- Sending by the tables gets nearer to every other router. -/
def RoutesRight (t : Topology) (tables : Nat → Nat → Option Nat) : Prop :=
  ∀ v ∈ t.routers, ∀ dest ∈ t.routers, dest ≠ v → NextHop t v dest (tables v dest)

theorem createTables_ok (hconn : t.Connected) (vs : List Nat) (hvs : vs ⊆ t.routers)
    (predecessor : Nat → Option Nat) (tables : Nat → Nat → Option Nat) :
    ∃ tables', createTables t vs predecessor tables = .ok tables' ∧
      ∀ v, (v ∉ vs → tables' v = tables v) ∧
        (v ∈ vs → ∀ dest ∈ t.routers, dest ≠ v → NextHop t v dest (tables' v dest)) := by
  induction vs generalizing predecessor tables with
  | nil => exact ⟨tables, rfl, fun v => ⟨fun _ => rfl, fun hv => absurd hv List.not_mem_nil⟩⟩
  | cons u vs ih =>
    obtain ⟨hu, hvs⟩ := List.cons_subset.mp hvs
    obtain ⟨table, hfill, htable⟩ := fillTable_ok hconn hu predecessor t.routers
      (List.Subset.refl _) fun _ => none
    obtain ⟨tables', hcreate, hspec⟩ := ih hvs (routeSearch t u predecessor).predecessor
      (Function.update tables u table)
    refine ⟨tables', ?_, fun v => ⟨fun hv => ?_, fun hv => ?_⟩⟩
    · simp only [createTables, hfill, hcreate]
    · obtain ⟨hvu, hmem⟩ := not_or.mp (List.mem_cons.not.mp hv)
      rw [(hspec v).1 hmem, Function.update_of_ne hvu]
    · by_cases hmem : v ∈ vs
      · exact (hspec v).2 hmem
      · obtain rfl := (List.mem_cons.mp hv).resolve_right hmem
        rw [(hspec v).1 hmem, Function.update_self]
        exact fun dest hdest hne => (htable dest).2 hdest hne

theorem routingTables_ok (hconn : t.Connected) : ∃ tables, routingTables t = .ok tables ∧ RoutesRight t tables := by
  obtain ⟨tables, hcreate, hspec⟩ := createTables_ok hconn t.routers (List.Subset.refl _) (fun _ => none) fun _ _ => none
  exact ⟨tables, hcreate, fun v hv => (hspec v).2 hv⟩

end Bittorrent
