import Mathlib.Combinatorics.SimpleGraph.Metric

/-!
# Shortest paths by visiting the nearest vertex

The invariant of Dijkstra's algorithm on a graph whose edges all have length 1: `distance` is never below the
distance from the source, it is exact where the search is done, every edge out of such a vertex is taken
into account, and where it is finite it goes back to a predecessor. A vertex of least distance among those
that are not done has an exact one (`Searched.nearest`), so visiting it keeps all this (`Searched.visit`).
When every vertex is done, the predecessors lead back on a shortest path, and the first edge of it is one
step nearer (`Searched.firstStep`).
-/

namespace Bittorrent

open SimpleGraph

variable {V : Type} {G : SimpleGraph V} {source u v w next : V} {done done' : V → Prop}
  {distance distance' : V → ℕ} {predecessor predecessor' : V → Option V} {infinity : ℕ}

/-! ## Distances -/

theorem dist_le_succ (hu : G.Reachable source u) (h : G.Adj u v) : G.dist source v ≤ G.dist source u + 1 := by
  obtain ⟨walk, hlength⟩ := hu.exists_walk_length_eq_dist
  have hle := dist_le (walk.concat h)
  rwa [Walk.length_concat, hlength] at hle

theorem exists_adj_dist (hv : G.Reachable source v) (hne : v ≠ source) :
    ∃ u, G.Adj u v ∧ G.Reachable source u ∧ G.dist source u + 1 = G.dist source v := by
  obtain ⟨walk, hlength⟩ := hv.exists_walk_length_eq_dist
  have hnil : ¬ walk.Nil := fun hnil => hne hnil.eq.symm
  refine ⟨walk.penultimate, walk.adj_penultimate hnil, walk.dropLast.reachable, ?_⟩
  have hdrop := dist_le walk.dropLast
  have hstep := dist_le_succ walk.dropLast.reachable (walk.adj_penultimate hnil)
  have hshorter : walk.dropLast.length + 1 = walk.length := walk.length_dropLast_add_one hnil
  omega

/-! ## The invariant -/

/-- What a search from `source` has found so far. -/
structure Searched (G : SimpleGraph V) (source : V) (infinity : ℕ) (done : V → Prop) (distance : V → ℕ)
    (predecessor : V → Option V) : Prop where
  source_eq : distance source = 0
  lower : ∀ v, G.Reachable source v → G.dist source v ≤ distance v
  reachable : ∀ v, done v → G.Reachable source v
  exact : ∀ v, done v → distance v = G.dist source v
  edges : ∀ u v, done u → G.Adj u v → distance v ≤ distance u + 1
  back : ∀ v, v ≠ source → distance v < infinity →
    ∃ u, predecessor v = some u ∧ done u ∧ G.Adj u v ∧ distance v = distance u + 1

theorem searched_start (hfinite : ∀ v, G.Reachable source v → G.dist source v ≤ infinity)
    (hsource : distance source = 0) (hothers : ∀ v, v ≠ source → distance v = infinity) :
    Searched G source infinity (fun _ => False) distance predecessor where
  source_eq := hsource
  lower v hv := by
    by_cases hv' : v = source
    · rw [hv', dist_self]
      exact Nat.zero_le _
    · rw [hothers v hv']
      exact hfinite v hv
  reachable v h := h.elim
  exact v h := h.elim
  edges u v h := h.elim
  back v hv hlt := absurd (hothers v hv) hlt.ne

/-- Not farther than a vertex that is not done there is one whose distance is exact. -/
theorem Searched.frontier (h : Searched G source infinity done distance predecessor)
    (hv : G.Reachable source v) (hdone : ¬ done v) :
    ∃ u, ¬ done u ∧ G.Reachable source u ∧ distance u = G.dist source u ∧ G.dist source u ≤ G.dist source v := by
  induction hn : G.dist source v using Nat.strong_induction_on generalizing v with
  | _ n ih =>
    by_cases hsource : v = source
    · subst hsource
      exact ⟨v, hdone, hv, by rw [h.source_eq, dist_self], hn.le⟩
    · obtain ⟨u, hadj, hu, hdist⟩ := exists_adj_dist hv hsource
      by_cases hu' : done u
      · -- the edge from `u` makes the distance exact
        have hedge := h.edges u v hu' hadj
        have hexact := h.exact u hu'
        have hlower := h.lower v hv
        exact ⟨v, hdone, hv, by omega, hn.le⟩
      · obtain ⟨x, hx, hreach, hexact, hle⟩ := ih _ (by omega) hu hu' rfl
        exact ⟨x, hx, hreach, hexact, by omega⟩

theorem Searched.nearest (h : Searched G source infinity done distance predecessor)
    (hnext : G.Reachable source next) (hdone : ¬ done next)
    (hleast : ∀ v, G.Reachable source v → ¬ done v → distance next ≤ distance v) :
    distance next = G.dist source next := by
  obtain ⟨u, hu, hreach, hexact, hle⟩ := h.frontier hnext hdone
  have hfirst := hleast u hreach hu
  have hlower := h.lower next hnext
  omega

theorem Searched.visit (h : Searched G source infinity done distance predecessor)
    (hnext : G.Reachable source next) (hdone : ¬ done next)
    (hleast : ∀ v, G.Reachable source v → ¬ done v → distance next ≤ distance v)
    (hdone' : ∀ v, done' v ↔ done v ∨ v = next)
    (hnearer : ∀ v, G.Adj next v → distance next + 1 < distance v →
      distance' v = distance next + 1 ∧ predecessor' v = some next)
    (hsame : ∀ v, ¬ (G.Adj next v ∧ distance next + 1 < distance v) →
      distance' v = distance v ∧ predecessor' v = predecessor v) :
    Searched G source infinity done' distance' predecessor' := by
  have hexact := h.nearest hnext hdone hleast
  -- nothing that is done gets nearer, and `next` does not
  have hold : ∀ v, done v → distance' v = distance v := by
    intro v hv
    refine (hsame v fun hlt => ?_).1
    have hstep := dist_le_succ hnext hlt.1
    have hv' := h.exact v hv
    omega
  have hself : distance' next = distance next := (hsame next fun hlt => G.loopless.irrefl next hlt.1).1
  have hstays : ∀ v, done' v → distance' v = distance v := by
    intro v hv
    rcases (hdone' v).mp hv with hv | rfl
    · exact hold v hv
    · exact hself
  have hle : ∀ v, distance' v ≤ distance v := by
    intro v
    by_cases hlt : G.Adj next v ∧ distance next + 1 < distance v
    · rw [(hnearer v hlt.1 hlt.2).1]
      exact hlt.2.le
    · exact (hsame v hlt).1.le
  refine ⟨?_, fun v hv => ?_, fun v hv => ?_, fun v hv => ?_, fun u v hu hadj => ?_, fun v hv hlt => ?_⟩
  · exact Nat.le_zero.mp ((hle source).trans h.source_eq.le)
  · by_cases hlt : G.Adj next v ∧ distance next + 1 < distance v
    · rw [(hnearer v hlt.1 hlt.2).1, hexact]
      exact dist_le_succ hnext hlt.1
    · rw [(hsame v hlt).1]
      exact h.lower v hv
  · rcases (hdone' v).mp hv with hv | rfl
    · exact h.reachable v hv
    · exact hnext
  · rw [hstays v hv]
    rcases (hdone' v).mp hv with hv | rfl
    · exact h.exact v hv
    · exact hexact
  · rw [hstays u hu]
    rcases (hdone' u).mp hu with hu | rfl
    · exact (hle v).trans (h.edges u v hu hadj)
    · by_cases hlt : distance u + 1 < distance v
      · exact (hnearer v hadj hlt).1.le
      · have := hle v
        omega
  · by_cases hcase : G.Adj next v ∧ distance next + 1 < distance v
    · obtain ⟨hdist, hpred⟩ := hnearer v hcase.1 hcase.2
      exact ⟨next, hpred, (hdone' next).mpr (Or.inr rfl), hcase.1, by rw [hdist, hself]⟩
    · obtain ⟨hdist, hpred⟩ := hsame v hcase
      obtain ⟨u, hback, hu, hadj, heq⟩ := h.back v hv (hdist ▸ hlt)
      exact ⟨u, hpred.trans hback, (hdone' u).mpr (Or.inl hu), hadj, by rw [hdist, heq, hold u hu]⟩

/-! ## The end -/

/-- From `v` the predecessors lead back to `source`, last over `w`. -/
inductive LeadsBack (predecessor : V → Option V) (source w : V) : ℕ → V → Prop
  | last : predecessor w = some source → LeadsBack predecessor source w 1 w
  | step {n : ℕ} {u v : V} : predecessor v = some u → u ≠ source → LeadsBack predecessor source w n u →
      LeadsBack predecessor source w (n + 1) v

/-- When all is done the predecessors lead back over as many edges as the distance says, and the first vertex
of the way is one step nearer to its end. -/
theorem Searched.firstStep (h : Searched G source infinity done distance predecessor)
    (hfinite : ∀ v, G.Reachable source v → G.dist source v < infinity)
    (hdone : ∀ v, G.Reachable source v → done v) (hv : G.Reachable source v) (hne : v ≠ source) :
    ∃ w, LeadsBack predecessor source w (G.dist source v) v ∧ G.Adj source w ∧ G.Reachable w v ∧
      G.dist w v + 1 = G.dist source v := by
  -- the way back: its first vertex `w`, and a walk from there
  have hway : ∀ n v, G.Reachable source v → v ≠ source → G.dist source v = n → ∃ w,
      LeadsBack predecessor source w n v ∧ G.Adj source w ∧ ∃ walk : G.Walk w v, walk.length + 1 = n := by
    intro n
    induction n with
    | zero =>
      intro v hv hne hdist
      exact absurd (hv.dist_eq_zero_iff.mp hdist).symm hne
    | succ n ih =>
      intro v hv hne hdist
      have hlt := hfinite v hv
      obtain ⟨u, hback, hu, hadj, heq⟩ := h.back v hne (by rw [h.exact v (hdone v hv)]; exact hlt)
      rw [h.exact v (hdone v hv), h.exact u hu, hdist] at heq
      by_cases hsource : u = source
      · subst hsource
        rw [dist_self] at heq
        obtain rfl : n = 0 := by omega
        exact ⟨v, .last hback, hadj, .nil, rfl⟩
      · obtain ⟨w, hleads, hfirst, walk, hlength⟩ := ih u (h.reachable u hu) hsource (by omega)
        exact ⟨w, .step hback hsource hleads, hfirst, walk.concat hadj, by rw [Walk.length_concat, hlength]⟩
  obtain ⟨w, hleads, hadj, walk, hlength⟩ := hway _ v hv hne rfl
  refine ⟨w, hleads, hadj, walk.reachable, ?_⟩
  have hle := dist_le walk
  obtain ⟨shortest, hshortest⟩ := walk.reachable.exists_walk_length_eq_dist
  have hstep := dist_le (shortest.cons hadj)
  rw [Walk.length_cons] at hstep
  omega

end Bittorrent
