import Mathlib.Logic.Basic
import Mathlib.Tactic.Common

/-!
# Machines with faults and a log

A machine reads an event in a state and either faults or moves to a new state and appends actions
to its log. `run` folds a list of events, `Reach` is the set of states (with their logs) of all
runs whose steps meet a condition, and `Reach.invariant` is the induction every invariant of a run
goes through; `Path` takes one step apart into moves. `Holds` says that every event of a list meets
a condition in the state it is read in, and `run_ok_iff` turns a per-step "no fault" criterion into
one for whole runs. `Reach.project` is the refinement rule, `batch` reads several events as one, and
`observe` keeps a history beside the state that the machine itself does not see.
-/

namespace Bittorrent

/-- Reads an event in a state: a fault, or the next state and the actions it logs. -/
structure Machine (σ ε α φ : Type) where
  step : ε → σ → Except φ (σ × List α)

namespace Machine

variable {σ ε α φ : Type} (M : Machine σ ε α φ)

/-- Read the events one after another, up to the first fault. -/
def run : List ε → σ → Except φ (σ × List α)
  | [], s => .ok (s, [])
  | e :: es, s =>
    match M.step e s with
    | .error f => .error f
    | .ok (s', l) =>
      match run es s' with
      | .error f => .error f
      | .ok (s'', l') => .ok (s'', l ++ l')

/-- The states, with their logs, of the runs from `Init` whose steps all meet `Ok`. -/
inductive Reach (Init : σ → Prop) (Ok : σ → List α → ε → Prop) : σ → List α → Prop
  | start {s : σ} : Init s → Reach Init Ok s []
  | step {s s' : σ} {log l : List α} {e : ε} : Reach Init Ok s log → Ok s log e →
      M.step e s = .ok (s', l) → Reach Init Ok s' (log ++ l)

/-- No condition on the steps of a run. -/
def Any : σ → List α → ε → Prop := fun _ _ _ => True

/-- Every event meets `C` in the state it is read in. -/
def Holds (C : σ → ε → Prop) : List ε → σ → Prop
  | [], _ => True
  | e :: es, s => C s e ∧ ∀ s' l, M.step e s = .ok (s', l) → Holds C es s'

/-- `Holds`, for a condition that can be computed. -/
def checks (c : σ → ε → Bool) : List ε → σ → Bool
  | [], _ => true
  | e :: es, s => c s e &&
    match M.step e s with
    | .error _ => true
    | .ok (s', _) => checks c es s'

variable {M} {Init : σ → Prop} {Ok Ok' : σ → List α → ε → Prop}

theorem holds_of_checks {C : σ → ε → Prop} {c : σ → ε → Bool} (hc : ∀ s e, c s e = true → C s e) :
    ∀ (es : List ε) (s : σ), M.checks c es s = true → M.Holds C es s := by
  intro es
  induction es with
  | nil => exact fun _ _ => trivial
  | cons e es ih =>
    intro s h
    obtain ⟨he, hes⟩ := (Bool.and_eq_true _ _).mp h
    refine ⟨hc s e he, fun s' l hs => ih s' ?_⟩
    rwa [hs] at hes

/-- The induction over a run; a step may use that its source state is reachable. -/
theorem Reach.invariant {I : σ → List α → Prop} (h0 : ∀ s, Init s → I s [])
    (hstep : ∀ s log e s' l, M.Reach Init Ok s log → I s log → Ok s log e →
      M.step e s = .ok (s', l) → I s' (log ++ l))
    {s : σ} {log : List α} (h : M.Reach Init Ok s log) : I s log := by
  induction h with
  | start hs => exact h0 _ hs
  | step hr hok hs ih => exact hstep _ _ _ _ _ hr ih hok hs

theorem Reach.mono (himp : ∀ s log e, Ok s log e → Ok' s log e) {s : σ} {log : List α}
    (h : M.Reach Init Ok s log) : M.Reach Init Ok' s log := by
  induction h with
  | start hs => exact .start hs
  | step _ hok hs ih => exact ih.step (himp _ _ _ hok) hs

theorem Reach.any {s : σ} {log : List α} (h : M.Reach Init Ok s log) : M.Reach Init Any s log :=
  h.mono fun _ _ _ _ => trivial

theorem run_cons {e : ε} {es : List ε} {s s' s'' : σ} {l l' : List α} (hs : M.step e s = .ok (s', l))
    (hr : M.run es s' = .ok (s'', l')) : M.run (e :: es) s = .ok (s'', l ++ l') := by
  rw [Machine.run, hs]
  simp only [hr]

theorem run_append {es es' : List ε} {s s' s'' : σ} {l l' : List α} (hs : M.run es s = .ok (s', l))
    (hr : M.run es' s' = .ok (s'', l')) : M.run (es ++ es') s = .ok (s'', l ++ l') := by
  induction es generalizing s l with
  | nil =>
    cases hs
    exact hr
  | cons e es ih =>
    rw [Machine.run] at hs
    split at hs
    · cases hs
    · rename_i s₁ l₁ hstep
      split at hs
      · cases hs
      · rename_i s₂ l₂ hrest
        cases hs
        rw [List.append_assoc]
        exact run_cons hstep (ih hrest)

theorem Reach.run {C : σ → ε → Prop} (hC : ∀ s log e, C s e → Ok s log e) :
    ∀ (es : List ε) {s s' : σ} {log l : List α}, M.Reach Init Ok s log → M.Holds C es s →
      M.run es s = .ok (s', l) → M.Reach Init Ok s' (log ++ l) := by
  intro es
  induction es with
  | nil =>
    intro s s' log l h _ hr
    simp only [Machine.run, Except.ok.injEq, Prod.mk.injEq] at hr
    obtain ⟨rfl, rfl⟩ := hr
    rwa [List.append_nil]
  | cons e es ih =>
    intro s s' log l h hC' hr
    rw [Machine.run] at hr
    split at hr
    · cases hr
    · rename_i s₁ l₁ hs
      split at hr
      · cases hr
      · rename_i s₂ l₂ hr'
        simp only [Except.ok.injEq, Prod.mk.injEq] at hr
        obtain ⟨rfl, rfl⟩ := hr
        rw [← List.append_assoc]
        exact ih (h.step (hC _ _ _ hC'.1) hs) (hC'.2 _ _ hs) hr'

theorem Holds.of_forall {C : σ → ε → Prop} :
    ∀ (es : List ε) (s : σ), (∀ e ∈ es, ∀ s, C s e) → M.Holds C es s := by
  intro es
  induction es with
  | nil => exact fun _ _ => trivial
  | cons e es ih =>
    exact fun s h => ⟨h e List.mem_cons_self s, fun s' _ _ =>
      ih s' fun e' he' => h e' (List.mem_cons_of_mem e he')⟩

theorem Holds.append_left {C : σ → ε → Prop} :
    ∀ {es es' : List ε} {s : σ}, M.Holds C (es ++ es') s → M.Holds C es s := by
  intro es
  induction es with
  | nil => exact fun _ => trivial
  | cons e es ih => exact fun h => ⟨h.1, fun s' l hs => ih (h.2 s' l hs)⟩

theorem Reach.runAny (es : List ε) {s s' : σ} {log l : List α} (h : M.Reach Init Any s log)
    (hr : M.run es s = .ok (s', l)) : M.Reach Init Any s' (log ++ l) :=
  h.run (C := fun _ _ => True) (fun _ _ _ _ => trivial) es (.of_forall es s fun _ _ _ => trivial) hr

/-- When a step faults exactly outside `C`, a run faults exactly when some event misses `C`. -/
theorem run_ok_iff {C : σ → ε → Prop} {I : σ → Prop}
    (hI : ∀ s e s' l, I s → M.step e s = .ok (s', l) → I s')
    (hC : ∀ s e, I s → ((∃ r, M.step e s = .ok r) ↔ C s e)) :
    ∀ (es : List ε) (s : σ), I s → ((∃ r, M.run es s = .ok r) ↔ M.Holds C es s) := by
  intro es
  induction es with
  | nil => intro s _; simp [Machine.run, Holds]
  | cons e es ih =>
    intro s hs
    constructor
    · rintro ⟨r, hr⟩
      rw [Machine.run] at hr
      split at hr
      · cases hr
      · rename_i s₁ l₁ hstep
        refine ⟨(hC s e hs).mp ⟨_, hstep⟩, fun s' l hs' => ?_⟩
        rw [hstep] at hs'
        cases hs'
        refine (ih s₁ (hI _ _ _ _ hs hstep)).mp ?_
        split at hr
        · cases hr
        · rename_i r' hr'
          exact ⟨_, hr'⟩
    · rintro ⟨hc, hrest⟩
      obtain ⟨⟨s₁, l₁⟩, hstep⟩ := (hC s e hs).mpr hc
      obtain ⟨⟨s₂, l₂⟩, hrun⟩ := (ih s₁ (hI _ _ _ _ hs hstep)).mpr (hrest _ _ hstep)
      exact ⟨(s₂, l₁ ++ l₂), run_cons hstep hrun⟩

/-- Refinement: when every step of `M` is a step of `N` on a part of its state and log, or leaves that
part alone, the runs of `M` are runs of `N`. -/
theorem Reach.project {τ η β : Type} {N : Machine τ η β φ} {Init' : τ → Prop}
    {Ok' : τ → List β → η → Prop} (f : σ → τ) (g : α → Option β)
    (h0 : ∀ s, Init s → Init' (f s))
    (hstep : ∀ s log e s' l, Ok s log e → M.step e s = .ok (s', l) →
      (f s' = f s ∧ l.filterMap g = []) ∨
        ∃ e', Ok' (f s) (log.filterMap g) e' ∧ N.step e' (f s) = .ok (f s', l.filterMap g))
    {s : σ} {log : List α} (h : M.Reach Init Ok s log) :
    N.Reach Init' Ok' (f s) (log.filterMap g) := by
  induction h with
  | start hs => exact .start (h0 _ hs)
  | step hr hok hs ih =>
    rw [List.filterMap_append]
    rcases hstep _ _ _ _ _ hok hs with ⟨hf, hl⟩ | ⟨e', hok', hs'⟩
    · rw [hf, hl, List.append_nil]
      exact ih
    · exact ih.step hok' hs'

/-- The machine that reads the events of a batch in one step. -/
def batch {ι : Type} (M : Machine σ ε α φ) (events : ι → List ε) : Machine σ ι α φ where
  step i s := M.run (events i) s

theorem Reach.unbatch {ι : Type} {events : ι → List ε} {s : σ} {log : List α}
    (h : (M.batch events).Reach Init Any s log) : M.Reach Init Any s log := by
  induction h with
  | start hs => exact .start hs
  | step _ _ hs ih => exact ih.runAny _ hs

/-! ## Histories -/

variable {γ : Type}

/-- The machine with a history beside its state: what `f` makes of the step just taken. -/
def observe (M : Machine σ ε α φ) (f : γ → σ → ε → List α → σ → γ) : Machine (σ × γ) ε α φ where
  step e s :=
    match M.step e s.1 with
    | .error x => .error x
    | .ok (s', l) => .ok ((s', f s.2 s.1 e l s'), l)

variable {f : γ → σ → ε → List α → σ → γ} {Init₂ : σ × γ → Prop}
  {Ok₂ : σ × γ → List α → ε → Prop}

theorem observe_step {e : ε} {s s' : σ × γ} {l : List α} :
    (M.observe f).step e s = .ok (s', l) ↔
      M.step e s.1 = .ok (s'.1, l) ∧ s'.2 = f s.2 s.1 e l s'.1 := by
  obtain ⟨s, g⟩ := s
  obtain ⟨s', g'⟩ := s'
  simp only [observe]
  cases M.step e s with
  | error x => simp
  | ok r =>
    obtain ⟨s₁, l₁⟩ := r
    simp only [Except.ok.injEq, Prod.mk.injEq]
    constructor
    · rintro ⟨⟨rfl, rfl⟩, rfl⟩
      exact ⟨⟨rfl, rfl⟩, rfl⟩
    · rintro ⟨⟨rfl, rfl⟩, rfl⟩
      exact ⟨⟨rfl, rfl⟩, rfl⟩

theorem observe_run {k : γ → ε → γ} {es : List ε} {s s' : σ} {l : List α} (g : γ) (h : M.run es s = .ok (s', l)) :
    (M.observe fun g _ e _ _ => k g e).run es (s, g) = .ok ((s', es.foldl k g), l) := by
  induction es generalizing s l g with
  | nil =>
    cases h
    rfl
  | cons e es ih =>
    rw [Machine.run] at h
    split at h
    · cases h
    · rename_i s₁ l₁ hstep
      split at h
      · cases h
      · rename_i s₂ l₂ hrest
        cases h
        exact run_cons (observe_step.mpr ⟨hstep, rfl⟩) (ih _ hrest)

/-- The history does not change what the machine does. -/
theorem Reach.forget {Ok' : σ → List α → ε → Prop} (h0 : ∀ s, Init₂ s → Init s.1)
    (hok : ∀ s log e, Ok₂ s log e → Ok' s.1 log e) {s : σ × γ} {log : List α}
    (h : (M.observe f).Reach Init₂ Ok₂ s log) : M.Reach Init Ok' s.1 log := by
  induction h with
  | start hs => exact .start (h0 _ hs)
  | step _ hok' hs ih => exact ih.step (hok _ _ _ hok') (observe_step.mp hs).1

end Machine

/-! ## Steps in pieces -/

/-- Moves one after another, and the actions they log. -/
inductive Path {σ α : Type} (Move : σ → List α → σ → Prop) (s : σ) : List α → σ → Prop
  | refl : Path Move s [] s
  | tail {s' s'' : σ} {l l' : List α} : Path Move s l s' → Move s' l' s'' → Path Move s (l ++ l') s''

namespace Path

variable {σ α : Type} {Move : σ → List α → σ → Prop} {s s' s'' : σ} {log l l' : List α}

theorem single (h : Move s l s') : Path Move s l s' := Path.refl.tail h

theorem trans (h : Path Move s l s') (h' : Path Move s' l' s'') : Path Move s (l ++ l') s'' := by
  induction h' with
  | refl => rwa [List.append_nil]
  | tail _ hm ih =>
    rw [← List.append_assoc]
    exact ih.tail hm

theorem invariant {I : σ → List α → Prop}
    (hI : ∀ s log l s', I s log → Move s l s' → I s' (log ++ l)) (h : Path Move s l s')
    (hs : I s log) : I s' (log ++ l) := by
  induction h with
  | refl => rwa [List.append_nil]
  | tail _ hm ih =>
    rw [← List.append_assoc]
    exact hI _ _ _ _ ih hm

theorem invariant_nil {I : σ → List α → Prop}
    (hI : ∀ s log l s', I s log → Move s l s' → I s' (log ++ l)) (h : Path Move s l s')
    (hs : I s []) : I s' l := h.invariant hI hs

end Path

/-! ## Properties of a log -/

/-- Every action meets `Q` together with the log before it. -/
def Always {α : Type} (Q : List α → α → Prop) (log : List α) : Prop :=
  ∀ pre a post, log = pre ++ a :: post → Q pre a

variable {α : Type} {Q : List α → α → Prop} {log l : List α} {a : α}

theorem always_nil : Always Q [] := fun pre a post h => by simp at h

theorem Always.mem (h : Always Q log) (ha : a ∈ log) : ∃ pre, Q pre a := by
  obtain ⟨pre, post, hlog⟩ := List.append_of_mem ha
  exact ⟨pre, h pre a post hlog⟩

theorem always_concat : Always Q (log ++ [a]) ↔ Always Q log ∧ Q log a := by
  constructor
  · intro h
    refine ⟨fun pre b post hl => h pre b (post ++ [a]) (by simp [hl]), h log a [] rfl⟩
  · rintro ⟨hlog, ha⟩ pre b post hl
    rcases List.eq_nil_or_concat post with rfl | ⟨post, c, rfl⟩
    · obtain ⟨rfl, hab⟩ := List.append_inj' hl rfl
      cases hab
      exact ha
    · rw [List.concat_eq_append, ← List.cons_append, ← List.append_assoc] at hl
      obtain ⟨hl, -⟩ := List.append_inj' hl rfl
      exact hlog pre b post hl

end Bittorrent
