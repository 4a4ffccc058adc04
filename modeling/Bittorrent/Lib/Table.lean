import Mathlib.Data.List.Nodup
import Mathlib.Logic.Function.Basic
import Mathlib.Tactic.Common

/-!
# Tables of rows looked up by key

A table is a list of rows, each with a key. `lookup key k t` is the first row with key `k`, with its
position. The rules below say what `lookup` finds, that it does not see a row change that keeps the
keys, and how the row at a position and the number of rows with a property change under `List.set`.
`Distinct` is the usual uniqueness invariant, for all keys but the one that marks a free row; for a
table without free rows it is that the list of its keys has no duplicates. `find` is such a table as a
finite map from keys to rows: a row put in front, changed in place or removed is an update of the map.
-/

namespace Bittorrent.Table

variable {α κ : Type} [DecidableEq κ]

/-- The first row with key `k`, and its position. -/
def lookup (key : α → κ) (k : κ) : List α → Option (Nat × α)
  | [] => none
  | a :: t => if key a = k then some (0, a) else (lookup key k t).map fun r => (r.1 + 1, r.2)

variable {key : α → κ} {k : κ} {t : List α} {i j : Nat} {a b : α}

theorem lookup_eq_some : lookup key k t = some (i, a) ↔
    t[i]? = some a ∧ key a = k ∧ ∀ (j : Nat) (b : α), j < i → t[j]? = some b → key b ≠ k := by
  induction t generalizing i with
  | nil => simp [lookup]
  | cons c t ih =>
    rw [lookup]
    split_ifs with hc
    · constructor
      · intro h
        simp only [Option.some.injEq, Prod.mk.injEq] at h
        obtain ⟨rfl, rfl⟩ := h
        exact ⟨rfl, hc, fun j b hj => absurd hj (Nat.not_lt_zero j)⟩
      · rintro ⟨hi, hk, hmin⟩
        cases i with
        | zero => simpa using hi
        | succ i => exact absurd hc (hmin 0 c (Nat.succ_pos i) rfl)
    · constructor
      · intro h
        obtain ⟨⟨n, r⟩, hr, he⟩ := Option.map_eq_some_iff.mp h
        simp only [Prod.mk.injEq] at he
        obtain ⟨rfl, rfl⟩ := he
        obtain ⟨h1, h2, h3⟩ := ih.mp hr
        refine ⟨by simpa using h1, h2, fun j b hj hb => ?_⟩
        cases j with
        | zero =>
          simp only [List.getElem?_cons_zero, Option.some.injEq] at hb
          exact hb ▸ hc
        | succ j => exact h3 j b (by omega) (by simpa using hb)
      · rintro ⟨hi, hk, hmin⟩
        cases i with
        | zero =>
          simp only [List.getElem?_cons_zero, Option.some.injEq] at hi
          exact absurd (hi ▸ hk) hc
        | succ i =>
          refine Option.map_eq_some_iff.mpr ⟨(i, a), ih.mpr ⟨by simpa using hi, hk, ?_⟩, rfl⟩
          exact fun j b hj hb => hmin (j + 1) b (by omega) (by simpa using hb)

theorem lookup_get (h : lookup key k t = some (i, a)) : t[i]? = some a := (lookup_eq_some.mp h).1

theorem lookup_key (h : lookup key k t = some (i, a)) : key a = k := (lookup_eq_some.mp h).2.1

theorem lookup_lt (h : lookup key k t = some (i, a)) : i < t.length :=
  (List.getElem?_eq_some_iff.mp (lookup_get h)).1

theorem lookup_eq_none :
    lookup key k t = none ↔ ∀ (i : Nat) (a : α), t[i]? = some a → key a ≠ k := by
  induction t with
  | nil => simp [lookup]
  | cons c t ih =>
    rw [lookup]
    split_ifs with hc
    · simp only [false_iff]
      exact fun h => h 0 c rfl hc
    · rw [Option.map_eq_none_iff, ih]
      constructor
      · intro h i a ha
        cases i with
        | zero =>
          simp only [List.getElem?_cons_zero, Option.some.injEq] at ha
          exact ha ▸ hc
        | succ i => exact h i a (by simpa using ha)
      · exact fun h i a ha => h (i + 1) a (by simpa using ha)

theorem lookup_exists (h : t[i]? = some a) (hk : key a = k) :
    ∃ j b, lookup key k t = some (j, b) ∧ j ≤ i := by
  cases hl : lookup key k t with
  | none => exact absurd hk (lookup_eq_none.mp hl i a h)
  | some r =>
    obtain ⟨j, b⟩ := r
    refine ⟨j, b, rfl, ?_⟩
    by_contra hlt
    exact (lookup_eq_some.mp hl).2.2 i a (by omega) h hk

theorem lookup_map {β : Type} (f : α → β) {key : β → κ} :
    lookup key k (t.map f) = (lookup (fun a => key (f a)) k t).map fun r => (r.1, f r.2) := by
  induction t with
  | nil => rfl
  | cons c t ih =>
    rw [List.map_cons, lookup, lookup, ih]
    split_ifs
    · rfl
    · simp [Option.map_map, Function.comp_def]

theorem get_set (h : i < t.length) : (t.set i b)[j]? = if i = j then some b else t[j]? := by
  rw [List.getElem?_set]
  split_ifs with hij
  · subst hij
    rfl
  · rfl

theorem get_set_self (h : i < t.length) : (t.set i b)[i]? = some b := by
  rw [get_set h, if_pos rfl]

theorem get_set_ne (h : i ≠ j) : (t.set i b)[j]? = t[j]? := List.getElem?_set_ne h

theorem get_set_cases (h : i < t.length) (hj : (t.set i b)[j]? = some a) :
    (j = i ∧ a = b) ∨ (j ≠ i ∧ t[j]? = some a) := by
  rw [get_set h] at hj
  split_ifs at hj with hij
  · exact Or.inl ⟨hij.symm, (Option.some.inj hj).symm⟩
  · exact Or.inr ⟨Ne.symm hij, hj⟩

theorem set_self (h : t[i]? = some a) : t.set i a = t := by
  apply List.ext_getElem?
  intro j
  obtain ⟨hi, ha⟩ := List.getElem?_eq_some_iff.mp h
  rw [get_set hi]
  split_ifs with hij
  · exact hij ▸ h.symm
  · rfl

/-- Writing a row with the same key back does not move the lookup of that key. -/
theorem lookup_set (h : lookup key k t = some (i, a)) (hb : key b = k) :
    lookup key k (t.set i b) = some (i, b) := by
  obtain ⟨-, -, hmin⟩ := lookup_eq_some.mp h
  refine lookup_eq_some.mpr ⟨get_set_self (lookup_lt h), hb, fun j c hj hc => ?_⟩
  rw [get_set_ne (by omega)] at hc
  exact hmin j c hj hc

theorem lookup_set_new (hn : lookup key k t = none) (h : i < t.length) (hb : key b = k) :
    lookup key k (t.set i b) = some (i, b) := by
  refine lookup_eq_some.mpr ⟨get_set_self h, hb, fun j c hj hc => ?_⟩
  rw [get_set_ne (by omega)] at hc
  exact lookup_eq_none.mp hn j c hc

theorem lookup_set_other (h : t[j]? = some a) (hb : key b = key a) (ha : key a ≠ k) :
    lookup key k (t.set j b) = lookup key k t := by
  induction t generalizing j with
  | nil => rfl
  | cons c t ih =>
    cases j with
    | zero =>
      obtain rfl : c = a := by simpa using h
      rw [List.set_cons_zero, lookup, lookup, if_neg (hb ▸ ha), if_neg ha]
    | succ j =>
      rw [List.set_cons_succ, lookup, lookup, ih (by simpa using h)]

/-- No two rows share a key, the key of free rows apart. -/
def Distinct (key : α → κ) (free : κ) (t : List α) : Prop :=
  ∀ (i j : Nat) (a b : α), t[i]? = some a → t[j]? = some b → key a = key b → key a ≠ free → i = j

omit [DecidableEq κ] in
theorem distinct_singleton (key : α → κ) (free : κ) (a : α) : Distinct key free [a] := by
  intro i j b c hi hj _ _
  have := (List.getElem?_eq_some_iff.mp hi).1
  have := (List.getElem?_eq_some_iff.mp hj).1
  simp only [List.length_singleton] at *
  omega

omit [DecidableEq κ] in
theorem Distinct.set {free : κ} (h : Distinct key free t) (hi : i < t.length)
    (hb : key b ≠ free → ∀ (j : Nat) (c : α), j ≠ i → t[j]? = some c → key c ≠ key b) :
    Distinct key free (t.set i b) := by
  intro j k c d hj hk hcd hne
  rcases get_set_cases hi hj with ⟨rfl, rfl⟩ | ⟨hji, hj'⟩
  · rcases get_set_cases hi hk with ⟨rfl, -⟩ | ⟨hki, hk'⟩
    · rfl
    · exact absurd hcd.symm (hb hne k d hki hk')
  · rcases get_set_cases hi hk with ⟨rfl, rfl⟩ | ⟨-, hk'⟩
    · exact absurd hcd (hb (hcd ▸ hne) j c hji hj')
    · exact h j k c d hj' hk' hcd hne

omit [DecidableEq κ] in
theorem Distinct.set_key {free : κ} (h : Distinct key free t) (hi : t[i]? = some a)
    (hb : key b = key a) : Distinct key free (t.set i b) := by
  refine h.set (List.getElem?_eq_some_iff.mp hi).1 fun hne j c hji hj hc => ?_
  have hij := h j i c a hj hi (hc.trans hb) (by rw [hc]; exact hne)
  exact hji hij

theorem Distinct.lookup_eq {free : κ} (h : Distinct key free t) (hi : t[i]? = some a)
    (hf : key a ≠ free) : lookup key (key a) t = some (i, a) := by
  obtain ⟨j, b, hl, -⟩ : ∃ j b, lookup key (key a) t = some (j, b) ∧ j ≤ i :=
    lookup_exists hi rfl
  have hj := h j i b a (lookup_get hl) hi (lookup_key hl) (by rw [lookup_key hl]; exact hf)
  subst hj
  have hb := lookup_get hl
  rw [hi] at hb
  cases hb
  exact hl

theorem countP_set {p : α → Bool} (h : t[i]? = some a) :
    (t.set i b).countP p + (if p a then 1 else 0) = t.countP p + (if p b then 1 else 0) := by
  obtain ⟨hi, ha⟩ := List.getElem?_eq_some_iff.mp h
  rw [List.countP_set hi, ha]
  have hpos : p a = true → 0 < t.countP p := fun hp =>
    List.countP_pos_iff.mpr ⟨a, ha ▸ List.getElem_mem hi, hp⟩
  split_ifs with hp
  · have hp := hpos hp
    omega
  · have hp := hpos hp
    omega
  · omega
  · omega

/-! ## Tables without free rows -/

omit [DecidableEq κ] in
theorem map_set_key (h : t[i]? = some a) (hb : key b = key a) : (t.set i b).map key = t.map key := by
  rw [List.map_set, hb]
  exact set_self (by rw [List.getElem?_map, h]; rfl)

omit [DecidableEq κ] in
theorem eq_of_nodup_key (hd : (t.map key).Nodup) (hi : t[i]? = some a) (hj : t[j]? = some b)
    (hab : key a = key b) : i = j := by
  obtain ⟨hlt, -⟩ := List.getElem?_eq_some_iff.mp hi
  refine (List.getElem?_inj (by rwa [List.length_map]) hd).mp ?_
  rw [List.getElem?_map, List.getElem?_map, hi, hj]
  exact congrArg some hab

omit [DecidableEq κ] in
theorem mem_set_key {c : α} (hd : (t.map key).Nodup) (h : t[i]? = some a) (hb : key b = key a) :
    c ∈ t.set i b ↔ c = b ∨ (c ∈ t ∧ key c ≠ key a) := by
  have hlt := (List.getElem?_eq_some_iff.mp h).1
  constructor
  · intro hc
    obtain ⟨j, hj⟩ := List.mem_iff_getElem?.mp hc
    rcases get_set_cases hlt hj with ⟨-, hcb⟩ | ⟨hne, hj⟩
    · exact Or.inl hcb
    · exact Or.inr ⟨List.mem_of_getElem? hj, fun hk => hne (eq_of_nodup_key hd hj h hk)⟩
  · rintro (rfl | ⟨hc, hk⟩)
    · exact List.mem_of_getElem? (get_set_self hlt)
    · obtain ⟨j, hj⟩ := List.mem_iff_getElem?.mp hc
      have hne : i ≠ j := by
        rintro rfl
        rw [h] at hj
        cases hj
        exact hk rfl
      exact List.mem_of_getElem? ((get_set_ne hne).trans hj)

theorem set_lookup (hd : (t.map key).Nodup) (h : lookup key k t = some (i, a)) (f : α → α) :
    t.set i (f a) = t.map fun b => if key b = k then f b else b := by
  have hkey : key a = k := lookup_key h
  apply List.ext_getElem?
  intro j
  rw [get_set (lookup_lt h), List.getElem?_map]
  split_ifs with hij
  · rw [← hij, lookup_get h, Option.map_some, if_pos hkey]
  · cases hj : t[j]? with
    | none => rfl
    | some b =>
      have hother : key b ≠ k := fun hb => hij (eq_of_nodup_key hd (lookup_get h) hj (hkey.trans hb.symm))
      rw [Option.map_some, if_neg hother]

theorem map_lookup_none (h : lookup key k t = none) (f : α → α) :
    (t.map fun b => if key b = k then f b else b) = t := by
  rw [List.map_congr_left (g := id), List.map_id]
  intro b hb
  obtain ⟨j, hj⟩ := List.mem_iff_getElem?.mp hb
  exact if_neg (lookup_eq_none.mp h j b hj)

theorem eraseP_key (hd : (t.map key).Nodup) :
    t.eraseP (fun a => decide (key a = k)) = t.filter fun a => decide (key a ≠ k) := by
  induction t with
  | nil => rfl
  | cons a t ih =>
    rw [List.map_cons, List.nodup_cons] at hd
    obtain ⟨hnew, hd⟩ := hd
    by_cases ha : key a = k
    · rw [List.eraseP_cons_of_pos (by simpa using ha), List.filter_cons_of_neg (by simpa using ha)]
      refine (List.filter_eq_self.mpr fun c hc => ?_).symm
      have hother : key c ≠ k := fun hk => hnew (List.mem_map.mpr ⟨c, hc, hk.trans ha.symm⟩)
      simpa using hother
    · rw [List.eraseP_cons_of_neg (by simpa using ha), List.filter_cons_of_pos (by simpa using ha),
        ih hd]

theorem mem_eraseP_key {c : α} (hd : (t.map key).Nodup) :
    c ∈ t.eraseP (fun a => decide (key a = k)) ↔ c ∈ t ∧ key c ≠ k := by
  rw [eraseP_key hd, List.mem_filter, decide_eq_true_eq]

/-! ## Tables as finite maps -/

/-- The row each key is looked up to. -/
def find (key : α → κ) (t : List α) : κ → Option α := fun k => (lookup key k t).map (·.2)

theorem find_eq_some (hd : (t.map key).Nodup) : find key t k = some a ↔ a ∈ t ∧ key a = k := by
  constructor
  · intro h
    obtain ⟨⟨i, b⟩, hl, hb⟩ := Option.map_eq_some_iff.mp h
    simp only at hb
    subst hb
    exact ⟨List.mem_of_getElem? (lookup_get hl), lookup_key hl⟩
  · rintro ⟨hmem, hk⟩
    obtain ⟨i, hi⟩ := List.mem_iff_getElem?.mp hmem
    obtain ⟨j, b, hl, -⟩ := lookup_exists hi hk
    obtain rfl : j = i := eq_of_nodup_key hd (lookup_get hl) hi ((lookup_key hl).trans hk.symm)
    rw [lookup_get hl] at hi
    rw [find, hl, Option.map_some, Option.some.inj hi]

theorem find_eq_none (h : lookup key k t = none) : find key t k = none := by
  rw [find, h, Option.map_none]

theorem find_cons (a : α) (t : List α) :
    find key (a :: t) = Function.update (find key t) (key a) (some a) := by
  funext k
  rw [find, lookup]
  by_cases hk : key a = k
  · rw [if_pos hk, ← hk, Function.update_self]
    rfl
  · rw [if_neg hk, Function.update_of_ne (Ne.symm hk), find, Option.map_map]
    rfl

theorem find_set (h : lookup key k t = some (i, a)) (hb : key b = k) :
    find key (t.set i b) = Function.update (find key t) k (some b) := by
  funext k'
  by_cases hk : k' = k
  · rw [hk, Function.update_self, find, lookup_set h hb, Option.map_some]
  · have hkey : key a = k := lookup_key h
    rw [Function.update_of_ne hk, find, find,
      lookup_set_other (lookup_get h) (hb.trans hkey.symm) (hkey ▸ Ne.symm hk)]

theorem find_eraseP (hd : (t.map key).Nodup) :
    find key (t.eraseP fun a => decide (key a = k)) = Function.update (find key t) k none := by
  have hd' : ((t.eraseP fun a => decide (key a = k)).map key).Nodup :=
    (List.eraseP_sublist.map key).nodup hd
  funext k'
  apply Option.ext
  intro a
  rw [find_eq_some hd', mem_eraseP_key hd]
  by_cases hk : k' = k
  · rw [hk, Function.update_self]
    simp only [reduceCtorEq, iff_false]
    exact fun h => h.1.2 h.2
  · rw [Function.update_of_ne hk, find_eq_some hd]
    exact ⟨fun h => ⟨h.1.1, h.2⟩, fun h => ⟨⟨h.1, fun ha => hk (h.2.symm.trans ha)⟩, h.2⟩⟩

end Bittorrent.Table
