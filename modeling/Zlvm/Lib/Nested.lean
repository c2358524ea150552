import Mathlib.Data.List.Basic

/-!
# Nested loops

A loop over a list whose body is a loop over a list of its own, as one list of visits.

* `Visit` — an inner item with the outer one and both indices.
* `visits` — all visits in the order of the loops; `position` — where a pair of indices comes.
* `map_visits`, `filterMap_visits`, `filterMap_visits_outer` — tables that the visits fill.
* `getElem?_visits` — the visit at a position, both ways; `position_inj` — positions tell pairs of
  indices apart; `position_lt` — an earlier pass of the outer loop comes first; `position_congr` —
  positions depend on the lengths of the inner lists only.
-/

namespace Nested

variable {α β γ : Type}

/-- One pass of the inner loop. -/
structure Visit (α β : Type) where
  outer : α
  outerIndex : ℕ
  inner : β
  innerIndex : ℕ

/-- The visits when the outer loop starts at index `k`. -/
def visitsFrom (f : α → List β) (l : List α) (k : ℕ) : List (Visit α β) :=
  (l.zipIdx k).flatMap fun (a, i) => (f a).zipIdx.map fun (b, j) => ⟨a, i, b, j⟩

/-- All visits, in order. -/
def visits (f : α → List β) (l : List α) : List (Visit α β) := visitsFrom f l 0

/-- The position among all visits of the inner index `j` at the outer index `i`. -/
def position (f : α → List β) (l : List α) (i j : ℕ) : ℕ :=
  ((l.take i).flatMap f).length + j

@[simp] theorem visitsFrom_nil (f : α → List β) (k : ℕ) : visitsFrom f [] k = [] := rfl

theorem visitsFrom_cons (f : α → List β) (a : α) (l : List α) (k : ℕ) :
    visitsFrom f (a :: l) k
      = ((f a).zipIdx.map fun (b, j) => (⟨a, k, b, j⟩ : Visit α β)) ++ visitsFrom f l (k + 1) := rfl

@[simp] theorem position_zero (f : α → List β) (l : List α) (j : ℕ) : position f l 0 j = j := by
  simp [position]

theorem position_succ (f : α → List β) (a : α) (l : List α) (i j : ℕ) :
    position f (a :: l) (i + 1) j = (f a).length + position f l i j := by
  simp [position, Nat.add_assoc]

theorem getElem?_visitsFrom (f : α → List β) : ∀ (l : List α) (k p : ℕ) (v : Visit α β),
    (visitsFrom f l k)[p]? = some v ↔
      ∃ i, v.outerIndex = k + i ∧ l[i]? = some v.outer ∧
        (f v.outer)[v.innerIndex]? = some v.inner ∧ p = position f l i v.innerIndex
  | [], k, p, v => by simp
  | a :: l, k, p, v => by
      have ih := getElem?_visitsFrom f l (k + 1)
      rw [visitsFrom_cons]
      by_cases hp : p < (f a).length
      · -- the first pass of the outer loop
        rw [List.getElem?_append_left (by simpa using hp), List.getElem?_map]
        constructor
        · intro h
          obtain ⟨⟨b, j⟩, hb, rfl⟩ := Option.map_eq_some_iff.mp h
          rw [List.getElem?_zipIdx] at hb
          obtain ⟨b', hb', heq⟩ := Option.map_eq_some_iff.mp hb
          cases heq
          exact ⟨0, rfl, rfl, by simpa using hb', by simp⟩
        · rintro ⟨i, hi, hl, hf, hpos⟩
          cases i with
          | zero =>
              obtain ⟨outer, outerIndex, inner, innerIndex⟩ := v
              simp only [List.getElem?_cons_zero, Option.some.injEq] at hl
              simp only [position_zero] at hpos
              subst hl hpos
              simp only [Nat.add_zero] at hi hf
              subst hi
              simp [List.getElem?_zipIdx, hf]
          | succ i =>
              rw [position_succ] at hpos
              omega
      · -- a later one
        rw [List.getElem?_append_right (by simpa using hp), ih]
        simp only [List.length_map, List.length_zipIdx]
        constructor
        · rintro ⟨i, hi, hl, hf, hpos⟩
          refine ⟨i + 1, by omega, by simpa using hl, hf, ?_⟩
          rw [position_succ]
          omega
        · rintro ⟨i, hi, hl, hf, hpos⟩
          cases i with
          | zero =>
              simp only [List.getElem?_cons_zero, Option.some.injEq] at hl
              simp only [position_zero] at hpos
              have := (List.getElem?_eq_some_iff.mp hf).1
              subst hl
              omega
          | succ i =>
              rw [position_succ] at hpos
              exact ⟨i, by omega, by simpa using hl, hf, by omega⟩

/-- **The visit at a position** has the items at its two indices, and the position is theirs. -/
theorem getElem?_visits {f : α → List β} {l : List α} {p : ℕ} {v : Visit α β} :
    (visits f l)[p]? = some v ↔
      l[v.outerIndex]? = some v.outer ∧ (f v.outer)[v.innerIndex]? = some v.inner ∧
        p = position f l v.outerIndex v.innerIndex := by
  rw [visits, getElem?_visitsFrom]
  constructor
  · rintro ⟨i, hi, h⟩
    rw [Nat.zero_add] at hi
    rw [hi]
    exact h
  · intro h
    exact ⟨v.outerIndex, by simp, h⟩

/-- A pair of indices is visited. -/
theorem getElem?_position {f : α → List β} {l : List α} {i j : ℕ} {a : α} {b : β}
    (ha : l[i]? = some a) (hb : (f a)[j]? = some b) :
    (visits f l)[position f l i j]? = some ⟨a, i, b, j⟩ :=
  getElem?_visits.mpr ⟨ha, hb, rfl⟩

/-- Two pairs of indices that are visited at the same position are the same. -/
theorem position_inj {f : α → List β} {l : List α} {i j i' j' : ℕ} {a a' : α} {b b' : β}
    (ha : l[i]? = some a) (hb : (f a)[j]? = some b) (ha' : l[i']? = some a')
    (hb' : (f a')[j']? = some b') (h : position f l i j = position f l i' j') :
    i' = i ∧ j' = j := by
  have hvisit := getElem?_position ha hb
  rw [h, getElem?_position ha' hb'] at hvisit
  cases hvisit
  exact ⟨rfl, rfl⟩

/-- What is visited in an earlier pass of the outer loop is visited before. -/
theorem position_lt {f : α → List β} {l : List α} {i j i' j' : ℕ} {a : α} {b : β}
    (ha : l[i]? = some a) (hb : (f a)[j]? = some b) (h : i < i') :
    position f l i j < position f l i' j' := by
  have hj := (List.getElem?_eq_some_iff.mp hb).1
  have htake : l.take i' = l.take i ++ a :: (l.drop (i + 1)).take (i' - (i + 1)) := by
    obtain ⟨n, rfl⟩ := Nat.exists_eq_add_of_le h
    rw [Nat.succ_eq_add_one, List.take_add, List.take_add_one, ha, Nat.add_sub_cancel_left,
      List.append_assoc]
    rfl
  rw [position, position, htake, List.flatMap_append, List.flatMap_cons, List.length_append,
    List.length_append]
  omega

theorem mem_visits {f : α → List β} {l : List α} {v : Visit α β} :
    v ∈ visits f l ↔
      l[v.outerIndex]? = some v.outer ∧ (f v.outer)[v.innerIndex]? = some v.inner := by
  rw [List.mem_iff_getElem?]
  constructor
  · rintro ⟨p, hp⟩
    obtain ⟨ha, hb, -⟩ := getElem?_visits.mp hp
    exact ⟨ha, hb⟩
  · rintro ⟨ha, hb⟩
    exact ⟨_, getElem?_position ha hb⟩

theorem map_inner_visitsFrom (f : α → List β) : ∀ (l : List α) (k : ℕ),
    (visitsFrom f l k).map (·.inner) = l.flatMap f
  | [], _ => rfl
  | a :: l, k => by
      rw [visitsFrom_cons, List.map_append, map_inner_visitsFrom f l, List.map_map,
        List.flatMap_cons]
      congr 1
      exact List.zipIdx_map_fst _ _

/-- The inner items, in the order of the visits. -/
theorem map_inner_visits (f : α → List β) (l : List α) :
    (visits f l).map (·.inner) = l.flatMap f := map_inner_visitsFrom f l 0

theorem map_visitsFrom (f : α → List β) (g : α → β → ℕ → γ) : ∀ (l : List α) (k : ℕ),
    (visitsFrom f l k).map (fun v => g v.outer v.inner v.innerIndex)
      = l.flatMap fun a => (f a).zipIdx.map fun (b, j) => g a b j
  | [], _ => rfl
  | a :: l, k => by
      rw [visitsFrom_cons, List.map_append, map_visitsFrom f g l, List.map_map, List.flatMap_cons]
      rfl

/-- **A table** with an entry for each visit. -/
theorem map_visits (f : α → List β) (g : α → β → ℕ → γ) (l : List α) :
    (visits f l).map (fun v => g v.outer v.inner v.innerIndex)
      = l.flatMap fun a => (f a).zipIdx.map fun (b, j) => g a b j := map_visitsFrom f g l 0

theorem filterMap_visitsFrom (f : α → List β) (g : α → β → Option γ) : ∀ (l : List α) (k : ℕ),
    (visitsFrom f l k).filterMap (fun v => g v.outer v.inner)
      = l.flatMap fun a => (f a).filterMap (g a)
  | [], _ => rfl
  | a :: l, k => by
      have hfirst : ((f a).zipIdx.map fun (b, j) => (⟨a, k, b, j⟩ : Visit α β)).filterMap
          (fun v => g v.outer v.inner) = (f a).filterMap (g a) := by
        conv_rhs => rw [← List.zipIdx_map_fst 0 (f a), List.filterMap_map]
        rw [List.filterMap_map]
        rfl
      rw [visitsFrom_cons, List.filterMap_append, filterMap_visitsFrom f g l, hfirst,
        List.flatMap_cons]

/-- **A table** with an entry for some visits. -/
theorem filterMap_visits (f : α → List β) (g : α → β → Option γ) (l : List α) :
    (visits f l).filterMap (fun v => g v.outer v.inner)
      = l.flatMap fun a => (f a).filterMap (g a) := filterMap_visitsFrom f g l 0

theorem outerIndex_visitsFrom {f : α → List β} {l : List α} {k : ℕ} {v : Visit α β}
    (h : v ∈ visitsFrom f l k) : k ≤ v.outerIndex := by
  obtain ⟨p, hp⟩ := List.mem_iff_getElem?.mp h
  obtain ⟨i, hi, -⟩ := (getElem?_visitsFrom f l k p v).mp hp
  omega

theorem filterMap_visitsFrom_outer (f : α → List β) (h : β → Option γ) : ∀ (l : List α) (k i : ℕ)
    {a : α}, l[i]? = some a →
      (visitsFrom f l k).filterMap (fun v => if v.outerIndex = k + i then h v.inner else none)
        = (f a).filterMap h
  | [], _, _, _, ha => by simp at ha
  | a :: l, k, 0, a', ha => by
      obtain rfl := Option.some.inj ha
      have hfirst := filterMap_visitsFrom f (fun _ => h) [a] k
      have hrest : (visitsFrom f l (k + 1)).filterMap
          (fun v => if v.outerIndex = k + 0 then h v.inner else none) = [] := by
        refine List.filterMap_eq_nil_iff.mpr fun v hv => if_neg ?_
        have hle := outerIndex_visitsFrom hv
        omega
      rw [visitsFrom_cons, visitsFrom_nil, List.append_nil, List.flatMap_singleton] at hfirst
      rw [visitsFrom_cons, List.filterMap_append, hrest, List.append_nil, ← hfirst]
      simp only [List.filterMap_map, Function.comp_def, Nat.add_zero, if_true]
  | a :: l, k, i + 1, a', ha => by
      have hfirst : ((f a).zipIdx.map fun (b, j) => (⟨a, k, b, j⟩ : Visit α β)).filterMap
          (fun v => if v.outerIndex = k + (i + 1) then h v.inner else none) = [] := by
        refine List.filterMap_eq_nil_iff.mpr fun v hv => if_neg ?_
        obtain ⟨_, _, rfl⟩ := List.mem_map.mp hv
        dsimp only
        omega
      rw [visitsFrom_cons, List.filterMap_append, hfirst, List.nil_append,
        ← filterMap_visitsFrom_outer f h l (k + 1) i ha, Nat.succ_add_eq_add_succ]

/-- **A table** with an entry for some visits of one pass of the outer loop. -/
theorem filterMap_visits_outer {f : α → List β} {l : List α} {i : ℕ} {a : α} {g : Visit α β → Option γ}
    {h : β → Option γ} (ha : l[i]? = some a)
    (hg : ∀ v ∈ visits f l, g v = if v.outerIndex = i then h v.inner else none) :
    (visits f l).filterMap g = (f a).filterMap h := by
  rw [List.filterMap_congr hg, ← filterMap_visitsFrom_outer f h l 0 i ha, Nat.zero_add]
  rfl

/-- Positions depend on the lengths of the inner lists only. -/
theorem position_congr {δ : Type} {f : α → List β} {g : γ → List δ} {l : List α} {l' : List γ}
    (h : l.map (fun a => (f a).length) = l'.map fun c => (g c).length) (i j : ℕ) :
    position f l i j = position g l' i j := by
  have htake := congrArg (List.take i) h
  rw [← List.map_take, ← List.map_take] at htake
  rw [position, position, List.length_flatMap, List.length_flatMap, htake]

end Nested
