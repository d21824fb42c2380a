import ModelChecker.Pdr.Engine

/-!
# Ordered sets of cubes, frames and state objects

Reading back what `setInsert`, `sortLits` and the updates of `frames` and `states` do.
-/

namespace ModelChecker

open Logic

/-! ## Sets -/

section Sets

variable {α : Type} {lt : α → α → Bool}

/-- Elements that the order does not separate are equal. -/
def Separates (lt : α → α → Bool) : Prop := ∀ a b, lt a b = false → lt b a = false → a = b

theorem mem_setInsert (ht : Separates lt) {x y : α} {l : List α} :
    y ∈ setInsert lt x l ↔ y = x ∨ y ∈ l := by
  induction l with
  | nil => simp [setInsert]
  | cons z l ih =>
      unfold setInsert
      split
      · simp
      · split
        · simp only [List.mem_cons, ih]
          tauto
        · rename_i h1 h2
          obtain rfl := ht x z (by simpa using h1) (by simpa using h2)
          simp

theorem nodup_setInsert (ht : Separates lt) {x : α} {l : List α} (hx : x ∉ l) (hl : l.Nodup) :
    (setInsert lt x l).Nodup := by
  induction l with
  | nil => simp [setInsert]
  | cons z l ih =>
      simp only [List.mem_cons, not_or] at hx
      obtain ⟨hz, hl⟩ := List.nodup_cons.mp hl
      unfold setInsert
      split
      · simp [hx, hz, hl]
      · split
        · refine List.nodup_cons.mpr ⟨?_, ih hx.2 hl⟩
          rw [mem_setInsert ht]
          rintro (h | h)
          · exact hx.1 h.symm
          · exact hz h
        · exact List.nodup_cons.mpr ⟨hz, hl⟩

end Sets

theorem lexLt_separates {a b : Cube} (hl : a.length = b.length) (h1 : lexLt a b = false)
    (h2 : lexLt b a = false) : a = b := by
  induction a generalizing b with
  | nil => cases b with
    | nil => rfl
    | cons y b => simp at hl
  | cons x a ih => cases b with
    | nil => simp at hl
    | cons y b =>
        unfold lexLt at h1 h2
        by_cases hxy : x = y
        · subst hxy
          simp only [ne_eq, not_true_eq_false, ↓reduceIte] at h1 h2
          rw [ih (by simpa using hl) h1 h2]
        · simp only [ne_eq, hxy, Ne.symm hxy, not_false_eq_true, ↓reduceIte,
            decide_eq_false_iff_not] at h1 h2
          omega

theorem cube_CMP_separates : Separates Cube_CMP := by
  intro a b h1 h2
  unfold Cube_CMP at h1 h2
  by_cases hl : a.length = b.length
  · simp only [hl, ne_eq, not_true_eq_false, ↓reduceIte] at h1 h2
    exact lexLt_separates hl h1 h2
  · simp only [ne_eq, hl, Ne.symm hl, not_false_eq_true, ↓reduceIte, decide_eq_false_iff_not] at h1 h2
    omega

theorem obligation_separates : Separates Obligation.lt := by
  intro a b h1 h2
  unfold Obligation.lt at h1 h2
  obtain ⟨s, k, d⟩ := a
  obtain ⟨s', k', d'⟩ := b
  simp only at h1 h2
  split_ifs at h1 h2
  simp_all
  omega

/-! ## Sorting -/

theorem perm_sortLits (c : Cube) : (sortLits c).Perm c := List.perm_insertionSort _ c

theorem mem_sortLits {c : Cube} {l : Int} : l ∈ sortLits c ↔ l ∈ c := (perm_sortLits c).mem_iff

theorem length_sortLits (c : Cube) : (sortLits c).length = c.length := (perm_sortLits c).length_eq

theorem lit_CMP_total (a b : Int) : Lit_CMP b a = false ∨ Lit_CMP a b = false := by
  unfold Lit_CMP
  by_cases h : a.natAbs = b.natAbs
  · simp only [h, ↓reduceIte, decide_eq_false_iff_not]; omega
  · simp only [h, Ne.symm h, ↓reduceIte, decide_eq_false_iff_not]; omega

theorem lit_CMP_trans (a b c : Int) (h1 : Lit_CMP b a = false) (h2 : Lit_CMP c b = false) :
    Lit_CMP c a = false := by
  unfold Lit_CMP at *
  split_ifs at * <;> simp only [decide_eq_false_iff_not] at * <;> omega

/-- Sorting a sorted cube changes nothing. -/
theorem sortLits_sortLits (c : Cube) : sortLits (sortLits c) = sortLits c := by
  have : Std.Total fun a b => Lit_CMP b a = false := ⟨lit_CMP_total⟩
  have : IsTrans Int fun a b => Lit_CMP b a = false := ⟨lit_CMP_trans⟩
  exact (List.pairwise_insertionSort _ c).insertionSort_eq

/-! ## Frames and states -/

namespace PDR

variable {p : PDR}

theorem frame_of_ge {k : Nat} (h : p.frames.length ≤ k) : p.frame k = {} := by
  simp [frame, List.getD_eq_getElem?_getD, List.getElem?_eq_none h, default]

theorem lt_length_of_mem {k : Nat} {c : Cube} (h : c ∈ (p.frame k).cubes) : k < p.frames.length := by
  by_contra hk
  rw [frame_of_ge (by omega)] at h
  cases h

theorem frame_setSolver {k j : Nat} {s : CaDiCaL} (hk : k < p.frames.length) :
    (p.setSolver k s).frame j = if j = k then { p.frame j with solver := s } else p.frame j := by
  unfold frame setSolver
  simp only [List.getD_eq_getElem?_getD, List.getElem?_modify]
  by_cases hj : j = k
  · subst hj
    simp [List.getElem?_eq_getElem hk]
  · have : k ≠ j := fun h => hj h.symm
    cases hg : p.frames[j]? <;> simp [hj, this]

theorem frame_setCubes {k j : Nat} {cs : List Cube} (hk : k < p.frames.length) :
    (p.setCubes k cs).frame j = if j = k then { p.frame j with cubes := cs } else p.frame j := by
  unfold frame setCubes
  simp only [List.getD_eq_getElem?_getD, List.getElem?_modify]
  by_cases hj : j = k
  · subst hj
    simp [List.getElem?_eq_getElem hk]
  · have : k ≠ j := fun h => hj h.symm
    cases hg : p.frames[j]? <;> simp [hj, this]

@[simp] theorem length_setSolver {k : Nat} {s : CaDiCaL} :
    (p.setSolver k s).frames.length = p.frames.length := by simp [setSolver]

@[simp] theorem length_setCubes {k : Nat} {cs : List Cube} :
    (p.setCubes k cs).frames.length = p.frames.length := by simp [setCubes]

theorem frame_append {f : Frame} {j : Nat} :
    (p.setFrames (p.frames ++ [f])).frame j = if j = p.frames.length then f else p.frame j := by
  unfold frame setFrames
  rw [List.getD_eq_getElem?_getD, List.getD_eq_getElem?_getD]
  by_cases hj : j = p.frames.length
  · subst hj; simp
  · by_cases hlt : j < p.frames.length
    · simp [hj, List.getElem?_append_left hlt]
    · rw [List.getElem?_eq_none (by simp; omega), List.getElem?_eq_none (by omega)]
      simp [hj]

theorem length_insertCube {fs : List Frame} {c : Cube} {k : Nat} {b : Bool} :
    (insertCube fs c k b).length = fs.length := by simp [insertCube]

theorem frame_insertCube {c : Cube} {k j : Nat} {b : Bool} (hk : k < p.frames.length) :
    (p.setFrames (insertCube p.frames c k b)).frame j = if j = k then
        ⟨setInsert Cube_CMP c (p.frame k).cubes, (p.frame k).solver.addClause (negCube c)⟩
      else if b = true ∧ 1 ≤ j ∧ j < k then
        { p.frame j with solver := (p.frame j).solver.addClause (negCube c) }
      else p.frame j := by
  unfold frame setFrames
  rw [List.getD_eq_getElem?_getD, List.getD_eq_getElem?_getD, List.getD_eq_getElem?_getD]
  unfold insertCube
  rw [List.getElem?_mapIdx]
  by_cases hj : j < p.frames.length
  · by_cases hjk : j = k
    · subst hjk; simp [List.getElem?_eq_getElem hj]
    · by_cases hb : b = true ∧ 1 ≤ j ∧ j < k <;> simp [List.getElem?_eq_getElem hj, hjk, hb]
  · rw [List.getElem?_eq_none (by omega), if_neg (by omega), if_neg (by omega)]
    rfl

/-- The cubes after an insertion at level `k`. -/
theorem insertCube_cubes (p : PDR) (c : Cube) (k j : Nat) (b : Bool) :
    ((p.setFrames (insertCube p.frames c k b)).frame j).cubes = if j = k ∧ j < p.frames.length then
      setInsert Cube_CMP c (p.frame j).cubes else (p.frame j).cubes := by
  by_cases hj : j < p.frames.length
  · unfold PDR.frame PDR.setFrames insertCube
    simp only [List.getD_eq_getElem?_getD, List.getElem?_mapIdx, List.getElem?_eq_getElem hj, Option.map_some,
      Option.getD_some, hj, and_true]
    split
    · rfl
    · split <;> rfl
  · rw [if_neg fun h => hj h.2, frame_of_ge (not_lt.mp hj), frame_of_ge]
    exact length_insertCube.symm ▸ not_lt.mp hj

theorem state_pushState {st : State} {s : Nat} :
    (p.pushState st).state s = if s = p.states.length then st else p.state s := by
  unfold state pushState
  rw [List.getD_eq_getElem?_getD, List.getD_eq_getElem?_getD]
  by_cases hj : s = p.states.length
  · subst hj; simp
  · by_cases hlt : s < p.states.length
    · simp [hj, List.getElem?_append_left hlt]
    · rw [List.getElem?_eq_none (by simp; omega), List.getElem?_eq_none (by omega)]
      simp [hj]

theorem state_setState {s t : Nat} {f : State → State} (hs : s < p.states.length) :
    (p.setState s f).state t = if t = s then f (p.state t) else p.state t := by
  unfold state setState
  simp only [List.getD_eq_getElem?_getD, List.getElem?_modify]
  by_cases ht : t = s
  · subst ht
    simp [List.getElem?_eq_getElem hs]
  · have : s ≠ t := fun h => ht h.symm
    cases hg : p.states[t]? <;> simp [ht, this]

theorem setState_of_ge {s : Nat} {f : State → State} (hs : p.states.length ≤ s) :
    p.setState s f = p := by
  unfold setState
  have : p.states.modify s f = p.states := by
    apply List.ext_getElem?
    intro i
    rw [List.getElem?_modify]
    by_cases hi : s = i
    · subst hi; simp [List.getElem?_eq_none hs]
    · simp [hi]
  rw [this]

@[simp] theorem length_setState {s : Nat} {f : State → State} :
    (p.setState s f).states.length = p.states.length := by simp [setState]

end PDR

end ModelChecker
