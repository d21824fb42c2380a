import ModelChecker.Pdr.Lemmas.History

/-!
# The calls of `add_cube` behind the lemmas

A log of the cubes handed to `add_cube` decides what the sets of the frames hold and which lemma clauses
are in the solvers: one clause for each cube that was new at its level, in the order of the calls.
-/

namespace ModelChecker

open Logic

/-- What a call of `add_cube` was given. -/
structure Addition where
  cube : Cube
  k : Nat
  to_all : Bool
deriving DecidableEq, Repr

namespace Addition

/-- The cubes stored at level `k` by the calls of a log, the last call first. -/
def stored (k : Nat) (log : List Addition) : List Cube :=
  (log.filter fun a => a.k = k).map fun a => sortLits a.cube

/-- The lemmas of level `i`, the last one first. A cube that its level has already is not added again,
not even to the levels below. -/
def lemmas (i : Nat) : List Addition → List Cube
  | [] => []
  | a :: log =>
    if (stored a.k log).contains (sortLits a.cube) then lemmas i log
    else if a.k = i ∨ a.to_all = true ∧ 1 ≤ i ∧ i < a.k then sortLits a.cube :: lemmas i log
    else lemmas i log

variable {i k : Nat} {log : List Addition} {a : Addition} {c : Cube}

theorem mem_stored_cons :
    c ∈ stored k (a :: log) ↔ (a.k = k ∧ c = sortLits a.cube) ∨ c ∈ stored k log := by
  unfold stored
  by_cases h : a.k = k <;> simp [h]

theorem lemmas_of_below (h : ∀ a ∈ log, a.k < i) : lemmas i log = [] := by
  induction log with
  | nil => rfl
  | cons a log ih =>
      have ha := h a List.mem_cons_self
      rw [lemmas, if_neg (by omega : ¬ (a.k = i ∨ a.to_all = true ∧ 1 ≤ i ∧ i < a.k)), ite_self,
        ih fun b hb => h b (List.mem_cons_of_mem _ hb)]

end Addition

variable {A : Circuit} {E : Eliminator} {p p' : PDR} {k : Nat} {c : Cube} {log : List Addition}

/-! ## Lemma clauses -/

theorem lemmaClauses_addClause {s : CaDiCaL} (hs : FrameSolver A E k s) (hc : A.LatchCube c) :
    lemmaClauses A E k (s.addClause (negCube c)) = lemmaClauses A E k s ++ [negCube c] := by
  have hall : (negCube c).all (fun l => decide (A.IsLatch l.natAbs)) = true := by
    rw [List.all_eq_true]
    intro l hl
    obtain ⟨m, hm, rfl⟩ := List.mem_map.mp hl
    rw [Int.natAbs_neg]
    exact decide_eq_true (hc m hm)
  unfold lemmaClauses
  rw [frameExtra_addClause hs hc, List.filter_append]
  exact congrArg _ (List.filter_cons_of_pos hall)

theorem lemmaClauses_fresh : lemmaClauses A E k (freshSolver A E k) = [] := by
  unfold lemmaClauses
  rw [frameExtra_fresh, List.filter_nil]

/-- The clause of a query holds its activation variable, which is no latch. -/
theorem QueryOf.lemmaClauses_eq {sorted : Cube} {s : CaDiCaL} (h : QueryOf A E p k c sorted s)
    (hs : FrameSolver A E k (p.frame k).solver) (a : Answer) :
    lemmaClauses A E k (s.solved a) = lemmaClauses A E k (p.frame k).solver := by
  have hact : ¬ A.IsLatch ((p.frame k).solver.nv + 1) := by
    intro hl
    have := hl.2
    have := hs.nv
    have := max_var_le_frameVars (A := A)
    have := A.first_and_le_max
    omega
  unfold lemmaClauses
  rw [h.extra a, List.filter_append, List.filter_cons_of_neg, List.filter_nil, List.append_nil]
  rw [List.all_cons, Int.natAbs_neg, Int.natAbs_natCast, decide_eq_false hact, Bool.false_and]
  exact Bool.false_ne_true

/-! ## Frames and their log -/

/-- The frames hold what the calls of the log stored. -/
structure Logged (A : Circuit) (E : Eliminator) (log : List Addition) (p : PDR) : Prop where
  cubes : ∀ k c, c ∈ (p.frame k).cubes ↔ c ∈ Addition.stored k log
  lemmas : ∀ i, i < p.frames.length →
    lemmaClauses A E i (p.frame i).solver = ((Addition.lemmas i log).map negCube).reverse
  below : ∀ a ∈ log, a.k < p.frames.length

theorem Logged.latches (h : Logged A E log p) (hk : k < p.frames.length)
    (hc : c ∈ Addition.lemmas k log) : A.LatchCube c := by
  have hm : negCube c ∈ lemmaClauses A E k (p.frame k).solver := by
    rw [h.lemmas k hk, List.mem_reverse]
    exact List.mem_map_of_mem hc
  unfold lemmaClauses at hm
  have hall := List.all_eq_true.mp (List.mem_filter.mp hm).2
  intro l hl
  have := hall (-l) (List.mem_map_of_mem hl)
  rwa [decide_eq_true_eq, Int.natAbs_neg] at this

theorem Logged.lemma_iff (h : Logged A E log p) (hk : k < p.frames.length) {w : Assignment} :
    CnfSat w (lemmaClauses A E k (p.frame k).solver) ↔
      ∀ d ∈ Addition.lemmas k log, ¬ CubeSat w d := by
  rw [h.lemmas k hk]
  unfold CnfSat
  simp only [List.mem_reverse, List.forall_mem_map]
  exact forall₂_congr fun d hd => clauseSat_negCube (h.latches hk hd).nonZero

theorem Logged.of_frames (h : Logged A E log p) (hf : p'.frames = p.frames) : Logged A E log p' := by
  have hfr : p'.frame = p.frame := by
    funext k
    unfold PDR.frame
    rw [hf]
  exact ⟨hfr ▸ h.cubes, by rw [hfr, hf]; exact h.lemmas, by rw [hf]; exact h.below⟩

theorem Logged.setSolver (h : Logged A E log p) (hk : k < p.frames.length) {s : CaDiCaL}
    (hs : lemmaClauses A E k s = lemmaClauses A E k (p.frame k).solver) :
    Logged A E log (p.setSolver k s) := by
  refine ⟨fun j c => ?_, fun j hj => ?_, by rw [PDR.length_setSolver]; exact h.below⟩
  · rw [PDR.frame_setSolver hk]
    split <;> exact h.cubes j c
  · rw [PDR.length_setSolver] at hj
    rw [PDR.frame_setSolver hk]
    split
    · rename_i hjk
      subst hjk
      exact hs.trans (h.lemmas j hj)
    · exact h.lemmas j hj

/-- A new frame starts without lemmas. -/
theorem Logged.extend (h : Logged A E log p) (hlen : 1 ≤ p.frames.length) :
    Logged A E log (p.extend (freshSolver A E 1)) := by
  refine ⟨fun j c => ?_, fun j hj => ?_, fun a ha => ?_⟩
  · rw [extend_cubes]
    exact h.cubes j c
  · rw [length_extend] at hj
    rcases Nat.lt_or_ge j p.frames.length with hlt | hge
    · rw [extend_solver hlt]
      exact h.lemmas j hlt
    · obtain rfl : j = p.frames.length := by omega
      rw [extend_new, ← freshSolver_pos hlen, lemmaClauses_fresh, Addition.lemmas_of_below h.below]
      rfl
  · rw [length_extend]
    exact (h.below a ha).trans (Nat.lt_succ_self _)

section Calls

variable {b : Bool}

/-- A cube that is there already. -/
theorem Logged.again (h : Logged A E log p) (hk : k < p.frames.length)
    (hold : sortLits c ∈ (p.frame k).cubes) : Logged A E (⟨c, k, b⟩ :: log) p := by
  have hmem := (h.cubes k _).mp hold
  refine ⟨fun j d => ?_, fun j hj => ?_, List.forall_mem_cons.mpr ⟨hk, h.below⟩⟩
  · rw [Addition.mem_stored_cons, h.cubes]
    refine ⟨.inr, fun hd => hd.elim ?_ id⟩
    rintro ⟨rfl, rfl⟩
    exact hmem
  · rw [Addition.lemmas, if_pos (List.contains_iff_mem.mpr hmem)]
    exact h.lemmas j hj

/-- A new cube goes to the levels that `to_all` names. -/
theorem Logged.insert (h : Logged A E log p) (hsh : Shape A E p) (hk : k < p.frames.length)
    (hc : A.LatchCube (sortLits c)) (hnew : sortLits c ∉ (p.frame k).cubes) :
    Logged A E (⟨c, k, b⟩ :: log) (p.insert (sortLits c) k b) := by
  have hnot : sortLits c ∉ Addition.stored k log := fun hm => hnew ((h.cubes k _).mpr hm)
  refine ⟨fun j d => ?_, fun j hj => ?_, ?_⟩
  · rw [insert_cubes hk, Addition.mem_stored_cons, h.cubes, eq_comm (a := j)]
  · rw [length_insert] at hj
    have hadd := lemmaClauses_addClause (hsh.frames j hj) hc
    rw [h.lemmas j hj] at hadd
    unfold PDR.insert
    rw [PDR.frame_insertCube hk, Addition.lemmas, if_neg (mt List.contains_iff_mem.mp hnot)]
    by_cases hjk : j = k
    · subst hjk
      rw [if_pos rfl, if_pos (.inl rfl), List.map_cons, List.reverse_cons]
      exact hadd
    · rw [if_neg hjk]
      by_cases hb : b = true ∧ 1 ≤ j ∧ j < k
      · rw [if_pos hb, if_pos (.inr hb), List.map_cons, List.reverse_cons]
        exact hadd
      · rw [if_neg hb, if_neg fun hn => hn.elim (fun he => hjk he.symm) hb]
        exact h.lemmas j hj
  · rw [length_insert]
    exact List.forall_mem_cons.mpr ⟨hk, h.below⟩

end Calls

end ModelChecker
