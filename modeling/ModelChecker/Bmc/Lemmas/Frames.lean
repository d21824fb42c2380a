import ModelChecker.Bmc.Solve
import ModelChecker.Bmc.Lemmas.Simulate

/-!
# What the solver of `solve_one_frame` holds

Gates are added lazily: a gate is in the solver together with its whole cone, or not at all. Hence a
model of the clauses has the value of the unrolled circuit at every property, and every valuation of
the leaves gives a model.
-/

namespace ModelChecker

open Logic

variable {A : Circuit} {B : BmcConfig} {U U' : UnfoldAiger} {ins ins' : Nat → Bool}

/-! ## Inserted gates -/

/-- `v` is a leaf, or its gate has been inserted. -/
def Covered (U : UnfoldAiger) (ins : Nat → Bool) (v : Nat) : Prop :=
  ∀ (i : Nat) (a : AndGate), U.ands[i]? = some a → a.o = v → ins i = true

/-- The inserted gates are gates of `U`, and their cones are inserted as well. -/
structure Closed (U : UnfoldAiger) (ins : Nat → Bool) : Prop where
  bound : ∀ i, ins i = true → i < U.ands.length
  fanin : ∀ (i : Nat) (a : AndGate), U.ands[i]? = some a → ins i = true →
    Covered U ins a.i1.natAbs ∧ Covered U ins a.i2.natAbs

/-- The inserted gates hold in `σ`. -/
def GatesHold (U : UnfoldAiger) (ins : Nat → Bool) (σ : Assignment) : Prop :=
  ∀ (i : Nat) (a : AndGate), U.ands[i]? = some a → ins i = true → GateHolds σ a

theorem Covered.mono {v : Nat} (h : Covered U ins v) (hle : ∀ i, ins i = true → ins' i = true) :
    Covered U ins' v :=
  fun i a ha ho => hle i (h i a ha ho)

/-- In a model of the inserted gates every covered node has its value. -/
theorem Closed.value (h : Closed U ins) (ht : Table A U) {σ : Assignment} (h1 : σ 1 = false)
    (hg : GatesHold U ins σ) {v : Nat} (hv : Covered U ins v) : σ v = U.eval σ v := by
  induction v using Nat.strong_induction_on with
  | _ v ih =>
      by_cases hgate : ∃ a ∈ U.ands, a.o = v
      · obtain ⟨a, ha, rfl⟩ := hgate
        obtain ⟨i, hi⟩ := List.mem_iff_getElem?.mp ha
        have hin := hv i a hi rfl
        obtain ⟨c1, c2⟩ := h.fanin i a hi hin
        rw [hg i a hi hin, ht.eval_gate ha, litVal_congr (ih _ (ht.topo.fanin1 a ha).2 c1),
          litVal_congr (ih _ (ht.topo.fanin2 a ha).2 c2)]
      · push Not at hgate
        by_cases hv1 : v = 1
        · rw [hv1, h1, ht.eval_one]
        · rw [ht.eval_leaf hgate hv1]

theorem Covered.ext {v : Nat} (h : Covered U ins v) (hext : Ext U U') (ht : Table A U')
    (hv : v < U.nodes.length) : Covered U' ins v := by
  intro i a ha ho
  have hmem : a ∈ U'.ands := List.mem_of_getElem? ha
  rcases hext.fresh a hmem with hold | hnew
  · obtain ⟨j, hj⟩ := List.mem_iff_getElem?.mp hold
    have hj' : U'.ands[j]? = some a := by
      obtain ⟨rest, hrest⟩ := hext.ands
      rw [← hrest, List.getElem?_append_left (List.getElem?_eq_some_iff.mp hj).1]
      exact hj
    rw [ht.topo.index_unique ha hj' rfl]
    exact h j a hj ho
  · omega

theorem Closed.ext (h : Closed U ins) (hext : Ext U U') (htab : Table A U) (ht : Table A U') :
    Closed U' ins := by
  obtain ⟨rest, hrest⟩ := hext.ands
  refine ⟨fun i hi => ?_, fun i a ha hi => ?_⟩
  · rw [← hrest, List.length_append]
    have := h.bound i hi
    omega
  · rw [← hrest, List.getElem?_append_left (h.bound i hi)] at ha
    obtain ⟨c1, c2⟩ := h.fanin i a ha hi
    have hmem := List.mem_of_getElem? ha
    have ho := (htab.range a hmem).2
    have h1 := (htab.topo.fanin1 a hmem).2
    have h2 := (htab.topo.fanin2 a hmem).2
    exact ⟨c1.ext hext ht (by omega), c2.ext hext ht (by omega)⟩

/-! ## The pass of one frame -/

/-- The result of the pass over the gates of `U`, started with `lit_set`. -/
structure Passed (U : UnfoldAiger) (lit_set : List Nat) (s s' : BMC) : Prop where
  closed : Closed U s'.lit_has_insert
  covered : ∀ v ∈ lit_set, Covered U s'.lit_has_insert v
  mono : ∀ i, s.lit_has_insert i = true → s'.lit_has_insert i = true
  clause : s'.bmcSolver.clause = []
  assumptions : s'.bmcSolver.assumptions = s.bmcSolver.assumptions
  clauses : ∀ σ, CnfSat σ s'.bmcSolver.clauses ↔ CnfSat σ s.bmcSolver.clauses ∧
    ∀ (i : Nat) (a : AndGate), U.ands[i]? = some a → s'.lit_has_insert i = true →
      s.lit_has_insert i = false → GateHolds σ a
  rest : s'.toUnfolding = s.toUnfolding ∧ s'.bmc_frame_k = s.bmc_frame_k

/-- In the middle of the pass: the gates from position `n` on have been looked at, and what is missing for
the cones of the inserted ones is in `lit_set`. -/
structure Passing (U : UnfoldAiger) (n : Nat) (lit_set : List Nat) (s : BMC) : Prop where
  clause : s.bmcSolver.clause = []
  bound : ∀ i, s.lit_has_insert i = true → i < U.ands.length
  seen : ∀ v ∈ lit_set, ∀ (i : Nat) (a : AndGate), n ≤ i → U.ands[i]? = some a → a.o = v →
    s.lit_has_insert i = true
  fanin : ∀ (i : Nat) (a : AndGate), U.ands[i]? = some a → s.lit_has_insert i = true →
    (Covered U s.lit_has_insert a.i1.natAbs ∨ a.i1.natAbs ∈ lit_set) ∧
    (Covered U s.lit_has_insert a.i2.natAbs ∨ a.i2.natAbs ∈ lit_set)

section Pass

variable {lit_set : List Nat} {s s' : BMC} {n : Nat} {a : AndGate}

theorem Closed.passing (h : Closed U s.lit_has_insert) (hs : s.bmcSolver.clause = []) (lit_set : List Nat) :
    Passing U U.ands.length lit_set s := by
  refine ⟨hs, h.bound, fun v _ i a hi ha _ => ?_, fun i a ha hi => ?_⟩
  · have hlt := (List.getElem?_eq_some_iff.mp ha).1
    exact absurd hi (not_le.mpr hlt)
  · obtain ⟨c1, c2⟩ := h.fanin i a ha hi
    exact ⟨.inl c1, .inl c2⟩

theorem Passing.done (h : Passing U 0 lit_set s) : Passed U lit_set s s := by
  have hcov : ∀ v ∈ lit_set, Covered U s.lit_has_insert v := fun v hv i a ha ho =>
    h.seen v hv i a (Nat.zero_le _) ha ho
  refine ⟨⟨h.bound, fun i a ha hi => ?_⟩, hcov, fun _ hi => hi, h.clause, rfl, fun σ => ?_, rfl, rfl⟩
  · obtain ⟨h1, h2⟩ := h.fanin i a ha hi
    exact ⟨h1.elim id (hcov _), h2.elim id (hcov _)⟩
  · refine ⟨fun hσ => ⟨hσ, fun i a _ h1 h2 => ?_⟩, And.left⟩
    rw [h1] at h2
    cases h2

/-- A gate that is inserted already, or is not needed. -/
theorem Passing.skip (h : Passing U (n + 1) lit_set s) (ha : U.ands[n]? = some a)
    (hskip : s.lit_has_insert n = true ∨ a.o ∉ lit_set) : Passing U n lit_set s := by
  refine ⟨h.clause, h.bound, fun v hv i b hi hb ho => ?_, h.fanin⟩
  rcases Nat.eq_or_lt_of_le hi with rfl | hlt
  · rw [ha] at hb
    cases hb
    exact hskip.resolve_right fun hout => hout (ho ▸ hv)
  · exact h.seen v hv i b hlt hb ho

/-- The gate at position `n` is handed to the solver. -/
def BMC.insertGate (s : BMC) (n : Nat) (a : AndGate) : BMC :=
  { s with
    lit_has_insert := Function.update s.lit_has_insert n true
    bmcSolver := s.bmcSolver.addAll a.clauses }

/-- What the cone of the gate needs. -/
def needed (a : AndGate) (lit_set : List Nat) : List Nat :=
  a.i2.natAbs :: a.i1.natAbs :: lit_set.filter (· ≠ a.o)

theorem mem_needed {v : Nat} (hv : v ∈ lit_set) (ho : v ≠ a.o) : v ∈ needed a lit_set :=
  List.mem_cons_of_mem _ (List.mem_cons_of_mem _ (List.mem_filter.mpr ⟨hv, by simpa using ho⟩))

theorem insertGate_iff {i : Nat} :
    (s.insertGate n a).lit_has_insert i = true ↔ i = n ∨ s.lit_has_insert i = true := by
  by_cases hi : i = n
  · simp [BMC.insertGate, hi]
  · simp [BMC.insertGate, hi]

theorem covered_insertGate (ht : Topo U.ands) (ha : U.ands[n]? = some a) :
    Covered U (s.insertGate n a).lit_has_insert a.o :=
  fun _ _ hb ho => insertGate_iff.mpr (.inl (ht.index_unique hb ha ho))

theorem insertGate_solver (ht : Topo U.ands) (ha : U.ands[n]? = some a) (hs : s.bmcSolver.clause = []) :
    (s.insertGate n a).bmcSolver.clause = [] ∧
      (s.insertGate n a).bmcSolver.assumptions = s.bmcSolver.assumptions ∧
      (s.insertGate n a).bmcSolver.clauses = s.bmcSolver.clauses ++ a.clauses := by
  have hadd := CaDiCaL.addAll_eq (ht.nonZero_clauses (List.mem_of_getElem? ha)) hs
  have he : (s.insertGate n a).bmcSolver = s.bmcSolver.addAll a.clauses := rfl
  rw [he, hadd]
  exact ⟨hs, rfl, rfl⟩

theorem Passing.insert (h : Passing U (n + 1) lit_set s) (ht : Topo U.ands) (ha : U.ands[n]? = some a) :
    Passing U n (needed a lit_set) (s.insertGate n a) := by
  have hmem : a ∈ U.ands := List.mem_of_getElem? ha
  refine ⟨(insertGate_solver ht ha h.clause).1, fun i hi => ?_, ?_, fun i b hb hi => ?_⟩
  · rcases insertGate_iff.mp hi with rfl | hi
    · exact (List.getElem?_eq_some_iff.mp ha).1
    · exact h.bound i hi
  · -- positions from `n` on have outputs above the fan-ins of `a`
    intro v hv i b hi hb ho
    have hge : a.o ≤ b.o := by
      rcases Nat.eq_or_lt_of_le hi with rfl | hlt
      · rw [ha] at hb; cases hb; exact le_rfl
      · exact (ht.o_lt ha hb hlt).le
    rcases List.mem_cons.mp hv with rfl | hv
    · have := (ht.fanin2 a hmem).2; omega
    rcases List.mem_cons.mp hv with rfl | hv
    · have := (ht.fanin1 a hmem).2; omega
    obtain ⟨hv, hne⟩ := List.mem_filter.mp hv
    have hne' : v ≠ a.o := by simpa using hne
    rcases Nat.eq_or_lt_of_le hi with rfl | hlt
    · rw [ha] at hb; cases hb; exact absurd ho.symm hne'
    · exact insertGate_iff.mpr (.inr (h.seen v hv i b hlt hb ho))
  · have hlift : ∀ v, Covered U s.lit_has_insert v ∨ v ∈ lit_set →
        Covered U (s.insertGate n a).lit_has_insert v ∨ v ∈ needed a lit_set := by
      rintro v (hc | hv)
      · exact .inl (hc.mono fun i hi => insertGate_iff.mpr (.inr hi))
      · by_cases he : v = a.o
        · exact .inl (he ▸ covered_insertGate ht ha)
        · exact .inr (mem_needed hv he)
    rcases insertGate_iff.mp hi with rfl | hold
    · rw [ha] at hb
      cases hb
      exact ⟨.inr (by simp [needed]), .inr (by simp [needed])⟩
    · obtain ⟨h1, h2⟩ := h.fanin i b hb hold
      exact ⟨hlift _ h1, hlift _ h2⟩

theorem Passed.insert (h : Passed U (needed a lit_set) (s.insertGate n a) s') (ht : Topo U.ands)
    (ha : U.ands[n]? = some a) (hs : s.bmcSolver.clause = []) (hn : s.lit_has_insert n = false) :
    Passed U lit_set s s' := by
  obtain ⟨_, hassume, hclauses⟩ := insertGate_solver ht ha hs
  have hmono : ∀ i, s.lit_has_insert i = true → (s.insertGate n a).lit_has_insert i = true :=
    fun i hi => insertGate_iff.mpr (.inr hi)
  refine ⟨h.closed, fun v hv => ?_, fun i hi => h.mono i (hmono i hi), h.clause,
    h.assumptions.trans hassume, fun σ => ?_, h.rest⟩
  · by_cases he : v = a.o
    · exact he ▸ (covered_insertGate ht ha).mono h.mono
    · exact h.covered v (mem_needed hv he)
  · rw [h.clauses σ, hclauses, cnfSat_append, cnfSat_gate ht (List.mem_of_getElem? ha)]
    constructor
    · rintro ⟨⟨hσ, hga⟩, hrest⟩
      refine ⟨hσ, fun i b hb hi hni => ?_⟩
      by_cases he : i = n
      · rw [he, ha] at hb; cases hb; exact hga
      · refine hrest i b hb hi (Bool.eq_false_iff.mpr fun hin => ?_)
        rcases insertGate_iff.mp hin with rfl | hin
        · exact he rfl
        · rw [hin] at hni; cases hni
    · rintro ⟨hσ, hall⟩
      have hself := h.mono n (insertGate_iff.mpr (.inl rfl))
      refine ⟨⟨hσ, hall n a ha hself hn⟩, fun i b hb hi hni => hall i b hb hi ?_⟩
      refine Bool.eq_false_iff.mpr fun hin => ?_
      rw [hmono i hin] at hni
      cases hni

theorem Passed.gatesHold {V : UnfoldAiger} (h : Passed U lit_set s s') (hV : Closed V s.lit_has_insert)
    (hands : V.ands <+: U.ands) (σ : Assignment) :
    GatesHold U s'.lit_has_insert σ ↔ GatesHold V s.lit_has_insert σ ∧
      ∀ (i : Nat) (a : AndGate), U.ands[i]? = some a → s'.lit_has_insert i = true →
        s.lit_has_insert i = false → GateHolds σ a := by
  obtain ⟨rest, hrest⟩ := hands
  have hget : ∀ i, s.lit_has_insert i = true → U.ands[i]? = V.ands[i]? := fun i hi => by
    rw [← hrest, List.getElem?_append_left (hV.bound i hi)]
  constructor
  · exact fun hg => ⟨fun i a ha hi => hg i a (by rw [hget i hi]; exact ha) (h.mono i hi),
      fun i a ha hi _ => hg i a ha hi⟩
  · intro hg i a ha hi
    by_cases hold : s.lit_has_insert i = true
    · exact hg.1 i a (by rw [← hget i hold]; exact ha) hold
    · exact hg.2 i a ha hi (by simpa using hold)

end Pass

/-- The pass reaches every gate of the cone. -/
theorem insertGates_spec (ht : Topo U.ands) {pre post : List AndGate} {lit_set : List Nat} {s : BMC}
    (hands : U.ands = pre ++ post) (h : Passing U pre.length lit_set s) :
    Passed U lit_set s (BMC.insertGates pre.zipIdx.reverse lit_set s) := by
  induction pre using List.reverseRecOn generalizing post lit_set s with
  | nil => exact h.done
  | append_singleton pre a ih =>
      have hands' : U.ands = pre ++ (a :: post) := by rw [hands]; simp
      have ha : U.ands[pre.length]? = some a := by rw [hands']; simp
      rw [List.length_append, List.length_singleton] at h
      rw [List.zipIdx_append, List.reverse_append]
      simp only [List.zipIdx_singleton, List.reverse_singleton, List.singleton_append,
        BMC.insertGates, Nat.zero_add]
      by_cases hskip : s.lit_has_insert pre.length = true ∨ a.o ∉ lit_set
      · rw [if_pos hskip]
        exact ih hands' (h.skip ha hskip)
      · rw [if_neg hskip]
        have hn : s.lit_has_insert pre.length = false := by simpa using (not_or.mp hskip).1
        exact (ih hands' (h.insert ht ha)).insert ht ha h.clause hn

/-! ## Traces and leaves -/

/-- A trace of `k` steps that satisfies the constraints at all of them and ends in a violation of the
checked property. -/
def BmcConfig.HasCex (B : BmcConfig) (k : Nat) : Prop :=
  1 ≤ k ∧ ∃ w, (B.circuit.systemFor B.checked).Trace (k - 1) w ∧
    (B.circuit.systemFor B.checked).Bad (w (k - 1))

/-- One whose earlier steps do not violate it. -/
def BmcConfig.First (B : BmcConfig) (k : Nat) : Prop :=
  1 ≤ k ∧ ∃ w, (B.circuit.systemFor B.checked).Trace (k - 1) w ∧
    (B.circuit.systemFor B.checked).Bad (w (k - 1)) ∧
    ∀ j, j < k - 1 → ¬ (B.circuit.systemFor B.checked).Bad (w j)

theorem BmcConfig.First.hasCex {k : Nat} (h : B.First k) : B.HasCex k := by
  obtain ⟨hk, w, ht, hbad, _⟩ := h
  exact ⟨hk, w, ht, hbad⟩

/-- An earlier violation is a shorter counterexample. -/
theorem BmcConfig.HasCex.first_or {k : Nat} (h : B.HasCex k) : B.First k ∨ ∃ j, j < k ∧ B.HasCex j := by
  obtain ⟨hk, w, ht, hbad⟩ := h
  by_cases hj : ∃ j, j < k - 1 ∧ (B.circuit.systemFor B.checked).Bad (w j)
  · obtain ⟨j, hj, hb⟩ := hj
    refine .inr ⟨j + 1, by omega, by omega, w, ⟨ht.1, fun i hi => ht.2.1 i (by omega),
      fun i hi => ht.2.2 i (by omega)⟩, ?_⟩
    rw [Nat.add_sub_cancel]
    exact hb
  · exact .inl ⟨hk, w, ht, hbad, fun j hlt hb => hj ⟨j, hlt, hb⟩⟩

theorem BmcConfig.HasCex.exists_first {k : Nat} (h : B.HasCex k) : ∃ j, j ≤ k ∧ B.First j := by
  induction k using Nat.strong_induction_on with
  | _ k ih =>
      rcases h.first_or with hf | ⟨j, hj, hc⟩
      · exact ⟨k, le_rfl, hf⟩
      · obtain ⟨i, hi, hf⟩ := ih j hj hc
        exact ⟨i, by omega, hf⟩

/-- The leaves that make the simulation follow `w`. -/
def Circuit.leafOf (A : Circuit) (inputs : List Nat) (w : Nat → Assignment) : Assignment := fun v =>
  if v < A.num_latches + 2 then w 0 (v + A.num_inputs)
  else w (inputs.idxOf v / A.num_inputs) (inputs.idxOf v % A.num_inputs + 2)

theorem simulate_next (A : Circuit) (b : Int) (leaf : Assignment) (inputs : List Nat) (k : Nat) :
    (A.systemFor b).Next (A.simulate leaf inputs k) (A.simulate leaf inputs (k + 1)) := by
  intro i hi
  rw [simulate_latch _ _ (by unfold Aiger.latch; omega)]
  unfold Aiger.latch
  rw [Nat.add_sub_cancel_left]

theorem simulate_isInit (A : Circuit) (b : Int) (leaf : Assignment) (inputs : List Nat) :
    (A.systemFor b).Init (A.simulate leaf inputs 0) := by
  intro l hl
  have hlatch := A.wf.init_latch l hl
  have hmem : ((l.natAbs : Nat) : Int) ∈ A.init_state → 0 ≤ l := by
    intro hm
    by_contra hneg
    have : Std.Symm fun a b : Int => a.natAbs ≠ b.natAbs := ⟨fun _ _ h => Ne.symm h⟩
    have := A.wf.init_distinct.forall hl hm (by omega)
    omega
  unfold litVal
  rw [simulate_init _ hlatch.1, Circuit.initValue]
  by_cases hneg : l < 0
  · rw [if_pos hneg, if_neg fun hm => absurd (hmem hm) (by omega), if_pos (by
      rw [show -((l.natAbs : Nat) : Int) = l by omega]; exact hl)]
    rfl
  · rw [if_neg hneg, if_pos (by rw [show ((l.natAbs : Nat) : Int) = l by omega]; exact hl)]

theorem simulate_leafOf {b : Int} {inputs : List Nat} {w : Nat → Assignment} {k : Nat}
    (hinit : (A.systemFor b).Init (w 0)) (hnext : ∀ i, i < k → (A.systemFor b).Next (w i) (w (i + 1)))
    (hnd : inputs.Nodup) (hge : ∀ v ∈ inputs, A.num_latches + 2 ≤ v) (hlen : inputs.length = (k + 1) * A.num_inputs) :
    ∀ j, j ≤ k → ∀ v, 2 ≤ v → v < A.first_and →
      A.simulate (A.leafOf inputs w) inputs j v = w j v := by
  have hin : ∀ j, j ≤ k → ∀ v, 2 ≤ v → v < A.num_inputs + 2 →
      A.simulate (A.leafOf inputs w) inputs j v = w j v := by
    intro j hj v h2 hv
    have hI : 0 < A.num_inputs := by omega
    have hidx : j * A.num_inputs + (v - 2) < inputs.length := by
      have := Nat.mul_le_mul_right A.num_inputs (Nat.succ_le_succ hj)
      rw [Nat.succ_mul] at this
      rw [hlen]; show _ < (Nat.succ k) * _; omega
    rw [simulate_input _ _ hv, List.getD_eq_getElem _ _ hidx, Circuit.leafOf,
      if_neg (by have := hge _ (List.getElem_mem hidx); omega), hnd.idxOf_getElem,
      Nat.mul_comm j, Nat.mul_add_div hI, Nat.mul_add_mod, Nat.div_eq_of_lt (by omega),
      Nat.mod_eq_of_lt (by omega), Nat.add_zero, Nat.sub_add_cancel h2]
  intro j
  induction j with
  | zero =>
      intro hj v h2 hv
      by_cases hi : v < A.num_inputs + 2
      · exact hin 0 hj v h2 hi
      · have hlatch : A.IsLatch v := ⟨by omega, hv⟩
        rw [simulate_init _ hlatch.1, Circuit.initValue]
        split
        · rename_i hm; exact ((litVal_natCast _ _).symm.trans (hinit _ hm)).symm
        · split
          · rename_i hm
            have := hinit _ hm
            rw [litVal_neg_natCast _ (by omega)] at this
            simpa using this.symm
          · unfold Aiger.first_and at hv
            rw [Circuit.leafOf, if_pos (by omega), Nat.sub_add_cancel (by omega)]
  | succ j ih =>
      intro hj v h2 hv
      by_cases hi : v < A.num_inputs + 2
      · exact hin (j + 1) hj v h2 hi
      · obtain ⟨hlt, heq⟩ := Circuit.IsLatch.eq_latch (A := A) ⟨not_lt.mp hi, hv⟩
        have hn := hnext j (by omega) _ hlt
        rw [heq] at hn
        rw [simulate_latch _ _ (by omega), hn]
        exact Circuit.val_congr (fun u hu1 hu2 => ih (by omega) u hu1 hu2) (Circuit.next_ok hlt)

/-! ## The solver after the frames -/

/-- The clauses say that node `1` is false, that the inserted gates and the constraints hold, and that
the properties `outs` are not violated. -/
structure Holds (U : UnfoldAiger) (s : BMC) (outs : List Int) : Prop where
  closed : Closed U s.lit_has_insert
  covered : ∀ l, l ∈ U.outputs ∨ l ∈ U.constraints → Covered U s.lit_has_insert l.natAbs
  clause : s.bmcSolver.clause = []
  assumptions : s.bmcSolver.assumptions = []
  clauses : ∀ σ, CnfSat σ s.bmcSolver.clauses ↔ σ 1 = false ∧ GatesHold U s.lit_has_insert σ ∧
    CubeSat σ U.constraints ∧ ∀ b ∈ outs, litVal σ b = false

/-- `k` frames are done. -/
structure Ready (B : BmcConfig) (k : Nat) (s : BMC) : Prop where
  unrolled : Unrolled B k s.toUnfolding
  holds : Holds s.uaiger s s.uaiger.outputs

/-- Frame `k + 1` has been handed to the solver, and is about to be solved. -/
structure Loaded (B : BmcConfig) (k : Nat) (s : BMC) : Prop where
  unrolled : Unrolled B (k + 1) s.toUnfolding
  holds : Holds s.uaiger s s.uaiger.outputs.dropLast

variable {k : Nat} {s : BMC}

theorem Unrolled.getLast {u : Unfolding} (h : Unrolled B (k + 1) u) :
    u.uaiger.LitIn (u.uaiger.outputs.getLastD 0) ∧
    (u.uaiger.outputs = u.uaiger.outputs.dropLast ++ [u.uaiger.outputs.getLastD 0]) ∧ ∀ leaf,
      litVal (u.uaiger.eval leaf) (u.uaiger.outputs.getLastD 0) =
        B.circuit.val (B.circuit.simulate leaf u.uaiger.inputs k) B.checked ∧
      u.uaiger.outputs.dropLast.map (litVal (u.uaiger.eval leaf)) = (List.range k).map fun j =>
        B.circuit.val (B.circuit.simulate leaf u.uaiger.inputs j) B.checked := by
  have hlen : u.uaiger.outputs.length = k + 1 := by
    simpa using congrArg List.length (h.outputs fun _ => false)
  have hne : u.uaiger.outputs ≠ [] := fun h0 => by rw [h0] at hlen; cases hlen
  have hlast : u.uaiger.outputs.getLastD 0 = u.uaiger.outputs.getLast hne := by
    rw [List.getLastD_eq_getLast?, List.getLast?_eq_some_getLast hne, Option.getD_some]
  have hsplit : u.uaiger.outputs = u.uaiger.outputs.dropLast ++ [u.uaiger.outputs.getLastD 0] := by
    rw [hlast, List.dropLast_append_getLast]
  refine ⟨?_, hsplit, fun leaf => ?_⟩
  · rw [hlast]; exact h.output_in _ (List.getLast_mem hne)
  · have hmap := h.outputs leaf
    rw [hsplit, List.range_succ, List.map_append, List.map_append, List.map_singleton,
      List.map_singleton] at hmap
    obtain ⟨h1, h2⟩ := List.append_inj' hmap rfl
    exact ⟨List.singleton_inj.mp h2, h1⟩

theorem Unrolled.cons_iff {u : Unfolding} (h : Unrolled B (k + 1) u) (leaf : Assignment) :
    CubeSat (u.uaiger.eval leaf) u.uaiger.constraints ↔
      ∀ j, j ≤ k → (B.circuit.systemFor B.checked).Cons (B.circuit.simulate leaf u.uaiger.inputs j) := by
  have hc := h.constraints leaf
  constructor
  · intro hs j hj l hl
    have hm : B.circuit.val (B.circuit.simulate leaf u.uaiger.inputs j) l ∈
        (List.range (k + 1)).flatMap fun j =>
          B.circuit.constraints.map (B.circuit.val (B.circuit.simulate leaf u.uaiger.inputs j)) :=
      List.mem_flatMap.mpr ⟨j, List.mem_range.mpr (by omega), List.mem_map_of_mem hl⟩
    rw [← hc] at hm
    obtain ⟨m, hm, he⟩ := List.mem_map.mp hm
    rw [← he]
    exact hs m hm
  · intro hs l hl
    have hm : litVal (u.uaiger.eval leaf) l ∈ u.uaiger.constraints.map (litVal (u.uaiger.eval leaf)) :=
      List.mem_map_of_mem hl
    rw [hc] at hm
    obtain ⟨j, hj, hm⟩ := List.mem_flatMap.mp hm
    obtain ⟨m, hm, he⟩ := List.mem_map.mp hm
    rw [← he]
    exact hs j (by have := List.mem_range.mp hj; omega) m hm

/-- In a model of the query the simulation satisfies the constraints and ends in a violation. -/
theorem Loaded.simulated (h : Loaded B k s) {σ : Assignment} (hσ : CnfSat σ s.bmcSolver.clauses)
    (hb : litVal σ (s.uaiger.outputs.getLastD 0) = true) :
    (∀ j, j ≤ k → (B.circuit.systemFor B.checked).Cons (B.circuit.simulate σ s.uaiger.inputs j)) ∧
      (B.circuit.systemFor B.checked).Bad (B.circuit.simulate σ s.uaiger.inputs k) := by
  obtain ⟨h1, hg, hcons, _⟩ := (h.holds.clauses σ).mp hσ
  have hval : ∀ l, l ∈ s.uaiger.outputs ∨ l ∈ s.uaiger.constraints →
      litVal (s.uaiger.eval σ) l = litVal σ l := fun l hl =>
    (litVal_congr (h.holds.closed.value h.unrolled.table h1 hg (h.holds.covered l hl))).symm
  obtain ⟨_, hsplit, hlast⟩ := h.unrolled.getLast
  have hmem : s.uaiger.outputs.getLastD 0 ∈ s.uaiger.outputs := by
    rw [hsplit]; simp
  constructor
  · exact (h.unrolled.cons_iff σ).mp fun l hl => by rw [hval l (Or.inr hl)]; exact hcons l hl
  · show B.circuit.val _ _ = true
    rw [← (hlast σ).1, hval _ (Or.inl hmem)]
    exact hb

theorem Loaded.unviolated (h : Loaded B k s) {σ : Assignment} (hσ : CnfSat σ s.bmcSolver.clauses) {j : Nat}
    (hj : j < k) : ¬ (B.circuit.systemFor B.checked).Bad (B.circuit.simulate σ s.uaiger.inputs j) := by
  obtain ⟨h1, hg, _, hout⟩ := (h.holds.clauses σ).mp hσ
  obtain ⟨_, _, hlast⟩ := h.unrolled.getLast
  have hm : B.circuit.val (B.circuit.simulate σ s.uaiger.inputs j) B.checked ∈
      s.uaiger.outputs.dropLast.map (litVal (s.uaiger.eval σ)) := by
    rw [(hlast σ).2]
    exact List.mem_map_of_mem (List.mem_range.mpr hj)
  obtain ⟨b, hb, he⟩ := List.mem_map.mp hm
  have hcov := h.holds.closed.value h.unrolled.table h1 hg
    (h.holds.covered b (.inl (List.mem_of_mem_dropLast hb)))
  show ¬ B.circuit.val _ _ = true
  rw [← he, ← litVal_congr hcov, hout b hb]
  exact Bool.false_ne_true

/-- A model of the query is a counterexample. -/
theorem Loaded.first (h : Loaded B k s) {σ : Assignment} (hσ : CnfSat σ s.bmcSolver.clauses)
    (hb : litVal σ (s.uaiger.outputs.getLastD 0) = true) : B.First (k + 1) := by
  obtain ⟨hcons, hbad⟩ := h.simulated hσ hb
  refine ⟨by omega, B.circuit.simulate σ s.uaiger.inputs,
    ⟨simulate_isInit _ _ _ _, fun i _ => simulate_next _ _ _ _ _, ?_⟩, ?_, ?_⟩
  · rw [Nat.add_sub_cancel]
    exact hcons
  · rw [Nat.add_sub_cancel]
    exact hbad
  · rw [Nat.add_sub_cancel]
    exact fun j hj => h.unviolated hσ hj

/-- A counterexample whose earlier steps are no violations is a model of the query. -/
theorem Loaded.satisfiable (h : Loaded B k s) (hcex : B.First (k + 1)) :
    ∃ σ, CnfSat σ s.bmcSolver.clauses ∧ litVal σ (s.uaiger.outputs.getLastD 0) = true := by
  obtain ⟨_, w, hw, hbad, hearly⟩ := hcex
  rw [Nat.add_sub_cancel] at hw hbad hearly
  have htab := h.unrolled.table
  have hsim := simulate_leafOf hw.1 hw.2.1 htab.nodup (fun v hv => (htab.inputs v hv).1)
    h.unrolled.inputs_length
  set leaf := B.circuit.leafOf s.uaiger.inputs w
  have hval : ∀ j, j ≤ k → ∀ l, B.circuit.LitOk l →
      B.circuit.val (B.circuit.simulate leaf s.uaiger.inputs j) l = B.circuit.val (w j) l :=
    fun j hj l hl => Circuit.val_congr (hsim j hj) hl
  obtain ⟨_, _, hlast⟩ := h.unrolled.getLast
  obtain ⟨hl1, hl2⟩ := hlast leaf
  refine ⟨s.uaiger.eval leaf, (h.holds.clauses _).mpr ⟨htab.eval_one,
    fun i a ha _ => htab.eval_gate (List.mem_of_getElem? ha), ?_, fun b hb => ?_⟩, ?_⟩
  · refine (h.unrolled.cons_iff leaf).mpr fun j hj l hl => ?_
    rw [hval j hj l (B.circuit.wf.constraints_ok l hl)]
    exact hw.2.2 j hj l hl
  · have hm : litVal (s.uaiger.eval leaf) b ∈
        s.uaiger.outputs.dropLast.map (litVal (s.uaiger.eval leaf)) := List.mem_map_of_mem hb
    rw [hl2] at hm
    obtain ⟨j, hj, he⟩ := List.mem_map.mp hm
    have hjk := List.mem_range.mp hj
    rw [← he, hval j (by omega) _ (checked_ok B)]
    exact Bool.eq_false_iff.mpr (hearly j hjk)
  · rw [hl1, hval k le_rfl _ (checked_ok B)]
    exact hbad

/-! ## One frame -/

/-- The size of the hash table plays no role in what the nodes mean. -/
theorem Unrolled.grow {u : Unfolding} (h : Unrolled B k u) (n : Nat) :
    Unrolled B k { u with uaiger := { u.uaiger with hash_size := n } } :=
  ⟨⟨h.table.nodes, h.table.ands, h.table.topo, h.table.range, h.table.bucket, h.table.inputs,
    h.table.nodup⟩, h.one, h.inputs_length, h.latch_in, h.output_in, h.constraint_in, h.latch,
    h.outputs, h.constraints⟩

theorem ready_start (B : BmcConfig) : Ready B 0 B.start := by
  have hinit := initUnfold_spec B
  obtain ⟨_, hout, hcons, hands, _, _⟩ := hinit.rest
  have hadd : (({} : CaDiCaL).addClause [-1]) = { clauses := [[-1]], nv := 1 } :=
    CaDiCaL.addClause_eq (s := {}) (by intro l hl; simp at hl; omega) rfl
  have hnone : ∀ i : Nat, B.initUnfold.uaiger.ands[i]? = none := fun i => by rw [hands]; rfl
  refine ⟨unrolled_init B, ⟨fun i hi => ?_, fun i a ha _ => ?_⟩, fun l _ i a ha _ => ?_, ?_, ?_,
    fun σ => ?_⟩
  · cases hi
  · rw [show B.start.uaiger.ands[i]? = none from hnone i] at ha; cases ha
  · rw [show B.start.uaiger.ands[i]? = none from hnone i] at ha; cases ha
  · show (({} : CaDiCaL).addClause [-1]).clause = []
    rw [hadd]
  · show (({} : CaDiCaL).addClause [-1]).assumptions = []
    rw [hadd]
  · show CnfSat σ (({} : CaDiCaL).addClause [-1]).clauses ↔ _
    rw [hadd]
    have h1 : litVal σ (-1) = true ↔ σ 1 = false := by
      rw [litVal_neg_eq_true (by decide)]; rfl
    have hc : B.start.uaiger.constraints = [] := hcons
    have ho : B.start.uaiger.outputs = [] := hout
    rw [hc, ho, cnfSat_cons, clauseSat_singleton, h1]
    constructor
    · intro h
      refine ⟨h.1, fun i a ha _ => ?_, List.forall_mem_nil _, List.forall_mem_nil _⟩
      rw [show B.start.uaiger.ands[i]? = none from hnone i] at ha
      cases ha
    · exact fun h => ⟨h.1, cnfSat_nil σ⟩

/-- The table `V` has got the property `b` and the constraints `cs`, the solver their cones. -/
theorem Passed.holds {V : UnfoldAiger} {t s' : BMC} {b : Int} {cs : List Int}
    (hp : Passed U (b.natAbs :: cs.map Int.natAbs) t s') (h : Holds V s V.outputs)
    (hands : V.ands <+: U.ands) (hins : t.lit_has_insert = s.lit_has_insert)
    (hcov : ∀ l, l ∈ V.outputs ∨ l ∈ V.constraints → Covered U s.lit_has_insert l.natAbs)
    (has : t.bmcSolver.assumptions = [])
    (hcl : t.bmcSolver.clauses = s.bmcSolver.clauses ++ cs.map fun l => [l])
    (hout : U.outputs = V.outputs ++ [b]) (hcons : U.constraints = V.constraints ++ cs) :
    Holds U s' U.outputs.dropLast := by
  refine ⟨hp.closed, fun l hl => ?_, hp.clause, hp.assumptions.trans has, fun σ => ?_⟩
  · -- old properties were covered before, the new ones are in `lit_set`
    have hold : l ∈ V.outputs ∨ l ∈ V.constraints → Covered U s'.lit_has_insert l.natAbs :=
      fun hl => (hcov l hl).mono fun i hi => hp.mono i (hins ▸ hi)
    rw [hout, hcons, List.mem_append, List.mem_append, List.mem_singleton] at hl
    rcases hl with (hl | rfl) | (hl | hl)
    · exact hold (.inl hl)
    · exact hp.covered _ List.mem_cons_self
    · exact hold (.inr hl)
    · exact hp.covered _ (List.mem_cons_of_mem _ (List.mem_map_of_mem hl))
  · have hgates := hp.gatesHold (hins ▸ h.closed) hands σ
    have hcube : CubeSat σ U.constraints ↔ CubeSat σ V.constraints ∧ CubeSat σ cs := by
      rw [hcons]
      exact List.forall_mem_append
    rw [hp.clauses σ, hcl, cnfSat_append, cnfSat_units, h.clauses σ, hgates, hcube, hout,
      List.dropLast_concat, hins]
    constructor
    · rintro ⟨⟨⟨h1, hg, hc, ho⟩, hcs⟩, hnew⟩
      exact ⟨h1, ⟨hg, hnew⟩, ⟨hc, hcs⟩, ho⟩
    · rintro ⟨h1, ⟨hg, hnew⟩, ⟨hc, hcs⟩, ho⟩
      exact ⟨⟨⟨h1, hg, hc, ho⟩, hcs⟩, hnew⟩

theorem nonZero_units {cs : List Int} (h : ∀ l ∈ cs, U.LitIn l) :
    ∀ c ∈ cs.map fun l => [l], NonZero c := by
  intro c hc l hl
  obtain ⟨m, hm, rfl⟩ := List.mem_map.mp hc
  rw [List.mem_singleton.mp hl]
  have := (h m hm).1
  omega

theorem Ready.addFrame (h : Ready B k s) {u : Unfolding} (hu : Unrolled B (k + 1) u)
    (hst : Stepped B.circuit s.toUnfolding u) :
    Loaded B k (B.addFrame { s with toUnfolding := u }) ∧
      (B.addFrame { s with toUnfolding := u }).bmc_frame_k = s.bmc_frame_k ∧
      (B.addFrame { s with toUnfolding := u }).uaiger.outputs = u.uaiger.outputs := by
  obtain ⟨b, hb⟩ := hst.outputs
  obtain ⟨cs, hcs, hlen⟩ := hst.constraints
  have hfc : B.frameConstraints u.uaiger = cs := by
    unfold BmcConfig.frameConstraints
    rw [hcs, List.length_append, hlen, Nat.add_sub_cancel, List.drop_left]
  have hbad : u.uaiger.outputs.getLastD 0 = b := by rw [hb]; simp
  have hcin : ∀ l ∈ cs, u.uaiger.LitIn l := fun l hl =>
    hu.constraint_in l (by rw [hcs]; exact List.mem_append_right _ hl)
  have hadd := CaDiCaL.addAll_eq (s := s.bmcSolver) (nonZero_units hcin) h.holds.clause
  have hclosed := h.holds.closed.ext hst.ext h.unrolled.table hu.table
  unfold BmcConfig.addFrame
  simp only [hfc, hbad]
  set U : UnfoldAiger := { u.uaiger with
    hash_size := max u.uaiger.hash_size (u.uaiger.nodes.length + B.circuit.num_ands * 3) } with hU
  set t : BMC := { s with
    toUnfolding := { u with uaiger := U }
    bmcSolver := s.bmcSolver.addAll (cs.map fun l => [l]) } with ht
  have htc : t.bmcSolver.clause = [] := by rw [ht]; simp only [hadd]; exact h.holds.clause
  have hp : Passed U (b.natAbs :: cs.map Int.natAbs) t
      (BMC.insertGates u.uaiger.ands.zipIdx.reverse (b.natAbs :: cs.map Int.natAbs) t) :=
    insertGates_spec (U := U) hu.table.topo (List.append_nil _).symm
      (Closed.passing (U := U) (s := t) ⟨hclosed.bound, hclosed.fanin⟩ htc _)
  generalize BMC.insertGates u.uaiger.ands.zipIdx.reverse (b.natAbs :: cs.map Int.natAbs) t = s' at hp ⊢
  have huai : s'.toUnfolding = { u with uaiger := U } := hp.rest.1
  have hua : s'.uaiger = U := congrArg Unfolding.uaiger huai
  have hunr : Unrolled B (k + 1) { u with uaiger := U } := hu.grow _
  refine ⟨⟨huai ▸ hunr, ?_⟩, hp.rest.2, by rw [hua]⟩
  rw [hua]
  refine hp.holds h.holds hst.ext.ands rfl (fun l hl => ?_) ?_ ?_ hb hcs
  · have hin : l.natAbs < s.uaiger.nodes.length :=
      hl.elim (fun hl => (h.unrolled.output_in l hl).2) fun hl => (h.unrolled.constraint_in l hl).2
    have hc : Covered u.uaiger s.lit_has_insert l.natAbs :=
      (h.holds.covered l hl).ext hst.ext hu.table hin
    exact fun i a ha ho => hc i a ha ho
  · rw [ht]; simp only [hadd]; exact h.holds.assumptions
  · rw [ht]; simp only [hadd]

/-- Adding the negated property ends the frame. -/
theorem Loaded.close (h : Loaded B k s) {c : CaDiCaL} (hcl : c.clauses = s.bmcSolver.clauses)
    (hc : c.clause = []) (ha : c.assumptions = []) (n : Nat) :
    Ready B (k + 1) { s with
      bmcSolver := c.addClause [-(s.uaiger.outputs.getLastD 0)]
      bmc_frame_k := n } := by
  obtain ⟨hin, hsplit, _⟩ := h.unrolled.getLast
  have hnz : s.uaiger.outputs.getLastD 0 ≠ 0 := by have := hin.1; omega
  have hadd : c.addClause [-(s.uaiger.outputs.getLastD 0)] = { c with
      clauses := c.clauses ++ [[-(s.uaiger.outputs.getLastD 0)]]
      nv := CaDiCaL.maxVar c.nv [-(s.uaiger.outputs.getLastD 0)] } :=
    CaDiCaL.addClause_eq (by intro l hl; rw [List.mem_singleton.mp hl]; omega) hc
  refine ⟨h.unrolled, h.holds.closed, h.holds.covered, ?_, ?_, fun σ => ?_⟩
  · show (c.addClause _).clause = []
    rw [hadd]; exact hc
  · show (c.addClause _).assumptions = []
    rw [hadd]; exact ha
  · show CnfSat σ (c.addClause _).clauses ↔ _
    rw [hadd]
    simp only [hcl, cnfSat_append, cnfSat_cons, clauseSat_singleton, cnfSat_nil, and_true,
      litVal_neg_eq_true hnz, h.holds.clauses σ]
    constructor
    · rintro ⟨⟨h1, hg, hcs, ho⟩, hb⟩
      refine ⟨h1, hg, hcs, fun b hbm => ?_⟩
      rw [hsplit] at hbm
      rcases List.mem_append.mp hbm with hbm | hbm
      · exact ho b hbm
      · rw [List.mem_singleton.mp hbm]; exact hb
    · rintro ⟨h1, hg, hcs, ho⟩
      refine ⟨⟨h1, hg, hcs, fun b hbm => ho b (List.mem_of_mem_dropLast hbm)⟩, ho _ ?_⟩
      rw [hsplit]
      simp

/-- What a call of `solve_one_frame` returns for frame `k + 1`. -/
structure Outcome (B : BmcConfig) (k : Nat) (terminated : Bool) (r : Int × BMC) : Prop where
  cases : r.1 = 10 ∨ r.1 = 20 ∨ r.1 = 0 ∧ terminated = true
  cex : r.1 = 10 → B.Owns (k + 1) ∧ B.First (k + 1)
  next : r.1 = 20 → ∀ n, Ready B (k + 1) { r.2 with bmc_frame_k := n }
  none : r.1 = 20 → B.Owns (k + 1) → ¬ B.First (k + 1)
  rest : r.2.bmc_frame_k = k + 1 ∧ r.2.uaiger.LitIn (r.2.uaiger.outputs.getLastD 0)

theorem Ready.solve (h : Ready B k s) (hk : s.bmc_frame_k = k + 1) {u : Unfolding}
    (hu : Unrolled B (k + 1) u) (hst : Stepped B.circuit s.toUnfolding u) (S : Ipasir) (t : Nat)
    (terminated : Bool) :
    Outcome B k terminated (B.solve_one_frame S t terminated { s with toUnfolding := u }) := by
  obtain ⟨hl, hfk, hout⟩ := h.addFrame hu hst
  have hin := hl.unrolled.getLast.1
  unfold BmcConfig.solve_one_frame
  simp only [← hout]
  generalize B.addFrame { s with toUnfolding := u } = s' at hl hfk hin
  have hk' : s'.bmc_frame_k = k + 1 := hfk.trans hk
  set b := s'.uaiger.outputs.getLastD 0 with hb
  by_cases hown : ¬ B.Owns s'.bmc_frame_k
  · rw [if_pos hown]
    refine ⟨Or.inr (Or.inl rfl), (by rintro ⟨⟩), fun _ n => ?_, fun _ ho => absurd (hk' ▸ ho) hown,
      hk', hin⟩
    exact hl.close rfl hl.holds.clause hl.holds.assumptions n
  rw [if_neg hown]
  have hquery : (s'.bmcSolver.assume b).query = ⟨s'.bmcSolver.clauses, [b]⟩ := by
    simp [CaDiCaL.assume, CaDiCaL.query, hl.holds.assumptions]
  cases terminated with
  | true => exact ⟨Or.inr (Or.inr ⟨rfl, rfl⟩), (by rintro ⟨⟩), (by rintro ⟨⟩), (by rintro ⟨⟩), hk', hin⟩
  | false =>
      simp only [Bool.false_eq_true, if_false]
      have hlegal := S.legal t (s'.bmcSolver.assume b).query
      cases hans : S.solve t (s'.bmcSolver.assume b).query with
      | sat m =>
          rw [hans, hquery] at hlegal
          obtain ⟨σ, hσ, hbσ⟩ := hlegal.satisfiable
          refine ⟨Or.inl rfl, fun _ => ?_, (by rintro ⟨⟩), (by rintro ⟨⟩), hk', hin⟩
          exact ⟨hk' ▸ not_not.mp hown, hl.first hσ (hbσ _ List.mem_cons_self)⟩
      | unsat core =>
          rw [hans, hquery] at hlegal
          refine ⟨Or.inr (Or.inl rfl), (by rintro ⟨⟩), fun _ n => ?_, fun _ _ hcex => ?_, hk', hin⟩
          · exact hl.close (c := (s'.bmcSolver.assume b).solved (.unsat core)) rfl hl.holds.clause rfl n
          · obtain ⟨σ, hσ, hbσ⟩ := hl.satisfiable hcex
            refine hlegal.not_satisfiable ⟨σ, hσ, fun l hl' => ?_⟩
            rw [List.mem_singleton.mp hl']
            exact hbσ

end ModelChecker
