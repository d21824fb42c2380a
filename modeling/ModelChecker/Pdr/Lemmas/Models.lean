import ModelChecker.Pdr.Lemmas.Queries

/-!
# Reading models back

The literals `val` reports for the inputs and latches, their primed copies included.
-/

namespace ModelChecker

open Logic

variable {A : Circuit}

/-- The variables and values of the literals read from a solver. -/
theorem mem_modelLits {s : CaDiCaL} {first num : Nat} (hf : 0 < first) {l : Int}
    (hl : l ∈ modelLits s first num) :
    (∃ i, i < num ∧ l.natAbs = first + i) ∧
      ∀ m, s.answer = some (.sat m) → ∀ σ, Completes m σ → litVal σ l = true := by
  obtain ⟨hl, h0⟩ := List.mem_filter.mp hl
  obtain ⟨i, hi, rfl⟩ := List.mem_map.mp hl
  have h0 : s.val (first + i : Nat) ≠ 0 := by simpa using h0
  have hi := List.mem_range.mp hi
  cases ha : s.answer with
  | none => simp [CaDiCaL.val, ha] at h0
  | some a =>
      cases a with
      | unsat core => simp [CaDiCaL.val, ha] at h0
      | sat m =>
          obtain ⟨hv, hσ⟩ := CaDiCaL.val_spec ha (by omega : 0 < first + i) h0
          refine ⟨⟨i, hi, hv⟩, fun m' hm' => ?_⟩
          cases hm'
          exact hσ

/-- A literal that every completion makes true is read. -/
theorem mem_modelLits_of_forced {s : CaDiCaL} {m : Nat → Option Bool}
    (ha : s.answer = some (.sat m)) {first num i : Nat} (hi : i < num) {l : Int} (h0 : l ≠ 0)
    (hl : l.natAbs = first + i) (hσ : ∀ σ, Completes m σ → litVal σ l = true) :
    l ∈ modelLits s first num := by
  have hv := CaDiCaL.val_of_forced ha hσ
  refine List.mem_filter.mpr ⟨List.mem_map.mpr ⟨i, List.mem_range.mpr hi, ?_⟩, by simpa using h0⟩
  rw [← hl, hv]

theorem modelState_inputs {s : CaDiCaL} {l : Int} (hl : l ∈ (modelState A.toAiger s).inputs) :
    A.IsInput l.natAbs := by
  obtain ⟨i, hi, he⟩ := (mem_modelLits (by omega) hl).1
  unfold Aiger.IsInput
  omega

theorem modelState_latches {s : CaDiCaL} : A.LatchCube (modelState A.toAiger s).latches := by
  intro l hl
  obtain ⟨i, hi, he⟩ := (mem_modelLits (by omega) hl).1
  unfold Aiger.IsLatch Aiger.first_and
  omega

theorem two_le_primed : 2 ≤ A.primed_first_dimacs := by
  unfold Aiger.primed_first_dimacs Aiger.max_var; omega

/-- Moving a primed literal of an input or latch back. -/
theorem unprimeLit_spec {l : Int} {i : Nat} (hi : i < A.num_inputs + A.num_latches)
    (hl : l.natAbs = A.primed_first_dimacs + i) (P : Primes) :
    (unprimeLit A.toAiger l).natAbs = 2 + i ∧ primeLit A P (unprimeLit A.toAiger l) = l := by
  have h2 := two_le_primed (A := A)
  have hab : (unprimeLit A.toAiger l).natAbs = 2 + i := by
    unfold unprimeLit; split <;> omega
  refine ⟨hab, ?_⟩
  rw [primeLit_leaf (by omega) (by unfold Aiger.first_and; omega)]
  unfold unprimeLit at hab ⊢
  split at hab <;> split <;> omega

theorem litVal_unprimeLit {l : Int} {i : Nat} (hi : i < A.num_inputs + A.num_latches)
    (hl : l.natAbs = A.primed_first_dimacs + i) {P : Primes} (hP : P.Ok A) (σ : Assignment) :
    litVal (unprimed A P σ) (unprimeLit A.toAiger l) = litVal σ l := by
  obtain ⟨hab, hpl⟩ := unprimeLit_spec hi hl P
  rw [← litVal_primeLit σ hP (Primes.has_of_small (by unfold Aiger.first_and; omega)) (by omega), hpl]

/-- A literal of the primed model, seen in the second time step. -/
theorem mem_modelState' {s : CaDiCaL} {l : Int}
    (hl : l ∈ (modelState' A.toAiger s).inputs ∨ l ∈ (modelState' A.toAiger s).latches) :
    ∃ i, i < A.num_inputs + A.num_latches ∧ l.natAbs = 2 + i ∧
      (l ∈ (modelState' A.toAiger s).inputs → i < A.num_inputs) ∧
      (l ∈ (modelState' A.toAiger s).latches → A.num_inputs ≤ i) ∧
      ∀ m, s.answer = some (.sat m) → ∀ σ, Completes m σ → ∀ P : Primes, P.Ok A →
        litVal (unprimed A P σ) l = true := by
  have h2 := two_le_primed (A := A)
  have key : ∀ first num, first = A.primed_first_dimacs + (first - A.primed_first_dimacs) →
      first - A.primed_first_dimacs + num ≤ A.num_inputs + A.num_latches →
      ∀ l ∈ (modelLits s first num).map (unprimeLit A.toAiger), ∃ i,
        i < A.num_inputs + A.num_latches ∧ l.natAbs = 2 + i ∧
        first - A.primed_first_dimacs ≤ i ∧ i < first - A.primed_first_dimacs + num ∧
        ∀ m, s.answer = some (.sat m) → ∀ σ, Completes m σ → ∀ P : Primes, P.Ok A →
          litVal (unprimed A P σ) l = true := by
    intro first num hfirst hnum l hl
    obtain ⟨l', hl', rfl⟩ := List.mem_map.mp hl
    obtain ⟨⟨j, hj, he⟩, hm⟩ := mem_modelLits (by omega) hl'
    have hlt : first - A.primed_first_dimacs + j < A.num_inputs + A.num_latches := by omega
    have hab : l'.natAbs = A.primed_first_dimacs + (first - A.primed_first_dimacs + j) := by omega
    refine ⟨_, hlt, (unprimeLit_spec hlt hab ⟨0, []⟩).1, by omega, by omega, fun m ha σ hσ P hP => ?_⟩
    rw [litVal_unprimeLit hlt hab hP]
    exact hm m ha σ hσ
  rcases hl with hl | hl
  · obtain ⟨i, h1, h3, _, h5, h6⟩ := key A.primed_first_dimacs A.num_inputs (by omega) (by omega) l hl
    refine ⟨i, h1, h3, fun _ => by omega, fun hl' => ?_, h6⟩
    obtain ⟨i', _, h3', h4', _⟩ := key (A.primed_first_dimacs + A.num_inputs) A.num_latches (by omega)
      (by omega) l hl'
    omega
  · obtain ⟨i, h1, h3, h4, h5, h6⟩ := key (A.primed_first_dimacs + A.num_inputs) A.num_latches
      (by omega) (by omega) l hl
    refine ⟨i, h1, h3, fun hl' => ?_, fun _ => by omega, h6⟩
    obtain ⟨i', _, h3', _, h5', _⟩ := key A.primed_first_dimacs A.num_inputs (by omega) (by omega) l hl'
    omega

theorem modelState'_inputs {s : CaDiCaL} {l : Int} (hl : l ∈ (modelState' A.toAiger s).inputs) :
    A.IsInput l.natAbs := by
  obtain ⟨i, _, hab, hin, _⟩ := mem_modelState' (Or.inl hl)
  have := hin hl
  unfold Aiger.IsInput
  omega

theorem modelState'_latches {s : CaDiCaL} : A.LatchCube (modelState' A.toAiger s).latches := by
  intro l hl
  obtain ⟨i, hi, hab, _, hin, _⟩ := mem_modelState' (Or.inr hl)
  have := hin hl
  unfold Aiger.IsLatch Aiger.first_and
  omega

/-! ## Consistency -/

theorem answer_of_mem_modelLits {s : CaDiCaL} {first num : Nat} {l : Int}
    (hl : l ∈ modelLits s first num) : ∃ m, s.answer = some (.sat m) := by
  obtain ⟨hl, h0⟩ := List.mem_filter.mp hl
  obtain ⟨i, _, rfl⟩ := List.mem_map.mp hl
  cases ha : s.answer with
  | none => simp [CaDiCaL.val, ha] at h0
  | some a =>
      cases a with
      | unsat core => simp [CaDiCaL.val, ha] at h0
      | sat m => exact ⟨m, rfl⟩

theorem modelLits_consistent {s : CaDiCaL} {first num : Nat} (hf : 0 < first) {l : Int}
    (hl : l ∈ modelLits s first num) : -l ∉ modelLits s first num := by
  intro hn
  obtain ⟨m, ha⟩ := answer_of_mem_modelLits hl
  have h0 : l ≠ 0 := by simpa using (List.mem_filter.mp hl).2
  have hpos := (mem_modelLits hf hl).2 m ha _ (completes_complete m fun _ => false)
  have hneg := (mem_modelLits hf hn).2 m ha _ (completes_complete m fun _ => false)
  rw [litVal_neg_eq_true h0, hpos] at hneg
  cases hneg

theorem modelState_inputLine {s : CaDiCaL} : InputLine A (modelState A.toAiger s).inputs :=
  fun _ hl => ⟨modelState_inputs hl, modelLits_consistent (by omega) hl⟩

theorem modelState'_inputLine {s : CaDiCaL} : InputLine A (modelState' A.toAiger s).inputs := by
  intro l hl
  refine ⟨modelState'_inputs hl, fun hn => ?_⟩
  obtain ⟨x, hx, _⟩ := List.mem_map.mp hl
  obtain ⟨m, ha⟩ := answer_of_mem_modelLits hx
  obtain ⟨_, _, hab, _, _, hpos⟩ := mem_modelState' (Or.inl hl)
  obtain ⟨_, _, _, _, _, hneg⟩ := mem_modelState' (Or.inl hn)
  have hpos := hpos m ha _ (completes_complete m fun _ => false) _ primes1_roots.ok
  have hneg := hneg m ha _ (completes_complete m fun _ => false) _ primes1_roots.ok
  rw [litVal_neg_eq_true (by omega), hpos] at hneg
  cases hneg

/-! ## Valuations with given inputs -/

/-- `w` with the inputs of `u`. -/
def withInputs (A : Circuit) (w u : Assignment) : Assignment := fun v =>
  if A.IsInput v then u v else w v

theorem same_withInputs (w u : Assignment) : A.system.same w (withInputs A w u) := by
  intro v hv
  have h1 := hv.1
  simp only [withInputs, show ¬ A.IsInput v from fun h => by have := h.2; omega, if_false]

theorem cubeSat_withInputs {w u : Assignment} {c : List Int} (hc : ∀ l ∈ c, A.IsInput l.natAbs)
    (hu : CubeSat u c) : CubeSat (withInputs A w u) c := by
  refine (cubeSat_congr fun l hl => ?_).mpr hu
  simp [withInputs, hc l hl]

/-- Every state can read the inputs of a model. -/
theorem exists_inputs {s : CaDiCaL} {m : Nat → Option Bool} (ha : s.answer = some (.sat m))
    (w : Assignment) : ∃ v, A.system.same w v ∧ CubeSat v (modelState A.toAiger s).inputs :=
  ⟨withInputs A w (complete m fun _ => false), same_withInputs w _,
    cubeSat_withInputs (fun _ hl => modelState_inputs hl) fun l hl =>
      (mem_modelLits (by omega) hl).2 m ha _ (completes_complete m _)⟩

theorem exists_inputs' {s : CaDiCaL} {m : Nat → Option Bool} (ha : s.answer = some (.sat m))
    (w : Assignment) : ∃ v, A.system.same w v ∧ CubeSat v (modelState' A.toAiger s).inputs :=
  ⟨withInputs A w (unprimed A (primes1 A) (complete m fun _ => false)), same_withInputs w _,
    cubeSat_withInputs (fun _ hl => modelState'_inputs hl) fun _ hl =>
      (mem_modelState' (Or.inl hl)).choose_spec.2.2.2.2 m ha _ (completes_complete m _) _
        primes1_roots.ok⟩

/-! ## Models of the encoding -/

/-- The value `v` has on inputs and latches, `v'` on their primed copies. -/
def twoSteps (A : Circuit) (v v' : Assignment) : Assignment := fun u =>
  if u < A.first_and then v u else v' (u + 2 - A.primed_first_dimacs)

theorem twoSteps_leaf {v v' : Assignment} {u : Nat} (h : u < A.first_and) :
    twoSteps A v v' u = v u := by simp [twoSteps, h]

theorem twoSteps_prime {v v' : Assignment} {u : Nat} (h2 : 2 ≤ u) (h : u < A.first_and) (P : Primes) :
    twoSteps A v v' (primeOf A P u) = v' u := by
  rw [primeOf_leaf h2 h]
  have hge : ¬ A.primed_first_dimacs + u - 2 < A.first_and := by
    unfold Aiger.primed_first_dimacs Aiger.max_var Aiger.first_and; omega
  have hback : A.primed_first_dimacs + u - 2 + 2 - A.primed_first_dimacs = u := by omega
  simp only [twoSteps, hge, if_false, hback]

/-- A literal read from the model decides the variable, so a point that satisfies all of them agrees
with the model wherever it has a value. -/
theorem agrees_of_modelLits {s : CaDiCaL} {m : Nat → Option Bool} (ha : s.answer = some (.sat m))
    (first num : Nat) {i : Nat} (hf : 0 < first) (hi : i < num) {v : Assignment}
    (hv : ∀ l ∈ modelLits s first num, litVal v l = true) {b : Bool} (hm : m (first + i) = some b) :
    v (first + i) = b := by
  have hval : s.val (first + i : Nat) =
      if b then ((first + i : Nat) : Int) else -((first + i : Nat) : Int) := by
    have hnn : (0 : Int) ≤ ((first + i : Nat) : Int) := Int.natCast_nonneg _
    unfold CaDiCaL.val
    rw [ha]
    simp only [Int.natAbs_natCast, hm, hnn, decide_true]
  have hmem : s.val (first + i : Nat) ∈ modelLits s first num := by
    refine List.mem_filter.mpr ⟨List.mem_map.mpr ⟨i, List.mem_range.mpr hi, rfl⟩, ?_⟩
    rw [hval]
    cases b <;> simp <;> omega
  have h := hv _ hmem
  rw [hval] at h
  cases b with
  | true =>
      rw [if_pos rfl, litVal_natCast] at h
      exact h
  | false =>
      simp only [Bool.false_eq_true, ↓reduceIte] at h
      rw [litVal_neg_natCast v (by omega)] at h
      simpa using h

theorem agrees_of_modelState {s : CaDiCaL} {m : Nat → Option Bool} (ha : s.answer = some (.sat m))
    {v : Assignment} (hl : CubeSat v (modelState A.toAiger s).latches)
    (hi : CubeSat v (modelState A.toAiger s).inputs) {u : Nat} (h2 : 2 ≤ u) (hu : u < A.first_and)
    {b : Bool} (hb : m u = some b) : v u = b := by
  by_cases hin : u < A.num_inputs + 2
  · have hu2 : 2 + (u - 2) = u := by omega
    have := agrees_of_modelLits ha 2 A.num_inputs (i := u - 2) (by omega)
      (by omega) hi (b := b) (by rw [hu2]; exact hb)
    rwa [hu2] at this
  · have hu2 : 2 + A.num_inputs + (u - 2 - A.num_inputs) = u := by omega
    have := agrees_of_modelLits ha (2 + A.num_inputs) A.num_latches
      (i := u - 2 - A.num_inputs) (by omega) (by unfold Aiger.first_and at hu; omega) hl
      (b := b) (by rw [hu2]; exact hb)
    rwa [hu2] at this

/-- Two points that agree with the model, as far as it has values for inputs, latches and primed
inputs, extend to a model of everything the solver holds; so they form a constrained transition. -/
theorem step_of_model {E : Eliminator} {k : Nat} {ls : List Int} {s : CaDiCaL}
    {m : Nat → Option Bool} (ha : s.answer = some (.sat m))
    (hm : ∀ σ, Completes m σ → CnfSat σ (frameBase A E k) ∧ CubeSat σ ls)
    (hsat : Trusted A E true) {v v' : Assignment}
    (hl : CubeSat v (modelState A.toAiger s).latches) (hi : CubeSat v (modelState A.toAiger s).inputs)
    (hi' : CubeSat v' (modelState' A.toAiger s).inputs) :
    ∃ σ w w', CubeSat σ ls ∧ A.system.Step w w' ∧ (k = 0 → A.system.Init w) ∧
      Matches A (primes1 A) σ w w' ∧ (∀ u, 2 ≤ u → u < A.first_and → w u = v u) ∧
      ∀ u, A.IsInput u → w' u = v' u := by
  obtain ⟨hF, hls⟩ := hm _ (completes_complete m (twoSteps A v v'))
  obtain ⟨w, w', hst, h0, hmat⟩ := base_sound hsat hF
  have h2p := two_le_primed (A := A)
  refine ⟨_, w, w', hls, hst, h0, hmat, fun u h2 hu => ?_, fun u hu => ?_⟩
  · rw [hmat.leaf u h2 hu]
    refine (complete_eq_of_completes fun b hb => ?_).trans (twoSteps_leaf hu)
    rw [twoSteps_leaf hu]
    exact agrees_of_modelState ha hl hi h2 hu hb
  · have h2 := hu.1
    have hlt : u < A.first_and := by have := hu.2; unfold Aiger.first_and; omega
    rw [hmat.leaf' u h2 hlt]
    refine (complete_eq_of_completes fun b hb => ?_).trans (twoSteps_prime h2 hlt _)
    rw [twoSteps_prime h2 hlt]
    rw [primeOf_leaf h2 hlt] at hb
    have hu2 : A.primed_first_dimacs + (u - 2) = A.primed_first_dimacs + u - 2 := by omega
    -- the shifted valuation satisfies the primed literals themselves
    have hshift : ∀ l ∈ modelLits s A.primed_first_dimacs A.num_inputs,
        litVal (fun x => v' (x + 2 - A.primed_first_dimacs)) l = true := by
      intro l hl
      obtain ⟨⟨i, hi, hab⟩, _⟩ := mem_modelLits (by omega) hl
      have hs := (unprimeLit_spec (A := A) (l := l) (by omega) hab (primes1 A)).1
      have hv := hi' _ (List.mem_map_of_mem hl)
      rw [← hv]
      have hx : l.natAbs + 2 - A.primed_first_dimacs = (unprimeLit A.toAiger l).natAbs := by omega
      have hsign : l < 0 ↔ unprimeLit A.toAiger l < 0 := by unfold unprimeLit at *; split <;> omega
      unfold litVal
      simp only [hx, hsign]
    have := agrees_of_modelLits ha A.primed_first_dimacs A.num_inputs (i := u - 2)
      (by omega) (by have := hu.2; omega) hshift (b := b) (by rw [hu2]; exact hb)
    rw [hu2, show A.primed_first_dimacs + u - 2 + 2 - A.primed_first_dimacs = u by omega] at this
    exact this

/-! ## Models of all clauses of a solver -/

section Solvers

variable {E : Eliminator} {p : PDR} {k : Nat} {r : Run} {env : PdrEnv}

/-- The last answer of solver `k` is a model of everything the solver holds. -/
def Modelled (p : PDR) (k : Nat) : Prop :=
  ∃ m, (p.frame k).solver.answer = some (.sat m) ∧
    ∀ σ, Completes m σ → CnfSat σ (p.frame k).solver.clauses

/-- Storing a solver after a satisfiable query. -/
theorem modelled_setSolver {s : CaDiCaL} {t : Nat} (hk : k < p.frames.length)
    (hsat : (env.solver.solve t s.query).isSat = true) :
    Modelled (p.setSolver k (s.solved (env.solver.solve t s.query))) k := by
  have hleg := env.solver.legal t s.query
  generalize env.solver.solve t s.query = a at hleg hsat
  unfold Modelled
  rw [PDR.frame_setSolver hk, if_pos rfl]
  cases a with
  | unsat core => simp [Answer.isSat] at hsat
  | sat m => exact ⟨m, rfl, fun σ hσ => (hleg σ hσ).1⟩

theorem isSat_solved (s : CaDiCaL) (a : Answer) : (s.solved a).isSat = a.isSat := by
  cases a <;> rfl

/-- A point that satisfies the latches of the model and violates no cube stored at level `k` or above. -/
theorem Modelled.excluded (h : Modelled p k) (hsh : Shape A E p) (hst : Stored A E p) (hk : 1 ≤ k) :
    ∃ w, CubeSat w (modelState A.toAiger (p.frame k).solver).latches ∧
      Ic3.Excluded InCube p.cubes k w := by
  obtain ⟨m, ha, hm⟩ := h
  refine ⟨complete m fun _ => false, fun l hl => ?_, fun j hj c hc hsat => ?_⟩
  · exact (mem_modelLits (by omega) hl).2 m ha _ (completes_complete m _)
  · have hla := (hsh.cubes j c hc).1
    have hmem := List.mem_of_mem_drop (hst.stored k j c hk hj hc)
    exact (clauseSat_negCube hla.nonZero).mp (hm _ (completes_complete m _) _ hmem) hsat

theorem askInductive_modelled {c : Cube} (hk : k < r.pdr.frames.length) :
    (askInductive env k c).Wp (fun s r' => s.isSat = true → Modelled r'.pdr k) (fun _ => True) r := by
  unfold askInductive
  simp only [Exec.wp_bind, wp_reorder, wp_getP, wp_ask, wp_modifyP, wp_record, Exec.wp_pure,
    SATSolver.set_clear_act, isSat_solved]
  exact fun hsat => modelled_setSolver hk hsat

/-- The model after a query of `is_inductive` that is satisfiable. -/
theorem is_inductive_modelled {c : Cube} (hk : k < r.pdr.frames.length) (g : Bool) :
    (is_inductive env k c g).Wp (fun b r' => b = false → Modelled r'.pdr k) (fun _ => True) r := by
  unfold is_inductive
  refine (askInductive_modelled hk).bind fun s r1 h1 => ?_
  rw [Exec.wp_ite]
  refine ⟨fun hs _ => h1 hs, fun _ => ?_⟩
  cases g with
  | true => exact Exec.wp_skip fun _ _ => Bool.noConfusion
  | false => exact Bool.noConfusion

theorem askBad_modelled (hlen : 2 ≤ r.pdr.frames.length) :
    (askBad env).Wp (fun s r' => s.isSat = true → Modelled r'.pdr r'.pdr.depth) (fun _ => True) r := by
  unfold askBad
  simp only [Exec.wp_bind, wp_getP, wp_ask, wp_modifyP, wp_record, Exec.wp_pure, isSat_solved]
  intro hsat
  have hk : r.pdr.depth < r.pdr.frames.length := by unfold PDR.depth; omega
  have h := modelled_setSolver hk hsat
  have hd : (r.pdr.setSolver r.pdr.depth (((r.pdr.frame r.pdr.depth).solver.assume
      r.pdr.bad_prime).solved (env.solver.solve r.clock ((r.pdr.frame r.pdr.depth).solver.assume
      r.pdr.bad_prime).query))).depth = r.pdr.depth := by simp [PDR.depth]
  simp only [record_pdr, setP_pdr, tick_pdr, hd]
  exact h

end Solvers

end ModelChecker
