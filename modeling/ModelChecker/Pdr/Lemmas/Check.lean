import ModelChecker.Pdr.Lemmas.Propagate

/-!
# The main loop

The two bounded checks establish the invariant, a new frame keeps it, and so every run of `check` does.
-/

namespace ModelChecker

open Logic

variable {A : Circuit} {E : Eliminator} {n k : Nat} {r : Run} {env : PdrEnv}

/-! ## New frames -/

/-- A solver that holds its encoding only. -/
def freshSolver (A : Circuit) (E : Eliminator) (k : Nat) : CaDiCaL :=
  ({} : CaDiCaL).addAll (frameBase A E k)

theorem freshSolver_eq : freshSolver A E k =
    { clauses := frameBase A E k, nv := CaDiCaL.maxVars 0 (frameBase A E k) } := by
  unfold freshSolver
  rw [CaDiCaL.addAll_eq (F := frameBase A E k) base_nonZero rfl]
  simp

theorem frameSolver_fresh : FrameSolver A E k (freshSolver A E k) := by
  rw [freshSolver_eq]
  refine ⟨rfl, rfl, List.prefix_rfl, by simp [frameExtra], ?_⟩
  refine (simpVars_le_maxVars true E 0).trans ?_
  refine CaDiCaL.maxVars_le (Nat.zero_le _) fun c hc => CaDiCaL.varsLe_maxVars 0 ?_
  simp only [frameBase, List.mem_append]
  exact Or.inl (Or.inl (Or.inl hc))

theorem frameExtra_fresh : frameExtra A E k (freshSolver A E k) = [] := by
  rw [freshSolver_eq]
  simp [frameExtra]

/-- Only level `0` starts with the initial condition. -/
theorem freshSolver_pos (hk : 1 ≤ k) : freshSolver A E k = freshSolver A E 1 := by
  unfold freshSolver frameBase
  simp [show k ≠ 0 by omega]

theorem freshSolver_zero :
    (freshSolver A E 1).addAll A.encode_init_condition = freshSolver A E 0 := by
  unfold freshSolver frameBase CaDiCaL.addAll
  simp [List.foldl_append]

/-- The members `new_frame` reads. -/
structure Translated (A : Circuit) (E : Eliminator) (p : PDR) : Prop where
  satelite : p.satelite = some (simpCnf A true (primes0 A) E)
  satelite_unsat : p.satelite_unsat = A.satelite_unsat
  constraints_prime : p.constraints_prime = consPrime A (primes1 A)

theorem Shape.translated {p : PDR} (h : Shape A E p) : Translated A E p :=
  ⟨h.satelite, h.satelite_unsat, h.constraints_prime⟩

theorem Translated.addSatelite {p : PDR} (h : Translated A E p) (s : CaDiCaL) :
    (p.addSatelite s).addAll (p.constraints_prime.map fun l => [l]) =
      s.addAll (frameBase A E 1) := by
  unfold PDR.addSatelite frameBase
  rw [h.satelite, h.satelite_unsat, h.constraints_prime]
  cases A.satelite_unsat <;> simp [CaDiCaL.addAll, List.foldl_append]

theorem Translated.fill {p : PDR} (h : Translated A E p) : p.fillSatelite E = p := by
  unfold PDR.fillSatelite; rw [h.satelite]

/-- The engine with one more frame. -/
def PDR.extend (p : PDR) (s : CaDiCaL) : PDR := p.setFrames (p.frames ++ [⟨[], s⟩])

section Extend

variable {p : PDR} {s : CaDiCaL}

@[simp] theorem length_extend : (p.extend s).frames.length = p.frames.length + 1 := by
  simp [PDR.extend, PDR.setFrames]

theorem extend_cubes (j : Nat) : ((p.extend s).frame j).cubes = (p.frame j).cubes := by
  unfold PDR.extend
  rw [PDR.frame_append]
  split
  · rename_i hj; subst hj; rw [PDR.frame_of_ge le_rfl]
  · rfl

theorem extend_solver {j : Nat} (hj : j < p.frames.length) :
    ((p.extend s).frame j).solver = (p.frame j).solver := by
  unfold PDR.extend
  rw [PDR.frame_append, if_neg (by omega)]

theorem extend_new : ((p.extend s).frame p.frames.length).solver = s := by
  unfold PDR.extend
  rw [PDR.frame_append, if_pos rfl]

theorem Shape.extend (h : Shape A E p) (hlen : 1 ≤ p.frames.length) :
    Shape A E (p.extend (freshSolver A E 1)) := by
  refine { h with frames := fun j hj => ?_, cubes := fun j => ?_, nodup := fun j => ?_ }
  · rw [length_extend] at hj
    rcases Nat.lt_or_ge j p.frames.length with hlt | hge
    · rw [extend_solver hlt]; exact h.frames j hlt
    · obtain rfl : j = p.frames.length := by omega
      rw [extend_new, ← freshSolver_pos hlen]; exact frameSolver_fresh
  · rw [extend_cubes]; exact h.cubes j
  · rw [extend_cubes]; exact h.nodup j

theorem Stored.extend (h : Stored A E p) (hlen : 1 ≤ p.frames.length) :
    Stored A E (p.extend (freshSolver A E 1)) := by
  refine ⟨fun i j c hi hij hc => ?_, fun i d hi hd hm => ?_, ?_⟩
  · rw [extend_cubes] at hc
    have hj := PDR.lt_length_of_mem hc
    rw [extend_solver (by omega)]
    exact h.stored i j c hi hij hc
  · rw [length_extend] at hi
    rcases Nat.lt_or_ge i p.frames.length with hlt | hge
    · rw [extend_solver hlt] at hm
      obtain ⟨h1, j, hj, c, hc, hcd⟩ := h.lemmas i d hlt hd hm
      exact ⟨h1, j, hj, c, by rw [extend_cubes]; exact hc, hcd⟩
    · obtain rfl : i = p.frames.length := by omega
      rw [extend_new, ← freshSolver_pos hlen, frameExtra_fresh] at hm
      cases hm
  · rw [extend_cubes]; exact h.level0

end Extend

/-- A new top level without lemmas. -/
theorem Inv.extend (hI : Inv A E n r) (hlen : 1 ≤ r.pdr.frames.length)
    (h1 : r.pdr.frames.length = 1 → ∀ w w', A.system.Init w → A.system.Step w w' → ¬ A.system.Bad w')
    (hd : 3 ≤ r.pdr.frames.length → Ic3.BadFree A.system InCube r.pdr.cubes r.pdr.depth) :
    Inv A E n (r.setP (r.pdr.extend (freshSolver A E 1))) where
  shape := hI.shape.extend hlen
  stored := hI.stored.extend hlen
  reach := by
    have habs : (r.pdr.extend (freshSolver A E 1)).abs r.blocked =
        { r.pdr.abs r.blocked with len := (r.pdr.abs r.blocked).len + 1 } := by
      have hset : (r.pdr.extend (freshSolver A E 1)).cubes = r.pdr.cubes := by
        funext j; simp [PDR.cubes, extend_cubes]
      unfold PDR.abs
      rw [hset, length_extend]
      rfl
    simp only [setP_pdr, setP_blocked, habs]
    exact .extend hI.reach h1 hd
  queue o ho := by
    obtain ⟨h1, h2⟩ := hI.queue o ho
    unfold PDR.depth at h2 ⊢
    exact ⟨h1, by rw [setP_pdr, length_extend]; omega⟩
  chains hc o ho := .of_states (p := r.pdr) (by rfl) (hI.chains hc o ho)
  size := hI.size
  hist := hI.hist

theorem new_frame_eq (h : Translated A env.minisat r.pdr) {Q : Unit → Run → Prop} {F : Run → Prop}
    (hQ : Q () (r.setP (r.pdr.extend (freshSolver A env.minisat 1)))) :
    (new_frame env).Wp Q F r := by
  unfold new_frame encode_translation
  simp only [Exec.wp_bind, wp_modifyP, wp_getP, Exec.wp_pure, setP_pdr, h.fill]
  rw [h.addSatelite]
  exact hQ

/-! ## The bounded checks -/

/-- The engine after `initialize`. -/
def startPdr (A : Circuit) : PDR where
  circuit := A.toAiger
  bad_prime := badPrime A (primes1 A)
  constraints_prime := consPrime A (primes1 A)
  primes := primes0 A

theorem initializePdr_eq {Q : Unit → Run → Prop} {F : Run → Prop}
    (hQ : Q () { pdr := startPdr A }) : (initializePdr).Wp Q F { pdr := { circuit := A.toAiger } } := by
  obtain ⟨_, hbad, hcons⟩ := translate_to_prime_spec (A := A)
  unfold initializePdr
  rw [wp_modifyP]
  rw [show ({ pdr := startPdr A } : Run) = _ from ?_] at hQ
  · exact hQ
  · simp only [Run.setP, startPdr, hbad, hcons]
    rw [badPrime_eq, consPrime_eq]
    rfl

/-- The query of `check_BMC0`. -/
def bmc0 (A : Aiger) : CaDiCaL :=
  ((({} : CaDiCaL).addAll A.encode_init_condition).addAll A.encode_bad_state).assume A.bad

theorem bmc0_query : (bmc0 A.toAiger).query =
    ⟨A.encode_init_condition ++ A.encode_bad_state, [A.bad]⟩ := by
  unfold bmc0
  rw [CaDiCaL.addAll_eq init_nonZero rfl, CaDiCaL.addAll_eq bad_nonZero rfl]
  simp [CaDiCaL.query, CaDiCaL.assume]

/-- A model of the first query is a counterexample of length one. -/
theorem bmc0_counterexample {s : CaDiCaL} {m : Nat → Option Bool} (ha : s.answer = some (.sat m))
    (hleg : Legal (bmc0 A.toAiger).query (.sat m)) :
    Counterexample A [modelState A.toAiger s] := by
  rw [bmc0_query] at hleg
  refine ⟨by simp, ?_, ?_, ?_, ?_, ?_⟩
  · intro st hst; rw [List.mem_singleton.mp hst]; exact modelState_inputLine
  · intro st hst; rw [List.mem_singleton.mp hst]; exact modelState_latches
  · rintro st ⟨⟩; exact fun l hl => modelLits_consistent (by omega) hl
  · rintro st ⟨⟩
    exact init_subset_modelState ha fun σ hσ => (init_sound (cnfSat_append.mp (hleg σ hσ).1).1).2.1
  · rintro st ⟨⟩ w hw v hsame hv
    left
    have hvl : CubeSat v (modelState A.toAiger s).latches := (modelState_latches.congr hsame).mp hw
    obtain ⟨hF, hb⟩ := hleg _ (completes_complete m v)
    obtain ⟨hFi, hFb⟩ := cnfSat_append.mp hF
    have hval := bad_sound (init_sound hFi).1 hFb
    rw [hb A.bad (List.mem_singleton_self _)] at hval
    show A.val v A.bad = true
    rw [hval]
    refine (Circuit.val_congr (fun u h2 hu => ?_) A.wf.bad_ok).symm
    exact complete_eq_of_completes fun b hb => agrees_of_modelState ha hvl hv h2 hu hb

theorem bmc0_unsat {core : List Int} (hleg : Legal (bmc0 A.toAiger).query (.unsat core)) {w : Assignment}
    (hi : A.system.Init w) (hc : A.system.Cons w) : ¬ A.system.Bad w := by
  rw [bmc0_query] at hleg
  intro hb
  refine hleg.2 (A.eval w) (cnfSat_append.mpr ⟨init_complete hi hc, bad_complete w⟩) fun l hl => ?_
  rw [List.mem_singleton.mp (hleg.1 hl)]
  exact hb

/-- The engine with its first frame. -/
def firstPdr (A : Circuit) (E : Eliminator) : PDR where
  circuit := A.toAiger
  bad_prime := badPrime A (primes1 A)
  constraints_prime := consPrime A (primes1 A)
  primes := primes1 A
  satelite := some (simpCnf A true (primes0 A) E)
  satelite_unsat := A.satelite_unsat
  frames := [⟨[], freshSolver A E 0⟩]

theorem fill_start : (startPdr A).fillSatelite E = (firstPdr A E).setFrames [] := by
  have hsat : (A.toAiger.minisat true (badPrime A (primes1 A)) (consPrime A (primes1 A))
      (primes0 A)).simplify E = simpCnf A true (primes0 A) E := by
    rw [badPrime_eq, consPrime_eq]; rfl
  unfold PDR.fillSatelite startPdr firstPdr PDR.setFrames
  simp only [hsat]
  rfl

theorem firstPdr_frame (k : Nat) : (firstPdr A E).frame k =
    if k = 0 then ⟨[], freshSolver A E 0⟩ else {} := by
  cases k with
  | zero => rfl
  | succ k => simp [PDR.frame, firstPdr, default]

theorem firstPdr_cubes (k : Nat) : ((firstPdr A E).frame k).cubes = [] := by
  rw [firstPdr_frame]; split <;> rfl

theorem shape_first : Shape A E (firstPdr A E) := by
  refine { circuit := rfl, primes := rfl, bad_prime := rfl, constraints_prime := rfl
           satelite := rfl, satelite_unsat := rfl, satelite2 := Or.inl rfl
           init := (by rintro _ ⟨⟩), lift := (by rintro _ ⟨⟩), frames := ?_, cubes := ?_, nodup := ?_, states := ?_
           core := (by rintro _ ⟨⟩), tmp_core := (by rintro _ ⟨⟩) }
  · intro k hk
    obtain rfl : k = 0 := by simpa [firstPdr] using hk
    exact frameSolver_fresh
  · intro k c hc; rw [firstPdr_cubes] at hc; cases hc
  · intro k; rw [firstPdr_cubes]; exact List.nodup_nil
  · intro s l hl; cases s <;> cases hl

theorem inv_first (h0 : ∀ w, A.system.Init w → A.system.Cons w → ¬ A.system.Bad w) (t : Nat) :
    Inv A E 0 { pdr := firstPdr A E, clock := t } := by
  refine ⟨shape_first, ⟨?_, ?_, firstPdr_cubes 0⟩, ?_, fun _ ho => absurd ho List.not_mem_nil,
    fun _ _ ho => absurd ho List.not_mem_nil, Nat.zero_le _, fun _ hp => absurd hp List.not_mem_nil⟩
  · intro i j c _ _ hc; rw [firstPdr_cubes] at hc; cases hc
  · intro i d hi _ hm
    obtain rfl : i = 0 := by simpa [firstPdr] using hi
    rw [firstPdr_frame, if_pos rfl, frameExtra_fresh] at hm
    cases hm
  · have habs : (firstPdr A E).abs [] = ⟨1, (firstPdr A E).cubes, ∅, ∅⟩ := by
      unfold PDR.abs
      congr 1
      · ext q; simp [firstPdr]
      · ext c; simp
    rw [habs]
    exact .base (fun j => by ext c; simp [PDR.cubes, firstPdr_cubes]) h0

theorem firstFrame_eq {t : Nat} {Q : Unit → Run → Prop} {F : Run → Prop}
    (hQ : Q () ({ pdr := firstPdr A env.minisat, clock := t } : Run).record) :
    (firstFrame env).Wp Q F { pdr := startPdr A, clock := t } := by
  have htr : Translated A env.minisat ((firstPdr A env.minisat).setFrames []) := ⟨rfl, rfl, rfl⟩
  simp only [firstFrame, new_frame, encode_translation, Exec.wp_bind, wp_modifyP, wp_getP, wp_record,
    Exec.wp_pure, setP_pdr, fill_start]
  rw [htr.addSatelite]
  have hfirst : PDR.setSolver (PDR.setFrames ((firstPdr A env.minisat).setFrames [])
      (((firstPdr A env.minisat).setFrames []).frames ++ [⟨[], freshSolver A env.minisat 1⟩])) 0
      (((PDR.setFrames ((firstPdr A env.minisat).setFrames [])
        (((firstPdr A env.minisat).setFrames []).frames ++ [⟨[], freshSolver A env.minisat 1⟩])).frame
          0).solver.addAll A.encode_init_condition) = firstPdr A env.minisat := by
    unfold firstPdr
    rw [← freshSolver_zero]
    rfl
  rw [← hfirst] at hQ
  exact hQ

theorem check_BMC0_spec :
    (check_BMC0 env).Wp (fun b r' =>
      (b = true → Inv A env.minisat 0 r' ∧ r'.pdr.frames.length = 1 ∧ r'.pdr.obligation_queue = [] ∧
        r'.pdr.cex_states = []) ∧
      (b = false → HistGood A env.minisat r' ∧ r'.pdr.circuit = A.toAiger ∧
        Counterexample A r'.pdr.cex_states))
      (HistGood A env.minisat) { pdr := startPdr A } := by
  unfold check_BMC0
  simp only [Exec.wp_bind, wp_getP]
  change Exec.Wp (ask env (bmc0 A.toAiger).query >>= fun a => _) _ _ _
  rw [Exec.wp_bind, wp_ask]
  have hleg := env.solver.legal 0 (bmc0 A.toAiger).query
  change Exec.Wp (if (env.solver.solve 0 (bmc0 A.toAiger).query).isSat then _ else _) _ _ _
  rw [Exec.wp_ite]
  constructor
  · intro hsat
    simp only [Exec.wp_bind, wp_modifyP, Exec.wp_pure]
    refine ⟨(by rintro ⟨⟩), fun _ => ⟨fun _ hp => absurd hp List.not_mem_nil, rfl, ?_⟩⟩
    cases ha : env.solver.solve 0 (bmc0 A.toAiger).query with
    | unsat core => rw [ha] at hsat; simp [Answer.isSat] at hsat
    | sat m => rw [ha] at hleg; exact bmc0_counterexample (congrArg some ha) hleg
  · intro hunsat
    have h0 : ∀ w, A.system.Init w → A.system.Cons w → ¬ A.system.Bad w := by
      cases ha : env.solver.solve 0 (bmc0 A.toAiger).query with
      | sat m => rw [ha] at hunsat; simp [Answer.isSat] at hunsat
      | unsat core => rw [ha] at hleg; exact fun w hi hc => bmc0_unsat hleg hi hc
    rw [Exec.wp_bind]
    refine firstFrame_eq (t := 1) ⟨fun _ => ⟨(inv_first h0 1).record, rfl, rfl, rfl⟩, (by rintro ⟨⟩)⟩

/-- The query of `check_BMC1`. -/
def bmc1 (A : Circuit) (E : Eliminator) : CaDiCaL :=
  ((({} : CaDiCaL).addAll A.encode_init_condition).addAll (frameBase A E 1)).assume
    (badPrime A (primes1 A))

theorem bmc1_query : (bmc1 A E).query =
    ⟨A.encode_init_condition ++ frameBase A E 1, [badPrime A (primes1 A)]⟩ := by
  unfold bmc1
  rw [CaDiCaL.addAll_eq init_nonZero rfl, CaDiCaL.addAll_eq base_nonZero rfl]
  simp [CaDiCaL.query, CaDiCaL.assume]

theorem cnfSat_base_zero {σ : Assignment} :
    CnfSat σ (A.encode_init_condition ++ frameBase A E 1) ↔ CnfSat σ (frameBase A E 0) := by
  simp only [frameBase, one_ne_zero, ↓reduceIte, List.append_nil, cnfSat_append]
  tauto

/-- A model of the second query is a counterexample of length two. -/
theorem bmc1_counterexample {s : CaDiCaL} {m : Nat → Option Bool} (ha : s.answer = some (.sat m))
    (hleg : Legal (bmc1 A E).query (.sat m)) (hsat : Trusted A E true) :
    Counterexample A [modelState A.toAiger s, modelState' A.toAiger s] := by
  rw [bmc1_query] at hleg
  have hm : ∀ σ, Completes m σ → CnfSat σ (frameBase A E 0) ∧ CubeSat σ [badPrime A (primes1 A)] :=
    fun σ hσ => ⟨cnfSat_base_zero.mp (hleg σ hσ).1, (hleg σ hσ).2⟩
  refine ⟨by simp, ?_, ?_, ?_, ?_, ?_⟩
  · simp only [List.forall_mem_cons]
    exact ⟨modelState_inputLine, modelState'_inputLine, (by rintro _ ⟨⟩)⟩
  · simp only [List.forall_mem_cons]
    exact ⟨modelState_latches, modelState'_latches, (by rintro _ ⟨⟩)⟩
  · rintro st ⟨⟩; exact fun l hl => modelLits_consistent (by omega) hl
  · rintro st ⟨⟩
    refine init_subset_modelState ha fun σ hσ => ?_
    exact (init_sound (cnfSat_append.mp (hleg σ hσ).1).1).2.1
  · rintro st ⟨⟩ w hw v hsame hv
    right
    intro w' hn v' hsame' hv'
    left
    obtain ⟨σ, u, u', hls, hst, _, hmat, hleaf, hin⟩ :=
      step_of_model ha hm hsat ((modelState_latches.congr hsame).mp hw) hv hv'
    have hlat := next_unique hleaf hst.next hn
    show A.val v' A.bad = true
    rw [← hls _ (List.mem_singleton_self _)]
    refine Eq.trans ?_ hmat.bad'
    refine Circuit.val_congr (fun x h2 hx => ?_) A.wf.bad_ok
    by_cases hi : A.IsInput x
    · exact (hin x hi).symm
    · have hl : A.IsLatch x := ⟨by unfold Aiger.IsInput at hi; omega, hx⟩
      rw [hlat x hl, hsame' x hl]

theorem bmc1_unsat {core : List Int} (hleg : Legal (bmc1 A E).query (.unsat core)) {w w' : Assignment}
    (hi : A.system.Init w) (hst : A.system.Step w w') : ¬ A.system.Bad w' := by
  rw [bmc1_query] at hleg
  intro hb
  refine hleg.2 _ (cnfSat_base_zero.mpr (base_complete hst fun _ => hi)) fun l hl => ?_
  rw [List.mem_singleton.mp (hleg.1 hl)]
  unfold badPrime
  rw [litVal_joint_prime primes1_roots.ok A.wf.bad_ok primes1_roots.bad]
  exact hb

theorem check_BMC1_spec (hI : Inv A env.minisat n r) (hlen : r.pdr.frames.length = 1)
    (hcex : r.pdr.cex_states = []) :
    (check_BMC1 env).Wp (fun b r' =>
      (b = true → Inv A env.minisat n r' ∧ r'.pdr.frames.length = 2 ∧
        r'.pdr.obligation_queue = r.pdr.obligation_queue ∧ r'.pdr.cex_states = []) ∧
      (b = false → HistGood A env.minisat r' ∧ r'.pdr.circuit = A.toAiger ∧
        (A.constraints = [] → Counterexample A r'.pdr.cex_states)))
      (HistGood A env.minisat) r := by
  have htr := hI.shape.translated
  unfold check_BMC1
  simp only [encode_translation, Exec.wp_bind, wp_modifyP, wp_getP, Exec.wp_pure, setP_pdr, htr.fill,
    htr.addSatelite, hI.shape.circuit, hI.shape.bad_prime]
  change Exec.Wp (ask env (bmc1 A env.minisat).query) _ _ _
  rw [wp_ask]
  have hleg := env.solver.legal r.clock (bmc1 A env.minisat).query
  change Exec.Wp (if (env.solver.solve r.clock (bmc1 A env.minisat).query).isSat then _ else _) _ _ _
  rw [Exec.wp_ite]
  constructor
  · intro hsat
    simp only [Exec.wp_bind, wp_modifyP, Exec.wp_pure]
    refine ⟨(by rintro ⟨⟩), fun _ => ⟨hI.hist, hI.shape.circuit, fun hc => ?_⟩⟩
    show Counterexample A (r.pdr.cex_states ++ _)
    rw [hcex, List.nil_append]
    cases ha : env.solver.solve r.clock (bmc1 A env.minisat).query with
    | unsat core => rw [ha] at hsat; simp [Answer.isSat] at hsat
    | sat m =>
        rw [ha] at hleg
        exact bmc1_counterexample (congrArg some ha) hleg (trusted_of_init hc hI.reach.init_not_bad)
  · intro hunsat
    have h1 : ∀ w w', A.system.Init w → A.system.Step w w' → ¬ A.system.Bad w' := by
      cases ha : env.solver.solve r.clock (bmc1 A env.minisat).query with
      | sat m => rw [ha] at hunsat; simp [Answer.isSat] at hunsat
      | unsat core => rw [ha] at hleg; exact fun w w' hi hst => bmc1_unsat hleg hi hst
    rw [Exec.wp_bind]
    refine new_frame_eq (r := (r.setP r.pdr).tick) htr ?_
    simp only [Exec.wp_bind, wp_record, Exec.wp_pure]
    have hI' := (hI.tick.extend (by rw [tick_pdr, hlen]) (fun _ => h1)
      (by rw [tick_pdr, hlen]; omega)).record
    refine ⟨fun _ => ⟨hI', ?_, rfl, hcex⟩, (by rintro ⟨⟩)⟩
    simp [hlen]

/-! ## The loop -/

/-- `get_pre_of_bad` on a new state object. -/
def findCti (env : PdrEnv) : PdrM (Option Nat) := do
  let s ← newState {}
  let flag ← get_pre_of_bad env s
  pure (if flag then some s else none)

/-- The queue holds the obligation of the state object `s` only. -/
def Run.startBlocking (r : Run) (s : Nat) : Run :=
  (r.setP { r.pdr.setQueue [⟨s, r.pdr.depth - 1, 1⟩] with top_frame_cannot_reach_bad := false }).record

/-- What follows when no state of the top level has a bad successor. -/
def strengthen (env : PdrEnv) : PdrM Bool := do
  let p ← getP
  if p.obligation_queue.length ≠ 0 then Exec.throw .obligations
  else propagate env

/-- The main loop, one round at a time. -/
theorem mainLoop_succ (fuel : Nat) : mainLoop env (fuel + 1) = (do
    let R ← readRESULT env
    if R ≠ 0 then pure 0
    else do
      let cti ← findCti env
      match cti with
      | some s => do
          Exec.modify (·.startBlocking s)
          let b ← rec_block_cube env fuel
          if b then mainLoop env fuel
          else do
            reportCex env
            pure 10
      | none => do
          let b ← strengthen env
          if b then pure 20
          else do
            pushFrame env
            mainLoop env fuel) := by
  rw [mainLoop]
  congr 1
  funext R
  split
  · rfl
  · simp only [findCti, bind_assoc, pure_bind]
    congr 1
    funext s
    congr 1
    funext flag
    cases flag with
    | true => rfl
    | false =>
        simp only [Bool.false_eq_true, ↓reduceIte, strengthen, bind_assoc]
        congr 1
        funext p
        split <;> rfl

/-- `check` before its main loop. -/
def prologue (env : PdrEnv) : PdrM Bool := do
  initializePdr
  let b ← check_BMC0 env
  if !b then pure false
  else do
    let b ← check_BMC1 env
    if !b then pure false
    else do
      pushFrame env
      pure true

theorem check_eq (fuel : Nat) : check env fuel = (do
    let b ← prologue env
    if b then mainLoop env fuel
    else do
      reportCex env
      pure 10) := by
  unfold check prologue
  simp only [bind_assoc]
  congr 1
  funext _
  congr 1
  funext b
  cases b with
  | false => rfl
  | true =>
      simp only [Bool.not_true, Bool.false_eq_true, ↓reduceIte, bind_assoc]
      congr 1
      funext b
      cases b with
      | false => rfl
      | true => rfl

/-- What holds at the head of the main loop. -/
structure LoopInv (A : Circuit) (E : Eliminator) (r : Run) : Prop where
  inv : ∃ n, Inv A E n r
  len : 3 ≤ r.pdr.frames.length
  earliest : 1 ≤ r.pdr.earliest_strengthened_frame
  cex : r.pdr.cex_states = []

/-- The result of a run: on `10` a counterexample was found, on `20` a fixpoint. -/
structure Result (A : Circuit) (env : PdrEnv) (v : Int) (r : Run) : Prop where
  hist : HistGood A env.minisat r
  cases : v = 0 ∨ v = 10 ∨ v = 20
  cex : v = 10 → A.constraints = [] → Counterexample A r.pdr.cex_states
  witness : v = 10 → r.witness = none ∧ (env.output_witness = true → ∃ t, env.RESULT t ≠ 0) ∨
    env.output_witness = true ∧ r.witness = some (A.show_witness r.pdr.cex_states)
  fixpoint : v = 20 → ∃ x, r.fixpoint = some x ∧ FixpointOf A env r.blocked x

/-- `reportCex` prints the witness and changes nothing else. -/
theorem reportCex_spec (hh : HistGood A env.minisat r) (hA : r.pdr.circuit = A.toAiger)
    (hc : A.constraints = [] → Counterexample A r.pdr.cex_states) :
    ((reportCex env) >>= fun _ => pure 10).Wp (Result A env) (HistGood A env.minisat) r := by
  unfold reportCex
  simp only [Exec.wp_bind, wp_readRESULT, Exec.wp_modify, Exec.wp_pure]
  refine ⟨hh, Or.inr (Or.inl rfl), fun _ => hc, fun _ => ?_, (by rintro ⟨⟩)⟩
  simp only [tick_pdr, hA]
  by_cases hR : env.RESULT r.clock = 0
  · by_cases ho : env.output_witness = true
    · exact Or.inr ⟨ho, by simp [hR, ho]⟩
    · exact Or.inl ⟨by simp [ho], fun h => absurd h ho⟩
  · exact Or.inl ⟨by simp [hR], fun _ => ⟨_, hR⟩⟩

/-- The queue holds the lifted predecessor of a bad point only. -/
theorem Inv.startQueue (hI : Inv A E n r) (hlen : 3 ≤ r.pdr.frames.length) {s : Nat}
    (hs : s < r.pdr.states.length) (hl : Ic3.LiftsBad A.system InCube (r.pdr.state s).latches)
    (hch : Chained A r.pdr r.pdr.states.length s) (b : Bool) :
    Inv A E r.pdr.states.length (r.setP { r.pdr.setQueue [⟨s, r.pdr.depth - 1, 1⟩] with
      top_frame_cannot_reach_bad := b }) where
  shape := { hI.shape with }
  stored := hI.stored.of_frames rfl
  reach := by
    have hq := Ic3.Reachable.enqueueBad (c := (r.pdr.state s).latches) hI.reach hlen fun _ => hl
    have habs : PDR.abs { r.pdr.setQueue [⟨s, r.pdr.depth - 1, 1⟩] with
        top_frame_cannot_reach_bad := b } r.blocked = { r.pdr.abs r.blocked with
          queue := {((r.pdr.state s).latches, (r.pdr.abs r.blocked).depth - 1)} } := by
      unfold PDR.abs
      congr 1
      ext x
      simp only [PDR.setQueue, List.mem_singleton, Set.mem_ofPred_eq, exists_eq_left,
        Set.mem_singleton_iff]
      rfl
    simp only [setP_pdr, setP_blocked, habs]
    exact hq
  queue o ho := by
    rw [List.mem_singleton.mp ho]
    exact ⟨hs, Nat.sub_le _ _⟩
  chains _ o ho := by
    rw [List.mem_singleton.mp ho]
    exact .of_states (p := r.pdr) (by rfl) hch
  size := le_rfl
  hist := hI.hist

theorem pushFrame_spec (hI : Inv A env.minisat n r) (hlen : 2 ≤ r.pdr.frames.length)
    (hcex : r.pdr.cex_states = [])
    (hd : 3 ≤ r.pdr.frames.length → Ic3.BadFree A.system InCube r.pdr.cubes r.pdr.depth) :
    (pushFrame env).Wp (fun _ r' => LoopInv A env.minisat r') (HistGood A env.minisat) r := by
  unfold pushFrame
  rw [Exec.wp_bind]
  refine new_frame_eq hI.shape.translated ?_
  simp only [Exec.wp_bind, wp_modifyP, wp_record]
  have hI1 := hI.extend (by omega) (by omega) hd
  have hlen1 := length_extend (p := r.pdr) (s := freshSolver A env.minisat 1)
  have hI2 : Inv A env.minisat n ((r.setP (r.pdr.extend (freshSolver A env.minisat 1))).setP
      { r.pdr.extend (freshSolver A env.minisat 1) with
        top_frame_cannot_reach_bad := true
        earliest_strengthened_frame := (r.pdr.extend (freshSolver A env.minisat 1)).depth }) :=
    hI1.quiet (.of_fields rfl rfl rfl rfl) { hI1.shape with } (hI1.stored.of_frames rfl) hI1.hist
  refine ⟨⟨n, hI2.record⟩, ?_, ?_, hcex⟩
  · show 3 ≤ (r.pdr.extend (freshSolver A env.minisat 1)).frames.length
    omega
  · show 1 ≤ (r.pdr.extend (freshSolver A env.minisat 1)).depth
    unfold PDR.depth
    omega

theorem findCti_spec (hI : Inv A env.minisat n r) (hlen : 2 ≤ r.pdr.frames.length) :
    (findCti env).Wp (fun o r' => Inv A env.minisat n r' ∧ Evolves n r r' ∧
      (o = none → Ic3.BadFree A.system InCube r'.pdr.cubes r'.pdr.depth) ∧
      ∀ s, o = some s → s = r.pdr.states.length ∧ CtiState A (r.setP (r.pdr.pushState {})) r' s)
      (HistGood A env.minisat) r := by
  unfold findCti
  simp only [Exec.wp_bind, wp_newState]
  obtain ⟨hI1, hev1⟩ := hI.pushState {} (by rintro _ ⟨⟩)
  have hs1 : r.pdr.states.length < (r.pdr.pushState {}).states.length := by simp [PDR.pushState]
  refine (get_pre_of_bad_spec hI1 (by rw [hev1.len]; exact hlen) hs1 hI.size).mono ?_ fun _ h => h
  rintro flag r2 ⟨hI2, hev2, hbad2, hpre2⟩
  refine ⟨hI2, hev1.trans hev2, fun hf => hbad2 ?_, fun s hs => ?_⟩
  · cases flag with
    | true => cases hf
    | false => rfl
  · cases flag with
    | true => cases hs; exact ⟨rfl, hpre2 rfl⟩
    | false => cases hs

/-- Blocking starts with the state found last. -/
theorem CtiState.start {r0 : Run} {s : Nat} (h : CtiState A r0 r s) (hI : Inv A E n r)
    (hlen : 3 ≤ r.pdr.frames.length) : Inv A E r.pdr.states.length (r.startBlocking s) :=
  (hI.startQueue hlen h.lt h.lifts h.chained false).record

theorem strengthen_spec (hI : Inv A env.minisat n r) (hlen : 3 ≤ r.pdr.frames.length)
    (he : 1 ≤ r.pdr.earliest_strengthened_frame)
    (hb : Ic3.BadFree A.system InCube r.pdr.cubes r.pdr.depth) :
    (strengthen env).Wp (fun b r' =>
      (b = false → Inv A env.minisat n r' ∧ Evolves n r r' ∧
        Ic3.BadFree A.system InCube r'.pdr.cubes r'.pdr.depth) ∧
      (b = true → HistGood A env.minisat r' ∧
        ∃ x, r'.fixpoint = some x ∧ FixpointOf A env r'.blocked x)) (HistGood A env.minisat) r := by
  unfold strengthen
  simp only [Exec.wp_bind, wp_getP]
  rw [Exec.wp_ite]
  exact ⟨fun _ => hI.hist, fun _ => propagate_spec hI hlen he hb⟩

theorem mainLoop_spec (hL : LoopInv A env.minisat r) (fuel : Nat) :
    (mainLoop env fuel).Wp (Result A env) (HistGood A env.minisat) r := by
  induction fuel generalizing r with
  | zero =>
      obtain ⟨n, hI⟩ := hL.inv
      unfold mainLoop
      exact hI.hist
  | succ fuel ih =>
      obtain ⟨n, hI⟩ := hL.inv
      have hlen := hL.len
      rw [mainLoop_succ]
      simp only [Exec.wp_bind, wp_readRESULT]
      rw [Exec.wp_ite]
      refine ⟨fun _ => ⟨hI.hist, Or.inl rfl, (by rintro ⟨⟩), (by rintro ⟨⟩), (by rintro ⟨⟩)⟩, fun _ => ?_⟩
      refine (findCti_spec hI.tick (by rw [tick_pdr]; omega)).bind ?_
      rintro cti r2 ⟨hI2, hev, hbad2, hpre2⟩
      have hlen2 : r2.pdr.frames.length = r.pdr.frames.length := hev.len
      have hcex2 : r2.pdr.cex_states = [] := hev.cex.trans hL.cex
      have hea2 : 1 ≤ r2.pdr.earliest_strengthened_frame := hev.earliest hL.earliest
      cases cti with
      | some s =>
          have hI3 := (hpre2 s rfl).2.start hI2 (by omega)
          simp only [Exec.wp_bind, Exec.wp_modify]
          refine (rec_block_cube_spec hI3 (by show 2 ≤ r2.pdr.frames.length; omega) hcex2 fuel).mono ?_
            fun _ h => h
          intro go r4 hgo
          rw [Exec.wp_ite]
          constructor
          · intro hg
            obtain ⟨hex, hk⟩ := hgo.1 hg
            refine ih ⟨hex, ?_, hk.earliest hea2, hk.cex.trans hcex2⟩
            rw [hk.len]
            show 3 ≤ r2.pdr.frames.length
            omega
          · intro hg
            obtain ⟨hh, hA, hc⟩ := hgo.2 (by simpa using hg)
            exact reportCex_spec hh hA hc
      | none =>
          refine (strengthen_spec hI2 (by omega) hea2 (hbad2 rfl)).bind ?_
          rintro b r3 ⟨hno, hyes⟩
          rw [Exec.wp_ite]
          constructor
          · intro hb
            obtain ⟨hh, hx⟩ := hyes hb
            exact ⟨hh, Or.inr (Or.inr rfl), (by rintro ⟨⟩), (by rintro ⟨⟩), fun _ => hx⟩
          · intro hb
            obtain ⟨hI3, hev3, hb3⟩ := hno (by simpa using hb)
            refine (pushFrame_spec hI3 (by rw [hev3.len]; omega) (hev3.cex.trans hcex2) fun _ => hb3).bind ?_
            exact fun _ r4 h4 => ih h4

theorem prologue_spec (A : Circuit) (env : PdrEnv) :
    (prologue env).Wp (fun b r' => (b = true → LoopInv A env.minisat r') ∧
      (b = false → HistGood A env.minisat r' ∧ r'.pdr.circuit = A.toAiger ∧
        (A.constraints = [] → Counterexample A r'.pdr.cex_states)))
      (HistGood A env.minisat) { pdr := { circuit := A.toAiger } } := by
  unfold prologue
  rw [Exec.wp_bind]
  refine initializePdr_eq ?_
  refine check_BMC0_spec.bind ?_
  rintro b0 r0 ⟨htrue, hfalse⟩
  rw [Exec.wp_ite]
  constructor
  · intro hb
    obtain ⟨hh, hA, hc⟩ := hfalse (by simpa using hb)
    exact ⟨(by rintro ⟨⟩), fun _ => ⟨hh, hA, fun _ => hc⟩⟩
  · intro hb
    obtain ⟨hI0, hlen0, _, hcex0⟩ := htrue (by simpa using hb)
    refine (check_BMC1_spec hI0 hlen0 hcex0).bind ?_
    rintro b1 r1 ⟨htrue1, hfalse1⟩
    rw [Exec.wp_ite]
    constructor
    · intro hb
      exact ⟨(by rintro ⟨⟩), fun _ => hfalse1 (by simpa using hb)⟩
    · intro hb
      obtain ⟨hI1, hlen1, _, hcex1⟩ := htrue1 (by simpa using hb)
      refine (pushFrame_spec hI1 (by omega) hcex1 (by omega)).bind ?_
      exact fun _ r2 h2 => ⟨fun _ => h2, (by rintro ⟨⟩)⟩

/-- Every run of `check`. -/
theorem check_spec (A : Circuit) (env : PdrEnv) (fuel : Nat) :
    (check env fuel).Wp (Result A env) (HistGood A env.minisat) { pdr := { circuit := A.toAiger } } := by
  rw [check_eq]
  refine (prologue_spec A env).bind ?_
  rintro b r1 ⟨htrue, hfalse⟩
  rw [Exec.wp_ite]
  constructor
  · intro hb
    exact mainLoop_spec (htrue hb) fuel
  · intro hb
    obtain ⟨hh, hA, hc⟩ := hfalse (by simpa using hb)
    exact reportCex_spec hh hA hc

end ModelChecker
