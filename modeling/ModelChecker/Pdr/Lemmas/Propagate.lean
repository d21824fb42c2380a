import ModelChecker.Pdr.Lemmas.Cex

/-!
# Bad states, propagation and new frames

`get_pre_of_bad` decides whether the top level can reach a bad point, `propagate` moves cubes up without
changing any level for the worse, and `new_frame` adds a level without lemmas.
-/

namespace ModelChecker

open Logic

variable {A : Circuit} {E : Eliminator} {n i : Nat} {r : Run} {env : PdrEnv}

/-! ## Predecessors of bad points -/

/-- A state object that is not queued may be changed. -/
theorem Inv.setFresh (hI : Inv A E n r) {s : Nat} (hs : n ≤ s) {f : State → State}
    (hf : A.LatchCube (f (r.pdr.state s)).latches) :
    Inv A E n (r.setP (r.pdr.setState s f)) ∧ Evolves n r (r.setP (r.pdr.setState s f)) := by
  have hquiet : Quiet n r (r.setP (r.pdr.setState s f)) := by
    refine ⟨rfl, fun _ => rfl, rfl, rfl, fun t ht => ?_, by simp⟩
    unfold SameState
    by_cases hlt : s < r.pdr.states.length
    · rw [setP_pdr, PDR.state_setState hlt, if_neg (by omega)]; exact ⟨rfl, rfl, rfl⟩
    · rw [setP_pdr, PDR.setState_of_ge (by omega)]; exact ⟨rfl, rfl, rfl⟩
  exact ⟨hI.quiet hquiet (hI.shape.setState hf) (hI.stored.of_frames rfl) hI.hist, hquiet.evolves rfl rfl⟩

/-- A query without a new clause. -/
theorem FrameSolver.asked {k : Nat} {s : CaDiCaL} (h : FrameSolver A E k s) (l : Int) (a : Answer) :
    FrameSolver A E k ((s.assume l).solved a) :=
  ⟨h.clause, rfl, h.base, h.extra, h.nv⟩

theorem Inv.askAgain (hI : Inv A E n r) {k : Nat} (hk : k < r.pdr.frames.length) (l : Int) (a : Answer) :
    Inv A E n (r.setP (r.pdr.setSolver k (((r.pdr.frame k).solver.assume l).solved a))) ∧
      Evolves n r (r.setP (r.pdr.setSolver k (((r.pdr.frame k).solver.assume l).solved a))) := by
  have hquiet : Quiet n r
      (r.setP (r.pdr.setSolver k (((r.pdr.frame k).solver.assume l).solved a))) := by
    refine ⟨by simp, fun j => ?_, rfl, rfl, fun _ _ => ⟨rfl, rfl, rfl⟩, le_rfl⟩
    rw [setP_pdr, PDR.frame_setSolver hk]
    split <;> rfl
  refine ⟨hI.quiet hquiet (hI.shape.setSolver hk ((hI.shape.frames k hk).asked l a))
    (hI.stored.setSolver hk (fun d _ => Iff.rfl) fun j c hc => (hI.shape.cubes j c hc).1) hI.hist,
    hquiet.evolves rfl rfl⟩

/-- The answer about bad successors of the level below the top. -/
theorem askBad_spec (hI : Inv A E n r) (hlen : 2 ≤ r.pdr.frames.length) :
    (askBad env).Wp (fun s r' => Inv A E n r' ∧ Evolves n r r' ∧ r'.pdr.states = r.pdr.states ∧
      (r'.pdr.frame r'.pdr.depth).solver = s ∧
      (s.isSat = true → HasModel A E r'.pdr r'.pdr.depth [badPrime A (primes1 A)]) ∧
      (s.isSat = false → Ic3.BadFree A.system InCube r'.pdr.cubes r'.pdr.depth)) (HistGood A E) r := by
  unfold askBad
  simp only [Exec.wp_bind, wp_getP, wp_ask, wp_modifyP, wp_record, Exec.wp_pure, tick_pdr]
  have hk : r.pdr.depth < r.pdr.frames.length := by unfold PDR.depth; omega
  have hfs := hI.shape.frames _ hk
  rw [hI.shape.bad_prime]
  have hleg := env.solver.legal r.clock
    ((r.pdr.frame r.pdr.depth).solver.assume (badPrime A (primes1 A))).query
  generalize env.solver.solve r.clock
    ((r.pdr.frame r.pdr.depth).solver.assume (badPrime A (primes1 A))).query = a at hleg
  obtain ⟨hI1, hev1⟩ := hI.tick.askAgain hk (badPrime A (primes1 A)) a
  set s := ((r.pdr.frame r.pdr.depth).solver.assume (badPrime A (primes1 A))).solved a with hs
  have hdepth : (r.pdr.setSolver r.pdr.depth s).depth = r.pdr.depth := by simp [PDR.depth]
  have hfr : ((r.pdr.setSolver r.pdr.depth s).frame r.pdr.depth).solver = s := by
    rw [PDR.frame_setSolver hk, if_pos rfl]
  simp only [CaDiCaL.query, CaDiCaL.assume, hfs.assumptions, List.nil_append] at hleg
  refine ⟨hI1.record, ((Evolves.tick n r).trans hev1).same_pdr rfl rfl, rfl, ?_, fun hsat => ?_,
    fun hunsat => ?_⟩
  · simp only [record_pdr, setP_pdr, hdepth, hfr]
  · cases a with
    | unsat core => simp [CaDiCaL.isSat, hs, CaDiCaL.solved] at hsat
    | sat m =>
        refine ⟨m, by simp only [record_pdr, setP_pdr, hdepth, hfr]; rfl, fun σ hσ => ?_⟩
        simp only [record_pdr, setP_pdr, hdepth]
        obtain ⟨hF, hA⟩ := hleg σ hσ
        rw [hfs.clauses_eq] at hF
        exact ⟨(cnfSat_append.mp hF).1, hA⟩
  · cases a with
    | sat m => simp [CaDiCaL.isSat, hs, CaDiCaL.solved] at hunsat
    | unsat core =>
        simp only [record_pdr, setP_pdr, hdepth]
        intro w w' hw hst hbad
        have hcub : ((r.pdr.setSolver r.pdr.depth s).cubes) = r.pdr.cubes := by
          funext j
          unfold PDR.cubes
          rw [PDR.frame_setSolver hk]
          split <;> rfl
        rw [hcub] at hw
        obtain ⟨h0, hlem⟩ := hI.stored.level hk hw
        have hnv := hfs.nv
        refine hleg.2 _ (hfs.models hst h0 hlem (Nat.lt_succ_self _)) fun l hl => ?_
        unfold badPrime at hleg
        rw [List.mem_singleton.mp (hleg.1 hl), litVal_activate
          (primeLit_le_frameVars A.wf.bad_ok primes1_roots.bad), litVal_joint_prime primes1_roots.ok
          A.wf.bad_ok primes1_roots.bad]
        exact hbad

/-- The state object `s` after `get_pre_of_bad` found a point of the top level with a bad successor. -/
structure CtiState (A : Circuit) (r r' : Run) (s : Nat) : Prop where
  lt : s < r'.pdr.states.length
  lifts : Ic3.LiftsBad A.system InCube (r'.pdr.state s).latches
  chained : Chained A r'.pdr r'.pdr.states.length s
  failed_depth : (r'.pdr.state s).failed_depth = (r.pdr.state s).failed_depth
  level : 1 ≤ r'.pdr.depth → ∃ w, CubeSat w (r'.pdr.state s).latches ∧
    Ic3.Excluded InCube r'.pdr.cubes r'.pdr.depth w

theorem get_pre_of_bad_spec (hI : Inv A env.minisat n r) (hlen : 2 ≤ r.pdr.frames.length) {s : Nat}
    (hs : s < r.pdr.states.length) (hn : n ≤ s) :
    (get_pre_of_bad env s).Wp (fun b r' => Inv A env.minisat n r' ∧ Evolves n r r' ∧
      (b = false → Ic3.BadFree A.system InCube r'.pdr.cubes r'.pdr.depth) ∧
      (b = true → CtiState A r r' s)) (HistGood A env.minisat) r := by
  unfold get_pre_of_bad
  obtain ⟨hI0, hev0⟩ := hI.setFresh hn (f := State.clear) (by rintro _ ⟨⟩)
  simp only [Exec.wp_bind, wp_modifyP]
  have hlen0 : 2 ≤ (r.pdr.setState s State.clear).frames.length := hlen
  refine ((askBad_spec hI0 hlen0).and (askBad_modelled hlen0)).mono ?_ fun _ h => h.1
  rintro sat r1 ⟨⟨hI1, hev1, hst1, hsol1, hsat1, hbad1⟩, hmod1⟩
  have hev01 := hev0.trans hev1
  rw [Exec.wp_ite]
  refine ⟨fun hs1 => ?_, fun hs1 => ⟨hI1, hev01, fun _ => hbad1 (by simpa using hs1), (by rintro ⟨⟩)⟩⟩
  simp only [Exec.wp_bind, wp_getP, wp_newState]
  rw [hI1.shape.circuit]
  set b := r1.pdr.states.length with hb
  have hsb : s < b := by rw [hb, hst1, setP_pdr, PDR.length_setState]; exact hs
  obtain ⟨hI2, hev2⟩ := hI1.pushState (modelState' A.toAiger sat) modelState'_latches
  set r2 := r1.setP (r1.pdr.pushState (modelState' A.toAiger sat)) with hr2
  have hlen2 : r2.pdr.states.length = b + 1 := by simp [hr2, PDR.pushState, hb]
  refine (extract_spec hI2 (by omega) hn none _).mono ?_ fun _ h => h
  rintro _ r3 ⟨hI3, hev3, _, _, hf3, hlen3, hst3, hlift⟩
  have hsolver : (r2.pdr.frame r1.pdr.depth).solver = sat := hsol1
  rw [hsolver] at hlift
  obtain ⟨m, ha, _⟩ := hsat1 hs1
  rw [hsol1] at ha
  have hslat := hI3.shape.states s
  obtain ⟨hI4, hev4⟩ := hI3.setFresh hn (f := fun st => { st with next := some b }) hslat
  have hstate := fun t => PDR.state_setState (p := r3.pdr) (s := s) (t := t)
    (f := fun st => { st with next := some b }) (by omega)
  have hself := (hstate s).trans (if_pos rfl)
  have hbst : (r3.pdr.setState s fun st => { st with next := some b }).state b =
      modelState' A.toAiger sat := by
    rw [hstate b, if_neg (by omega), hst3 b (by omega), hr2, setP_pdr, PDR.state_pushState, if_pos hb]
  simp only [Exec.wp_bind, wp_modifyP, Exec.wp_pure]
  refine ⟨hI4, hev01.trans (hev2.trans (hev3.trans hev4)), (by rintro ⟨⟩), fun _ =>
    ⟨?_, ?_, ?_, ?_, fun hd => ?_⟩⟩
  · simp only [setP_pdr, PDR.length_setState]; omega
  · rw [setP_pdr, hself]; exact hlift.liftsBad ha hslat
  · rw [setP_pdr, PDR.length_setState, hlen3, hlen2]
    refine ⟨[(r3.pdr.state s).inputs, (modelState' A.toAiger sat).inputs], ?_, ?_, fun w hw => ?_⟩
    · have hpath : Path (r3.pdr.setState s fun st => { st with next := some b }) (b + 1) s
          [_, _] := .step (by omega) (by rw [hself]) (.last (by omega) (by rw [hbst]; rfl))
      rwa [hself, hbst] at hpath
    · intro I hI'
      simp only [List.mem_cons, List.not_mem_nil, or_false] at hI'
      rcases hI' with rfl | rfl
      · rw [hlift.inputs]; exact modelState_inputLine
      · exact modelState'_inputLine
    · rw [hself] at hw; exact hlift.forcedBad hslat hw
  · have hs2 : r2.pdr.state s = (r.pdr.setState s State.clear).state s := by
      rw [hr2, setP_pdr, PDR.state_pushState, if_neg (by omega)]
      unfold PDR.state
      rw [hst1]
      rfl
    rw [setP_pdr, hself, hlift.failed.2, hs2, PDR.state_setState hs, if_pos rfl]
    rfl
  · -- the model itself is such a point
    have hd4 : (r3.pdr.setState s fun st => { st with next := some b }).depth = r1.pdr.depth := by
      show r3.pdr.frames.length - 2 = r1.pdr.frames.length - 2
      rw [hf3]
      rfl
    have hc4 : (r3.pdr.setState s fun st => { st with next := some b }).cubes = r1.pdr.cubes := by
      funext j
      show {c | c ∈ (r3.pdr.frames.getD j default).cubes} = _
      rw [hf3]
      rfl
    rw [setP_pdr, hd4] at hd
    obtain ⟨w, hw, hex⟩ := (hmod1 hs1).excluded hI1.shape hI1.stored hd
    rw [hsol1] at hw
    rw [setP_pdr, hself, hd4, hc4]
    exact ⟨w, fun l hl => hw l (hlift.latches.subset hl), hex⟩

/-! ## Propagation -/

theorem setCubes_frame (hi : i < r.pdr.frames.length) {c : Cube} (j : Nat) :
    ((r.pdr.setCubes i ((r.pdr.frame i).cubes.erase c)).frame j).solver = (r.pdr.frame j).solver ∧
      (∀ d ∈ ((r.pdr.setCubes i ((r.pdr.frame i).cubes.erase c)).frame j).cubes,
        d ∈ (r.pdr.frame j).cubes) ∧
      ∀ d ∈ (r.pdr.frame j).cubes, (j = i → d ≠ c) →
        d ∈ ((r.pdr.setCubes i ((r.pdr.frame i).cubes.erase c)).frame j).cubes := by
  rw [PDR.frame_setCubes hi]
  split
  · rename_i hj
    subst hj
    exact ⟨rfl, fun d hd => List.mem_of_mem_erase hd,
      fun d hd hne => (List.mem_erase_of_ne (hne rfl)).mpr hd⟩
  · exact ⟨rfl, fun _ h => h, fun _ h _ => h⟩

/-- A cube that is subsumed one level higher may be dropped. -/
theorem Inv.dropCube (hI : Inv A E n r) (hi1 : 1 ≤ i) (hi : i < r.pdr.frames.length) {c d : Cube}
    (hd : d ∈ (r.pdr.frame (i + 1)).cubes) (hdc : d ⊆ c) :
    Inv A E n (r.setP (r.pdr.setCubes i ((r.pdr.frame i).cubes.erase c))) ∧
      Evolves n r (r.setP (r.pdr.setCubes i ((r.pdr.frame i).cubes.erase c))) := by
  have hfr := fun j => setCubes_frame (r := r) hi (c := c) j
  set p := r.pdr.setCubes i ((r.pdr.frame i).cubes.erase c) with hp
  have hlen : p.frames.length = r.pdr.frames.length := PDR.length_setCubes
  have hnd : ∀ j, (p.frame j).cubes.Nodup := by
    intro j
    rw [hp, PDR.frame_setCubes hi]
    split
    · exact (hI.shape.nodup i).erase c
    · exact hI.shape.nodup j
  have hcubes : p.cubes = Function.update r.pdr.cubes i (r.pdr.cubes i \ {c}) := by
    funext j
    ext e
    unfold PDR.cubes
    rw [hp, PDR.frame_setCubes hi]
    by_cases hj : j = i
    · subst hj
      simp [(hI.shape.nodup j).mem_erase_iff, and_comm]
    · simp [hj]
  have hsub : Ic3.Subsumes InCube d c := fun w hw l hl => hw l (hdc hl)
  refine ⟨⟨?_, ⟨?_, ?_, ?_⟩, ?_, ?_, ?_, hI.size, hI.hist⟩, ?_⟩
  · refine { hI.shape with frames := fun j hj => ?_, cubes := fun j e he => ?_, nodup := hnd }
    · rw [setP_pdr, (hfr j).1]
      exact hI.shape.frames j (by rw [← hlen]; exact hj)
    · exact hI.shape.cubes j e ((hfr j).2.1 e he)
  · intro i' j e h1 hij he
    rw [setP_pdr, (hfr i').1]
    exact hI.stored.stored i' j e h1 hij ((hfr j).2.1 e he)
  · intro i' e hi' he hm
    rw [setP_pdr, (hfr i').1] at hm
    obtain ⟨h1, j, hj, c', hc', hce⟩ := hI.stored.lemmas i' e (by rw [← hlen]; exact hi') he hm
    by_cases hcc : j = i ∧ c' = c
    · obtain ⟨rfl, rfl⟩ := hcc
      exact ⟨h1, j + 1, by omega, d, (hfr _).2.2 d hd (by omega), List.Subset.trans hdc hce⟩
    · exact ⟨h1, j, hj, c', (hfr j).2.2 c' hc' fun hji hcc' => hcc ⟨hji, hcc'⟩, hce⟩
  · rw [setP_pdr, hp, PDR.frame_setCubes hi, if_neg (by omega)]
    exact hI.stored.level0
  · have habs : p.abs r.blocked = { r.pdr.abs r.blocked with
        frames := Function.update r.pdr.cubes i (r.pdr.cubes i \ {c}) } := by
      unfold PDR.abs
      rw [hcubes, hlen]
      rfl
    simp only [setP_pdr, setP_blocked, habs]
    exact .drop hI.reach hi1 (d := d) hd hsub
  · intro o ho
    have := hI.queue o ho
    simp only [setP_pdr, PDR.depth, hlen]
    exact this
  · exact fun hc o ho => .of_states (p := r.pdr) (by rfl) (hI.chains hc o ho)
  · refine ⟨hlen, fun j w hw => ?_, rfl, rfl, fun _ _ => ⟨rfl, rfl, rfl⟩, le_rfl, id, rfl⟩
    simp only [setP_pdr, hcubes] at hw
    exact (Ic3.excluded_drop (f := r.pdr.cubes) hd hsub).mp hw

theorem Evolves.badFree {r' : Run} (h : Evolves n r r') {k : Nat}
    (hb : Ic3.BadFree A.system InCube r.pdr.cubes k) : Ic3.BadFree A.system InCube r'.pdr.cubes k := by
  intro w w' hw
  refine hb w w' ?_
  by_cases hk : k = 0
  · subst hk; simpa using hw
  · rw [Ic3.level_pos (by omega)] at hw ⊢
    exact h.stronger k w hw

/-- A cube of level `i` that is inductive there may be stored one level higher. -/
theorem CoreOf.learnable_of_mem (hI : Inv A E n r) {c core : Cube} (hc : c ∈ (r.pdr.frame i).cubes)
    (h : CoreOf A r.pdr i c core) : Learnable A r i core where
  latches := (hI.shape.cubes i c hc).1.mono h.sublist.subset
  relInd := h.relInd
  init hm := by
    by_contra hb
    push Not at hb
    exact hI.reach.initiation hb i c hc (h.init hm ▸ hm)

theorem propagateCube_spec (hI : Inv A E n r) (hi1 : 1 ≤ i) (hi : i + 1 < r.pdr.frames.length) {c : Cube}
    (hc : c ∈ (r.pdr.frame i).cubes) :
    (propagateCube env i c).Wp (fun _ r' => Inv A E n r' ∧ Evolves n r r' ∧
      ∀ d ∈ (r.pdr.frame i).cubes, d ≠ c → d ∈ (r'.pdr.frame i).cubes) (HistGood A E) r := by
  unfold propagateCube
  refine (is_inductive_spec hI (hI.shape.cubes i c hc).1 (by omega) true).bind ?_
  rintro b r1 ⟨hI1, hev1, _, _, hcub1, _, hcore1, _, _⟩
  have hmem1 : ∀ d, d ∈ (r.pdr.frame i).cubes → d ∈ (r1.pdr.frame i).cubes := by
    intro d hd
    show d ∈ r1.pdr.cubes i
    rw [hcub1]; exact hd
  rw [Exec.wp_ite]
  refine ⟨fun hb => ?_, fun _ => ⟨hI1, hev1, fun d hd _ => hmem1 d hd⟩⟩
  have hco := hcore1 hb rfl
  have hl : Learnable A r1 i (r1.pdr.cube .core) := hco.learnable_of_mem hI1 (hmem1 c hc)
  simp only [Exec.wp_bind, wp_getP, add_cube, wp_modifyP, wp_record]
  have hlen1 := hev1.len
  -- without a smaller core the cube itself is stored, whose clause the lower solvers hold
  have hall : decide (r1.pdr.core.length < c.length) = true ∨ ∀ j, 1 ≤ j → j < i + 1 →
      negCube (sortLits (r1.pdr.cube .core)) ∈ frameExtra A E j (r1.pdr.frame j).solver := by
    by_cases hlt : r1.pdr.core.length < c.length
    · exact Or.inl (by simpa using hlt)
    · right
      intro j hj1 hj
      have heq : r1.pdr.core = c := hco.sublist.eq_of_length_le (by omega)
      rw [show r1.pdr.cube .core = c from heq, (hI.shape.cubes i c hc).2]
      exact hI1.stored.stored j i c hj1 (by omega) (hmem1 c hc)
  obtain ⟨hI2, hev2, hin2, hoth2, _, _⟩ := hI1.add_cube .core (k := i + 1) (by omega)
    (by rw [hlen1]; exact hi) hl _ true hall
  generalize r1.pdr.add_cube .core (i + 1) (decide (r1.pdr.core.length < c.length)) true = p at *
  have hi2 : i < p.frames.length := by
    have := hev2.len
    rw [setP_pdr] at this
    omega
  have hev2' : Evolves n r1 (r1.setP p).record := hev2.same_pdr rfl rfl
  obtain ⟨hI3, hev3⟩ := hI2.record.dropCube (c := c) hi1 hi2 hin2
    fun l hl => hco.sublist.subset (mem_sortLits.mp hl)
  refine ⟨hI3.record, ((hev1.trans hev2').trans hev3).same_pdr rfl rfl, fun d hd hne => ?_⟩
  refine (setCubes_frame (r := (r1.setP p).record) hi2 i).2.2 d ?_ fun _ => hne
  rw [record_pdr, setP_pdr, hoth2 i (by omega)]
  exact hmem1 d hd

/-- The loop over the cubes of a level. -/
theorem propagateCubes_spec (hI : Inv A E n r) (hi1 : 1 ≤ i) (hi : i + 1 < r.pdr.frames.length) :
    (Exec.forEach (r.pdr.frame i).cubes (propagateCube env i)).Wp
      (fun _ r' => Inv A E n r' ∧ Evolves n r r') (HistGood A E) r := by
  -- the cubes still to come are at level `i`
  refine Exec.Wp.mono (Exec.wp_forEach (fun rest r' => (Inv A E n r' ∧ Evolves n r r') ∧
    rest.Nodup ∧ rest ⊆ (r'.pdr.frame i).cubes) ?_
    ⟨⟨hI, .refl n r⟩, hI.shape.nodup i, List.Subset.refl _⟩) (fun _ _ h => h.1) fun _ h => h
  rintro c rest r1 ⟨⟨hI1, hev1⟩, hnd, hsub⟩
  obtain ⟨hnc, hnd⟩ := List.nodup_cons.mp hnd
  refine (propagateCube_spec hI1 hi1 (by rw [hev1.len]; exact hi) (hsub List.mem_cons_self)).mono ?_
    fun _ h => h
  rintro _ r2 ⟨hI2, hev2, hkeep⟩
  refine ⟨⟨hI2, hev1.trans hev2⟩, hnd, fun d hd => hkeep d (hsub (List.mem_cons_of_mem _ hd)) ?_⟩
  rintro rfl
  exact hnc hd

/-- What is known when `propagate` succeeds. -/
structure FixpointOf (A : Circuit) (env : PdrEnv) (blocked : List Cube) (x : Fixpoint) : Prop where
  shape : Shape A env.minisat x.engine
  stored : Stored A env.minisat x.engine
  reach : Ic3.Reachable A.system InCube (x.engine.abs blocked)
  one_le : 1 ≤ x.level
  le_depth : x.level ≤ x.engine.depth
  empty : (x.engine.frame x.level).cubes = []
  badFree : Ic3.BadFree A.system InCube x.engine.cubes x.engine.depth
  certificate : x.certificate = none ∧ (env.output_certificate = true → ∃ t, env.RESULT t ≠ 0) ∨
    env.output_certificate = true ∧
      x.certificate = some (A.certify (x.engine.certCubes x.level)).show_aag

theorem fixpointFound_spec (hI : Inv A env.minisat n r) (hi1 : 1 ≤ i) (hi : i ≤ r.pdr.depth)
    (he : (r.pdr.frame i).cubes = []) (hb : Ic3.BadFree A.system InCube r.pdr.cubes r.pdr.depth) :
    (fixpointFound env i).Wp (fun _ r' => r'.hist = r.hist ∧
      ∃ x, r'.fixpoint = some x ∧ FixpointOf A env r'.blocked x) (HistGood A env.minisat) r := by
  unfold fixpointFound
  simp only [Exec.wp_bind, wp_readRESULT, Exec.wp_modify]
  refine ⟨rfl, _, rfl, hI.shape, hI.stored, hI.reach, hi1, hi, he, hb, ?_⟩
  by_cases hR : env.RESULT r.clock = 0
  · by_cases ho : env.output_certificate = true
    · right
      exact ⟨ho, by simp only [tick_pdr, hR, ho, and_self, if_true, hI.shape.circuit]⟩
    · left
      exact ⟨by simp [ho], fun h => absurd h ho⟩
  · left
    exact ⟨by simp [hR], fun _ => ⟨_, hR⟩⟩

theorem propagateLevels_spec (hI : Inv A env.minisat n r) {m : Nat} (hi1 : 1 ≤ i)
    (hm : i + m ≤ r.pdr.depth + 1) (hb : Ic3.BadFree A.system InCube r.pdr.cubes r.pdr.depth) :
    (propagateLevels env m i).Wp (fun b r' =>
      (b = false → Inv A env.minisat n r' ∧ Evolves n r r' ∧
        Ic3.BadFree A.system InCube r'.pdr.cubes r'.pdr.depth) ∧
      (b = true → HistGood A env.minisat r' ∧
        ∃ x, r'.fixpoint = some x ∧ FixpointOf A env r'.blocked x)) (HistGood A env.minisat) r := by
  induction m generalizing i r with
  | zero => exact ⟨fun _ => ⟨hI, .refl n r, hb⟩, (by rintro ⟨⟩)⟩
  | succ m ih =>
      have hlen : i + 1 < r.pdr.frames.length := by unfold PDR.depth at hm; omega
      unfold propagateLevels
      simp only [Exec.wp_bind, wp_getP]
      refine (propagateCubes_spec hI hi1 hlen).mono ?_ fun _ h => h
      rintro _ r1 ⟨hI1, hev1⟩
      have hb1 : Ic3.BadFree A.system InCube r1.pdr.cubes r1.pdr.depth := by
        rw [hev1.depth]; exact hev1.badFree hb
      simp only [Exec.wp_bind, wp_getP]
      rw [Exec.wp_ite]
      constructor
      · intro he
        refine (fixpointFound_spec hI1 hi1 (by rw [hev1.depth]; omega) (List.length_eq_zero_iff.mp he)
          hb1).bind ?_
        rintro _ r2 ⟨hh, hx⟩
        exact ⟨(by rintro ⟨⟩), fun _ => ⟨by intro p hp; rw [hh] at hp; exact hI1.hist p hp, hx⟩⟩
      · intro _
        refine (ih hI1 (by omega) (by rw [hev1.depth]; omega) hb1).mono ?_ fun _ h => h
        rintro b r2 ⟨h1, h2⟩
        exact ⟨fun h => ⟨(h1 h).1, hev1.trans (h1 h).2.1, (h1 h).2.2⟩, h2⟩

theorem propagate_spec (hI : Inv A env.minisat n r) (hlen : 3 ≤ r.pdr.frames.length)
    (he : 1 ≤ r.pdr.earliest_strengthened_frame)
    (hb : Ic3.BadFree A.system InCube r.pdr.cubes r.pdr.depth) :
    (propagate env).Wp (fun b r' =>
      (b = false → Inv A env.minisat n r' ∧ Evolves n r r' ∧
        Ic3.BadFree A.system InCube r'.pdr.cubes r'.pdr.depth) ∧
      (b = true → HistGood A env.minisat r' ∧
        ∃ x, r'.fixpoint = some x ∧ FixpointOf A env r'.blocked x)) (HistGood A env.minisat) r := by
  have hstart : 1 ≤ r.pdr.start_k := by
    unfold PDR.start_k PDR.depth
    split_ifs <;> omega
  unfold propagate
  simp only [Exec.wp_bind, wp_getP]
  by_cases hle : r.pdr.start_k ≤ r.pdr.depth + 1
  · exact propagateLevels_spec hI hstart (by omega) hb
  · rw [Nat.sub_eq_zero_of_le (by omega)]
    exact ⟨fun _ => ⟨hI, .refl n r, hb⟩, (by rintro ⟨⟩)⟩

end ModelChecker
