import ModelChecker.Pdr.Lemmas.Runs

/-!
# `is_init` and `is_inductive`

An answer of `is_init` is about the initial states, whatever was asked before; an unsatisfiable query of
`is_inductive` shows that the cube, and the part of it in the core, is inductive relative to the level.
-/

namespace ModelChecker

open Logic

variable {A : Circuit} {E : Eliminator} {p : PDR} {n k : Nat} {c : Cube}

/-! ## Initial states -/

theorem Shape.setInit (h : Shape A E p) {s : CaDiCaL} (hs : InitSolver A s) :
    Shape A E { p with init := some s } :=
  { h with init := fun t ht => by cases ht; exact hs }

theorem Shape.setCore (h : Shape A E p) (hc : A.LatchCube c) : Shape A E { p with core := c } :=
  { h with core := hc }

theorem Shape.initQuery (h : Shape A E p) :
    (p.initQuery c).clauses = A.encode_init_condition ∧ (p.initQuery c).assumptions = c ∧
      (p.initQuery c).clause = [] := by
  unfold PDR.initQuery
  rw [CaDiCaL.assumeAll_eq]
  cases hi : p.init with
  | none =>
      simp only [Option.getD_none, h.circuit]
      rw [CaDiCaL.addAll_eq init_nonZero rfl]
      simp
  | some s =>
      have hs := h.init s hi
      simp [hs.clauses, hs.clause, hs.assumptions]

theorem Shape.initSolved (h : Shape A E p) (a : Answer) : InitSolver A ((p.initQuery c).solved a) :=
  ⟨(h.initQuery (c := c)).2.2, rfl, (h.initQuery (c := c)).1⟩

/-- `is_init` asks whether the cube holds an initial point that satisfies the constraints. -/
theorem Shape.initQuery_iff (h : Shape A E p) (hc : A.LatchCube c) :
    (p.initQuery c).query.Satisfiable ↔ Ic3.MeetsInit A.system InCube c := by
  obtain ⟨hcl, has, _⟩ := h.initQuery (c := c)
  unfold Query.Satisfiable CaDiCaL.query
  rw [hcl, has]
  constructor
  · rintro ⟨σ, hF, hσ⟩
    obtain ⟨_, hi, hcons⟩ := init_sound hF
    exact ⟨σ, hi, hcons, hσ⟩
  · rintro ⟨w, hi, hcons, hw⟩
    exact ⟨A.eval w, init_complete hi hcons, (hc.congr fun u hu => Circuit.eval_latch w hu).mpr hw⟩

theorem isSat_iff {S : Ipasir} {t : Nat} {q : Query} : (S.solve t q).isSat = true ↔ q.Satisfiable := by
  have hl := S.legal t q
  cases ha : S.solve t q with
  | sat m => rw [ha] at hl; exact ⟨fun _ => hl.satisfiable, fun _ => rfl⟩
  | unsat core =>
      rw [ha] at hl
      exact ⟨fun h => by simp [Answer.isSat] at h, fun h => absurd h hl.not_satisfiable⟩

/-! ## Frame solvers inside a run -/

theorem Shape.setSolver (h : Shape A E p) (hk : k < p.frames.length) {s : CaDiCaL}
    (hs : FrameSolver A E k s) : Shape A E (p.setSolver k s) := by
  have hfr := fun j => PDR.frame_setSolver (p := p) (j := j) (s := s) hk
  refine { h with frames := ?_, cubes := ?_, nodup := ?_ }
  · intro j hj
    rw [PDR.length_setSolver] at hj
    rw [hfr]
    split
    · rename_i hjk; subst hjk; exact hs
    · exact h.frames j hj
  · intro j
    rw [hfr]
    split <;> exact h.cubes j
  · intro j
    rw [hfr]
    split <;> exact h.nodup j

theorem Stored.setSolver (h : Stored A E p) (hk : k < p.frames.length) {s : CaDiCaL}
    (hex : ∀ d, A.LatchCube d →
      (negCube d ∈ frameExtra A E k s ↔ negCube d ∈ frameExtra A E k (p.frame k).solver))
    (hlc : ∀ j, ∀ c ∈ (p.frame j).cubes, A.LatchCube c) : Stored A E (p.setSolver k s) := by
  have hfr := fun j => PDR.frame_setSolver (p := p) (j := j) (s := s) hk
  have hcubes : ∀ j, ((p.setSolver k s).frame j).cubes = (p.frame j).cubes := by
    intro j; rw [hfr]; split <;> rfl
  have hmem : ∀ i d, A.LatchCube d → (negCube d ∈ frameExtra A E i ((p.setSolver k s).frame i).solver ↔
      negCube d ∈ frameExtra A E i (p.frame i).solver) := by
    intro i d hd
    rw [hfr]
    split
    · rename_i hik; subst hik; exact hex d hd
    · exact Iff.rfl
  refine ⟨?_, ?_, ?_⟩
  · intro i j c hi hij hc
    rw [hcubes] at hc
    rw [hmem i c (hlc j c hc)]
    exact h.stored i j c hi hij hc
  · intro i d hi hd hm
    rw [PDR.length_setSolver] at hi
    rw [hmem i d hd] at hm
    obtain ⟨h1, j, hj, c, hc, hcd⟩ := h.lemmas i d hi hd hm
    exact ⟨h1, j, hj, c, by rw [hcubes]; exact hc, hcd⟩
  · rw [hcubes]; exact h.level0

/-- A point of level `k` violates no lemma clause of its solver. -/
theorem Stored.level (h : Stored A E p) (hk : k < p.frames.length) {w : Assignment}
    (hw : Ic3.Level A.system InCube p.cubes k w) :
    (k = 0 → A.system.Init w) ∧
      ∀ d, A.LatchCube d → negCube d ∈ frameExtra A E k (p.frame k).solver → ¬ CubeSat w d := by
  constructor
  · rintro rfl
    simpa using hw
  · intro d hd hm hsat
    obtain ⟨h1, j, hj, c, hc, hcd⟩ := h.lemmas k d hk hd hm
    rw [Ic3.level_pos h1] at hw
    exact hw j hj c hc (hsat.mono hcd)

/-! ## Relative induction -/

/-- The last answer of solver `k` is a model, all of whose completions satisfy the encoding and the
literals `ls`. -/
def HasModel (A : Circuit) (E : Eliminator) (p : PDR) (k : Nat) (ls : List Int) : Prop :=
  ∃ m, (p.frame k).solver.answer = some (.sat m) ∧
    ∀ σ, Completes m σ → CnfSat σ (frameBase A E k) ∧ CubeSat σ ls

/-- What `is_inductive` leaves in `core`. -/
structure CoreOf (A : Circuit) (p : PDR) (k : Nat) (c core : Cube) : Prop where
  sublist : core.Sublist c
  relInd : Ic3.RelInd A.system InCube p.cubes k core
  init : Ic3.MeetsInit A.system InCube core → core = c

theorem prime_lit_eq (h : Shape A E p) (l : Int) :
    (p.circuit.prime_lit p.primes l).1 = primeLit A (primes1 A) l := by
  rw [h.circuit, h.primes]; rfl

/-- The parts of the query of `is_inductive`. -/
structure QueryOf (A : Circuit) (E : Eliminator) (p : PDR) (k : Nat) (c sorted : Cube) (s : CaDiCaL) :
    Prop where
  clauses : s.clauses = (p.frame k).solver.clauses ++
    [-(((p.frame k).solver.nv + 1 : Nat) : Int) :: negCube c]
  assumptions : s.assumptions =
    (((p.frame k).solver.nv + 1 : Nat) : Int) :: sorted.map (primeLit A (primes1 A))
  solver : ∀ a, FrameSolver A E k (s.solved a)
  extra : ∀ a, frameExtra A E k (s.solved a) = frameExtra A E k (p.frame k).solver ++
    [-(((p.frame k).solver.nv + 1 : Nat) : Int) :: negCube c]

theorem isQuery_act (hc : A.LatchCube c) {nv : Nat} (hnv : frameVars A ≤ nv) :
    IsQuery (frameVars A) (max nv (CaDiCaL.maxVar 0 (-((nv + 1 : Nat) : Int) :: negCube c)))
      (-((nv + 1 : Nat) : Int) :: negCube c) := by
  have h := CaDiCaL.varsLe_maxVar 0 (-((nv + 1 : Nat) : Int) :: negCube c) _ List.mem_cons_self
  rw [Int.natAbs_neg, Int.natAbs_natCast] at h
  exact ⟨nv + 1, negCube c, by omega, by omega,
    fun l hl => (hc.negCube.2 l hl).trans max_var_le_frameVars, hc.negCube.1, rfl⟩

theorem Shape.queryOf (h : Shape A E p) (hk : k < p.frames.length) (hc : A.LatchCube c)
    (sorted : Cube) : QueryOf A E p k c sorted (p.inductiveQuery k c sorted) := by
  have hs := h.frames k hk
  obtain ⟨hadd, hext, _⟩ := hs.addClause (Or.inr (isQuery_act hc hs.nv))
  have h0 := (isQuery_act hc hs.nv).bounds.1
  have heq : p.inductiveQuery k c sorted =
      (((p.frame k).solver.addClause (-(((p.frame k).solver.nv + 1 : Nat) : Int) :: negCube c)).assume
        (((p.frame k).solver.nv + 1 : Nat) : Int)).assumeAll
        (sorted.map (primeLit A (primes1 A))) := by
    unfold PDR.inductiveQuery SATSolver.clear_act CaDiCaL.max_var
    simp only [prime_lit_eq h, Nat.cast_add, Nat.cast_one]
  rw [heq, CaDiCaL.assumeAll_eq]
  refine ⟨?_, ?_, ?_, ?_⟩
  · rw [CaDiCaL.addClause_eq h0 hs.clause]; rfl
  · show _ ++ [_] ++ _ = _
    rw [hadd.assumptions]; rfl
  · exact fun a => ⟨hadd.clause, rfl, hadd.base, hadd.extra, hadd.nv⟩
  · exact fun a => hext

/-- The query clause is no lemma. -/
theorem QueryOf.lemma_iff {sorted : Cube} {s : CaDiCaL} (h : QueryOf A E p k c sorted s)
    (hs : FrameSolver A E k (p.frame k).solver) (hc : A.LatchCube c) (a : Answer) {d : Cube}
    (hd : A.LatchCube d) :
    negCube d ∈ frameExtra A E k (s.solved a) ↔ negCube d ∈ frameExtra A E k (p.frame k).solver := by
  rw [h.extra a, List.mem_append, List.mem_singleton]
  refine ⟨fun hm => hm.resolve_right fun he => ?_, Or.inl⟩
  exact (isQuery_act hc hs.nv).not_lemma hd he.symm

/-- Transitions from level `k` into a cube `d ⊆ c` are models of the query, as far as it assumes the
literals of `d`. -/
theorem QueryOf.models {sorted : Cube} {s : CaDiCaL} (h : QueryOf A E p k c sorted s)
    (hs : FrameSolver A E k (p.frame k).solver) (hc : A.LatchCube c) {w w' : Assignment}
    (hst : A.system.Step w w') (h0 : k = 0 → A.system.Init w)
    (hlem : ∀ d, A.LatchCube d → negCube d ∈ frameExtra A E k (p.frame k).solver → ¬ CubeSat w d)
    (hcw : ¬ CubeSat w c) :
    ∃ σ, CnfSat σ s.clauses ∧ litVal σ (((p.frame k).solver.nv + 1 : Nat) : Int) = true ∧
      ∀ l, A.IsLatch l.natAbs → litVal σ (primeLit A (primes1 A) l) = litVal w' l := by
  have hnv := hs.nv
  refine ⟨activate (frameVars A) (joint A (primes1 A) w w') ((p.frame k).solver.nv + 1), ?_, ?_, ?_⟩
  · rw [h.clauses, cnfSat_append, cnfSat_cons]
    refine ⟨hs.models hst h0 hlem (by omega), ?_, cnfSat_nil _⟩
    rw [clauseSat_cons]
    right
    rw [clauseSat_activate fun l hl => (hc.negCube.2 l hl).trans max_var_le_frameVars,
      clauseSat_negCube hc.nonZero, cubeSat_joint hc]
    exact hcw
  · exact activate_self (by omega)
  · intro l hl
    rw [litVal_activate (primeLit_le_frameVars (litOk_of_latch hl) (has_of_latch hl)),
      litVal_joint_prime_latch hl]

theorem mem_failedCore (hsh : Shape A E p) {s : CaDiCaL} {core : List Int}
    (ha : s.answer = some (.unsat core)) {l : Int} :
    l ∈ p.failedCore s c ↔ l ∈ c ∧ primeLit A (primes1 A) l ∈ core := by
  unfold PDR.failedCore
  rw [List.mem_filter, prime_lit_eq hsh, CaDiCaL.failed_iff ha]

/-- An unsatisfiable query makes the failed part of the cube inductive relative to level `k`. -/
theorem relInd_failedCore (hsh : Shape A E p) (hst : Stored A E p) (hk : k < p.frames.length)
    (hc : A.LatchCube c) {sorted : Cube} (hperm : sorted.Perm c) {s : CaDiCaL}
    (hq : QueryOf A E p k c sorted s) {core : List Int} (hl : Legal s.query (.unsat core)) {d : Cube}
    (hd : ∀ l, l ∈ c → primeLit A (primes1 A) l ∈ core → l ∈ d) (hdc : d ⊆ c) :
    Ic3.RelInd A.system InCube p.cubes k d := by
  intro w w' hw hdw hstep hdw'
  obtain ⟨h0, hlem⟩ := hst.level hk hw
  obtain ⟨σ, hF, hact, hpr⟩ := hq.models (hsh.frames k hk) hc hstep h0 hlem
    fun h => hdw (h.mono hdc)
  refine hl.2 σ hF fun l hlc => ?_
  have hmem : l ∈ s.assumptions := hl.1 hlc
  rw [hq.assumptions] at hmem
  rcases List.mem_cons.mp hmem with rfl | hmem
  · exact hact
  · obtain ⟨m, hm, rfl⟩ := List.mem_map.mp hmem
    have hmc := hperm.mem_iff.mp hm
    rw [hpr m (hc m hmc)]
    exact hdw' m (hd m hmc hlc)

/-! ## Specifications -/

section Spec

variable {env : PdrEnv} {r : Run}

theorem Quiet.of_fields {r r' : Run} (hf : r'.pdr.frames = r.pdr.frames)
    (hq : r'.pdr.obligation_queue = r.pdr.obligation_queue) (hs : r'.pdr.states = r.pdr.states)
    (hb : r'.blocked = r.blocked) : Quiet n r r' where
  len := by rw [hf]
  cubes j := by unfold PDR.frame; rw [hf]
  queue := hq
  blocked := hb
  heap s _ := by unfold SameState PDR.state; rw [hs]; exact ⟨rfl, rfl, rfl⟩
  size := by rw [hs]

theorem Inv.setInit (hI : Inv A E n r) {s : CaDiCaL} (hs : InitSolver A s) :
    Inv A E n (r.setP { r.pdr with init := some s }) :=
  hI.quiet (.of_fields rfl rfl rfl rfl) (hI.shape.setInit hs) (hI.stored.of_frames rfl) hI.hist

theorem Inv.setCore (hI : Inv A E n r) (hc : A.LatchCube c) :
    Inv A E n (r.setP { r.pdr with core := c }) :=
  hI.quiet (.of_fields rfl rfl rfl rfl) (hI.shape.setCore hc) (hI.stored.of_frames rfl) hI.hist

theorem evolves_setCore (c : Cube) : Evolves n r (r.setP { r.pdr with core := c }) :=
  Quiet.evolves (.of_fields rfl rfl rfl rfl) rfl rfl

theorem is_init_spec (hI : Inv A E n r) (hc : A.LatchCube c) :
    (is_init env c).Wp (fun b r' => Inv A E n r' ∧ Evolves n r r' ∧ r'.pdr.core = r.pdr.core ∧
      r'.pdr.tmp_core = r.pdr.tmp_core ∧ r'.pdr.frames = r.pdr.frames ∧
      r'.pdr.states = r.pdr.states ∧ (b = true ↔ Ic3.MeetsInit A.system InCube c))
      (HistGood A E) r := by
  unfold is_init
  simp only [Exec.wp_bind, wp_getP, wp_ask, wp_modifyP, Exec.wp_pure, tick_pdr]
  refine ⟨hI.tick.setInit (hI.shape.initSolved _), ?_, rfl, rfl, rfl, rfl, ?_⟩
  · exact Quiet.evolves (.of_fields rfl rfl rfl rfl) rfl rfl
  · rw [isSat_iff, hI.shape.initQuery_iff hc]

/-- The query of `is_inductive`, with what its answer means. -/
theorem askInductive_spec (hI : Inv A E n r) (hc : A.LatchCube c) (hk : k < r.pdr.frames.length) :
    (askInductive env k c).Wp (fun s r' => Inv A E n r' ∧ Evolves n r r' ∧
      r'.pdr.tmp_core = r.pdr.tmp_core ∧ r'.pdr.core = r.pdr.core ∧ r'.pdr.states = r.pdr.states ∧
      r'.pdr.cubes = r.pdr.cubes ∧
      (s.isSat = true → HasModel A E r'.pdr k (c.map (primeLit A (primes1 A)))) ∧
      (s.isSat = false → Ic3.RelInd A.system InCube r'.pdr.cubes k c ∧
        Ic3.RelInd A.system InCube r'.pdr.cubes k (r'.pdr.failedCore s c))) (HistGood A E) r := by
  unfold askInductive
  simp only [Exec.wp_bind, wp_reorder, wp_getP, wp_ask, wp_modifyP, wp_record, Exec.wp_pure,
    SATSolver.set_clear_act, tick_pdr, tick_clock]
  have hperm := env.order_perm r.clock c
  have hq := hI.shape.queryOf hk hc (env.order r.clock c)
  have hleg := env.solver.legal (r.clock + 1)
    (r.pdr.inductiveQuery k c (env.order r.clock c)).query
  generalize env.solver.solve (r.clock + 1)
    (r.pdr.inductiveQuery k c (env.order r.clock c)).query = a at hleg
  generalize hs : (r.pdr.inductiveQuery k c (env.order r.clock c)).solved a = s
  have hans : s.answer = some a := by rw [← hs]; rfl
  have hfr := fun j => PDR.frame_setSolver (p := r.pdr) (j := j) (s := s) hk
  have hquiet : Quiet n r ((r.tick.tick.setP (r.pdr.setSolver k s)).record) := by
    refine ⟨by simp, fun j => ?_, rfl, rfl, fun s _ => ⟨rfl, rfl, rfl⟩, le_rfl⟩
    simp only [record_pdr, setP_pdr, hfr]
    split <;> rfl
  have hst : Stored A E (r.pdr.setSolver k s) :=
    hI.stored.setSolver hk (fun d hd => hs ▸ hq.lemma_iff (hI.shape.frames k hk) hc a hd)
      fun j c hc => (hI.shape.cubes j c hc).1
  have hsh : Shape A E (r.pdr.setSolver k s) := hI.shape.setSolver hk (hs ▸ hq.solver a)
  have hI' : Inv A E n (r.tick.tick.setP (r.pdr.setSolver k s)) :=
    hI.quiet ⟨hquiet.len, hquiet.cubes, hquiet.queue, rfl, hquiet.heap, le_rfl⟩ hsh hst hI.hist
  refine ⟨hI'.record, hquiet.evolves rfl rfl, rfl, rfl, rfl, hquiet.cubes_eq, fun hsat => ?_,
    fun hsat => ?_⟩
  · cases a with
    | unsat core => simp [CaDiCaL.isSat, hans] at hsat
    | sat m =>
        refine ⟨m, ?_, fun σ hσ => ?_⟩
        · simp only [record_pdr, setP_pdr, hfr, ↓reduceIte]; exact hans
        · obtain ⟨hF, hA⟩ := hleg σ hσ
          simp only [CaDiCaL.query, hq.clauses, hq.assumptions] at hF hA
          rw [(hI.shape.frames k hk).clauses_eq] at hF
          refine ⟨(cnfSat_append.mp (cnfSat_append.mp hF).1).1, fun l hl => hA l ?_⟩
          obtain ⟨i, hi, rfl⟩ := List.mem_map.mp hl
          exact List.mem_cons_of_mem _ (List.mem_map_of_mem (hperm.mem_iff.mpr hi))
  · cases a with
    | sat m => simp [CaDiCaL.isSat, hans] at hsat
    | unsat core =>
        rw [hquiet.cubes_eq]
        refine ⟨relInd_failedCore hI.shape hI.stored hk hc hperm hq hleg (fun l hl _ => hl)
          fun _ h => h, relInd_failedCore hI.shape hI.stored hk hc hperm hq hleg ?_ ?_⟩
        · exact fun l hl hlc => (mem_failedCore hsh hans).mpr ⟨hl, hlc⟩
        · exact List.filter_sublist.subset

theorem takeCore_spec (hI : Inv A E n r) (hc : A.LatchCube c) {s : CaDiCaL}
    (hr : Ic3.RelInd A.system InCube r.pdr.cubes k c)
    (hf : Ic3.RelInd A.system InCube r.pdr.cubes k (r.pdr.failedCore s c)) :
    (takeCore env s c).Wp (fun _ r' => Inv A E n r' ∧ Evolves n r r' ∧
      r'.pdr.tmp_core = r.pdr.tmp_core ∧ r'.pdr.states = r.pdr.states ∧ r'.pdr.cubes = r.pdr.cubes ∧
      CoreOf A r'.pdr k c r'.pdr.core) (HistGood A E) r := by
  have hsub : (r.pdr.failedCore s c).Sublist c := List.filter_sublist
  have hI' := hI.setCore (hc.mono hsub.subset)
  unfold takeCore
  simp only [Exec.wp_bind, wp_modifyP, wp_getP, setP_pdr]
  refine (is_init_spec hI' (hc.mono hsub.subset)).mono ?_ fun _ h => h
  rintro b r' ⟨hI2, hev, hcore, htmp, hframes, hstates, hb⟩
  have hcubes : r'.pdr.cubes = r.pdr.cubes := by
    funext j; unfold PDR.cubes PDR.frame; rw [hframes]; rfl
  have hev' : Evolves n r r' := (evolves_setCore _).trans hev
  rw [Exec.wp_ite]
  constructor
  · intro _
    refine ⟨hI2.setCore hc, hev'.trans (evolves_setCore c), htmp, hstates, hcubes, .refl _, ?_,
      fun _ => rfl⟩
    show Ic3.RelInd A.system InCube r'.pdr.cubes k c
    rw [hcubes]; exact hr
  · intro hb'
    refine ⟨hI2, hev', htmp, hstates, hcubes, hcore ▸ hsub, ?_, fun hm => ?_⟩
    · rw [hcubes, hcore]; exact hf
    · rw [hcore] at hm; exact absurd (hb.mpr hm) hb'

theorem is_inductive_spec (hI : Inv A E n r) (hc : A.LatchCube c) (hk : k < r.pdr.frames.length)
    (g : Bool) :
    (is_inductive env k c g).Wp (fun b r' => Inv A E n r' ∧ Evolves n r r' ∧
      r'.pdr.tmp_core = r.pdr.tmp_core ∧ r'.pdr.states = r.pdr.states ∧
      r'.pdr.cubes = r.pdr.cubes ∧
      (b = true → Ic3.RelInd A.system InCube r'.pdr.cubes k c) ∧
      (b = true → g = true → CoreOf A r'.pdr k c r'.pdr.core) ∧
      (b = false ∨ g = false → r'.pdr.core = r.pdr.core) ∧
      (b = false → HasModel A E r'.pdr k (c.map (primeLit A (primes1 A))))) (HistGood A E) r := by
  unfold is_inductive
  refine (askInductive_spec hI hc hk).bind ?_
  rintro s r1 ⟨hI1, hev1, htmp1, hcore1, hst1, hcub1, hsat, hunsat⟩
  rw [Exec.wp_ite]
  constructor
  · intro hs
    exact ⟨hI1, hev1, htmp1, hst1, hcub1, (by rintro ⟨⟩), (by rintro ⟨⟩), fun _ => hcore1, fun _ => hsat hs⟩
  · intro hs
    obtain ⟨hrel, hfail⟩ := hunsat (by simpa using hs)
    cases g with
    | false =>
        exact ⟨hI1, hev1, htmp1, hst1, hcub1, fun _ => hrel, (by rintro _ ⟨⟩), fun _ => hcore1, (by rintro ⟨⟩)⟩
    | true =>
        refine (takeCore_spec hI1 hc hrel hfail).bind ?_
        rintro _ r2 ⟨hI2, hev2, htmp2, hst2, hcub2, hcore2⟩
        exact ⟨hI2, hev1.trans hev2, htmp2.trans htmp1, hst2.trans hst1, hcub2.trans hcub1,
          fun _ => hcub2 ▸ hrel, fun _ _ => hcore2, (by simp), (by rintro ⟨⟩)⟩

end Spec

end ModelChecker
