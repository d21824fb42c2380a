import ModelChecker.Pdr.Lemmas.Block

/-!
# Counterexamples

Models read from the solvers start or continue a counterexample: the state objects of the queue are
chained, and the chain that starts at level `0` is a counterexample of the circuit.
-/

namespace ModelChecker

open Logic

variable {A : Circuit} {E : Eliminator} {n k : Nat} {r : Run} {env : PdrEnv}

/-! ## Initial states -/

theorem exists_init (A : Circuit) : ∃ w, A.system.Init w := by
  refine ⟨fun v => decide ((v : Int) ∈ A.init_state), fun l hl => ?_⟩
  have hlatch := (A.wf.init_latch l hl).1
  unfold litVal
  split
  · -- the positive literal would be a second entry for the same latch
    have hpos : (l.natAbs : Int) ∉ A.init_state := by
      intro hmem
      have : Std.Symm fun a b : Int => a.natAbs ≠ b.natAbs := ⟨fun _ _ h => h.symm⟩
      exact A.wf.init_distinct.forall hl hmem (by omega) (Int.natAbs_natCast _).symm
    simp only [Bool.not_eq_true', decide_eq_false_iff_not]
    exact hpos
  · have : (l.natAbs : Int) = l := by omega
    simpa [this] using hl

theorem cons_of_nil (h : A.constraints = []) (w : Assignment) : A.system.Cons w := by
  intro l hl; rw [h] at hl; cases hl

theorem trusted_of_init (hc : A.constraints = [])
    (h0 : ∀ w, A.system.Init w → A.system.Cons w → ¬ A.system.Bad w) : Trusted A E true := by
  obtain ⟨w, hw⟩ := exists_init A
  obtain ⟨w', hn⟩ := A.system.total w
  exact Or.inl ⟨w, w', h0 w hw (cons_of_nil hc w), fun _ => cons_of_nil hc w, hn⟩

/-- A model of the initial condition contains all reset values. -/
theorem init_subset_modelState {s : CaDiCaL} {m : Nat → Option Bool} (ha : s.answer = some (.sat m))
    (hm : ∀ σ, Completes m σ → A.system.Init σ) : A.init_state ⊆ (modelState A.toAiger s).latches := by
  intro l hl
  obtain ⟨h1, h2⟩ := A.wf.init_latch l hl
  unfold Aiger.first_and at h2
  exact mem_modelLits_of_forced ha (i := l.natAbs - (2 + A.num_inputs)) (by omega) (by omega)
    (by omega) fun σ hσ => hm σ hσ l hl

/-! ## Chains -/

theorem next_unique {v u w w' : Assignment} (h : ∀ x, 2 ≤ x → x < A.first_and → u x = v x)
    (hn : A.system.Next u w) (hn' : A.system.Next v w') : A.system.same w w' := by
  intro x hx
  obtain ⟨hi, hlx⟩ := Circuit.IsLatch.eq_latch hx
  rw [← hlx, hn _ hi, hn' _ hi]
  exact Circuit.val_congr h (Circuit.next_ok hi)

theorem cubeSat_of_matches {σ w w' : Assignment} (h : Matches A (primes1 A) σ w w') {c : Cube}
    (hc : A.LatchCube c) (hσ : CubeSat σ (c.map (primeLit A (primes1 A)))) : CubeSat w' c := by
  intro l hl
  have hlatch := hc l hl
  have h2 := hlatch.1
  have hv := hσ _ (List.mem_map_of_mem hl)
  rw [litVal_primeLit σ primes1_roots.ok (has_of_latch hlatch) (hc.nonZero l hl)] at hv
  rw [← hv]
  exact litVal_congr (h.leaf' _ (by omega) hlatch.2)

/-- The model of a query at level `k` continues a counterexample, and starts one at level `0`. -/
theorem forced_of_model {s : CaDiCaL} {m : Nat → Option Bool} (ha : s.answer = some (.sat m))
    {c : Cube} (hc : A.LatchCube c)
    (hm : ∀ σ, Completes m σ → CnfSat σ (frameBase A E k) ∧
      CubeSat σ (c.map (primeLit A (primes1 A))))
    (hsat : Trusted A E true) {L : List (List Int)}
    (hL : ∀ w, CubeSat w c → Forced A L w) {w : Assignment}
    (hw : CubeSat w (modelState A.toAiger s).latches) :
    Forced A ((modelState A.toAiger s).inputs :: L) w := by
  intro v hsame hv
  right
  intro w' hn
  obtain ⟨v', _, hv'⟩ := exists_inputs' (A := A) ha w'
  obtain ⟨σ, u, u', hls, hst, _, hmat, hleaf, _⟩ :=
    step_of_model ha hm hsat ((modelState_latches.congr hsame).mp hw) hv hv'
  have hu' := cubeSat_of_matches hmat hc hls
  exact hL w' ((hc.congr (next_unique hleaf hst.next hn)).mp hu')

/-- A lifted state continues the chain of its successor. -/
theorem Lifted.chained {sat : CaDiCaL} {p p' : PDR} {s t : Nat} {m : Nat → Option Bool}
    (h : Lifted A sat p p' s (some t)) (ha : sat.answer = some (.sat m)) {L : List (List Int)}
    (hlat : A.LatchCube (p.state t).latches)
    (hL : ∀ w, CubeSat w (p.state t).latches → Forced A L w) (hs : A.LatchCube (p'.state s).latches)
    {w : Assignment} (hw : CubeSat w (p'.state s).latches) :
    Forced A ((p'.state s).inputs :: L) w := by
  intro v hsame hv
  have hvl := (hs.congr hsame).mp hw
  by_cases hb : A.system.Bad v
  · exact Or.inl hb
  · right
    intro w' hn
    obtain ⟨v', hsame', hv'⟩ := exists_inputs' (A := A) ha w'
    rcases h.law v v' hvl hv hv' (A.system.next_same hsame' hn) with hb' | ⟨_, _, hr⟩
    · exact absurd hb' hb
    · exact hL w' ((hlat.congr hsame').mpr hr)

/-- Without constraints, lifting has the meaning the abstract machine asks for. -/
theorem Lifted.lifts {sat : CaDiCaL} {p p' : PDR} {s t : Nat} {m : Nat → Option Bool}
    (h : Lifted A sat p p' s (some t)) (ha : sat.answer = some (.sat m))
    (hlat : A.LatchCube (p.state t).latches) (hs : A.LatchCube (p'.state s).latches) :
    Ic3.Lifts A.system InCube (p'.state s).latches (p.state t).latches := by
  intro w hw
  obtain ⟨v, hsame, hv⟩ := exists_inputs (A := A) ha w
  refine ⟨v, hsame, ?_⟩
  by_cases hb : A.system.Bad v
  · exact Or.inl hb
  · right
    intro w' hn
    obtain ⟨v', hsame', hv'⟩ := exists_inputs' (A := A) ha w'
    rcases h.law v v' ((hs.congr hsame).mp hw) (h.inputs ▸ hv) hv' (A.system.next_same hsame' hn) with
      hb' | ⟨_, _, hr⟩
    · exact absurd hb' hb
    · exact (hlat.congr hsame').mpr hr

theorem Lifted.forcedBad {sat : CaDiCaL} {p p' : PDR} {s : Nat} (h : Lifted A sat p p' s none)
    (hs : A.LatchCube (p'.state s).latches) {w : Assignment} (hw : CubeSat w (p'.state s).latches) :
    Forced A [(p'.state s).inputs, (modelState' A.toAiger sat).inputs] w := by
  intro v hsame hv
  by_cases hb : A.system.Bad v
  · exact Or.inl hb
  · right
    intro w' hn v' hsame' hv'
    rcases h.law v v' ((hs.congr hsame).mp hw) hv hv' (A.system.next_same hsame' hn) with
      hb' | ⟨_, _, hr⟩
    · exact absurd hb' hb
    · exact Or.inl hr

theorem Lifted.liftsBad {sat : CaDiCaL} {p p' : PDR} {s : Nat} {m : Nat → Option Bool}
    (h : Lifted A sat p p' s none) (ha : sat.answer = some (.sat m))
    (hs : A.LatchCube (p'.state s).latches) :
    Ic3.LiftsBad A.system InCube (p'.state s).latches := by
  intro w hw
  obtain ⟨v, hsame, hv⟩ := exists_inputs (A := A) ha w
  refine ⟨v, hsame, ?_⟩
  obtain ⟨w', hn⟩ := A.system.total v
  obtain ⟨v', hsame', hv'⟩ := exists_inputs' (A := A) ha w'
  have hn' := A.system.next_same hsame' hn
  rcases h.law v v' ((hs.congr hsame).mp hw) (h.inputs ▸ hv) hv' hn' with hb | ⟨_, _, hr⟩
  · exact Or.inl hb
  · exact Or.inr ⟨v', hn', hr⟩

/-! ## Expanding an obligation -/

/-- The counterexample found at level `0`. -/
theorem counterexample_of_path {p : PDR} {s t : Nat} {m : Nat → Option Bool} {sat : CaDiCaL}
    (hsh : Shape A E p) (ha : sat.answer = some (.sat m)) (hlat : A.LatchCube (p.state t).latches)
    (hm : ∀ σ, Completes m σ → CnfSat σ (frameBase A E 0) ∧
      CubeSat σ ((p.state t).latches.map (primeLit A (primes1 A))))
    (hsat : Trusted A E true)
    (hs : p.state s = { modelState A.toAiger sat with next := some t })
    {L : List (List Int)} (hin : ∀ I ∈ L, InputLine A I)
    (hL : ∀ w, CubeSat w (p.state t).latches → Forced A L w) {sts : List State}
    (hmap : sts.map State.inputs = (p.state s).inputs :: L) (hhead : sts.head? = some (p.state s))
    (hall : ∀ st ∈ sts, ∃ u, st = p.state u) : Counterexample A sts where
  nonempty := by rintro rfl; cases hmap
  inputs st hst := by
    have hmem : st.inputs ∈ sts.map State.inputs := List.mem_map_of_mem hst
    rw [hmap] at hmem
    rcases List.mem_cons.mp hmem with he | hmem
    · rw [he, hs]; exact modelState_inputLine
    · exact hin _ hmem
  latches st hst := by
    obtain ⟨u, rfl⟩ := hall st hst
    exact hsh.states u
  consistent st hst := by
    rw [hhead] at hst
    cases hst
    rw [hs]
    exact fun l hl => modelLits_consistent (by omega) hl
  init st hst := by
    rw [hhead] at hst
    cases hst
    rw [hs]
    refine init_subset_modelState ha fun σ hσ => ?_
    have hF := (hm σ hσ).1
    unfold frameBase at hF
    rw [if_pos rfl, cnfSat_append] at hF
    exact (init_sound hF.2).2.1
  forced st hst w hw := by
    rw [hhead] at hst
    cases hst
    rw [hmap, hs]
    rw [hs] at hw
    exact forced_of_model ha hlat hm hsat hL hw

/-- The result of one round: the search goes on, or a counterexample was found. -/
def RoundPost (A : Circuit) (E : Eliminator) (r : Run) (go : Bool) (r' : Run) : Prop :=
  (go = true → (∃ n, Inv A E n r') ∧ Keeps r r') ∧
    (go = false → HistGood A E r' ∧ r'.pdr.circuit = A.toAiger ∧
      (A.constraints = [] → Counterexample A r'.pdr.cex_states))

/-- The obligation `o` is dropped; `v` is the depth its state and the next one may be marked with. -/
structure Dropped (A : Circuit) (E : Eliminator) (n : Nat) (r : Run) (o : Obligation) (v : Nat) (r' : Run) :
    Prop where
  mark : v = (r.pdr.state o.state).failed_depth ∧ v ≠ 0 ∧ v ≤ o.depth + o.frame_k ∨
    5 ≤ (r.pdr.state o.state).failed ∧ v = o.depth + o.frame_k ∧ r.pdr.depth < v
  inv : Inv A E n r'
  keeps : Keeps r r'
  frames : r'.pdr.frames = r.pdr.frames
  queue : r'.pdr.obligation_queue = r.pdr.obligation_queue.tail
  heap : ∀ s, s < n → SameState r.pdr r'.pdr s
  failed_depth : ∀ t, (r'.pdr.state t).failed_depth = (r.pdr.state t).failed_depth ∨
    (r'.pdr.state t).failed_depth = v

/-- A new state object, the predecessor of the state of `o`, is queued one level below. -/
structure Preceded (A : Circuit) (E : Eliminator) (r : Run) (o : Obligation) (r' : Run) : Prop where
  level : 1 ≤ o.frame_k
  inv : Inv A E r'.pdr.states.length r'
  keeps : Keeps r r'
  frames : r'.pdr.frames = r.pdr.frames
  queue : r'.pdr.obligation_queue =
    setInsert Obligation.lt ⟨r.pdr.states.length, o.frame_k - 1, o.depth + 1⟩ r.pdr.obligation_queue
  size : r'.pdr.states.length = r.pdr.states.length + 1
  heap : ∀ t, t < r.pdr.states.length → r'.pdr.state t = r.pdr.state t
  next : (r'.pdr.state r.pdr.states.length).next = some o.state
  failed : (r'.pdr.state r.pdr.states.length).failed = 0 ∧
    (r'.pdr.state r.pdr.states.length).failed_depth = 0
  latches : (r'.pdr.state r.pdr.states.length).latches.Sublist
    (modelState A.toAiger (r.pdr.frame o.frame_k).solver).latches

/-- What becomes of an obligation with a predecessor. -/
inductive Expanded (A : Circuit) (E : Eliminator) (n : Nat) (r : Run) (o : Obligation) : Bool → Run → Prop
  | drop {v : Nat} {r' : Run} (h : Dropped A E n r o v r') : Expanded A E n r o true r'
  | precede {r' : Run} (h : Preceded A E r o r') : Expanded A E n r o true r'
  | cex {r' : Run} (h0 : o.frame_k = 0) (hq : r'.pdr.obligation_queue = r.pdr.obligation_queue)
      (hh : HistGood A E r') (hA : r'.pdr.circuit = A.toAiger)
      (hc : A.constraints = [] → Counterexample A r'.pdr.cex_states) : Expanded A E n r o false r'

theorem Expanded.roundPost {o : Obligation} {go : Bool} {r' : Run} (h : Expanded A E n r o go r') :
    RoundPost A E r go r' := by
  cases h with
  | drop h => exact ⟨fun _ => ⟨⟨_, h.inv⟩, h.keeps⟩, (by rintro ⟨⟩)⟩
  | precede h => exact ⟨fun _ => ⟨⟨_, h.inv⟩, h.keeps⟩, (by rintro ⟨⟩)⟩
  | cex _ _ hh hA hc => exact ⟨(by rintro ⟨⟩), fun _ => ⟨hh, hA, hc⟩⟩

theorem failed_depth_setState (p : PDR) (s v t : Nat) :
    ((p.setState s fun st => { st with failed_depth := v }).state t).failed_depth =
        (p.state t).failed_depth ∨
      ((p.setState s fun st => { st with failed_depth := v }).state t).failed_depth = v := by
  by_cases hs : s < p.states.length
  · rw [PDR.state_setState hs]
    split
    · exact .inr rfl
    · exact .inl rfl
  · rw [PDR.setState_of_ge (by omega)]
    exact .inl rfl

theorem failed_depth_onNext (p : PDR) (s v t : Nat) :
    ((p.onNext s fun st => { st with failed_depth := v }).state t).failed_depth =
        (p.state t).failed_depth ∨
      ((p.onNext s fun st => { st with failed_depth := v }).state t).failed_depth = v := by
  unfold PDR.onNext
  split
  · exact failed_depth_setState p _ v t
  · exact .inl rfl

theorem onNext_fields (p : PDR) (s : Nat) (f : State → State) : (p.onNext s f).frames = p.frames ∧
    (p.onNext s f).obligation_queue = p.obligation_queue := by
  unfold PDR.onNext
  split <;> exact ⟨rfl, rfl⟩

section Expand

variable {o : Obligation}

/-- Only `failed`, `failed_depth` and the queue differ from the state before. -/
theorem sameState_dropped {r1 r2 : Run} (hp : r1.pdr = r.pdr.setQueue r.pdr.obligation_queue.tail)
    (hev : Evolves n r1 r2) : ∀ s, s < n → SameState r.pdr r2.pdr s := by
  intro s hs
  obtain ⟨h1, h2, h3⟩ := hev.heap s hs
  rw [hp] at h1 h2 h3
  exact ⟨h1, h2, h3⟩

theorem drop_marked (hI : Inv A E n r) (hfd : (r.pdr.state o.state).failed_depth ≠ 0 ∧
      (r.pdr.state o.state).failed_depth ≤ o.depth + o.frame_k) :
    Exec.Wp (do
      eraseObligation
      modifyP fun p => p.onNext o.state fun t =>
        { t with failed_depth := (r.pdr.state o.state).failed_depth }
      pure true) (Expanded A E n r o) (HistGood A E) r := by
  refine (eraseObligation_spec hI).bind ?_
  rintro _ r1 ⟨hI1, hk1, hp1, _⟩
  set v := (r.pdr.state o.state).failed_depth
  obtain ⟨hI2, hev2, _⟩ := hI1.onNext o.state (f := fun t => { t with failed_depth := v })
    fun _ => ⟨rfl, rfl, rfl⟩
  obtain ⟨hf2, hq2⟩ := onNext_fields r1.pdr o.state fun t => { t with failed_depth := v }
  refine .drop (v := v) ⟨.inl ⟨rfl, hfd.1, hfd.2⟩, hI2, hk1.trans hev2.keeps, hf2.trans ?_, hq2.trans ?_,
    sameState_dropped hp1 hev2, fun t => (failed_depth_onNext r1.pdr o.state v t).imp (fun h => h.trans ?_) id⟩
  all_goals rw [hp1]; rfl

theorem drop_failed (hI : Inv A E n r) (hfail : 5 ≤ (r.pdr.state o.state).failed ∧
      r.pdr.depth < o.depth + o.frame_k) :
    Exec.Wp (do
      eraseObligation
      modifyP fun p => p.setState o.state fun t => { t with failed_depth := o.depth + o.frame_k }
      modifyP fun p => p.onNext o.state fun t => { t with failed_depth := o.depth + o.frame_k }
      pure true) (Expanded A E n r o) (HistGood A E) r := by
  refine (eraseObligation_spec hI).bind ?_
  rintro _ r1 ⟨hI1, hk1, hp1, _⟩
  set v := o.depth + o.frame_k
  obtain ⟨hI2, hev2⟩ := hI1.touchState o.state (f := fun t => { t with failed_depth := v })
    fun _ => ⟨rfl, rfl, rfl⟩
  obtain ⟨hI3, hev3, _⟩ := hI2.onNext o.state (f := fun t => { t with failed_depth := v })
    fun _ => ⟨rfl, rfl, rfl⟩
  obtain ⟨hf3, hq3⟩ := onNext_fields (r1.pdr.setState o.state fun t => { t with failed_depth := v })
    o.state fun t => { t with failed_depth := v }
  refine .drop (v := v) ⟨.inr ⟨hfail.1, rfl, hfail.2⟩, hI3, hk1.trans (hev2.trans hev3).keeps,
    hf3.trans ?_, hq3.trans ?_, sameState_dropped hp1 (hev2.trans hev3), fun t => ?_⟩
  · show r1.pdr.frames = _
    rw [hp1]; rfl
  · show r1.pdr.obligation_queue = _
    rw [hp1]; rfl
  · have hp1t : (r1.pdr.state t).failed_depth = (r.pdr.state t).failed_depth := by rw [hp1]; rfl
    rcases failed_depth_onNext (r1.pdr.setState o.state fun t => { t with failed_depth := v })
      o.state v t with h | h
    · exact (failed_depth_setState r1.pdr o.state v t).imp (fun h' => h.trans (h'.trans hp1t))
        fun h' => h.trans h'
    · exact .inr h

theorem log_witness_cex (hI : Inv A E n r) (ho : o ∈ r.pdr.obligation_queue)
    (hmod : HasModel A E r.pdr 0 ((r.pdr.state o.state).latches.map (primeLit A (primes1 A))))
    (hcex : r.pdr.cex_states = []) (hc : A.constraints = []) (fuel : Nat) {st : State}
    (hst : st = { modelState A.toAiger (r.pdr.frame 0).solver with next := some o.state }) :
    Exec.Wp (log_witness fuel (some r.pdr.states.length)) (fun _ r' => Counterexample A r'.pdr.cex_states)
      (fun _ => True) ((r.setP (r.pdr.pushState st)).setP { r.pdr.pushState st with
        cex_state_idx := some r.pdr.states.length, find_cex := true }) := by
  obtain ⟨hos, _⟩ := hI.queue o ho
  have hsz := hI.size
  obtain ⟨m, ha, hm⟩ := hmod
  obtain ⟨L, hpath, hin, hL⟩ := hI.chains hc o ho
  have hstl : A.LatchCube st.latches := by rw [hst]; exact modelState_latches
  obtain ⟨hI1, _⟩ := hI.pushState _ hstl
  set p := r.pdr.pushState st with hp
  have hstate : ∀ t, t < n → p.state t = r.pdr.state t := by
    intro t ht; rw [hp, PDR.state_pushState, if_neg (by omega)]
  have hself : p.state r.pdr.states.length = st := by
    rw [hp, PDR.state_pushState, if_pos rfl]
  have hpath' : Path p (r.pdr.states.length + 1) r.pdr.states.length
      ((p.state r.pdr.states.length).inputs :: L) := by
    refine .step (by omega) (t := o.state) (by rw [hself, hst]) ?_
    refine (hpath.change fun t ht => ?_).mono (by omega)
    unfold SameState
    rw [hstate t ht]
    exact ⟨rfl, rfl, rfl⟩
  refine (log_witness_path hpath' (by rfl) fuel).mono ?_ fun _ h => h
  rintro _ r' ⟨sts, hcs, hmap, hhead, hall⟩
  have hcs' : r'.pdr.cex_states = sts := by
    rw [hcs]
    show r.pdr.cex_states ++ sts = sts
    rw [hcex, List.nil_append]
  rw [hcs']
  have hlat : (p.state o.state).latches = (r.pdr.state o.state).latches := by rw [hstate _ hos]
  refine counterexample_of_path (p := p) (t := o.state) hI1.shape ha (hI1.shape.states _) ?_
    (trusted_of_init hc hI.reach.init_not_bad) ?_ hin ?_ hmap hhead hall
  · rw [hlat]; exact hm
  · rw [hself, hst]
  · rw [hlat]; exact hL

theorem expand_cex (hI : Inv A E n r) (ho : o ∈ r.pdr.obligation_queue)
    (hmod : HasModel A E r.pdr 0 ((r.pdr.state o.state).latches.map (primeLit A (primes1 A))))
    (hcex : r.pdr.cex_states = []) (hk0 : o.frame_k = 0) (fuel : Nat) :
    Exec.Wp (do
      let s ← newState { modelState r.pdr.circuit (r.pdr.frame 0).solver with next := some o.state }
      modifyP fun p => { p with cex_state_idx := some s, find_cex := true }
      log_witness fuel (some s)
      pure false) (Expanded A E n r o) (HistGood A E) r := by
  simp only [Exec.wp_bind, wp_newState, wp_modifyP]
  set st : State := { modelState r.pdr.circuit (r.pdr.frame 0).solver with next := some o.state } with hst
  rw [hI.shape.circuit] at hst
  -- with constraints nothing is known about the successors
  have hlog : Exec.Wp (log_witness fuel (some r.pdr.states.length)) (fun _ r' =>
      A.constraints = [] → Counterexample A r'.pdr.cex_states) (fun _ => True)
      ((r.setP (r.pdr.pushState st)).setP { r.pdr.pushState st with
        cex_state_idx := some r.pdr.states.length, find_cex := true }) := by
    by_cases hc : A.constraints = []
    · exact (log_witness_cex hI ho hmod hcex hc fuel hst).mono (fun _ _ h _ => h) fun _ h => h
    · unfold Exec.Wp
      split
      · exact fun h => absurd h hc
      · trivial
  refine Exec.Wp.mono ((log_witness_hist fuel _).and hlog)
    (fun _ r' h => .cex hk0 h.1.2.2 ?_ (h.1.2.1.trans hI.shape.circuit) h.2) fun r' h => ?_
  · intro p hp; rw [h.1.1] at hp; exact hI.hist p hp
  · intro p hp; rw [h.1] at hp; exact hI.hist p hp

/-- Above level `0` a predecessor is queued in the level below. -/
theorem expand_precede (hI : Inv A env.minisat n r) (ho : o ∈ r.pdr.obligation_queue)
    (hmod : HasModel A env.minisat r.pdr o.frame_k
      ((r.pdr.state o.state).latches.map (primeLit A (primes1 A)))) (hk0 : o.frame_k ≠ 0) :
    Exec.Wp (do
      let s ← newState {}
      extract_state_from_sat env o.frame_k s (some o.state) o.frame_k
      insertObligation ⟨s, o.frame_k - 1, o.depth + 1⟩
      pure true) (Expanded A env.minisat n r o) (HistGood A env.minisat) r := by
  obtain ⟨hos, hok⟩ := hI.queue o ho
  have hsz := hI.size
  obtain ⟨m, ha, _⟩ := hmod
  simp only [Exec.wp_bind, wp_newState]
  obtain ⟨hI1, hev1⟩ := hI.pushState {} (by rintro _ ⟨⟩)
  have hs : r.pdr.states.length < (r.pdr.pushState {}).states.length := by simp [PDR.pushState]
  refine (extract_spec hI1 hs hsz _ _).mono ?_ fun _ h => h
  rintro _ r2 ⟨hI2, hev2, _, _, hf2, hlen2, hst2, hlift⟩
  have hev := hev1.trans hev2
  have hosl : o.state ≠ r.pdr.states.length := by omega
  have hobl : (r.setP (r.pdr.pushState {})).pdr.state o.state = r.pdr.state o.state := by
    rw [setP_pdr, PDR.state_pushState, if_neg hosl]
  have hsolver : ((r.setP (r.pdr.pushState {})).pdr.frame o.frame_k).solver =
      (r.pdr.frame o.frame_k).solver := rfl
  rw [hsolver] at hlift
  set s := r.pdr.states.length with hsdef
  have hslat := hI2.shape.states s
  have hns : n ≤ r2.pdr.states.length := by rw [hlen2]; exact hsz.trans hs.le
  have hI2' := hI2.mono hns le_rfl
  have hlt : s < r2.pdr.states.length := by rw [hlen2]; exact hs
  have hobl2 : r2.pdr.state o.state = r.pdr.state o.state := by rw [hst2 _ hosl, hobl]
  have hq2 : o ∈ r2.pdr.obligation_queue := by rw [hev.queue]; exact ho
  have hI3 := hI2'.insertObligation (o := ⟨s, o.frame_k - 1, o.depth + 1⟩) hlt
    (by rw [hev.depth]; exact (by omega : o.frame_k - 1 ≤ r.pdr.depth)) ?_ ?_
  · refine .precede ⟨by omega, hI3.record, hev.keeps.trans ⟨rfl, id, rfl⟩, hf2, ?_, ?_, fun t ht => ?_,
      hlift.next, ?_, hlift.latches⟩
    · show setInsert _ _ r2.pdr.obligation_queue = _
      rw [hev.queue]
    · show r2.pdr.states.length = _
      rw [hlen2]
      simp [PDR.pushState]
    · show r2.pdr.state t = _
      rw [hst2 t (by omega), setP_pdr, PDR.state_pushState, if_neg (by omega)]
    · show (r2.pdr.state s).failed = 0 ∧ (r2.pdr.state s).failed_depth = 0
      rw [hlift.failed.1, hlift.failed.2, setP_pdr, PDR.state_pushState, if_pos rfl]
      exact ⟨rfl, rfl⟩
  · refine .enqueue hI2'.reach (d := (r.pdr.state o.state).latches) ⟨o, hq2, ?_⟩ fun _ => ?_
    · rw [hobl2]
      simp only [Prod.mk.injEq, true_and]
      omega
    · have := hlift.lifts ha (hI1.shape.states _) hslat
      rwa [hobl] at this
  · intro hc
    obtain ⟨L, hpath, hin, hL⟩ := hI.chains hc o ho
    refine ⟨(r2.pdr.state s).inputs :: L, ?_, ?_, fun w hw => ?_⟩
    · exact .step hlt hlift.next ((hpath.change hev.heap).mono hns)
    · intro I hI'
      rcases List.mem_cons.mp hI' with rfl | hI'
      · rw [hlift.inputs]; exact modelState_inputLine
      · exact hin I hI'
    · exact hlift.chained ha (hI1.shape.states _) (by rw [hobl]; exact hL) hslat hw

theorem expandObligation_spec (hI : Inv A env.minisat n r) (ho : o ∈ r.pdr.obligation_queue)
    (hmod : HasModel A env.minisat r.pdr o.frame_k
      ((r.pdr.state o.state).latches.map (primeLit A (primes1 A))))
    (hcex : r.pdr.cex_states = []) (fuel : Nat) :
    (expandObligation env fuel o).Wp (Expanded A env.minisat n r o) (HistGood A env.minisat) r := by
  unfold expandObligation
  rw [Exec.wp_bind, wp_getP, Exec.wp_ite]
  refine ⟨drop_marked hI, fun _ => ?_⟩
  rw [Exec.wp_ite]
  refine ⟨drop_failed hI, fun _ => ?_⟩
  rw [Exec.wp_ite]
  exact ⟨fun hk0 => expand_cex hI ho (hk0 ▸ hmod) hcex hk0 fuel, expand_precede hI ho hmod⟩

end Expand

theorem rec_block_cube_spec (hI : Inv A env.minisat n r) (hlen : 2 ≤ r.pdr.frames.length)
    (hcex : r.pdr.cex_states = []) (fuel : Nat) :
    (rec_block_cube env fuel).Wp (RoundPost A env.minisat r) (HistGood A env.minisat) r := by
  induction fuel generalizing n r with
  | zero => unfold rec_block_cube; exact hI.hist
  | succ fuel ih =>
      unfold rec_block_cube
      simp only [Exec.wp_bind, wp_getP]
      cases hq : r.pdr.obligation_queue with
      | nil => exact ⟨fun _ => ⟨⟨n, hI⟩, .refl r⟩, (by rintro ⟨⟩)⟩
      | cons obl rest =>
          have hmem : obl ∈ r.pdr.obligation_queue := by rw [hq]; exact List.mem_cons_self
          obtain ⟨hos, hok⟩ := hI.queue obl hmem
          have hla := hI.shape.states obl.state
          simp only [Exec.wp_bind, wp_readRESULT]
          rw [Exec.wp_ite]
          refine ⟨fun _ => ⟨fun _ => ⟨⟨n, hI.tick⟩, ⟨rfl, id, rfl⟩⟩, (by rintro ⟨⟩)⟩, fun _ => ?_⟩
          refine (is_inductive_spec (r := r.tick) hI.tick hla
            (by unfold PDR.depth at hok; exact (by omega : obl.frame_k < r.pdr.frames.length)) true).bind ?_
          rintro b r1 ⟨hI1, hev1, _, hst1, _, _, hcore1, _, hmod1⟩
          have hkeep0 : Keeps r r.tick := ⟨rfl, id, rfl⟩
          have hkeep1 : Keeps r r1 := hkeep0.trans hev1.keeps
          have hmem1 : obl ∈ r1.pdr.obligation_queue := by rw [hev1.queue]; exact hmem
          have hstate1 : r1.pdr.state obl.state = r.pdr.state obl.state := by
            unfold PDR.state; rw [hst1]; rfl
          have hround : ∀ {n' : Nat} {r2 : Run}, Inv A env.minisat n' r2 → Keeps r r2 →
              (rec_block_cube env fuel).Wp (RoundPost A env.minisat r) (HistGood A env.minisat) r2 := by
            intro n' r2 hI2 hk2
            refine (ih hI2 (by rw [hk2.len]; exact hlen) (hk2.cex.trans hcex)).mono ?_ fun _ h => h
            exact fun go r' h => ⟨fun hg => ⟨(h.1 hg).1, hk2.trans (h.1 hg).2⟩, h.2⟩
          rw [Exec.wp_ite]
          constructor
          · intro hb
            refine (blockObligation_spec hI1 hmem1 (by rw [hkeep1.len]; exact hlen) ?_ fuel).bind ?_
            · rw [hstate1]; exact hcore1 hb rfl
            · exact fun _ r2 h2 => hround h2.inv (hkeep1.trans h2.keeps)
          · intro hb
            refine (expandObligation_spec hI1 hmem1 ?_ (hkeep1.cex.trans hcex) fuel).bind ?_
            · rw [hstate1]; exact hmod1 (by simpa using hb)
            · intro go r2 hgo
              rw [Exec.wp_ite]
              constructor
              · intro hg
                obtain ⟨⟨n', hI2⟩, hk2⟩ := hgo.roundPost.1 hg
                exact hround hI2 (hkeep1.trans hk2)
              · exact fun hg => ⟨(by rintro ⟨⟩), fun _ => hgo.roundPost.2 (by simpa using hg)⟩

end ModelChecker
