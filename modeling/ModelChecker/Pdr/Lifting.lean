import ModelChecker.Pdr.Assertion

/-!
# The lifting law

The lift query has the constraints in its activation clause and the negated bad literal among its hard
clauses. So the latches that a core keeps need not tell a point that satisfies the constraints from one
that violates them and is bad: a bad point that violates the constraints can be masked.
-/

namespace ModelChecker

open Logic

variable {A : Circuit} {E : Eliminator} {p : PDR} {sat : CaDiCaL} {succ : Option Nat} {n : Nat}

/-- For every point in the cube of the state object, read with the inputs of the model: the constraints
hold, and the point is bad, or its successor under the primed inputs satisfies the constraints and the
target. -/
def LiftLaw (A : Circuit) (sat : CaDiCaL) (p : PDR) (succ : Option Nat) (st : State) : Prop :=
  ∀ u, CubeSat u st.latches → CubeSat u (modelState A.toAiger sat).inputs → A.system.Cons u ∧
    (A.system.Bad u ∨ ∀ u', A.system.Next u u' → CubeSat u' (modelState' A.toAiger sat).inputs →
      A.system.Cons u' ∧ Reaches A p succ u')

/-- The latches of the model that `u` agrees with. -/
def agreeing (A : Circuit) (sat : CaDiCaL) (u : Assignment) : Cube :=
  (modelState A.toAiger sat).latches.filter (litVal u)

/-- A bad point that violates the constraints, and the latches of the model it agrees with force the
target. -/
structure Masked (A : Circuit) (E : Eliminator) (sat : CaDiCaL) (p : PDR) (succ : Option Nat)
    (u : Assignment) : Prop where
  inputs : CubeSat u (modelState A.toAiger sat).inputs
  bad : A.system.Bad u
  notCons : ¬ A.system.Cons u
  forces : Forces A E sat p succ (agreeing A sat u)

theorem mem_agreeing {u : Assignment} {l : Int} :
    l ∈ agreeing A sat u ↔ l ∈ (modelState A.toAiger sat).latches ∧ litVal u l = true :=
  List.mem_filter

/-- On circuits with a point that is not bad, a masked point is a matter of the circuit: every transition
under the inputs of the model out of a point with these latches starts in a bad point or is one that the
query asks for. -/
theorem masked_iff (hsh : Shape A E p) (hgood : ∃ w, ¬ A.system.Bad w) {u : Assignment} :
    Masked A E sat p succ u ↔ CubeSat u (modelState A.toAiger sat).inputs ∧ A.system.Bad u ∧
      ¬ A.system.Cons u ∧ ∀ v v', CubeSat v (agreeing A sat u) →
        CubeSat v (modelState A.toAiger sat).inputs → CubeSat v' (modelState' A.toAiger sat).inputs →
        A.system.Next v v' → A.system.Bad v ∨ (A.system.Cons v ∧ A.system.Cons v' ∧ Reaches A p succ v') := by
  constructor
  · rintro ⟨hi, hb, hc, hf⟩
    exact ⟨hi, hb, hc, fun v v' hv hvi hv' hn =>
      hf.law hsh (List.filter_sublist).subset hv hvi hv' hn⟩
  · rintro ⟨hi, hb, hc, hall⟩
    refine ⟨hi, hb, hc, fun σ hσ hin hpin hlat => ?_⟩
    obtain ⟨w0, hw0⟩ := hgood
    obtain ⟨w1, hw1⟩ := A.system.total w0
    have ht : Trusted A E false := .inl ⟨w0, w1, hw0, (by rintro ⟨⟩), hw1⟩
    obtain ⟨w, w', htr, hmat⟩ := simpCnf_sound primes1_roots ht hσ
    obtain ⟨hwin, hwlat, hwprime⟩ := hmat.assumed sat
    have hlaw := hall w w' (fun x hx => ?_) (fun x hx => ?_) (fun x hx => ?_) htr.next
    · rcases hlaw with hbad | ⟨hcw, hcw', hr⟩
      · exact absurd hbad htr.notBad
      · exact liftTarget_of_matches hsh hmat hcw hcw' hr
    · rw [hwlat x (mem_agreeing.mp hx).1]; exact hlat x hx
    · rw [hwin x hx]; exact hin x hx
    · obtain ⟨y, hy, rfl⟩ := List.mem_map.mp hx
      rw [hwprime y hy]; exact hpin y hy

theorem CaDiCaL.isSat_answer {s : CaDiCaL} (h : s.isSat = true) : ∃ m, s.answer = some (.sat m) := by
  unfold CaDiCaL.isSat at h
  split at h
  · rename_i m hm; exact ⟨m, hm⟩
  · cases h

theorem Forces.mono {c d : Cube} (h : Forces A E sat p succ c) (hs : c ⊆ d) :
    Forces A E sat p succ d :=
  fun σ hσ hi hp hd => h σ hσ hi hp fun l hl => hd l (hs hl)

section Extract

variable {env : PdrEnv} {r : Run} {k s : Nat}

theorem fillState_latches {p : PDR} (hs : s < p.states.length) (st : State) (lift : CaDiCaL)
    (findex : Nat) : ((p.fillState s st succ lift findex).state s).latches = st.latches := by
  have hself : (p.fillState s st succ lift findex).state s =
      { p.state s with latches := st.latches, inputs := st.inputs, next := succ } :=
    (PDR.state_setState hs).trans (if_pos rfl)
  rw [hself]

/-- The state object after `extract_state_from_sat` has a part of the latches of the model, which forces
the target. -/
theorem extract_forces (hI : Inv A env.minisat n r) (hs : s < r.pdr.states.length) (findex : Nat) :
    (extract_state_from_sat env k s succ findex).Wp (fun _ r' =>
      (r'.pdr.state s).latches ⊆ (modelState A.toAiger (r.pdr.frame k).solver).latches ∧
      Forces A env.minisat (r.pdr.frame k).solver r.pdr succ (r'.pdr.state s).latches)
      (HistGood A env.minisat) r := by
  unfold extract_state_from_sat
  refine (askLift_spec hI succ).bind ?_
  rintro ⟨lift, st⟩ r1 ⟨_, _, _, hst1, _, _, hans⟩
  simp only [Exec.wp_bind, wp_modifyP, wp_record]
  rw [record_pdr, setP_pdr, fillState_latches (by rw [hst1]; exact hs)]
  exact ⟨hans.latches.subset, hans.forces⟩

/-- The answer that all assumptions fail but the latches that `u` disagrees with. -/
def failAgreeing (A : Circuit) (u : Assignment) (q : Query) : Answer :=
  .unsat (q.assumptions.filter fun l => decide (¬ A.IsLatch l.natAbs) || litVal u l)

/-- The environment whose solver answers that way. -/
noncomputable def agreeingEnv (A : Circuit) (E : Eliminator) (u : Assignment) : PdrEnv where
  solver := insist (failAgreeing A u)
  minisat := E
  order _ c := c
  order_perm _ _ := .refl _
  RESULT _ := 0

theorem failAgreeing_legal {p : PDR} {sat : CaDiCaL} {u : Assignment} (hsh : Shape A E p)
    {l : CaDiCaL} (hl : LiftSolver A E l) (hf : Forces A E sat p succ (agreeing A sat u)) {q : Query}
    (hq : q = (p.liftQuery l succ ((modelState A.toAiger sat).inputs ++
      modelLits sat A.primed_first_dimacs A.num_inputs) (modelState A.toAiger sat).latches).query) :
    Legal q (failAgreeing A u q) := by
  have hof := hsh.liftQueryOf hl succ ((modelState A.toAiger sat).inputs ++
    modelLits sat A.primed_first_dimacs A.num_inputs) (modelState A.toAiger sat).latches
  have hnv := hl.nv
  have hmax := max_var_le_liftVars (A := A)
  have hfirst := Circuit.first_and_le_max (A := A)
  have has : ∀ x, x ∈ q.assumptions ↔ x = ((l.nv + 1 : Nat) : Int) ∨
      (x ∈ (modelState A.toAiger sat).inputs ∨ x ∈ modelLits sat A.primed_first_dimacs A.num_inputs) ∨
      x ∈ (modelState A.toAiger sat).latches := by
    intro x
    rw [hq]
    simp only [CaDiCaL.query, hof.assumptions, List.mem_cons, List.mem_append]
  subst hq
  refine hof.legal hsh hl List.filter_sublist.subset ?_ fun σ hσ hcore => ?_
  · refine List.mem_filter.mpr ⟨(has _).mpr (.inl rfl), ?_⟩
    have hnot : ¬ A.IsLatch ((l.nv + 1 : Nat) : Int).natAbs := by unfold Aiger.IsLatch; omega
    simp only [hnot, not_false_eq_true, decide_true, Bool.true_or]
  · refine hf σ hσ (fun x hx => ?_) (fun x hx => ?_) fun x hx => ?_
    · have hnot : ¬ A.IsLatch x.natAbs := by
        have := (modelState_inputs hx).2
        unfold Aiger.IsLatch; omega
      exact hcore x (List.mem_filter.mpr ⟨(has x).mpr (.inr (.inl (.inl hx))), by simp [hnot]⟩)
    · have hnot : ¬ A.IsLatch x.natAbs := by
        obtain ⟨⟨i, _, hab⟩, _⟩ := mem_modelLits (by have := two_le_primed (A := A); omega) hx
        unfold Aiger.primed_first_dimacs at hab
        unfold Aiger.IsLatch; omega
      exact hcore x (List.mem_filter.mpr ⟨(has x).mpr (.inr (.inl (.inr hx))), by simp [hnot]⟩)
    · obtain ⟨hx, hux⟩ := mem_agreeing.mp hx
      exact hcore x (List.mem_filter.mpr ⟨(has x).mpr (.inr (.inr hx)), by simp [hux]⟩)

theorem extract_masked (hI : Inv A E n r) (hs : s < r.pdr.states.length) (findex : Nat) {u : Assignment}
    (hu : Forces A E (r.pdr.frame k).solver r.pdr succ (agreeing A (r.pdr.frame k).solver u)) :
    (extract_state_from_sat (agreeingEnv A E u) k s succ findex).Wp
      (fun _ r' => CubeSat u (r'.pdr.state s).latches) (fun _ => False) r := by
  unfold extract_state_from_sat askLift
  rw [Exec.wp_bind]
  refine Exec.Wp.bind (loadLift_spec (show Inv A (agreeingEnv A E u).minisat n r from hI)) ?_
  rintro l r1 ⟨hI1, _, hf1, hst1, _, _, hl, _⟩
  simp only [Exec.wp_bind, wp_getP, wp_reorder, wp_ask, Exec.wp_ite, Exec.wp_throw, Exec.wp_pure,
    wp_modifyP, wp_record]
  rw [hI1.shape.circuit]
  have hsat : (r1.pdr.frame k).solver = (r.pdr.frame k).solver := by unfold PDR.frame; rw [hf1]
  rw [hsat]
  generalize (r.pdr.frame k).solver = sat at hu
  have hu1 : Forces A E sat r1.pdr succ (agreeing A sat u) := by
    intro σ hσ hi hp hc
    rw [liftTarget_of_states hst1]
    exact hu σ hσ hi hp hc
  have hleg := failAgreeing_legal hI1.shape hl hu1 rfl
  have hsolve := insist_solve hleg r1.tick.clock
  have hs1 : s < r1.pdr.states.length := by rw [hst1]; exact hs
  simp only [agreeingEnv]
  rw [hsolve]
  refine ⟨by rintro ⟨⟩, fun _ => ?_⟩
  rw [record_pdr, setP_pdr, tick_pdr, tick_pdr, fillState_latches hs1]
  intro x hx
  obtain ⟨hx, hfail⟩ := List.mem_filter.mp hx
  have hcore := (CaDiCaL.failed_iff rfl).mp hfail
  have hkept := (List.mem_filter.mp hcore).2
  simpa [modelState_latches x hx] using hkept

end Extract

/-- The lifting law, for every state of the engine after a satisfiable query and however the lift query is
answered: the state object that `extract_state_from_sat` fills satisfies it exactly if no point is
masked. -/
theorem lift_law_iff (A : Circuit) (E : Eliminator) {n : Nat} {r : Run} (hI : Inv A E n r) {s : Nat}
    (hs : s < r.pdr.states.length) {k : Nat} (hsat : (r.pdr.frame k).solver.isSat = true)
    (succ : Option Nat) (findex : Nat) :
    (∀ env r', env.minisat = E → extract_state_from_sat env k s succ findex r = (.ok (), r') →
      LiftLaw A (r.pdr.frame k).solver r.pdr succ (r'.pdr.state s)) ↔
    ∀ u, ¬ Masked A E (r.pdr.frame k).solver r.pdr succ u := by
  constructor
  · intro h u hu
    obtain ⟨_, r', hrun, hcube⟩ := (extract_masked hI hs findex hu.forces).exists_ok
    exact hu.notCons (h _ r' rfl hrun u hcube hu.inputs).1
  · rintro h env r' rfl hrun u hu hui
    obtain ⟨hsub, hf⟩ := (extract_forces hI hs findex).run_ok hrun
    have hlaw := fun u' => @Forces.law _ _ _ _ _ _ hf hI.shape hsub u u' hu hui
    by_cases hb : A.system.Bad u
    · refine ⟨?_, .inl hb⟩
      by_contra hc
      have hkept : (r'.pdr.state s).latches ⊆ agreeing A (r.pdr.frame k).solver u :=
        fun l hl => mem_agreeing.mpr ⟨hsub hl, hu l hl⟩
      exact h u ⟨hui, hb, hc, hf.mono hkept⟩
    · obtain ⟨m, hm⟩ := CaDiCaL.isSat_answer hsat
      obtain ⟨w', hn⟩ := A.system.total u
      obtain ⟨v', hsame, hv'⟩ := exists_inputs' (A := A) hm w'
      have hgood := (hlaw v' hv' (A.system.next_same hsame hn)).resolve_left hb
      exact ⟨hgood.1, .inr fun u' hn' hu' => ((hlaw u' hu' hn').resolve_left hb).2⟩

namespace Sample

/-- `get_pre_of_bad` on a new state object, up to the lift query. -/
def askPre (env : PdrEnv) (A : Circuit) : PdrM Nat := do
  let s ← newState {}
  modifyP fun p => p.setState s State.clear
  let solver ← askBad env
  newState (modelState' A.toAiger solver)

theorem askPre_inv {env : PdrEnv} {A : Circuit} {n : Nat} {r : Run} (hI : Inv A env.minisat n r)
    (hlen : 2 ≤ r.pdr.frames.length) :
    (askPre env A).Wp (fun _ r' => Inv A env.minisat n r') (HistGood A env.minisat) r := by
  unfold askPre
  obtain ⟨hI1, hev1⟩ := hI.pushState {} (by rintro _ ⟨⟩)
  obtain ⟨hI2, hev2⟩ := hI1.setFresh hI.size (f := State.clear) (by rintro _ ⟨⟩)
  simp only [Exec.wp_bind, wp_newState, wp_modifyP]
  refine (askBad_spec hI2 (by rw [hev2.len, hev1.len]; exact hlen)).mono (fun sat r' h => ?_) fun _ h => h
  exact (h.1.pushState (modelState' A.toAiger sat) modelState'_latches).1

noncomputable def stuckAsked : Except Stop Nat × Run :=
  askPre (envOf stuckAnswers) stuck stuckHead.2.tick

noncomputable def stuckLifted : Except Stop Unit × Run :=
  extract_state_from_sat (envOf stuckAnswers) 1 0 none 1 stuckAsked.2

end Sample

/-- On `stuck`, without constraints, no point is masked. -/
theorem lift_law_iff_stuck : Sample.stuckLifted.1 = .ok () ∧
    LiftLaw Sample.stuck (Sample.stuckAsked.2.pdr.frame 1).solver Sample.stuckAsked.2.pdr none
      (Sample.stuckLifted.2.pdr.state 0) := by
  have h1 : Sample.stuckHead.1 = .ok true := by decide +kernel
  have h2 : Sample.stuckAsked.1 = .ok 1 := by decide +kernel
  have h3 : Sample.stuckLifted.1 = .ok () := by decide +kernel
  have hs : 0 < Sample.stuckAsked.2.pdr.states.length := by
    have : Sample.stuckAsked.2.pdr.states.length = 2 := by decide +kernel
    omega
  have hsat : (Sample.stuckAsked.2.pdr.frame 1).solver.isSat = true := by decide +kernel
  have hhead : AtHead (Sample.envOf Sample.stuckAnswers) Sample.stuck Sample.stuckHead.2 :=
    .enter (Prod.ext h1 rfl)
  obtain ⟨n, hI⟩ := hhead.loopInv.inv
  have hlen := hhead.loopInv.len
  have hasked : Sample.stuckAsked = (.ok 1, Sample.stuckAsked.2) := by rw [← h2]
  have hI' := (Sample.askPre_inv hI.tick (by rw [tick_pdr]; omega)).run_ok hasked
  have hlifted : Sample.stuckLifted = (.ok (), Sample.stuckLifted.2) := by rw [← h3]
  refine ⟨h3, (lift_law_iff Sample.stuck _ hI' hs hsat none 1).mpr ?_ _ _ rfl hlifted⟩
  intro u hu
  exact hu.notCons (by rintro l ⟨⟩)

namespace Sample

noncomputable def maskedHead : Except Stop Bool × Run :=
  prologue (envOf maskedAnswers) { pdr := { circuit := masked.toAiger } }

noncomputable def maskedAsked : Except Stop Nat × Run :=
  askPre (envOf maskedAnswers) masked maskedHead.2.tick

noncomputable def maskedLifted : Except Stop Unit × Run :=
  extract_state_from_sat (envOf maskedAnswers) 1 0 none 1 maskedAsked.2

/-- The input is true, the latches are false. -/
def maskedPoint : Assignment := fun v => decide (v = 2)

end Sample

/-- The query of the top level is satisfiable with the input true; the lift query keeps no latch, so the
point with both latches false is in the cube, where the constraint fails. -/
theorem lift_law_masked : Sample.maskedHead.1 = .ok true ∧ Sample.maskedAsked.1 = .ok 1 ∧
    (Sample.maskedAsked.2.pdr.frame 1).solver.isSat = true ∧ Sample.maskedLifted.1 = .ok () ∧
    ¬ LiftLaw Sample.masked (Sample.maskedAsked.2.pdr.frame 1).solver Sample.maskedAsked.2.pdr none
      (Sample.maskedLifted.2.pdr.state 0) := by
  refine ⟨by decide +kernel, by decide +kernel, by decide +kernel, by decide +kernel, fun h => ?_⟩
  have hl : (Sample.maskedLifted.2.pdr.state 0).latches = [] := by decide +kernel
  have hx : (modelState Sample.masked.toAiger (Sample.maskedAsked.2.pdr.frame 1).solver).inputs = [2] := by
    decide +kernel
  obtain ⟨hcons, _⟩ := h Sample.maskedPoint (by rw [hl]; rintro _ ⟨⟩) (by rw [hx]; decide)
  have h5 : Sample.masked.val Sample.maskedPoint (-5) = true := hcons (-5) (by decide)
  revert h5
  decide

end ModelChecker
