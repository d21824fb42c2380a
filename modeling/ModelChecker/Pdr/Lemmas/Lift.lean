import ModelChecker.Pdr.Lemmas.Models

/-!
# Lifting

`extract_state_from_sat` keeps those latches of a model that force, together with the inputs read, the
successor into its target unless the state is bad already.
-/

namespace ModelChecker

open Logic

variable {A : Circuit} {E : Eliminator} {p : PDR} {n : Nat}

/-! ## The lift solver -/

theorem LiftSolver.addClause {s : CaDiCaL} (h : LiftSolver A E s) {c : Clause}
    (hc : IsQuery (liftVars A) (max s.nv (CaDiCaL.maxVar 0 c)) c) :
    LiftSolver A E (s.addClause c) ∧ (s.addClause c).clauses = s.clauses ++ [c] ∧
      (s.addClause c).nv = max s.nv (CaDiCaL.maxVar 0 c) := by
  have h0 : NonZero c := hc.bounds.1
  have hle := CaDiCaL.le_maxVar s.nv c
  have hmax : CaDiCaL.maxVar s.nv c = max s.nv (CaDiCaL.maxVar 0 c) := by
    refine le_antisymm (CaDiCaL.maxVar_le (by omega) fun l hl => ?_) (max_le hle ?_)
    · have := CaDiCaL.varsLe_maxVar 0 c l hl; omega
    · exact CaDiCaL.maxVar_le (by omega) fun l hl => CaDiCaL.varsLe_maxVar s.nv c l hl
  obtain ⟨rest, hr, hq⟩ := h.clauses
  rw [CaDiCaL.addClause_eq h0 h.clause, hmax]
  refine ⟨⟨h.clause, h.assumptions, ⟨rest ++ [c], by simp [hr], ?_⟩, ?_, ?_⟩, rfl, rfl⟩
  · intro d hd
    rcases List.mem_append.mp hd with hd | hd
    · exact (hq d hd).mono (le_max_left _ _)
    · rw [List.mem_singleton.mp hd]; exact hc
  · exact h.nv.trans (le_max_left _ _)
  · exact fun hf => (h.flag hf).trans_le (le_max_left _ _)

theorem LiftSolver.varsLe {s : CaDiCaL} (h : LiftSolver A E s) : ∀ c ∈ s.clauses, VarsLe s.nv c := by
  obtain ⟨rest, hr, hq⟩ := h.clauses
  have hnv := h.nv
  intro c hc l hl
  rw [hr] at hc
  rcases List.mem_append.mp hc with hc | hc
  · exact (simpCnf_varsLe false E c hc l hl).trans hnv
  · have := (hq c hc).bounds.2 l hl; omega

/-- The last activation variable is cleared by a unit clause. -/
theorem LiftSolver.clear_act {s : CaDiCaL} (h : LiftSolver A E s) :
    LiftSolver A E s.clear_act := by
  unfold CaDiCaL.clear_act
  by_cases hf : s.clear_flag = true
  · have hlt := h.flag hf
    have hm : CaDiCaL.maxVar 0 [-(s.nv : Int)] = s.nv := by simp [CaDiCaL.maxVar]
    obtain ⟨hadd, _, _⟩ := h.addClause (c := [-(s.nv : Int)])
      ⟨s.nv, [], hlt, by rw [hm]; omega, (by rintro _ ⟨⟩), (by rintro _ ⟨⟩), rfl⟩
    rw [if_pos hf]
    exact ⟨hadd.clause, hadd.assumptions, hadd.clauses, hadd.nv, (by rintro ⟨⟩)⟩
  · rw [if_neg hf]
    exact ⟨h.clause, h.assumptions, h.clauses, h.nv, (by rintro ⟨⟩)⟩

/-- Models of the base clauses are models of the lift solver. -/
theorem LiftSolver.models {s : CaDiCaL} (h : LiftSolver A E s) {σ : Assignment}
    (hσ : CnfSat σ (liftBase A E)) {act : Nat} (hact : s.nv < act) :
    CnfSat (activate (liftVars A) σ act) s.clauses := by
  obtain ⟨rest, hr, hq⟩ := h.clauses
  rw [hr, cnfSat_append]
  constructor
  · intro c hc
    rw [clauseSat_activate (n := liftVars A) (simpCnf_varsLe false E c hc)]
    exact hσ c hc
  · exact fun c hc => (hq c hc).activate hact

/-- Transitions out of points that are not bad satisfy the base clauses. -/
theorem liftBase_joint {w w' : Assignment} (hb : ¬ A.system.Bad w) (hn : A.system.Next w w') :
    CnfSat (joint A (primes1 A) w w') (liftBase A E) := by
  have htr : IsTransition A false w w' := ⟨hb, (by rintro ⟨⟩), hn⟩
  have := simpCnf_complete (E := E) primes1_roots htr
  rwa [transition_primes1] at this

theorem newLift : LiftSolver A E (({} : CaDiCaL).addAll (liftBase A E)) := by
  rw [CaDiCaL.addAll_eq (F := liftBase A E) (simpCnf_nonZero false E primes1_roots.ok) rfl]
  refine ⟨rfl, rfl, ⟨[], by simp, by intro c hc; cases hc⟩, ?_, (by rintro ⟨⟩)⟩
  exact simpVars_le_maxVars false E 0

theorem Shape.fillSatelite2 (h : Shape A E p) : (p.fillSatelite2 E).satelite2 = some (liftBase A E) ∧
    Shape A E (p.fillSatelite2 E) := by
  unfold PDR.fillSatelite2
  rcases h.satelite2 with hs | hs
  · rw [hs]
    have hcnf : (p.circuit.minisat false p.bad_prime p.constraints_prime p.primes).simplify E =
        liftBase A E := by
      rw [h.circuit, h.bad_prime, h.constraints_prime, h.primes]; rfl
    have hpr : (p.circuit.transition false p.primes).2 = primes1 A := by
      rw [h.circuit, h.primes]; exact transition_primes1 false
    refine ⟨congrArg some hcnf, { h with primes := hpr, satelite2 := ?_ }⟩
    exact Or.inr (congrArg some hcnf)
  · rw [hs]; exact ⟨hs, h⟩

/-! ## The lift query -/

/-- What the successor is lifted to: a bad point, or the cube of a state object. -/
def Reaches (A : Circuit) (p : PDR) (succ : Option Nat) (w : Assignment) : Prop :=
  match succ with
  | none => A.system.Bad w
  | some t => CubeSat w (p.state t).latches

/-- The literals whose negations make up the lift clause. -/
def liftTarget (A : Circuit) (p : PDR) (succ : Option Nat) : List Int :=
  A.constraints ++ consPrime A (primes1 A) ++
    match succ with
    | none => [badPrime A (primes1 A)]
    | some t => (p.state t).latches.map (primeLit A (primes1 A))

theorem liftClause_eq (h : Shape A E p) (succ : Option Nat) :
    p.liftClause succ = negCube (liftTarget A p succ) := by
  unfold PDR.liftClause liftTarget
  rw [h.circuit, h.constraints_prime, h.bad_prime, h.primes]
  cases succ with
  | none => simp [negCube]
  | some t =>
      simp only [negCube, List.map_append, List.map_map, List.append_cancel_left_eq]
      refine List.map_congr_left fun l hl => ?_
      exact primeLit_neg ((h.states t).nonZero l hl)

theorem liftTarget_bounds (h : Shape A E p) (succ : Option Nat) :
    ∀ l ∈ liftTarget A p succ, l ≠ 0 ∧ l.natAbs ≤ liftVars A := by
  have hprime : ∀ m, A.LitOk m → (primes1 A).Has A m.natAbs →
      primeLit A (primes1 A) m ≠ 0 ∧ (primeLit A (primes1 A) m).natAbs ≤ liftVars A :=
    fun m hm hh => ⟨primeLit_ne_zero primes1_roots.ok hh (LitOk.ne_zero hm), primeLit_le_liftVars hm hh⟩
  intro l hl
  simp only [liftTarget, List.mem_append] at hl
  rcases hl with (hl | hl) | hl
  · have hok := A.wf.constraints_ok l hl
    exact ⟨LitOk.ne_zero hok, hok.2.trans max_var_le_liftVars⟩
  · obtain ⟨m, hm, rfl⟩ := List.mem_map.mp hl
    exact hprime m (A.wf.constraints_ok m hm) (primes1_roots.cons m hm)
  · cases succ with
    | none =>
        rw [List.mem_singleton.mp hl]
        exact hprime _ A.wf.bad_ok primes1_roots.bad
    | some t =>
        obtain ⟨m, hm, rfl⟩ := List.mem_map.mp hl
        exact hprime m (litOk_of_latch (h.states t m hm)) (has_of_latch (h.states t m hm))

theorem liftTarget_iff (h : Shape A E p) (succ : Option Nat) {w w' : Assignment} :
    CubeSat (joint A (primes1 A) w w') (liftTarget A p succ) ↔
      A.system.Cons w ∧ A.system.Cons w' ∧ Reaches A p succ w' := by
  have happ : ∀ c d : List Int, CubeSat (joint A (primes1 A) w w') (c ++ d) ↔
      CubeSat (joint A (primes1 A) w w') c ∧ CubeSat (joint A (primes1 A) w w') d := by
    intro c d
    simp only [CubeSat, List.mem_append]
    exact ⟨fun h => ⟨fun l hl => h l (Or.inl hl), fun l hl => h l (Or.inr hl)⟩,
      fun h l hl => hl.elim (h.1 l) (h.2 l)⟩
  unfold liftTarget
  rw [happ, happ, and_assoc]
  refine and_congr ?_ (and_congr ?_ ?_)
  · refine forall₂_congr fun l hl => ?_
    rw [litVal_joint (A.wf.constraints_ok l hl)]
  · simp only [CubeSat, consPrime, List.forall_mem_map]
    refine forall₂_congr fun l hl => ?_
    rw [litVal_joint_prime primes1_roots.ok (A.wf.constraints_ok l hl) (primes1_roots.cons l hl)]
  · cases succ with
    | none =>
        simp only [CubeSat, List.forall_mem_singleton, badPrime, Reaches]
        rw [litVal_joint_prime primes1_roots.ok A.wf.bad_ok primes1_roots.bad]
        rfl
    | some t =>
        simp only [CubeSat, List.forall_mem_map, Reaches]
        refine forall₂_congr fun l hl => ?_
        rw [litVal_joint_prime_latch (h.states t l hl)]

/-- The parts of the lift query. -/
structure LiftQueryOf (A : Circuit) (E : Eliminator) (p : PDR) (l : CaDiCaL) (succ : Option Nat)
    (ls : List Int) (s : CaDiCaL) : Prop where
  clauses : s.clauses = l.clauses ++ [-((l.nv + 1 : Nat) : Int) :: negCube (liftTarget A p succ)]
  assumptions : s.assumptions = ((l.nv + 1 : Nat) : Int) :: ls
  solver : ∀ a, LiftSolver A E (s.solved a).set_clear_act

theorem Shape.liftQueryOf (h : Shape A E p) {l : CaDiCaL} (hl : LiftSolver A E l) (succ : Option Nat)
    (ins sorted : List Int) :
    LiftQueryOf A E p l succ (ins ++ sorted) (p.liftQuery l succ ins sorted) := by
  have hnv := hl.nv
  have hb := liftTarget_bounds h succ
  set c : Clause := -((l.nv + 1 : Nat) : Int) :: negCube (liftTarget A p succ) with hc
  have hact := CaDiCaL.varsLe_maxVar 0 c _ List.mem_cons_self
  rw [Int.natAbs_neg, Int.natAbs_natCast] at hact
  have hq : IsQuery (liftVars A) (max l.nv (CaDiCaL.maxVar 0 c)) c := by
    refine ⟨l.nv + 1, _, by omega, by omega, ?_, ?_, hc⟩
    · intro x hx
      obtain ⟨y, hy, rfl⟩ := List.mem_map.mp hx
      have := (hb y hy).2
      omega
    · intro x hx
      obtain ⟨y, hy, rfl⟩ := List.mem_map.mp hx
      have := (hb y hy).1
      omega
  obtain ⟨hadd, hcl, hnv'⟩ := hl.addClause hq
  have heq : p.liftQuery l succ ins sorted =
      ((l.addClause c).assume ((l.nv + 1 : Nat) : Int)).assumeAll (ins ++ sorted) := by
    unfold PDR.liftQuery CaDiCaL.max_var
    simp only [liftClause_eq h, hc, Nat.cast_add, Nat.cast_one]
  rw [heq, CaDiCaL.assumeAll_eq]
  refine ⟨hcl, ?_, fun a => ⟨hadd.clause, rfl, hadd.clauses, hadd.nv, fun _ => ?_⟩⟩
  · show _ ++ [_] ++ _ = _
    rw [hadd.assumptions]; rfl
  · show liftVars A < (l.addClause c).nv
    rw [hnv']
    omega

/-- An unsatisfiable lift query: every model of the base clauses that agrees with the failed assumptions
satisfies the target. -/
theorem LiftQueryOf.forced {l s : CaDiCaL} {succ : Option Nat} {ls : List Int}
    (h : LiftQueryOf A E p l succ ls s) (hsh : Shape A E p) (hl : LiftSolver A E l) {core : List Int}
    (hleg : Legal s.query (.unsat core)) (hls : ∀ x ∈ ls, x.natAbs ≤ liftVars A) {σ : Assignment}
    (hσ : CnfSat σ (liftBase A E)) (hcore : ∀ x ∈ ls, x ∈ core → litVal σ x = true) :
    CubeSat σ (liftTarget A p succ) := by
  by_contra htarget
  have hnv := hl.nv
  refine hleg.2 (activate (liftVars A) σ (l.nv + 1)) ?_ fun x hx => ?_
  · simp only [CaDiCaL.query, h.clauses, cnfSat_append, cnfSat_cons]
    refine ⟨hl.models hσ (by omega), ?_, cnfSat_nil _⟩
    rw [clauseSat_cons]
    right
    rw [clauseSat_activate, clauseSat_negCube fun x hx => (liftTarget_bounds hsh succ x hx).1]
    · exact htarget
    · intro x hx
      obtain ⟨y, hy, rfl⟩ := List.mem_map.mp hx
      have := (liftTarget_bounds hsh succ y hy).2
      omega
  · have hmem : x ∈ s.assumptions := hleg.1 hx
    rw [h.assumptions] at hmem
    rcases List.mem_cons.mp hmem with rfl | hmem
    · exact activate_self (by omega)
    · rw [litVal_activate (hls x hmem)]
      exact hcore x hmem hx

/-- Assumptions that force the target in this sense make the query unsatisfiable. -/
theorem LiftQueryOf.legal {l s : CaDiCaL} {succ : Option Nat} {ls : List Int}
    (h : LiftQueryOf A E p l succ ls s) (hsh : Shape A E p) (hl : LiftSolver A E l) {core : List Int}
    (hsub : core ⊆ s.assumptions) (hact : ((l.nv + 1 : Nat) : Int) ∈ core)
    (hf : ∀ σ, CnfSat σ (liftBase A E) → CubeSat σ core → CubeSat σ (liftTarget A p succ)) :
    Legal s.query (.unsat core) := by
  refine ⟨hsub, fun σ hσ hcore => ?_⟩
  obtain ⟨rest, hr, _⟩ := hl.clauses
  simp only [CaDiCaL.query, h.clauses, hr, cnfSat_append, cnfSat_cons] at hσ
  have hclause := hσ.2.1
  rw [clauseSat_cons, litVal_neg_eq_true (by omega), hcore _ hact] at hclause
  rcases hclause with hfalse | hclause
  · cases hfalse
  · exact (clauseSat_negCube fun x hx => (liftTarget_bounds hsh succ x hx).1).mp hclause
      (hf σ hσ.1.1 hcore)

/-! ## Specifications -/

section Spec

variable {env : PdrEnv} {r : Run} {k : Nat}

theorem loadLift_spec (hI : Inv A env.minisat n r) {F : Run → Prop} :
    (loadLift env).Wp (fun l r' => Inv A env.minisat n r' ∧ Evolves n r r' ∧
      r'.pdr.frames = r.pdr.frames ∧ r'.pdr.states = r.pdr.states ∧ r'.pdr.core = r.pdr.core ∧
      r'.pdr.tmp_core = r.pdr.tmp_core ∧ LiftSolver A env.minisat l ∧ r'.clock = r.clock) F r := by
  unfold loadLift
  simp only [Exec.wp_bind, wp_getP]
  cases hl : r.pdr.lift with
  | some l =>
      exact ⟨hI, .refl _ _, rfl, rfl, rfl, rfl, (hI.shape.lift l hl).clear_act, rfl⟩
  | none =>
      simp only [encode_lift, Exec.wp_bind, wp_modifyP, wp_getP, Exec.wp_pure, setP_pdr]
      have hfill := hI.shape.fillSatelite2
      have hsame : (r.pdr.fillSatelite2 env.minisat).frames = r.pdr.frames ∧
          (r.pdr.fillSatelite2 env.minisat).obligation_queue = r.pdr.obligation_queue ∧
          (r.pdr.fillSatelite2 env.minisat).states = r.pdr.states ∧
          (r.pdr.fillSatelite2 env.minisat).core = r.pdr.core ∧
          (r.pdr.fillSatelite2 env.minisat).tmp_core = r.pdr.tmp_core ∧
          (r.pdr.fillSatelite2 env.minisat).earliest_strengthened_frame =
            r.pdr.earliest_strengthened_frame ∧
          (r.pdr.fillSatelite2 env.minisat).cex_states = r.pdr.cex_states := by
        unfold PDR.fillSatelite2
        split <;> exact ⟨rfl, rfl, rfl, rfl, rfl, rfl, rfl⟩
      obtain ⟨hf, hq, hst, hco, htm, hea, hce⟩ := hsame
      have hquiet : Quiet n r (r.setP (r.pdr.fillSatelite2 env.minisat)) :=
        .of_fields hf hq hst rfl
      refine ⟨hI.quiet hquiet hfill.2 (hI.stored.of_frames hf) hI.hist, hquiet.evolves hea hce, hf, hst,
        hco, htm, ?_, rfl⟩
      rw [hfill.1]
      exact newLift.clear_act

/-- The state object `s` after `extract_state_from_sat`. -/
structure Lifted (A : Circuit) (sat : CaDiCaL) (p p' : PDR) (s : Nat) (succ : Option Nat) : Prop where
  next : (p'.state s).next = succ
  inputs : (p'.state s).inputs = (modelState A.toAiger sat).inputs
  latches : (p'.state s).latches.Sublist (modelState A.toAiger sat).latches
  failed : (p'.state s).failed = (p.state s).failed ∧
    (p'.state s).failed_depth = (p.state s).failed_depth
  law : ∀ w w', CubeSat w (p'.state s).latches → CubeSat w (p'.state s).inputs →
    CubeSat w' (modelState' A.toAiger sat).inputs → A.system.Next w w' →
    A.system.Bad w ∨ (A.system.Cons w ∧ A.system.Cons w' ∧ Reaches A p succ w')

theorem Shape.setState (h : Shape A E p) {s : Nat} {f : State → State}
    (hf : A.LatchCube (f (p.state s)).latches) : Shape A E (p.setState s f) := by
  refine { h with states := fun t => ?_ }
  by_cases hs : s < p.states.length
  · rw [PDR.state_setState hs]
    split
    · rename_i hts; subst hts; exact hf
    · exact h.states t
  · rw [PDR.setState_of_ge (by omega)]; exact h.states t

theorem Shape.setLift (h : Shape A E p) {l : CaDiCaL} (hl : LiftSolver A E l) (nk : Nat) :
    Shape A E { p with lift := some l, nkCore := nk } :=
  { h with lift := fun t ht => by cases ht; exact hl }

/-- Values of the assumed literals. -/
theorem litVal_assumed (sat : CaDiCaL) (w w' : Assignment) :
    (∀ l ∈ (modelState A.toAiger sat).inputs,
      l.natAbs ≤ liftVars A ∧ litVal (joint A (primes1 A) w w') l = litVal w l) ∧
    (∀ l ∈ (modelState A.toAiger sat).latches,
      l.natAbs ≤ liftVars A ∧ litVal (joint A (primes1 A) w w') l = litVal w l) ∧
    ∀ l ∈ modelLits sat A.primed_first_dimacs A.num_inputs,
      l.natAbs ≤ liftVars A ∧
      litVal (joint A (primes1 A) w w') l = litVal w' (unprimeLit A.toAiger l) := by
  have hmax := max_var_le_liftVars (A := A)
  refine ⟨fun l hl => ?_, fun l hl => ?_, fun l hl => ?_⟩
  · have hi := modelState_inputs hl
    have hok : A.LitOk l := by
      unfold Aiger.LitOk Aiger.max_var; have := hi.1; have := hi.2; omega
    exact ⟨hok.2.trans hmax, by rw [litVal_joint hok, Circuit.val_input w hi]⟩
  · have hi := modelState_latches l hl
    exact ⟨(litOk_of_latch hi).2.trans hmax, by
      rw [litVal_joint (litOk_of_latch hi), Circuit.val_latch w hi]⟩
  · obtain ⟨⟨i, hi, hab⟩, _⟩ := mem_modelLits (by have := two_le_primed (A := A); omega) hl
    obtain ⟨hu, hpl⟩ := unprimeLit_spec (A := A) (by omega) hab (primes1 A)
    have hin : A.IsInput (unprimeLit A.toAiger l).natAbs := by unfold Aiger.IsInput; omega
    have hok : A.LitOk (unprimeLit A.toAiger l) := by
      unfold Aiger.LitOk Aiger.max_var; omega
    have hhas : (primes1 A).Has A (unprimeLit A.toAiger l).natAbs :=
      Primes.has_of_small (by unfold Aiger.first_and; omega)
    constructor
    · rw [← hpl]; exact primeLit_le_liftVars hok hhas
    · conv_lhs => rw [← hpl]
      rw [litVal_joint_prime primes1_roots.ok hok hhas, Circuit.val_input w' hin]

/-- With the inputs of the model, the latches in `c` leave only models of the target. -/
def Forces (A : Circuit) (E : Eliminator) (sat : CaDiCaL) (p : PDR) (succ : Option Nat) (c : Cube) :
    Prop :=
  ∀ σ, CnfSat σ (liftBase A E) → CubeSat σ (modelState A.toAiger sat).inputs →
    CubeSat σ (modelLits sat A.primed_first_dimacs A.num_inputs) → CubeSat σ c →
    CubeSat σ (liftTarget A p succ)

/-- Whatever agrees with forcing latches is bad, or satisfies the constraints and reaches the target. -/
theorem Forces.law {sat : CaDiCaL} {succ : Option Nat} {c : Cube} (h : Forces A E sat p succ c)
    (hsh : Shape A E p) (hc : c ⊆ (modelState A.toAiger sat).latches) {w w' : Assignment}
    (hw : CubeSat w c) (hwi : CubeSat w (modelState A.toAiger sat).inputs)
    (hwp : CubeSat w' (modelState' A.toAiger sat).inputs) (hn : A.system.Next w w') :
    A.system.Bad w ∨ (A.system.Cons w ∧ A.system.Cons w' ∧ Reaches A p succ w') := by
  by_cases hb : A.system.Bad w
  · exact .inl hb
  · obtain ⟨hvi, hvl, hvp⟩ := litVal_assumed (A := A) sat w w'
    right
    rw [← liftTarget_iff hsh succ]
    refine h _ (liftBase_joint hb hn) (fun x hx => ?_) (fun x hx => ?_) fun x hx => ?_
    · rw [(hvi x hx).2]; exact hwi x hx
    · rw [(hvp x hx).2]; exact hwp _ (List.mem_map_of_mem hx)
    · rw [(hvl x (hc hx)).2]; exact hw x hx

/-- What the lift query returns: the failed latches force the target. -/
structure LiftAnswer (A : Circuit) (E : Eliminator) (sat : CaDiCaL) (p : PDR) (succ : Option Nat)
    (lift : CaDiCaL) (st : State) : Prop where
  solver : LiftSolver A E lift.set_clear_act
  inputs : st.inputs = (modelState A.toAiger sat).inputs
  latches : st.latches.Sublist (modelState A.toAiger sat).latches
  forces : Forces A E sat p succ st.latches

theorem liftTarget_of_states {p' : PDR} (h : p'.states = p.states) (succ : Option Nat) :
    liftTarget A p' succ = liftTarget A p succ := by
  cases succ with
  | none => rfl
  | some t => simp only [liftTarget, PDR.state, h]

theorem askLift_spec (hI : Inv A env.minisat n r) (succ : Option Nat) :
    (askLift env k succ).Wp (fun x r' => Inv A env.minisat n r' ∧ Evolves n r r' ∧
      r'.pdr.frames = r.pdr.frames ∧ r'.pdr.states = r.pdr.states ∧ r'.pdr.core = r.pdr.core ∧
      r'.pdr.tmp_core = r.pdr.tmp_core ∧
      LiftAnswer A env.minisat (r.pdr.frame k).solver r.pdr succ x.1 x.2)
      (HistGood A env.minisat) r := by
  unfold askLift
  refine (loadLift_spec hI).bind ?_
  rintro l r1 ⟨hI1, hev1, hf1, hst1, hco1, htm1, hl, _⟩
  simp only [Exec.wp_bind, wp_getP, wp_reorder, wp_ask, Exec.wp_ite, Exec.wp_throw, Exec.wp_pure]
  rw [hI1.shape.circuit, tick_clock]
  have hsat : (r1.pdr.frame k).solver = (r.pdr.frame k).solver := by unfold PDR.frame; rw [hf1]
  rw [hsat]
  generalize (r.pdr.frame k).solver = sat
  set m := modelState A.toAiger sat
  set pipts := modelLits sat A.primed_first_dimacs A.num_inputs
  have hperm := env.order_perm r1.clock m.latches
  have hq := hI1.shape.liftQueryOf hl succ (m.inputs ++ pipts) (env.order r1.clock m.latches)
  generalize r1.pdr.liftQuery l succ (m.inputs ++ pipts) (env.order r1.clock m.latches) = query at hq
  have hleg := env.solver.legal (r1.clock + 1) query.query
  generalize env.solver.solve (r1.clock + 1) query.query = a at hleg
  refine ⟨fun _ => hI1.hist, fun hunsat => ?_⟩
  cases a with
  | sat m => simp [Answer.isSat] at hunsat
  | unsat core =>
      refine ⟨hI1.tick.tick, hev1.same_pdr rfl rfl, hf1, hst1, hco1, htm1, hq.solver _, rfl,
        List.filter_sublist, fun σ hσ hin hp hlat => ?_⟩
      obtain ⟨hvi, hvl, hvp⟩ := litVal_assumed (A := A) sat σ σ
      have hmem : ∀ x ∈ m.inputs ++ pipts ++ env.order r1.clock m.latches,
          x ∈ m.inputs ∨ x ∈ pipts ∨ x ∈ m.latches := by
        intro x hx
        simp only [List.mem_append] at hx
        rcases hx with (hx | hx) | hx
        · exact Or.inl hx
        · exact Or.inr (Or.inl hx)
        · exact Or.inr (Or.inr (hperm.mem_iff.mp hx))
      rw [← liftTarget_of_states hst1]
      refine hq.forced hI1.shape hl hleg ?_ hσ ?_
      · intro x hx
        rcases hmem x hx with hx | hx | hx
        · exact (hvi x hx).1
        · exact (hvp x hx).1
        · exact (hvl x hx).1
      · intro x hx hxc
        rcases hmem x hx with hx | hx | hx
        · exact hin x hx
        · exact hp x hx
        · exact hlat x (List.mem_filter.mpr ⟨hx, (CaDiCaL.failed_iff rfl).mpr hxc⟩)

/-- Storing a lifted state in an object that is not queued. -/
theorem Inv.fillState (hI : Inv A E n r) {s : Nat} (hs : s < r.pdr.states.length) (hn : n ≤ s)
    {st : State} (hst : A.LatchCube st.latches) {lift : CaDiCaL}
    (hl : LiftSolver A E lift.set_clear_act) (succ : Option Nat) (findex : Nat) :
    Inv A E n (r.setP (r.pdr.fillState s st succ lift findex)) ∧
      Evolves n r (r.setP (r.pdr.fillState s st succ lift findex)) := by
  have hquiet : Quiet n r (r.setP (r.pdr.fillState s st succ lift findex)) := by
    refine ⟨rfl, fun _ => rfl, rfl, rfl, fun t ht => ?_, by simp [PDR.fillState]⟩
    have hts : t ≠ s := by omega
    have : (r.pdr.fillState s st succ lift findex).state t = r.pdr.state t := by
      have := PDR.state_setState (p := r.pdr) (s := s) (t := t)
        (f := fun t => { t with latches := st.latches, inputs := st.inputs, next := succ }) hs
      rwa [if_neg hts] at this
    unfold SameState
    rw [setP_pdr, this]
    exact ⟨rfl, rfl, rfl⟩
  refine ⟨hI.quiet hquiet ?_ (hI.stored.of_frames rfl) hI.hist, hquiet.evolves rfl rfl⟩
  exact (hI.shape.setState hst).setLift hl _

theorem extract_spec (hI : Inv A env.minisat n r) {s : Nat} (hs : s < r.pdr.states.length) (hn : n ≤ s)
    (succ : Option Nat) (findex : Nat) :
    (extract_state_from_sat env k s succ findex).Wp (fun _ r' => Inv A env.minisat n r' ∧
      Evolves n r r' ∧ r'.pdr.core = r.pdr.core ∧ r'.pdr.tmp_core = r.pdr.tmp_core ∧
      r'.pdr.frames = r.pdr.frames ∧ r'.pdr.states.length = r.pdr.states.length ∧
      (∀ t, t ≠ s → r'.pdr.state t = r.pdr.state t) ∧
      Lifted A (r.pdr.frame k).solver r.pdr r'.pdr s succ) (HistGood A env.minisat) r := by
  unfold extract_state_from_sat
  refine (askLift_spec hI succ).bind ?_
  rintro ⟨lift, st⟩ r1 ⟨hI1, hev1, hf1, hst1, hco1, htm1, hans⟩
  simp only [Exec.wp_bind, wp_modifyP, wp_record]
  have hs1 : s < r1.pdr.states.length := by rw [hst1]; exact hs
  obtain ⟨hI2, hev2⟩ := hI1.fillState hs1 hn (modelState_latches.mono hans.latches.subset)
    hans.solver succ findex
  have hstate := fun t => PDR.state_setState (p := r1.pdr) (s := s) (t := t)
    (f := fun t => { t with latches := st.latches, inputs := st.inputs, next := succ }) hs1
  have hself : (r1.pdr.fillState s st succ lift findex).state s =
      { r1.pdr.state s with latches := st.latches, inputs := st.inputs, next := succ } := by
    exact (hstate s).trans (if_pos rfl)
  refine ⟨hI2.record, (hev1.trans hev2).same_pdr rfl rfl, hco1, htm1, hf1, ?_, fun t ht => ?_, ?_, ?_, ?_,
    ?_, ?_⟩
  · simp [PDR.fillState, hst1]
  · have := hstate t
    rw [if_neg ht] at this
    refine Eq.trans this ?_
    unfold PDR.state
    rw [hst1]
  · simp only [record_pdr, setP_pdr, hself]
  · simp only [record_pdr, setP_pdr, hself]; exact hans.inputs
  · simp only [record_pdr, setP_pdr, hself]; exact hans.latches
  · simp only [record_pdr, setP_pdr, hself]
    unfold PDR.state
    rw [hst1]
    exact ⟨rfl, rfl⟩
  · simp only [record_pdr, setP_pdr, hself]
    intro w w' hw hwi hwp hnext
    exact hans.forces.law hI.shape hans.latches.subset hw (hans.inputs ▸ hwi) hwp hnext

end Spec

end ModelChecker
