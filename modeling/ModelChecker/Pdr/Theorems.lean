import ModelChecker.Pdr.Lemmas.Certificate
import ModelChecker.Pdr.Lemmas.Witness

/-!
# Results about runs of `PDR::check`

What the verdicts 20 and 10 mean, and the invariants of the frames and of the obligation queue. The
solver, Minisat and the orders of literals are arbitrary in all of them.
-/

namespace ModelChecker

open Logic

variable (A : Circuit) (env : PdrEnv) (fuel : Nat)

theorem run_result {v : Int} {r : Run} (h : runCheck env A fuel = (.ok v, r)) : Result A env v r :=
  (check_spec A env fuel).run_ok h

theorem run_hist : HistGood A env.minisat (runCheck env A fuel).2 :=
  Exec.Wp.final ((check_spec A env fuel).mono (fun _ _ h => h.hist) fun _ h => h)

/-- The points of a run between two operations, up to the moment `propagate` succeeds. -/
def Visited (p : PDR) : Prop :=
  p ∈ (runCheck env A fuel).2.hist ∨
    ∃ r x, runCheck env A fuel = (.ok 20, r) ∧ r.fixpoint = some x ∧ x.engine = p

theorem run_fixpoint {r : Run} (h : runCheck env A fuel = (.ok 20, r)) :
    ∃ x, r.fixpoint = some x ∧ FixpointOf A env r.blocked x :=
  (run_result A env fuel h).fixpoint rfl

theorem Visited.good {A : Circuit} {env : PdrEnv} {fuel : Nat} {p : PDR} (h : Visited A env fuel p) :
    Good A env.minisat p := by
  rcases h with hp | ⟨r, x, hr, hx, rfl⟩
  · exact run_hist A env fuel p hp
  · obtain ⟨y, hy, hfix⟩ := run_fixpoint A env fuel hr
    rw [hx] at hy
    cases hy
    exact ⟨hfix.shape, hfix.stored, _, hfix.reach⟩

/-! ## Example runs

Two circuits without inputs, and the answers of a solver to the queries of one run each. -/

namespace Sample

/-- The answer with exactly the variables `vs` true. -/
def model (vs : List Nat) : Answer := .sat fun v => some (decide (v ∈ vs))

noncomputable def envOf (script : Nat → Answer) : PdrEnv where
  solver := replay script
  minisat := .keepAll
  order _ c := c
  order_perm _ _ := .refl _
  RESULT _ := 0

/-- Two latches that start and stay false; the second one is bad. -/
def stuck : Circuit where
  num_inputs := 0
  num_latches := 2
  num_ands := 0
  ands := []
  nexts := [2, 2]
  init_state := [-2, -3]
  constraints := []
  allbad := [3]
  bad := 3
  default_vals := [0, 0]
  wf := by constructor <;> decide

def stuckAnswers : Nat → Answer
  | 0 => .unsat [3]
  | 1 => .unsat [5]
  | 3 => model [2, 4, 5]
  | 5 => .unsat [6, 2]
  | 8 => .unsat [4]
  | 9 => .unsat [2]
  | 11 => model []
  | 13 => .unsat [6, 4]
  | _ => .unsat [5]

noncomputable def stuckRun : Except Stop Int × Run := runCheck (envOf stuckAnswers) stuck 10

/-- Latches that become true one after the other; both together are bad. -/
def chain : Circuit where
  num_inputs := 0
  num_latches := 2
  num_ands := 1
  ands := [⟨4, 3, 2⟩]
  nexts := [-1, 2]
  init_state := [-2, -3]
  constraints := []
  allbad := [4]
  bad := 4
  default_vals := [0, 0]
  wf := by constructor <;> decide

def chainAnswers : Nat → Answer
  | 0 => .unsat [4]
  | 1 => .unsat [7]
  | 3 => model [2, 5, 6, 7]
  | 5 => .unsat [8, 2]
  | _ => model [5, 8]

noncomputable def chainRun : Except Stop Int × Run := runCheck (envOf chainAnswers) chain 10

theorem stuckRun_verdict : stuckRun.1 = .ok 20 := by decide +kernel

theorem chainRun_verdict : chainRun.1 = .ok 10 := by decide +kernel

theorem eq_of_verdict {x : Except Stop Int × Run} {v : Int} (h : x.1 = .ok v) : x = (.ok v, x.2) :=
  Prod.ext h rfl

theorem stuckRun_hist : stuckRun.2.hist ≠ [] := by
  have : stuckRun.2.hist.length = 11 := by decide +kernel
  intro h; rw [h] at this; cases this

theorem stuckRun_blocked : stuckRun.2.blocked = [[2]] := by decide +kernel

end Sample

/-! ## The verdict 20 -/

/-- Verdict 20 is right in every run in which no blocked obligation holds an initial state that
satisfies the constraints. -/
theorem check_safe {r : Run} (h : runCheck env A fuel = (.ok 20, r))
    (hb : ∀ c ∈ r.blocked, ¬ Ic3.MeetsInit A.system InCube c) : A.system.Safe := by
  obtain ⟨x, _, hx⟩ := run_fixpoint A env fuel h
  have hempty : x.engine.cubes x.level = ∅ := by
    ext c; simp [PDR.cubes, hx.empty]
  exact hx.reach.safe hb hx.one_le hx.le_depth hempty hx.badFree

/-- The run on `stuck` blocks one obligation, which holds no initial state. -/
theorem check_safe_stuck : Sample.stuckRun.1 = .ok 20 ∧ Sample.stuckRun.2.blocked = [[2]] ∧
    Sample.stuck.system.Safe := by
  refine ⟨Sample.stuckRun_verdict, Sample.stuckRun_blocked, ?_⟩
  have hrun := Sample.eq_of_verdict Sample.stuckRun_verdict
  have hblocked := Sample.stuckRun_blocked
  generalize Sample.stuckRun.2 = r at hrun hblocked
  refine check_safe Sample.stuck (Sample.envOf Sample.stuckAnswers) 10 hrun fun c hc => ?_
  rw [hblocked, List.mem_singleton] at hc
  subst hc
  rintro ⟨w, hi, _, hw⟩
  have h1 : litVal w (-2) = true := hi _ (by decide)
  have h2 : litVal w 2 = true := hw _ (by decide)
  simp only [litVal] at h1 h2
  simp_all

namespace Sample

/-- The bad literal is the input together with the first latch being false, or both latches; the
constraint forbids the first of these. -/
def masked : Circuit where
  num_inputs := 1
  num_latches := 2
  num_ands := 4
  ands := [⟨5, -3, 2⟩, ⟨6, 4, 3⟩, ⟨7, -5, -6⟩, ⟨8, 3, -4⟩]
  nexts := [-1, 8]
  init_state := [-3, -4]
  constraints := [-5]
  allbad := [-7]
  bad := -7
  default_vals := [0, 0]
  wf := by constructor <;> decide

/-- At time 5 the core of the lift query is the input alone, so the obligation is the empty cube. -/
def maskedAnswers : Nat → Answer
  | 0 => .unsat [-7]
  | 1 => .unsat [-12]
  | 3 => model [2, 3, 7, 8, 9, 10, 11, 14]
  | 5 => .unsat [15, 2]
  | 8 => .unsat [15]
  | 9 => model []
  | 12 => .unsat [15]
  | _ => .unsat []

noncomputable def maskedRun : Except Stop Int × Run := runCheck (envOf maskedAnswers) masked 10

/-- The input stays false; the latches become true one after the other. -/
def maskedTrace (t : Nat) : Assignment := fun v => decide (v = 3 ∧ 1 ≤ t ∨ v = 4 ∧ 2 ≤ t)

end Sample

/-- The obligation that holds the initial state is blocked all the same, and the empty lemma makes the
first level a fixpoint. -/
theorem check_masked : Sample.maskedRun.1 = .ok 20 ∧ Sample.maskedRun.2.blocked = [[]] ∧
    ¬ Sample.masked.system.Safe := by
  refine ⟨by decide +kernel, by decide +kernel, fun hsafe => ?_⟩
  refine hsafe 2 Sample.maskedTrace ⟨?_, ?_, ?_⟩ ?_
  · show ∀ l ∈ [-3, -4], litVal (Sample.maskedTrace 0) l = true
    decide
  · intro i hi
    show ∀ j, j < 2 → Sample.maskedTrace (i + 1) (3 + j) =
      Sample.masked.val (Sample.maskedTrace i) (Sample.masked.nexts.getD j 1)
    interval_cases i <;> decide
  · intro i hi
    show ∀ l ∈ [-5], Sample.masked.val (Sample.maskedTrace i) l = true
    interval_cases i <;> decide
  · show Sample.masked.val (Sample.maskedTrace 2) (-7) = true
    decide

/-! ## The verdict 10 -/

/-- Without constraints, verdict 10 comes with a counterexample: its first line shows the reset values,
and whoever simulates the circuit from it under the printed inputs meets a bad point. -/
theorem check_cex (hc : A.constraints = []) {r : Run} (h : runCheck env A fuel = (.ok 10, r)) :
    ∃ first rest, r.pdr.cex_states = first :: rest ∧
      (∀ l ∈ A.init_state, (A.return_latch first).toList[l.natAbs - (A.num_inputs + 2)]? =
        some (if l < 0 then '0' else '1')) ∧
      (∀ w : Nat → Assignment, Fits (A.return_latch first) (A.num_inputs + 2) (w 0) →
        (∀ t st, r.pdr.cex_states[t]? = some st → Fits (A.return_input st) 2 (w t)) →
        (∀ t, t + 1 < r.pdr.cex_states.length → A.system.Next (w t) (w (t + 1))) →
        ∃ t, t < r.pdr.cex_states.length ∧ A.system.Bad (w t)) ∧
      (r.witness = none ∧ (env.output_witness = true → ∃ t, env.RESULT t ≠ 0) ∨
        env.output_witness = true ∧ r.witness = some (["1", "b0", A.return_latch first] ++
          r.pdr.cex_states.map A.return_input ++ ["."])) := by
  have hres := run_result A env fuel h
  have hcex := hres.cex rfl hc
  obtain ⟨first, rest, hL⟩ := List.exists_cons_of_ne_nil hcex.nonempty
  have hhead : r.pdr.cex_states.head? = some first := by rw [hL]; rfl
  have hfirst : first ∈ r.pdr.cex_states := by rw [hL]; exact List.mem_cons_self
  refine ⟨first, rest, hL, fun l hl => ?_, fun w h0 hin hn => ?_, ?_⟩
  · exact return_latch_char (hcex.inputs _ hfirst) (hcex.latches _ hfirst) (hcex.consistent _ hhead)
      (hcex.init _ hhead hl)
  · have hsat := cubeSat_of_fits_latch (hcex.inputs _ hfirst) (hcex.latches _ hfirst)
      (hcex.consistent _ hhead) h0
    have hinputs : ∀ t I, (r.pdr.cex_states.map State.inputs)[t]? = some I → CubeSat (w t) I := by
      intro t I hI
      rw [List.getElem?_map, Option.map_eq_some_iff] at hI
      obtain ⟨st, hst, rfl⟩ := hI
      have hmem := List.mem_of_getElem? hst
      exact cubeSat_of_fits_input (hcex.inputs _ hmem) (hcex.latches _ hmem) (hin t st hst)
    obtain ⟨t, ht, hb⟩ := (hcex.forced _ hhead _ hsat).simulate hinputs
      (by rw [List.length_map]; exact hn)
    exact ⟨t, by rwa [List.length_map] at ht, hb⟩
  · refine (hres.witness rfl).imp id fun h => ⟨h.1, h.2.trans ?_⟩
    simp [Aiger.show_witness, hL]

/-- The run on `chain` ends at level `0` with a counterexample of three steps. -/
theorem check_cex_chain : Sample.chainRun.1 = .ok 10 ∧ Sample.chainRun.2.pdr.cex_states.length = 3 ∧
    ∃ first rest, Sample.chainRun.2.pdr.cex_states = first :: rest ∧
      (Sample.chain.return_latch first).toList[0]? = some '0' := by
  refine ⟨Sample.chainRun_verdict, by decide +kernel, ?_⟩
  have hrun := Sample.eq_of_verdict Sample.chainRun_verdict
  generalize Sample.chainRun.2 = r at hrun
  obtain ⟨first, rest, hL, hinit, _⟩ :=
    check_cex Sample.chain (Sample.envOf Sample.chainAnswers) 10 rfl hrun
  have h2 := hinit (-2) (by decide)
  exact ⟨first, rest, hL, by simpa [Sample.chain] using h2⟩

/-! ## The frames -/

section Frames

variable {A} {E : Eliminator} {p : PDR}

/-- The lemma clauses of level `i` say that a state is outside the cubes stored at `i` or above. -/
theorem Good.lemma_iff (h : Good A E p) {i : Nat} (hi : 1 ≤ i) (hl : i < p.frames.length)
    (w : Assignment) :
    CnfSat w (lemmaClauses A E i (p.frame i).solver) ↔ Ic3.Excluded InCube p.cubes i w := by
  have hs := h.shape.frames i hl
  constructor
  · intro hw j hj c hc hsat
    have hla := (h.shape.cubes j c hc).1
    have hmem := (mem_lemmaClauses hs).mpr ⟨c, hla, rfl, h.stored.stored i j c hi hj hc⟩
    exact (clauseSat_negCube hla.nonZero).mp (hw _ hmem) hsat
  · intro hw c hc
    obtain ⟨d, hd, rfl, hm⟩ := (mem_lemmaClauses hs).mp hc
    rw [clauseSat_negCube hd.nonZero]
    obtain ⟨_, j, hj, e, he, hed⟩ := h.stored.lemmas i d hl hd hm
    exact fun hsat => hw j hj e he (hsat.mono hed)

theorem Shape.excluded_same (h : Shape A E p) {i : Nat} {w v : Assignment} (hs : A.system.same w v) :
    Ic3.Excluded InCube p.cubes i w ↔ Ic3.Excluded InCube p.cubes i v := by
  refine forall₂_congr fun j _ => forall₂_congr fun c hc => not_congr ?_
  exact (h.cubes j c hc).1.congr hs

theorem Good.step (h : Good A E p) {i : Nat} (hi : 1 ≤ i) (hd : i ≤ p.depth) {w w' : Assignment}
    (hw : Ic3.Excluded InCube p.cubes i w) (hcons : A.system.Cons w) (hbad : ¬ A.system.Bad w)
    (hnext : A.system.Next w w') (hcons' : ∃ v, A.system.same w' v ∧ A.system.Cons v) :
    Ic3.Excluded InCube p.cubes (i + 1) w' := by
  obtain ⟨blocked, hr⟩ := h.reach
  obtain ⟨v, hsame, hv⟩ := hcons'
  rw [h.shape.excluded_same hsame]
  refine hr.closed hi ?_ hw ⟨hcons, hbad, A.system.next_same hsame hnext, hv⟩
  show i + 1 < p.frames.length
  unfold PDR.depth at hd
  omega

theorem FixpointOf.good {env : PdrEnv} {blocked : List Cube} {x : Fixpoint}
    (h : FixpointOf A env blocked x) : Good A env.minisat x.engine := ⟨h.shape, h.stored, _, h.reach⟩

theorem FixpointOf.excluded {env : PdrEnv} {blocked : List Cube} {x : Fixpoint}
    (h : FixpointOf A env blocked x) {w : Assignment}
    (hw : Ic3.Excluded InCube x.engine.cubes (x.level + 1) w) :
    Ic3.Excluded InCube x.engine.cubes x.level w := by
  intro j hj c hc
  by_cases hji : j = x.level
  · subst hji
    have hmem : c ∈ (x.engine.frame x.level).cubes := hc
    rw [h.empty] at hmem
    cases hmem
  · exact hw j (by omega) c hc

end Frames

/-- The frame sequence between any two operations, and at the moment `propagate` succeeds. -/
theorem check_frames :
    (∀ p, Visited A env fuel p →
      (∀ i, 1 ≤ i → i < p.frames.length → ∀ w,
        CnfSat w (lemmaClauses A env.minisat i (p.frame i).solver) ↔
          Ic3.Excluded InCube p.cubes i w) ∧
      ∀ i, 1 ≤ i → i ≤ p.depth → ∀ w w', Ic3.Excluded InCube p.cubes i w → A.system.Cons w →
        ¬ A.system.Bad w → A.system.Next w w' → (∃ v, A.system.same w' v ∧ A.system.Cons v) →
        Ic3.Excluded InCube p.cubes (i + 1) w') ∧
    ∀ r, runCheck env A fuel = (.ok 20, r) → ∃ x, r.fixpoint = some x ∧ 1 ≤ x.level ∧
      x.level ≤ x.engine.depth ∧ (x.engine.frame x.level).cubes = [] ∧
      ∀ w w', Ic3.Excluded InCube x.engine.cubes x.level w → A.system.Cons w → ¬ A.system.Bad w →
        A.system.Next w w' → (∃ v, A.system.same w' v ∧ A.system.Cons v) →
        Ic3.Excluded InCube x.engine.cubes x.level w' := by
  refine ⟨fun p hp => ⟨fun i hi hl => hp.good.lemma_iff hi hl,
    fun i hi hd w w' hw hc hb hn hv => hp.good.step hi hd hw hc hb hn hv⟩, fun r hr => ?_⟩
  obtain ⟨x, hx, hf⟩ := run_fixpoint A env fuel hr
  refine ⟨x, hx, hf.one_le, hf.le_depth, hf.empty, fun w w' hw hc hb hn hv => ?_⟩
  exact hf.excluded (hf.good.step hf.one_le hf.le_depth hw hc hb hn hv)

theorem check_frames_stuck : Sample.stuckRun.1 = .ok 20 ∧ ∃ x, Sample.stuckRun.2.fixpoint = some x ∧
    1 ≤ x.level ∧ (x.engine.frame x.level).cubes = [] := by
  refine ⟨Sample.stuckRun_verdict, ?_⟩
  have hrun := Sample.eq_of_verdict Sample.stuckRun_verdict
  generalize Sample.stuckRun.2 = r at hrun
  obtain ⟨x, hx, h1, _, h2, _⟩ :=
    (check_frames Sample.stuck (Sample.envOf Sample.stuckAnswers) 10).2 r hrun
  exact ⟨x, hx, h1, h2⟩

/-! ## Obligations -/

/-- Without constraints, no lemma and no obligation is about a state that is reachable soon enough; in
particular no lemma excludes an initial state. -/
theorem check_obligations (hc : A.constraints = []) {p : PDR} (hp : Visited A env fuel p) :
    (∀ i, 1 ≤ i → i ≤ p.depth + 1 → ∀ w, A.system.Within i w → Ic3.Excluded InCube p.cubes i w) ∧
      (∀ o ∈ p.obligation_queue, ∀ w, A.system.Within o.frame_k w →
        ¬ CubeSat w (p.state o.state).latches) ∧
      ∀ j, ∀ c ∈ (p.frame j).cubes, ∀ w, A.system.Init w → ¬ CubeSat w c := by
  obtain ⟨blocked, hr⟩ := hp.good.reach
  have hsound := hr.sound (cons_of_nil hc)
  refine ⟨fun i hi _ w hw => ?_, fun o ho w hw => ?_, fun j c hj w hw hsat => ?_⟩
  · by_cases hl : i < p.frames.length
    · exact hsound.approx i hi hl w hw
    · intro j hj c hcj
      have hempty := hr.empty_above j (show p.frames.length ≤ j by omega)
      have hmem : c ∈ (p.abs blocked).frames j := hcj
      rw [hempty] at hmem
      cases hmem
  · exact (hsound.queue _ _ ⟨o, ho, rfl⟩).2.2 w hw
  · exact hr.initiation hsound.blocked j c hj ⟨w, hw, cons_of_nil hc w, hsat⟩

theorem check_obligations_stuck : ∃ p ∈ Sample.stuckRun.2.hist, ∀ i, 1 ≤ i → i ≤ p.depth + 1 →
    ∀ w, Sample.stuck.system.Within i w → Ic3.Excluded InCube p.cubes i w := by
  obtain ⟨p, hp⟩ := List.exists_mem_of_ne_nil _ Sample.stuckRun_hist
  have hv : Visited Sample.stuck (Sample.envOf Sample.stuckAnswers) 10 p := by
    unfold Visited
    rw [← Sample.stuckRun]
    exact Or.inl hp
  exact ⟨p, hp, (check_obligations Sample.stuck (Sample.envOf Sample.stuckAnswers) 10 rfl hv).1⟩

/-! ## Certificates -/

/-- The text written when `propagate` succeeds is a well-formed AIGER file `F` with the circuit's inputs,
latches and constraints. Its bad output is the complement of the invariant, which constrained
transitions keep. -/
theorem check_certificate {r : Run} (h : runCheck env A fuel = (.ok 20, r)) :
    ∃ (x : Fixpoint) (F : AigerFile), r.fixpoint = some x ∧
      (x.certificate = none ∧ (env.output_certificate = true → ∃ t, env.RESULT t ≠ 0) ∨
        env.output_certificate = true ∧
          ∃ text, x.certificate = some text ∧ text.map stringBytes = F.asciiLines {}) ∧
      F.WellFormed ∧ F.num_inputs = A.num_inputs ∧ F.num_latches = A.num_latches ∧
      F.Aiger_latches.map Aiger_latch.default_val = A.default_vals ∧
      (∀ v i, (hi : i < F.Aiger_latches.length) → F.val v (F.Aiger_latches.get ⟨i, hi⟩).next =
        A.val (fun u => v (u - 1)) (A.nexts.getD i 1)) ∧
      (∀ v, F.Aiger_constraints.map (F.val v) = A.constraints.map (A.val fun u => v (u - 1))) ∧
      (∃ b, F.Aiger_bads = [b] ∧ ∀ v, F.val v b = true ↔ ¬ CertInv A x fun u => v (u - 1)) ∧
      ∀ w w', CertInv A x w → A.system.Next w w' → A.system.Cons w' → CertInv A x w' := by
  obtain ⟨x, hx, hf⟩ := run_fixpoint A env fuel h
  have hne : x.engine.certCubes x.level ≠ [] :=
    List.ne_nil_of_mem ((mem_certCubes hf.le_depth).mpr (Or.inl rfl))
  obtain ⟨hext, hbad, hval⟩ := certify_spec hne hf.certCubes_ok
  have hgrow := hext.grows
  generalize hB : A.certify (x.engine.certCubes x.level) = B at *
  refine ⟨x, B.toFile, hx, ?_, hext.toFile_wf hbad, hext.num_inputs, hext.num_latches, ?_, ?_, ?_, ?_,
    fun w w' hw hn hc => hf.certInv_closed hw hn hc⟩
  · refine hf.certificate.imp id fun h => ⟨h.1, _, h.2, ?_⟩
    rw [hB]
    exact show_aag_eq B
  · refine List.ext_getElem ?_ fun i _ h2 => ?_
    · simp [Aiger.toFile, A.wf.vals_length, hext.num_latches]
    · simp [Aiger.toFile, hext.default_vals, h2]
  · intro v i hi
    have hi' : i < A.num_latches := by
      rw [← hext.num_latches]; simpa [Aiger.toFile] using hi
    have hok := Circuit.next_ok hi'
    simp only [Aiger.toFile, List.get_eq_getElem, List.getElem_map, List.getElem_range, hext.nexts]
    rw [← hgrow.val _ _ hok]
    exact hext.toFile_val v (LitOk.ne_zero hok)
  · intro v
    simp only [Aiger.toFile, hext.constraints, List.map_map]
    refine List.map_congr_left fun l hl => ?_
    have hok := A.wf.constraints_ok l hl
    rw [← hgrow.val _ _ hok]
    exact hext.toFile_val v (LitOk.ne_zero hok)
  · refine ⟨_, rfl, fun v => ?_⟩
    rw [hext.toFile_val v (by have := hbad.1; omega), hval]
    exact hf.certInv_iff _

/-- The run on `stuck` writes a certificate. -/
theorem check_certificate_stuck : Sample.stuckRun.1 = .ok 20 ∧
    ∃ (x : Fixpoint) (F : AigerFile) (text : List String), Sample.stuckRun.2.fixpoint = some x ∧
      x.certificate = some text ∧ text.map stringBytes = F.asciiLines {} ∧ F.WellFormed := by
  refine ⟨Sample.stuckRun_verdict, ?_⟩
  have hrun := Sample.eq_of_verdict Sample.stuckRun_verdict
  generalize Sample.stuckRun.2 = r at hrun
  obtain ⟨x, F, hx, hcert, hwf, _⟩ :=
    check_certificate Sample.stuck (Sample.envOf Sample.stuckAnswers) 10 hrun
  rcases hcert with ⟨_, hR⟩ | ⟨_, text, ht, hlines⟩
  · obtain ⟨t, ht⟩ := hR rfl
    exact absurd rfl ht
  · exact ⟨x, F, text, hx, ht, hlines, hwf⟩

end ModelChecker
