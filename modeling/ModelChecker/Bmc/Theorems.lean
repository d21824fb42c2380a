import ModelChecker.Bmc.Lemmas.Threads

/-!
# Results about BMC

The unrolling is a simulation, the query of a frame is exact, and several threads find what one thread
finds. All three hold as long as the arrays of `unfold` are large enough.
-/

namespace ModelChecker

open Logic

/-! ## Example circuits -/

namespace Sample

/-- `n` latches that start and stay false; the bad literal is the constant `b`. -/
def zeros (n : Nat) (b : Int) (hb : b = 1 ∨ b = -1) : Circuit where
  num_inputs := 0
  num_latches := n
  num_ands := 0
  ands := []
  nexts := List.replicate n 1
  init_state := (List.range n).map fun i => -((i + 2 : Nat) : Int)
  constraints := []
  allbad := [b]
  bad := b
  default_vals := List.replicate n 0
  wf := by
    have hok : ∀ l : Int, l.natAbs = 1 → 1 ≤ l.natAbs ∧ l.natAbs ≤ 0 + n + 0 + 1 := fun l hl => by omega
    have hb1 : b.natAbs = 1 := by omega
    constructor
    case ands_length => rfl
    case ands_o => intro i hi; exact absurd hi (Nat.not_lt_zero i)
    case fanin1 => exact List.forall_mem_nil _
    case fanin2 => exact List.forall_mem_nil _
    case nexts_length => exact List.length_replicate
    case nexts_ok => intro l hl; rw [List.eq_of_mem_replicate hl]; exact hok 1 rfl
    case constraints_ok => exact List.forall_mem_nil _
    case bad_ok => exact hok b hb1
    case allbad_ok => intro l hl; rw [List.mem_singleton.mp hl]; exact hok b hb1
    case init_latch =>
      intro l hl
      obtain ⟨i, hi, rfl⟩ := List.mem_map.mp hl
      have := List.mem_range.mp hi
      refine ⟨?_, ?_⟩
      · show 0 + 2 ≤ _; omega
      · show _ < 0 + n + 2; omega
    case init_distinct =>
      refine List.pairwise_map.mpr (List.pairwise_lt_range.imp fun h => ?_)
      omega
    case vals_length => exact List.length_replicate
    case vals_ok => intro i hi; exact Or.inl (by simp)
    case init_eq =>
      rw [List.map_eq_flatMap]
      refine List.flatMap_congr fun i hi => ?_
      have := List.mem_range.mp hi
      have h0 : (List.replicate n 0).getD i 0 = 0 := by simp [List.getD_eq_getElem?_getD, this]
      simp only [Aiger.resetLits, Aiger.latch, h0, if_true]
      congr 2
      omega

def config (A : Circuit) (h : 0 < A.allbad.length) : BmcConfig where
  circuit := A
  nframes := 10
  thread_index := 0
  max_thread_index := 1
  find_bug_only := false
  propertyIndex := 0
  property_lt := h

/-- `n` latches; the property is violated at once. -/
def wide (n : Nat) : BmcConfig := config (zeros n (-1) (Or.inr rfl)) Nat.one_pos

/-- The latch is set by an input that is true while the latch is not; the property is violated when both are
true. Gates 6 and 7 are gate 5 again, the one by its fan-ins and the other by a rule. A second property is
never violated. -/
def pulse : Circuit where
  num_inputs := 1
  num_latches := 1
  num_ands := 4
  ands := [⟨4, 2, -3⟩, ⟨5, 2, 3⟩, ⟨6, 3, 2⟩, ⟨7, 6, 2⟩]
  nexts := [4]
  init_state := [-3]
  constraints := []
  allbad := [7, 1]
  bad := 7
  default_vals := [0]
  wf := by constructor <;> decide

def pulseConfig : BmcConfig := config pulse Nat.two_pos

end Sample

theorem unfold_wide (B : BmcConfig) (h : tempvalueSize < B.circuit.num_latches) (s : Unfolding) :
    B.unfold s = none := by
  unfold BmcConfig.unfold
  simp only
  cases (B.circuit.ands.foldlM (Unfolding.unfoldAnd B.circuit.toAiger)
      ((List.range B.circuit.num_inputs).foldl Unfolding.addInput s)) with
  | none => rfl
  | some u => rw [Option.bind_some, if_pos h]

theorem unfolds_wide (B : BmcConfig) (h : tempvalueSize < B.circuit.num_latches) :
    B.unfolds 1 = none := by
  rw [BmcConfig.unfolds, BmcConfig.unfolds, Option.bind_some]
  exact unfold_wide B h _

theorem Sample.wide_latches {n : Nat} (h : 999999 < n) : tempvalueSize < (Sample.wide n).circuit.num_latches := h

/-! ## The unrolling -/

/-- After `k` calls of `unfold`, for every valuation of the leaves: `outputs` and `constraints` have the
values of the checked property and of the constraints in the steps of the simulation, and the latches
those of the point reached. -/
def BmcConfig.Simulated (B : BmcConfig) (k : Nat) : Prop :=
  ∃ s, B.unfolds k = some s ∧ s.uaiger.inputs.length = k * B.circuit.num_inputs ∧ ∀ leaf,
    (s.uaiger.outputs.map (litVal (s.uaiger.eval leaf)) =
      (List.range k).map fun j => B.circuit.val (B.circuit.simulate leaf s.uaiger.inputs j) B.checked) ∧
    (s.uaiger.constraints.map (litVal (s.uaiger.eval leaf)) = (List.range k).flatMap fun j =>
      B.circuit.constraints.map (B.circuit.val (B.circuit.simulate leaf s.uaiger.inputs j))) ∧
    ∀ v, B.circuit.IsLatch v →
      litVal (s.uaiger.eval leaf) (s.values v) = B.circuit.simulate leaf s.uaiger.inputs k v

/-- Every run of `unfold` in which the arrays have room for each step simulates the circuit. -/
theorem unfold_simulates (B : BmcConfig) (k : Nat)
    (hfit : ∀ j, j < k → ∀ s, B.unfolds j = some s → B.Fits s) : B.Simulated k := by
  obtain ⟨s, hs, hu⟩ := unfolds_unrolled k hfit
  exact ⟨s, hs, hu.inputs_length, fun leaf => ⟨hu.outputs leaf, hu.constraints leaf, hu.latch leaf⟩⟩

/-- Three steps of `pulse`, in which gates are simplified, found and added. -/
theorem unfold_simulates_pulse : Sample.pulseConfig.Simulated 3 := by
  refine unfold_simulates _ 3 (unfolds_fits ?_ ?_)
  · show 1 ≤ 999999
    omega
  · show 1 + 2 + 3 * (1 + 4) ≤ 99999999
    omega

/-- The first call writes past the end of `tempvalue`, and of the object it is a member of. -/
theorem unfold_overflow : ¬ (Sample.wide 2000000).Simulated 1 := by
  have hnone := unfolds_wide (Sample.wide 2000000) (Sample.wide_latches (by omega))
  generalize Sample.wide 2000000 = B at hnone
  rintro ⟨s, hs, _⟩
  rw [hnone] at hs
  cases hs

/-! ## One thread -/

/-- The states in which `k` frames have been solved, all with the answer 20. -/
inductive Answered (B : BmcConfig) (S : Ipasir) : Nat → BMC → Prop
  | start : Answered B S 0 { B.start with bmc_frame_k := 1 }
  | frame {k t : Nat} {s s' : BMC} {u : Unfolding} (h : Answered B S k s) (hfit : B.Fits s.toUnfolding)
      (hu : B.unfold s.toUnfolding = some u)
      (hs : B.solve_one_frame S t false { s with toUnfolding := u } = (20, s')) :
      Answered B S (k + 1) { s' with bmc_frame_k := s'.bmc_frame_k + 1 }

/-- The next frame is unfolded, and its query answers whether there is a counterexample of that
length. -/
def BmcConfig.SolvesFrame (B : BmcConfig) (S : Ipasir) (k : Nat) (s : BMC) : Prop :=
  ∃ u, B.unfold s.toUnfolding = some u ∧ ∀ t,
    ((B.solve_one_frame S t false { s with toUnfolding := u }).1 = 10 ↔ B.HasCex k) ∧
    ((B.solve_one_frame S t false { s with toUnfolding := u }).1 = 20 ↔ ¬ B.HasCex k)

theorem Answered.ready {B : BmcConfig} {S : Ipasir} (hm : B.max_thread_index = 1) {k : Nat} {s : BMC}
    (h : Answered B S k s) :
    Ready B k s ∧ s.bmc_frame_k = k + 1 ∧ ∀ j, j ≤ k → ¬ B.HasCex j := by
  induction h with
  | start =>
      have hok := ThreadOk.start B
      obtain ⟨k, hk, hr, _⟩ := hok
      have h0 : k = 0 := by
        have : 1 = k + 1 := hk
        omega
      subst h0
      refine ⟨hr, rfl, fun j hj hc => ?_⟩
      have := hc.1
      omega
  | @frame k t s s' u _ hfit hu hs ih =>
      obtain ⟨hr, hk, hno⟩ := ih
      obtain ⟨u', hu', hun, hst⟩ := hr.unrolled.unfold hfit
      rw [hu] at hu'
      cases hu'
      have ho := hr.solve hk hun hst S t false
      rw [hs] at ho
      have hown : B.Owns (k + 1) := fun hn => hn.1 hm
      refine ⟨ho.next rfl _, by show _ + 1 = _; rw [ho.rest.1], fun j hj => ?_⟩
      rcases Nat.lt_or_ge k j with hlt | hle
      · have hj' : j = k + 1 := by omega
        subst hj'
        exact fun hc => hc.first_or.elim (ho.none rfl hown) fun ⟨i, hi, hci⟩ => hno i (by omega) hci
      · exact hno j hle

/-- With one thread, in every run whose frames have room, the query of the next frame is exact. -/
theorem solve_one_frame_exact (B : BmcConfig) (S : Ipasir) (hm : B.max_thread_index = 1) {k : Nat}
    {s : BMC} (h : Answered B S k s) (hfit : B.Fits s.toUnfolding) : B.SolvesFrame S (k + 1) s := by
  obtain ⟨hr, hk, hno⟩ := h.ready hm
  obtain ⟨u, hu, hun, hst⟩ := hr.unrolled.unfold hfit
  refine ⟨u, hu, fun t => ?_⟩
  have ho := hr.solve hk hun hst S t false
  have hown : B.Owns (k + 1) := fun hn => hn.1 hm
  have hcases : (B.solve_one_frame S t false { s with toUnfolding := u }).1 = 10 ∨
      (B.solve_one_frame S t false { s with toUnfolding := u }).1 = 20 := by
    rcases ho.cases with h10 | h20 | ⟨_, hf⟩
    · exact Or.inl h10
    · exact Or.inr h20
    · cases hf
  have hleast : (B.solve_one_frame S t false { s with toUnfolding := u }).1 = 20 → ¬ B.HasCex (k + 1) :=
    fun h20 hc => hc.first_or.elim (ho.none h20 hown) fun ⟨i, hi, hci⟩ => hno i (by omega) hci
  constructor
  · exact ⟨fun h10 => (ho.cex h10).2.hasCex, fun hc => hcases.resolve_right fun h20 => hleast h20 hc⟩
  · exact ⟨hleast, fun hn => hcases.resolve_left fun h10 => hn (ho.cex h10).2.hasCex⟩

theorem start_fits (B : BmcConfig) (hL : B.circuit.num_latches ≤ tempvalueSize)
    (hk : B.circuit.num_latches + 2 + (B.circuit.num_inputs + B.circuit.num_ands) ≤ hashTableSize) :
    B.Fits B.initUnfold :=
  unfolds_fits hL (k := 1) (by rw [Nat.one_mul]; exact hk) 0 Nat.one_pos _ rfl

namespace Sample

/-- Two latches, and a property that is violated at once. -/
def pair : BmcConfig := wide 2

theorem pair_fits : pair.Fits pair.initUnfold := by decide +kernel

theorem pulse_fits : pulseConfig.Fits pulseConfig.initUnfold := by decide +kernel

theorem pulse_fits_next {u : Unfolding} (hu : pulseConfig.unfold pulseConfig.initUnfold = some u) :
    pulseConfig.Fits (pulseConfig.growTable u) := by
  have h : ((pulseConfig.unfold pulseConfig.initUnfold).all fun u =>
      decide (pulseConfig.Fits (pulseConfig.growTable u))) = true := by decide +kernel
  rw [hu] at h
  exact of_decide_eq_true h

/-- Whatever state is looked at, `-1` is true and there is no constraint. -/
theorem zeros_hasCex (n : Nat) : (config (zeros n (-1) (Or.inr rfl)) Nat.one_pos).HasCex 1 := by
  refine ⟨le_rfl, fun _ _ => false, ⟨fun l hl => ?_, fun i hi => absurd hi (Nat.not_lt_zero i),
    fun _ _ => List.forall_mem_nil _⟩, ?_⟩
  · obtain ⟨i, _, rfl⟩ := List.mem_map.mp hl
    rw [litVal_neg_natCast _ (by omega)]
    rfl
  · show litVal _ (-1) = true
    rw [litVal_neg_eq_true (by decide)]
    exact Circuit.eval_one _

theorem pulse_not_hasCex : ¬ pulseConfig.HasCex 1 := by
  rintro ⟨_, w, ⟨hinit, _⟩, hbad⟩
  have h3 : litVal (w 0) (-3) = true := hinit (-3) List.mem_cons_self
  have h7 : (w 0 3 && w 0 2 && w 0 2) = true := hbad
  simp_all [litVal]

theorem pulse_hasCex : pulseConfig.HasCex 2 := by
  refine ⟨by decide, fun i v => decide (v = 2 ∨ 0 < i), ⟨fun l hl => ?_, fun i hi j hj => ?_,
    fun _ _ => List.forall_mem_nil _⟩, ?_⟩
  · obtain rfl := List.mem_singleton.mp hl
    decide
  · obtain rfl : i = 0 := by omega
    obtain rfl : j = 0 := Nat.lt_one_iff.mp hj
    decide
  · show pulse.val _ 7 = true
    decide

/-- Some solver. -/
noncomputable def solver : Ipasir := replay fun _ => .unsat []

/-- The first frame of `pulse` is answered 20 and the second 10. -/
noncomputable def pulseSolver : Ipasir :=
  replay fun t => if t = 0 then .unsat [1] else .sat fun v => some (decide (v ≠ 1))

end Sample

/-- The second frame of `pulse`, after the first was answered 20. -/
theorem solve_one_frame_exact_pulse : ∃ s u, Answered Sample.pulseConfig Sample.solver 1 s ∧
    Sample.pulseConfig.unfold s.toUnfolding = some u ∧ ∀ t,
      (Sample.pulseConfig.solve_one_frame Sample.solver t false { s with toUnfolding := u }).1 = 10 := by
  obtain ⟨u, hu, ht⟩ := solve_one_frame_exact Sample.pulseConfig Sample.solver rfl .start Sample.pulse_fits
  have h20 := (ht 0).2.mpr Sample.pulse_not_hasCex
  have hnext := Answered.frame (t := 0) .start Sample.pulse_fits hu (Prod.ext h20 rfl)
  obtain ⟨u', hu', ht'⟩ := solve_one_frame_exact Sample.pulseConfig Sample.solver rfl hnext (by
    rw [solve_unfolding]
    exact Sample.pulse_fits_next hu)
  exact ⟨_, u', hnext, hu', fun t => (ht' t).1.mpr Sample.pulse_hasCex⟩

theorem not_solvesFrame_wide (B : BmcConfig) (h : tempvalueSize < B.circuit.num_latches) (S : Ipasir)
    (k : Nat) (s : BMC) : ¬ B.SolvesFrame S k s := by
  rintro ⟨u, hu, _⟩
  rw [unfold_wide B h] at hu
  cases hu

/-- The first frame of the wide circuit is not solved, although there is a counterexample. -/
theorem solve_one_frame_overflow : (Sample.wide 1000001).HasCex 1 ∧ ¬ (Sample.wide 1000001).SolvesFrame
    Sample.solver 1 { (Sample.wide 1000001).start with bmc_frame_k := 1 } :=
  ⟨Sample.zeros_hasCex 1000001, not_solvesFrame_wide _ (Sample.wide_latches (by omega)) _ _ _⟩

/-! ## Several threads -/

/-- Every pool reached in a run of `m` threads whose calls of `unfold` satisfy `ok`: an answer 10 stands
for a counterexample; the thread whose turn the shortest one is finds it, unless `RESULT` stops it; and
when all threads have returned, here and in a run of one thread, both report the same. -/
structure Portfolio.Partitioned (P : Portfolio) (S : Nat → Ipasir) (m : Nat)
    (ok : BmcConfig → Unfolding → Prop) : Prop where
  sound : ∀ s, Reach P S m ok s → ∀ i, i < m → (s.threads i).phase = .solving → ∀ t terminated,
    ((P.config m i).solve_one_frame (S i) t terminated (s.threads i).bmc).1 = 10 →
      (P.config m i).HasCex (s.threads i).bmc.bmc_frame_k
  found : ∀ s, Reach P S m ok s → ∀ K, (P.config m 0).Least K → K ≤ P.nframes →
    (s.threads (K % m)).phase ≠ .undefined ∧
    (∀ r, (s.threads (K % m)).phase = .returned r → r = 10 ∨ s.RESULT ≠ 0) ∧
    ((s.threads (K % m)).phase = .head ∨ (s.threads (K % m)).phase = .solving →
      (s.threads (K % m)).bmc.bmc_frame_k ≤ K) ∧
    ((s.threads (K % m)).phase = .solving → (s.threads (K % m)).bmc.bmc_frame_k = K → ∀ t,
      ((P.config m (K % m)).solve_one_frame (S (K % m)) t false (s.threads (K % m)).bmc).1 = 10)
  same : ∀ s, Reach P S m ok s → (∀ i, i < m → ∃ r, (s.threads i).phase = .returned r) →
    ∀ S' s', Reach P S' 1 ok s' → (∃ r, (s'.threads 0).phase = .returned r) →
      ((∃ i, i < m ∧ (s.threads i).phase = .returned 10) ↔ (s'.threads 0).phase = .returned 10)

/-- In every run whose calls of `unfold` have room, partitioning the frames changes nothing. -/
theorem threads_partitioned (P : Portfolio) (S : Nat → Ipasir) (m : Nat) (hm : 2 ≤ m) :
    P.Partitioned S m BmcConfig.Fits := by
  refine ⟨fun s h i hi hph t terminated h10 => ?_, fun s h K hK hle => ?_, fun s h hfin S' s' h' hfin' => ?_⟩
  · have hok := h.poolOk.threads i hi
    unfold ThreadOk at hok
    rw [hph] at hok
    obtain ⟨k, hs, _⟩ := hok
    rw [hs.frame]
    exact ((hs.outcome (S i) t terminated).cex h10).2.hasCex
  · have hi : K % m < m := Nat.mod_lt _ (by omega)
    have hown : (P.config m (K % m)).Owns K := (owns_iff hi).mpr rfl
    have hlt : ∀ k, (P.config m (K % m)).Passed k → k < K := fun k hp => by
      by_contra hge
      exact hp K (by omega) hown hK.first
    have hok := h.poolOk.threads _ hi
    generalize s.threads (K % m) = x at hok
    obtain ⟨phase, b⟩ := x
    cases phase with
    | head =>
        obtain ⟨k, hk, _, hp⟩ := hok
        have hkK := hlt k hp
        refine ⟨Phase.noConfusion, fun r hr => Phase.noConfusion hr, fun _ => ?_, fun hr =>
          Phase.noConfusion hr⟩
        simp only at hk ⊢
        omega
    | solving =>
        obtain ⟨k, hs, hp⟩ := hok
        have hkK := hlt k hp
        have hfr := hs.frame
        refine ⟨Phase.noConfusion, fun r hr => Phase.noConfusion hr, fun _ => ?_, fun _ hf t => ?_⟩
        · simp only at hfr ⊢
          omega
        · have ho := hs.outcome (S (K % m)) t false
          simp only at hfr hf ho ⊢
          have hKk : K = k + 1 := by omega
          subst hKk
          rcases ho.cases with h10 | h20 | ⟨_, hf⟩
          · exact h10
          · exact absurd hK.first (ho.none h20 hown)
          · cases hf
    | found =>
        refine ⟨Phase.noConfusion, fun r hr => Phase.noConfusion hr, fun hr => ?_, fun hr =>
          Phase.noConfusion hr⟩
        exact hr.elim Phase.noConfusion Phase.noConfusion
    | returned r =>
        refine ⟨Phase.noConfusion, fun r' hr => ?_, fun hr => ?_, fun hr => Phase.noConfusion hr⟩
        · cases hr
          rcases hok with ⟨h10, _⟩ | ⟨_, hR | hp⟩
          · exact Or.inl h10
          · exact Or.inr hR
          · exact absurd (hlt _ hp) (not_lt.mpr hle)
        · exact hr.elim Phase.noConfusion Phase.noConfusion
    | undefined => exact absurd (hlt _ hok.2) (not_lt.mpr (hle.trans P.nframes_le))
  · have h1 := h.poolOk.final (by omega) hfin
    have h2 := h'.poolOk.final Nat.one_pos fun i hi => by
      have hi0 : i = 0 := by omega
      rw [hi0]
      exact hfin'
    refine h1.trans (h2.symm.trans ⟨?_, fun hph => ⟨0, Nat.one_pos, hph⟩⟩)
    rintro ⟨i, hi, hph⟩
    have hi0 : i = 0 := by omega
    rwa [hi0] at hph

namespace Sample

def portfolio (A : Circuit) (h : 0 < A.allbad.length) : Portfolio := ⟨A, 10, by decide, 0, h⟩

def pulsePool : Portfolio := portfolio pulse Nat.two_pos

def widePool : Portfolio := portfolio (zeros 1000001 (-1) (Or.inr rfl)) Nat.one_pos

theorem zeros_least (n i : Nat) :
    ((portfolio (zeros n (-1) (Or.inr rfl)) Nat.one_pos).config 2 i).Least 1 := by
  refine ⟨zeros_hasCex n, fun j hj hc => ?_⟩
  have := hc.1
  omega

theorem pulse_least : (pulsePool.config 2 0).Least 2 := by
  refine ⟨pulse_hasCex, fun j hj hc => ?_⟩
  obtain rfl : j = 1 := by
    have := hc.1
    omega
  exact pulse_not_hasCex hc

/-- Both threads unfold the first frame; thread 0 leaves it to the other one and unfolds the second. -/
noncomputable def pulsePoolAt : Nat → Pool
  | 0 => pulsePool.startPool 2
  | n + 1 => pulsePool.poolStep (fun _ => solver) 2 (if n = 1 then 1 else 0) 0 false (pulsePoolAt n)

theorem pulsePoolAt_fits : ∀ n, n < 4 → ∀ i, i < 2 → ((pulsePoolAt n).threads i).phase = .head →
    (pulsePool.config 2 i).Fits ((pulsePoolAt n).threads i).bmc.toUnfolding := by
  decide +kernel

theorem pulsePoolAt_reach {n : Nat} (hn : n ≤ 4) :
    Reach pulsePool (fun _ => solver) 2 BmcConfig.Fits (pulsePoolAt n) := by
  induction n with
  | zero => exact .start
  | succ n ih =>
      have hi : (if n = 1 then 1 else 0) < 2 := by
        split <;> decide
      exact .step (ih (by omega)) hi (fun h => Bool.noConfusion h) fun hp _ _ =>
        pulsePoolAt_fits n (by omega) _ hi hp

end Sample

theorem poolStep_start (P : Portfolio) (S : Nat → Ipasir) (hn : 1 ≤ P.nframes) :
    ((P.poolStep S 2 1 0 false (P.startPool 2)).threads 1).phase =
        (if ((P.config 2 1).unfold (P.config 2 1).initUnfold).isSome then .solving else .undefined) ∧
      ((P.poolStep S 2 1 0 false (P.startPool 2)).threads 1).bmc.bmc_frame_k = 1 := by
  have hself : (P.poolStep S 2 1 0 false (P.startPool 2)).threads 1 =
      ((P.config 2 1).threadStep (S 1) 0 false 0 (P.config 2 1).startThread).1 := by
    simp only [Portfolio.poolStep, Function.update_self]
    rfl
  have hhead : ¬ (P.config 2 1).nframes < 1 := by
    show ¬ P.nframes < 1
    omega
  rw [hself]
  simp only [BmcConfig.threadStep, BmcConfig.startThread, BmcConfig.start, if_neg hhead, ne_eq,
    not_true_eq_false, if_false]
  cases (P.config 2 1).unfold (P.config 2 1).initUnfold with
  | none => exact ⟨rfl, rfl⟩
  | some u => exact ⟨rfl, rfl⟩

theorem reach_start {P : Portfolio} {S : Nat → Ipasir} {ok : BmcConfig → Unfolding → Prop}
    (hok : ok (P.config 2 1) (P.config 2 1).initUnfold) :
    Reach P S 2 ok (P.poolStep S 2 1 0 false (P.startPool 2)) :=
  .step .start Nat.one_lt_two (fun h => Bool.noConfusion h) fun _ _ _ => hok

/-- The shortest counterexample has two steps, and thread 0 of 2 finds it in its second frame. -/
theorem threads_partitioned_pulse : ∃ s, Reach Sample.pulsePool (fun _ => Sample.solver) 2 BmcConfig.Fits s ∧
    (s.threads 0).phase = .solving ∧ (s.threads 1).phase = .solving ∧ (s.threads 0).bmc.bmc_frame_k = 2 ∧
    ∀ t, ((Sample.pulsePool.config 2 0).solve_one_frame Sample.solver t false (s.threads 0).bmc).1 = 10 := by
  obtain ⟨h0, h1, hk⟩ : ((Sample.pulsePoolAt 4).threads 0).phase = .solving ∧
      ((Sample.pulsePoolAt 4).threads 1).phase = .solving ∧
      ((Sample.pulsePoolAt 4).threads 0).bmc.bmc_frame_k = 2 := by decide +kernel
  have hreach := Sample.pulsePoolAt_reach (n := 4) le_rfl
  refine ⟨_, hreach, h0, h1, hk, ?_⟩
  exact ((threads_partitioned Sample.pulsePool (fun _ => Sample.solver) 2 le_rfl).found _ hreach 2
    Sample.pulse_least (by decide)).2.2.2 h0 hk

/-- With the wide circuit, the thread that should find the counterexample runs out of range. -/
theorem threads_overflow :
    ¬ Sample.widePool.Partitioned (fun _ => Sample.solver) 2 fun _ _ => True := by
  intro h
  have hreach : Reach Sample.widePool (fun _ => Sample.solver) 2 (fun _ _ => True) _ :=
    reach_start trivial
  have hstep := poolStep_start Sample.widePool (fun _ => Sample.solver) (by decide)
  have hwide : tempvalueSize < (Sample.widePool.config 2 1).circuit.num_latches :=
    Sample.wide_latches (by omega)
  rw [unfold_wide _ hwide] at hstep
  exact (h.found _ hreach 1 (Sample.zeros_least 1000001 0) (by decide)).1 hstep.1

end ModelChecker
