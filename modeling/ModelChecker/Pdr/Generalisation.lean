import ModelChecker.Pdr.Assertion

/-!
# Generalisation

`generalize` minimises the cube in `tmp_core`, and inside of it `mic` minimises `core` in place. The
result is part of the cube and still inductive relative to the level, however the solvers answer and
whatever lemmas are learned on the way.
-/

namespace ModelChecker

open Logic

variable {A : Circuit} {n k : Nat} {r : Run} {env : PdrEnv}

/-- Where runs of `check` generalise: between two rounds, of the main loop or of `rec_block_cube`, and at
the call in `blockObligation`. -/
inductive Between (env : PdrEnv) (A : Circuit) : Run → Prop
  | head {r : Run} (h : AtHead env A r) : Between env A r
  | round {s : Nat} {r0 r : Run} (hc : CtiAt env A s r0) (hr : Rounds env r0 r) : Between env A r
  | block {s : Nat} {r0 r r1 r2 : Run} {o : Obligation} {rest : List Obligation} (hc : CtiAt env A s r0)
      (hr : Rounds env r0 r) (hq : r.pdr.obligation_queue = o :: rest)
      (hi : is_inductive env o.frame_k (r.pdr.state o.state).latches true r.tick = (.ok true, r1))
      (he : eraseObligation (r1.block (r1.pdr.state o.state).latches) = (.ok (), r2)) :
      Between env A (r2.setP { r2.pdr with tmp_core := r2.pdr.core })

theorem Between.inv (h : Between env A r) :
    2 ≤ r.pdr.frames.length ∧ ∃ n, Inv A env.minisat n r := by
  cases h with
  | head h =>
      have := h.loopInv.len
      exact ⟨by omega, h.loopInv.inv⟩
  | round hc hr =>
      obtain ⟨_, hsearch, _⟩ := hc.searching
      obtain ⟨⟨n, _, hn⟩, _⟩ := hsearch.rounds hr
      have := hn.len
      exact ⟨by omega, n, hn.inv⟩
  | @block _ _ r r1 r2 o _ hc hr hq hi he =>
      obtain ⟨_, hsearch, _⟩ := hc.searching
      obtain ⟨⟨n, _, hn⟩, _⟩ := hsearch.rounds hr
      have ho : o ∈ r.pdr.obligation_queue := by rw [hq]; exact List.mem_cons_self
      obtain ⟨hlook, hI1, _⟩ := hn.is_inductive_run ho hi
      have hI := hI1.block (o := o) (by rw [hlook.queue]; exact ho)
      obtain ⟨hI2, hkeep, _⟩ := (eraseObligation_spec hI).run_ok he
      have hlen : r2.pdr.frames.length = r.pdr.frames.length := hkeep.len.trans hlook.len
      have := hn.len
      exact ⟨by rw [setP_pdr, hlen]; omega, n, (hI2.setTmpCore hI2.shape.core).1⟩

/-- A call of `generalize` that starts with a cube it may learn returns. -/
theorem generalize_returns (hc : Consistent A env.minisat) (hI : Inv A env.minisat n r)
    (hk : k < r.pdr.frames.length) (hl : Learnable A r k r.pdr.tmp_core) :
    ∃ N, ∀ fuel, N ≤ fuel → ∃ r', generalize env fuel k r = (.ok (), r') := by
  have hhalts : Exec.Halts .fuel (fun n => generalize env n k) r := halts_generalize k r
  obtain ⟨N, hN, hst⟩ := hhalts.stable (chain_mic env .tmp_core k 1)
  refine ⟨N, fun fuel hfuel => ?_⟩
  have hstops := (asserts_mic hc fuel).1 (v := .tmp_core) ⟨hI, hk, le_rfl, (by rintro ⟨⟩), hl⟩
  rcases hrun : generalize env fuel k r with ⟨e | u, r'⟩
  · have he : e = .fuel := hstops e (by rw [show mic env fuel .tmp_core k 1 r = _ from hrun])
    refine absurd ?_ hN
    rw [← hst fuel hfuel, hrun, he]
  · exact ⟨r', rfl⟩

/-- Generalisation on circuits whose frame solvers describe them. Wherever a run generalises the invariant
holds; and from any state with the invariant, for every level and every cube without an initial state
that is inductive relative to the level, `generalize` returns and leaves a part of the cube with the same
properties, with respect to the frames as they are then. -/
theorem generalize_law (A : Circuit) (env : PdrEnv) (hc : Consistent A env.minisat) :
    (∀ r, Between env A r → 2 ≤ r.pdr.frames.length ∧ ∃ n, Inv A env.minisat n r) ∧
    ∀ (n : Nat) (r : Run), Inv A env.minisat n r → ∀ (k : Nat) (c : Cube), k < r.pdr.frames.length →
      A.LatchCube c → ¬ Ic3.MeetsInit A.system InCube c →
      Ic3.RelInd A.system InCube r.pdr.cubes k c →
      ∃ N, ∀ fuel, N ≤ fuel →
        ∃ r', generalize env fuel k (r.setP { r.pdr with tmp_core := c }) = (.ok (), r') ∧
          r'.pdr.tmp_core ⊆ c ∧ ¬ Ic3.MeetsInit A.system InCube r'.pdr.tmp_core ∧
          Ic3.RelInd A.system InCube r'.pdr.cubes k r'.pdr.tmp_core := by
  refine ⟨fun r hr => hr.inv, fun n r hI k c hk hcube hinit hrel => ?_⟩
  obtain ⟨hI1, hev1⟩ := hI.setTmpCore hcube
  have hk1 : k < (r.setP { r.pdr with tmp_core := c }).pdr.frames.length := by
    rw [hev1.len]
    exact hk
  have hl : Learnable A (r.setP { r.pdr with tmp_core := c }) k c :=
    ⟨hcube, hrel, fun hm => absurd hm hinit⟩
  obtain ⟨N, hN⟩ := generalize_returns hc hI1 hk1 hl
  refine ⟨N, fun fuel hfuel => ?_⟩
  obtain ⟨r', hrun⟩ := hN fuel hfuel
  obtain ⟨_, _, hl', hsub, hini⟩ := (generalize_spec hI1 hk1 hl fuel).run_ok hrun
  exact ⟨r', hrun, hsub, fun hm => hinit (hini hm), hl'.relInd⟩

/-- The cube of the two latches of `stuck` that says that they differ, at the head of the main loop. -/
theorem generalize_law_stuck : ∃ N, ∀ fuel, N ≤ fuel → ∃ r', generalize
    (Sample.envOf Sample.stuckAnswers) fuel 1 (Sample.stuckHead.2.setP
      { Sample.stuckHead.2.pdr with tmp_core := [2, -3] }) = (.ok (), r') ∧ r'.pdr.tmp_core ⊆ [2, -3] := by
  have h1 : Sample.stuckHead.1 = .ok true := by decide +kernel
  have hlen : Sample.stuckHead.2.pdr.frames.length = 3 := by decide +kernel
  have hc : Consistent Sample.stuck (Sample.envOf Sample.stuckAnswers).minisat := by
    refine .inl ⟨fun _ => false, by rintro l ⟨⟩, ?_⟩
    show ¬ Sample.stuck.val (fun _ => false) 3 = true
    decide
  have hcube : Sample.stuck.LatchCube [2, -3] := by unfold Circuit.LatchCube; decide
  have hinit : ¬ Ic3.MeetsInit Sample.stuck.system InCube [2, -3] := by
    rintro ⟨w, hinit, _, hw⟩
    have h2 : litVal w (-2) = true := hinit (-2) (by decide)
    have h2' : litVal w 2 = true := hw 2 (by decide)
    simp_all [litVal]
  have hrel : Ic3.RelInd Sample.stuck.system InCube Sample.stuckHead.2.pdr.cubes 1 [2, -3] := by
    intro w w' _ hnot hst hw
    have h2 : w' 2 = w 2 := hst.next 0 (by decide)
    have h3 : w' 3 = w 2 := hst.next 1 (by decide)
    have hw2 : litVal w' 2 = true := hw 2 (by decide)
    have hw3 : litVal w' (-3) = true := hw (-3) (by decide)
    simp_all [litVal]
  obtain ⟨hinv, hlaw⟩ := generalize_law Sample.stuck (Sample.envOf Sample.stuckAnswers) hc
  obtain ⟨_, n, hI⟩ := hinv Sample.stuckHead.2 (.head (.enter (Prod.ext h1 rfl)))
  obtain ⟨N, hN⟩ := hlaw n _ hI 1 [2, -3] (by omega) hcube hinit hrel
  refine ⟨N, fun fuel hfuel => ?_⟩
  obtain ⟨r', hrun, hsub, _⟩ := hN fuel hfuel
  exact ⟨r', hrun, hsub⟩

namespace Sample

/-- At time 5 the second latch alone has a predecessor in the frame solver, and at time 7 the lift query
has a model. -/
def clashCubeAnswers : Nat → Answer
  | 0 => .unsat [4]
  | 1 => .unsat [10]
  | 3 => .unsat [5]
  | 5 => model [2, 6, 7, 8, 10, 11, 12, 13, 14]
  | _ => model [2, 7, 8, 10, 11, 13, 14]

noncomputable def clashHead : Except Stop Bool × Run :=
  prologue (storeEnv clashCubeAnswers) { pdr := { circuit := clash.toAiger } }

noncomputable def clashGeneralized : Except Stop Unit × Run :=
  generalize (storeEnv clashCubeAnswers) 10 1 (clashHead.2.setP { clashHead.2.pdr with tmp_core := [-4, 5] })

theorem clashGeneralized_stop : clashGeneralized.1 = .error .assertion := by decide +kernel

theorem clash_not_cons (w : Assignment) : ¬ clash.system.Cons w := by
  intro h
  have h6 : clash.val w 6 = true := h 6 (by decide)
  have h7 : clash.val w 7 = true := h 7 (by decide)
  have e6 : clash.val w 6 = (w 3 && w 2) := rfl
  have e7 : clash.val w 7 = (!w 3 && w 2) := rfl
  rw [e6] at h6
  rw [e7] at h7
  cases h3 : w 3 <;> simp_all

end Sample

/-- No point satisfies the constraints of `clash`, so the cube that says that the first latch is false
and the second true is inductive; but dropping its first literal makes the assertion fail. -/
theorem generalize_asserts_clash : AtHead (Sample.storeEnv Sample.clashCubeAnswers) Sample.clash
      Sample.clashHead.2 ∧ 1 ≤ Sample.clashHead.2.pdr.depth ∧ Sample.clash.LatchCube [-4, 5] ∧
    ¬ Ic3.MeetsInit Sample.clash.system InCube [-4, 5] ∧
    Ic3.RelInd Sample.clash.system InCube Sample.clashHead.2.pdr.cubes 1 [-4, 5] ∧
    Sample.clashGeneralized.1 = .error .assertion := by
  have h1 : Sample.clashHead.1 = .ok true := by decide +kernel
  have hlen : Sample.clashHead.2.pdr.frames.length = 3 := by decide +kernel
  have hrun : Sample.clashHead = (.ok true, Sample.clashHead.2) := by rw [← h1]
  have hdepth : 1 ≤ Sample.clashHead.2.pdr.depth := by
    unfold PDR.depth
    rw [hlen]
  refine ⟨.enter hrun, hdepth, by unfold Circuit.LatchCube; decide, ?_, ?_,
    Sample.clashGeneralized_stop⟩
  · rintro ⟨w, _, hcons, _⟩
    exact Sample.clash_not_cons w hcons
  · intro w w' _ _ hst
    exact absurd hst.cons (Sample.clash_not_cons w)

end ModelChecker
