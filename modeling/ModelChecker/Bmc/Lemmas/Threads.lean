import ModelChecker.Bmc.Lemmas.Frames

/-!
# Threads

What a thread may rely on at each point of `check`, and what all threads of a run keep.
-/

namespace ModelChecker

open Logic

variable {B : BmcConfig} {k : Nat}

/-! ## One thread -/

/-- The shortest counterexample has `k` steps. -/
def BmcConfig.Least (B : BmcConfig) (k : Nat) : Prop := B.HasCex k ∧ ∀ j, j < k → ¬ B.HasCex j

theorem BmcConfig.Least.first (h : B.Least k) : B.First k :=
  h.1.first_or.resolve_right fun ⟨j, hj, hc⟩ => h.2 j hj hc

/-- In none of the frames up to `k` that this thread solves the property is violated for the first time. -/
def BmcConfig.Passed (B : BmcConfig) (k : Nat) : Prop := ∀ j, j ≤ k → B.Owns j → ¬ B.First j

/-- The thread solves a frame in which it is. -/
def BmcConfig.Finds (B : BmcConfig) : Prop := ∃ k, k ≤ B.nframes ∧ B.Owns k ∧ B.First k

theorem BmcConfig.Passed.not_finds (h : B.Passed B.nframes) : ¬ B.Finds := by
  rintro ⟨k, hk, ho, hf⟩
  exact h k hk ho hf

theorem BmcConfig.Passed.mono {j : Nat} (h : B.Passed k) (hj : j ≤ k) : B.Passed j :=
  fun i hi => h i (hi.trans hj)

/-- The thread has unfolded frame `k + 1` and not solved it yet. -/
structure Solving (B : BmcConfig) (k : Nat) (s : BMC) : Prop where
  from_ready : ∃ (s0 : BMC) (u : Unfolding), s = { s0 with toUnfolding := u } ∧ Ready B k s0 ∧
    Unrolled B (k + 1) u ∧ Stepped B.circuit s0.toUnfolding u
  frame : s.bmc_frame_k = k + 1
  bound : k + 1 ≤ B.nframes
  small : s.uaiger.nodes.length ≤ 2 ^ 31

/-- What holds in each phase. -/
def ThreadOk (B : BmcConfig) (RESULT : Int) (x : Thread) : Prop :=
  match x.phase with
  | .head => ∃ k, x.bmc.bmc_frame_k = k + 1 ∧ Ready B k x.bmc ∧ B.Passed k
  | .solving => ∃ k, Solving B k x.bmc ∧ B.Passed k
  | .found => B.Finds
  | .returned r => (r = 10 ∧ B.Finds) ∨ (r = 0 ∧ (RESULT ≠ 0 ∨ B.Passed B.nframes))
  | .undefined => BmcConfig.maxFrame ≤ B.nframes ∧ B.Passed BmcConfig.maxFrame

theorem Solving.outcome {s : BMC} (h : Solving B k s) (S : Ipasir) (t : Nat) (terminated : Bool) :
    Outcome B k terminated (B.solve_one_frame S t terminated s) := by
  obtain ⟨s0, u, rfl, hr, hu, hst⟩ := h.from_ready
  exact hr.solve h.frame hu hst S t terminated

theorem ThreadOk.start (B : BmcConfig) : ThreadOk B 0 B.startThread := by
  have h := ready_start B
  refine ⟨0, rfl, ⟨h.unrolled, h.holds.closed, h.holds.covered, h.holds.clause, h.holds.assumptions,
    h.holds.clauses⟩, fun j hj _ hl => ?_⟩
  have := hl.1
  omega

theorem ThreadOk.mono {R R' : Int} {x : Thread} (h : ThreadOk B R x) (hR : R ≠ 0 → R' ≠ 0) :
    ThreadOk B R' x := by
  unfold ThreadOk at *
  cases hx : x.phase with
  | head => rw [hx] at h; exact h
  | solving => rw [hx] at h; exact h
  | found => rw [hx] at h; exact h
  | returned r =>
      rw [hx] at h
      exact h.imp id fun h0 => ⟨h0.1, h0.2.imp hR id⟩
  | undefined => rw [hx] at h; exact h

theorem Outcome.passed {terminated : Bool} {r : Int × BMC} (h : Outcome B k terminated r)
    (hp : B.Passed k) (hr : r.1 = 20) : B.Passed (k + 1) := by
  intro j hj ho hl
  rcases Nat.lt_or_ge k j with hlt | hle
  · have hj' : j = k + 1 := by omega
    subst hj'
    exact h.none hr ho hl
  · exact hp j hle ho hl

theorem natAbs_getLast_le {U : UnfoldAiger} (h : U.LitIn (U.outputs.getLastD 0))
    (hs : U.nodes.length ≤ 2 ^ 31) : (U.outputs.getLastD 0).natAbs ≤ BmcConfig.maxNodes := by
  have := h.2
  unfold BmcConfig.maxNodes
  omega

theorem insertGates_unfolding (gs : List (AndGate × Nat)) (L : List Nat) (s : BMC) :
    (BMC.insertGates gs L s).toUnfolding = s.toUnfolding := by
  induction gs generalizing L s with
  | nil => rfl
  | cons g gs ih =>
      unfold BMC.insertGates
      split
      · exact ih L s
      · exact ih _ _

/-- The growth loop of `solve_one_frame`. -/
def BmcConfig.growTable (B : BmcConfig) (u : Unfolding) : Unfolding :=
  { u with uaiger := { u.uaiger with
      hash_size := max u.uaiger.hash_size (u.uaiger.nodes.length + B.circuit.num_ands * 3) } }

theorem addFrame_unfolding (s : BMC) : (B.addFrame s).toUnfolding = B.growTable s.toUnfolding :=
  insertGates_unfolding _ _ _

/-- `solve_one_frame` changes nothing but the size of the hash table. -/
theorem solve_unfolding (B : BmcConfig) (S : Ipasir) (t : Nat) (terminated : Bool) (s : BMC) :
    (B.solve_one_frame S t terminated s).2.toUnfolding = B.growTable s.toUnfolding := by
  rw [← addFrame_unfolding]
  unfold BmcConfig.solve_one_frame
  simp only
  split
  · rfl
  · split
    · rfl
    · split <;> rfl

/-- One step of a thread keeps what holds in its phase; it changes `RESULT` only when it returns 10. -/
theorem ThreadOk.step {R : Int} {x : Thread} (h : ThreadOk B R x) (S : Ipasir) (t : Nat)
    {terminated : Bool} (hterm : terminated = true → R ≠ 0)
    (hfit : x.phase = .head → x.bmc.bmc_frame_k ≤ B.nframes → R = 0 → B.Fits x.bmc.toUnfolding) :
    ThreadOk B (B.threadStep S t terminated R x).2 (B.threadStep S t terminated R x).1 ∧
      ((B.threadStep S t terminated R x).2 = R ∨
        R = 0 ∧ (B.threadStep S t terminated R x).2 = 10 ∧
          (B.threadStep S t terminated R x).1.phase = .returned 10) ∧
      (x.phase = .returned 10 → (B.threadStep S t terminated R x).1.phase = .returned 10) := by
  obtain ⟨phase, s⟩ := x
  cases phase with
  | head =>
      obtain ⟨k, hk, hr, hp⟩ := h
      simp only at hk hr hfit
      simp only [BmcConfig.threadStep]
      by_cases hn : B.nframes < s.bmc_frame_k
      · rw [if_pos hn]
        refine ⟨Or.inr ⟨rfl, Or.inr fun j hj => hp j (by omega)⟩, Or.inl rfl, ?_⟩
        rintro ⟨⟩
      rw [if_neg hn]
      by_cases hR : R ≠ 0
      · rw [if_pos hR]
        refine ⟨Or.inr ⟨rfl, Or.inl hR⟩, Or.inl rfl, ?_⟩
        rintro ⟨⟩
      rw [if_neg hR]
      have hf := hfit trivial (by omega) (not_not.mp hR)
      obtain ⟨u, hu, hun, hst⟩ := hr.unrolled.unfold hf
      rw [hu]
      refine ⟨⟨k, ⟨⟨s, u, rfl, hr, hun, hst⟩, hk, by omega, ?_⟩, hp⟩, Or.inl rfl, ?_⟩
      · show u.uaiger.nodes.length ≤ 2 ^ 31
        have := hst.nodes
        have := hf.2.2
        omega
      · rintro ⟨⟩
  | solving =>
      obtain ⟨k, hs, hp⟩ := h
      have ho := hs.outcome S t terminated
      have hnodes : (B.solve_one_frame S t terminated s).2.uaiger.nodes = s.uaiger.nodes := by
        rw [solve_unfolding]
        rfl
      simp only at hs hnodes
      simp only [BmcConfig.threadStep]
      generalize B.solve_one_frame S t terminated s = r at ho hnodes
      refine ⟨?_, ?_, by rintro ⟨⟩⟩
      · rcases ho.cases with hr | hr | ⟨hr, ht⟩
        · rw [if_pos hr]
          exact ⟨k + 1, hs.bound, ho.cex hr⟩
        · have hpassed := ho.passed hp hr
          have hbound := hs.bound
          rw [if_neg (by omega), if_neg]
          · split_ifs with hmax
            · rw [ho.rest.1] at hmax
              exact ⟨by omega, hpassed.mono hmax⟩
            · exact ⟨k + 1, by show _ + 1 = _; rw [ho.rest.1], ho.next hr _, hpassed⟩
          · have := natAbs_getLast_le ho.rest.2 (by rw [hnodes]; exact hs.small)
            omega
        · rw [if_neg (by omega), if_pos (Or.inl hr)]
          exact Or.inr ⟨rfl, Or.inl (hterm ht)⟩
      · split_ifs <;> exact Or.inl rfl
  | found =>
      obtain ⟨k, hk, hc⟩ := h
      simp only [BmcConfig.threadStep]
      refine ⟨Or.inl ⟨rfl, k, hk, hc⟩, ?_, fun _ => trivial⟩
      by_cases hR : R = 0
      · rw [if_pos hR]; exact Or.inr ⟨hR, rfl, trivial⟩
      · rw [if_neg hR]; exact Or.inl rfl
  | returned r => exact ⟨h, Or.inl rfl, id⟩
  | undefined => exact ⟨h, Or.inl rfl, id⟩

/-- The next step of the thread has room in the arrays of `unfold`, and the frame counter is not at its
largest value. -/
def BmcConfig.Room (B : BmcConfig) (RESULT : Int) (x : Thread) : Prop :=
  (x.phase = .head → x.bmc.bmc_frame_k ≤ B.nframes → RESULT = 0 → B.Fits x.bmc.toUnfolding) ∧
    (x.phase = .solving → x.bmc.bmc_frame_k < BmcConfig.maxFrame)

instance (R : Int) (x : Thread) : Decidable (B.Room R x) := inferInstanceAs (Decidable (_ ∧ _))

/-- With room, every step is defined. -/
theorem ThreadOk.defined {R : Int} {x : Thread} (h : ThreadOk B R x) (hroom : B.Room R x)
    (hx : x.phase ≠ .undefined) (S : Ipasir) (t : Nat) (terminated : Bool) :
    (B.threadStep S t terminated R x).1.phase ≠ .undefined := by
  obtain ⟨phase, s⟩ := x
  cases phase with
  | head =>
      obtain ⟨k, hk, hr, _⟩ := h
      simp only [BmcConfig.threadStep]
      by_cases hn : B.nframes < s.bmc_frame_k
      · rw [if_pos hn]
        exact Phase.noConfusion
      rw [if_neg hn]
      by_cases hR : R ≠ 0
      · rw [if_pos hR]
        exact Phase.noConfusion
      rw [if_neg hR]
      obtain ⟨u, hu, _⟩ := hr.unrolled.unfold (hroom.1 rfl (not_lt.mp hn) (not_not.mp hR))
      simp only at hu
      rw [hu]
      exact Phase.noConfusion
  | solving =>
      obtain ⟨k, hs, _⟩ := h
      have hframe := (hs.outcome S t terminated).rest.1
      have hmax := hroom.2 rfl
      have hk := hs.frame
      simp only at hframe hmax hk
      simp only [BmcConfig.threadStep]
      split_ifs with _ _ hle
      · exact Phase.noConfusion
      · exact Phase.noConfusion
      · omega
      · exact Phase.noConfusion
  | found => exact Phase.noConfusion
  | returned r => exact hx
  | undefined => exact absurd rfl hx

/-! ## All threads -/

variable {P : Portfolio} {S : Nat → Ipasir} {m : Nat}

/-- The pools reached by any interleaving; `ok` restricts the calls of `unfold`. -/
inductive Reach (P : Portfolio) (S : Nat → Ipasir) (m : Nat) (ok : BmcConfig → Unfolding → Prop) :
    Pool → Prop
  | start : Reach P S m ok (P.startPool m)
  | step {s : Pool} {i t : Nat} {terminated : Bool} (h : Reach P S m ok s) (hi : i < m)
      (hterm : terminated = true → s.RESULT ≠ 0)
      (hok : (s.threads i).phase = .head → (s.threads i).bmc.bmc_frame_k ≤ P.nframes → s.RESULT = 0 →
        ok (P.config m i) (s.threads i).bmc.toUnfolding) :
      Reach P S m ok (P.poolStep S m i t terminated s)

structure PoolOk (P : Portfolio) (m : Nat) (s : Pool) : Prop where
  threads : ∀ i, i < m → ThreadOk (P.config m i) s.RESULT (s.threads i)
  result : s.RESULT ≠ 0 → s.RESULT = 10 ∧ ∃ i, i < m ∧ (s.threads i).phase = .returned 10

theorem Reach.poolOk {s : Pool} (h : Reach P S m BmcConfig.Fits s) : PoolOk P m s := by
  induction h with
  | start => exact ⟨fun i _ => ThreadOk.start _, fun h => absurd rfl h⟩
  | @step s i t terminated _ hi hterm hok ih =>
      obtain ⟨h1, h2, h3⟩ := (ih.threads i hi).step (S i) t hterm hok
      have hself : (P.poolStep S m i t terminated s).threads i =
          ((P.config m i).threadStep (S i) t terminated s.RESULT (s.threads i)).1 :=
        Function.update_self _ _ _
      have hother : ∀ j, j ≠ i → (P.poolStep S m i t terminated s).threads j = s.threads j :=
        fun j hj => Function.update_of_ne hj _ _
      have hres : (P.poolStep S m i t terminated s).RESULT =
          ((P.config m i).threadStep (S i) t terminated s.RESULT (s.threads i)).2 := rfl
      refine ⟨fun j hj => ?_, fun hR => ?_⟩
      · by_cases he : j = i
        · rw [he, hself, hres]; exact h1
        · rw [hother j he]
          refine (ih.threads j hj).mono fun hR => ?_
          rw [hres]
          rcases h2 with h2 | ⟨h0, _⟩
          · rw [h2]; exact hR
          · exact absurd h0 hR
      · rcases h2 with h2 | ⟨_, h10, hph⟩
        · rw [hres, h2] at hR ⊢
          obtain ⟨h10, j, hj, hph⟩ := ih.result hR
          refine ⟨h10, j, hj, ?_⟩
          by_cases he : j = i
          · rw [he, hself]; exact h3 (he ▸ hph)
          · rw [hother j he]; exact hph
        · exact ⟨hres.trans h10, i, hi, by rw [hself]; exact hph⟩

/-- Thread `i` solves the frames whose number is `i` modulo the number of threads. -/
theorem owns_iff {i : Nat} (hi : i < m) : (P.config m i).Owns k ↔ k % m = i := by
  show ¬ (m ≠ 1 ∧ k % m ≠ i) ↔ _
  constructor
  · intro h
    by_contra hne
    refine h ⟨fun h1 => hne ?_, hne⟩
    subst h1
    omega
  · exact fun h hn => hn.2 h

/-- At the end some thread has returned 10 iff there is a counterexample within the bound. -/
theorem PoolOk.final {s : Pool} (h : PoolOk P m s) (hm : 0 < m)
    (hfin : ∀ i, i < m → ∃ r, (s.threads i).phase = .returned r) :
    (∃ i, i < m ∧ (s.threads i).phase = .returned 10) ↔
      ∃ k, k ≤ P.nframes ∧ (P.config m 0).HasCex k := by
  constructor
  · rintro ⟨i, hi, hph⟩
    have hok := h.threads i hi
    unfold ThreadOk at hok
    rw [hph] at hok
    rcases hok with ⟨_, hk⟩ | ⟨h0, _⟩
    · obtain ⟨k, hk, _, hf⟩ := hk
      exact ⟨k, hk, hf.hasCex⟩
    · cases h0
  · rintro ⟨k, hk, hc⟩
    -- the owner of the least counterexample cannot have passed its frame
    classical
    have hex : ∃ k, (P.config m 0).HasCex k := ⟨k, hc⟩
    have hle : Nat.find hex ≤ P.nframes := (Nat.find_le hc).trans hk
    have hi : Nat.find hex % m < m := Nat.mod_lt _ hm
    obtain ⟨r, hph⟩ := hfin _ hi
    have hok := h.threads _ hi
    unfold ThreadOk at hok
    rw [hph] at hok
    rcases hok with ⟨h10, _⟩ | ⟨_, hR | hp⟩
    · exact ⟨_, hi, by rw [hph, h10]⟩
    · exact (h.result hR).2
    · have hleast : (P.config m 0).Least (Nat.find hex) :=
        ⟨Nat.find_spec hex, fun j hj => Nat.find_min hex hj⟩
      exact absurd hleast.first (hp _ hle ((owns_iff hi).mpr rfl))

end ModelChecker
