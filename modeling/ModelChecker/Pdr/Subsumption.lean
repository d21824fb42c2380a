import ModelChecker.Pdr.Lemmas.Tidy
import ModelChecker.Pdr.Theorems

/-!
# Blocking lemmas

The searches for a cube that blocks a state: `pushpo` in `rec_block_cube` and `cpo` in
`extract_state_from_sat`. The order of the cubes lets them stop early without missing one, but literals
are compared by `abs_compare`: a cube with other signs is taken for a match.
-/

namespace ModelChecker

open Logic

variable {la c : Cube} {cubes : List Cube}

/-! ## `includes` -/

/-- Some cube is a subset of the latches. -/
def Blocked (la : Cube) (cubes : List Cube) : Prop := ∃ c ∈ cubes, c ⊆ la

/-- Some cube is a subset of the latches when signs are left out. -/
def BlockedUnsigned (la : Cube) (cubes : List Cube) : Prop := ∃ c ∈ cubes, ∀ l ∈ c, l ∈ la ∨ -l ∈ la

theorem Blocked.unsigned (h : Blocked la cubes) : BlockedUnsigned la cubes := by
  obtain ⟨c, hc, hsub⟩ := h
  exact ⟨c, hc, fun l hl => .inl (hsub hl)⟩

theorem mem_or_neg_mem {l : Int} : l ∈ la ∨ -l ∈ la ↔ ∃ a ∈ la, a.natAbs = l.natAbs := by
  constructor
  · rintro (h | h)
    · exact ⟨l, h, rfl⟩
    · exact ⟨-l, h, Int.natAbs_neg l⟩
  · rintro ⟨a, ha, hal⟩
    rcases Int.natAbs_eq_natAbs_iff.mp hal with rfl | rfl
    · exact .inl ha
    · exact .inr ha

/-- On sorted ranges `includes` compares the variables. -/
theorem includes_iff (hla : Ordered la) (hc : Ordered c) :
    includes abs_compare la c = true ↔ ∀ l ∈ c, ∃ a ∈ la, a.natAbs = l.natAbs := by
  induction la generalizing c with
  | nil =>
      cases c with
      | nil => simp [includes]
      | cons b bs =>
          refine iff_of_false (by simp [includes]) fun h => ?_
          obtain ⟨x, hx, _⟩ := h b List.mem_cons_self
          cases hx
  | cons a as ih =>
      obtain ⟨ha, has⟩ := List.pairwise_cons.mp hla
      cases c with
      | nil => simp [includes]
      | cons b bs =>
          obtain ⟨hb, hbs⟩ := List.pairwise_cons.mp hc
          simp only [includes, abs_compare, decide_eq_true_eq]
          split
          next hlt =>
            -- the smallest variable of the cube is missing
            simp only [Bool.false_eq_true, false_iff]
            intro h
            obtain ⟨x, hx, hxb⟩ := h b List.mem_cons_self
            cases hx with
            | head => omega
            | tail _ hx => have := ha x hx; omega
          next hnlt =>
            split
            next hlt =>
              rw [ih has hc]
              refine forall₂_congr fun l hl => ?_
              have hle : b.natAbs ≤ l.natAbs := by
                cases hl with
                | head => exact le_rfl
                | tail _ hl => exact (hb l hl).le
              simp only [List.mem_cons, exists_eq_or_imp]
              constructor
              · exact .inr
              · rintro (h | h)
                · omega
                · exact h
            next hge =>
              have hab : a.natAbs = b.natAbs := by omega
              rw [ih has hbs, List.forall_mem_cons]
              simp only [List.mem_cons, exists_eq_or_imp, hab, true_or, true_and]
              refine forall₂_congr fun l hl => ?_
              have := hb l hl
              constructor
              · exact .inr
              · rintro (h | h)
                · omega
                · exact h

theorem length_le_of_unsigned (hc : Ordered c) (h : ∀ l ∈ c, ∃ a ∈ la, a.natAbs = l.natAbs) :
    c.length ≤ la.length := by
  have hnd : (c.map Int.natAbs).Nodup := List.pairwise_map.mpr hc.distinct
  have hsub : c.map Int.natAbs ⊆ la.map Int.natAbs := by
    intro v hv
    obtain ⟨l, hl, rfl⟩ := List.mem_map.mp hv
    obtain ⟨a, ha, hal⟩ := h l hl
    exact List.mem_map.mpr ⟨a, ha, hal⟩
  have hle := (List.subperm_of_subset hnd hsub).length_le
  simpa using hle

/-- The search finds a match up to signs; smaller cubes stand first, so none is skipped. -/
theorem blockedBy_iff (hla : Ordered la) (hcs : ∀ c ∈ cubes, Ordered c)
    (hs : cubes.Pairwise fun c d => c.length ≤ d.length) :
    blockedBy la cubes = true ↔ BlockedUnsigned la cubes := by
  unfold BlockedUnsigned
  simp only [mem_or_neg_mem]
  induction cubes with
  | nil => simp [blockedBy]
  | cons c cs ih =>
      obtain ⟨hc, hcs⟩ := List.forall_mem_cons.mp hcs
      obtain ⟨hmin, hs⟩ := List.pairwise_cons.mp hs
      have hincl := includes_iff hla hc
      simp only [blockedBy, List.mem_cons, exists_eq_or_imp]
      split
      next hlt =>
        simp only [Bool.false_eq_true, false_iff]
        rintro (h | ⟨d, hd, h⟩)
        · have := length_le_of_unsigned hc h
          omega
        · have := length_le_of_unsigned (hcs d hd) h
          have := hmin d hd
          omega
      next =>
        split
        next hin => exact iff_of_true rfl (.inl (hincl.mp hin))
        next hin =>
          rw [ih hcs hs]
          constructor
          · exact .inr
          · rintro (h | h)
            · exact absurd (hincl.mpr h) hin
            · exact h

/-! ## The flags -/

variable {A : Circuit} {env : PdrEnv} {fuel : Nat} {p : PDR} {r r' : Run}

theorem flag_right_iff {flag : Prop} (h : flag ↔ BlockedUnsigned la cubes) :
    (flag ↔ Blocked la cubes) ↔ (BlockedUnsigned la cubes → Blocked la cubes) := by
  rw [h]
  exact ⟨fun hiff => hiff.mp, fun himp => ⟨himp, Blocked.unsigned⟩⟩

theorem pushObligation_ok (o : Obligation) (k : Nat) (r : Run) : (pushObligation env o k r).1 =
    .ok (blockedBy (r.pdr.state o.state).latches (r.pdr.frame k).cubes || !env.use_pr) := rfl

theorem askLift_frames (k : Nat) (succ : Option Nat) :
    (askLift env k succ).Wp (fun a r' => Ordered a.2.latches ∧ r'.pdr.frames = r.pdr.frames ∧
      r'.pdr.states = r.pdr.states ∧ r'.pdr.nkCore = r.pdr.nkCore) (fun _ => True) r := by
  have hfill : ∀ p : PDR, (p.fillSatelite2 env.minisat).frames = p.frames ∧
      (p.fillSatelite2 env.minisat).states = p.states ∧ (p.fillSatelite2 env.minisat).nkCore = p.nkCore := by
    intro p
    unfold PDR.fillSatelite2
    split <;> exact ⟨rfl, rfl, rfl⟩
  have hload : (loadLift env).Wp (fun _ r' => r'.pdr.frames = r.pdr.frames ∧ r'.pdr.states = r.pdr.states ∧
      r'.pdr.nkCore = r.pdr.nkCore) (fun _ => True) r := by
    unfold loadLift
    rw [Exec.wp_bind, wp_getP]
    cases r.pdr.lift with
    | some l => exact ⟨rfl, rfl, rfl⟩
    | none => exact hfill r.pdr
  unfold askLift
  refine hload.bind fun l r1 h1 => ?_
  simp only [Exec.wp_bind, wp_getP, wp_reorder, wp_ask, Exec.wp_ite, Exec.wp_throw, Exec.wp_pure]
  exact ⟨fun _ => trivial, fun _ => ⟨(modelLits_ordered _ _ _).sublist List.filter_sublist, h1⟩⟩

theorem extract_nkCore {s : Nat} (hs : s < r.pdr.states.length) (j : Nat) (succ : Option Nat) (k : Nat)
    (h : extract_state_from_sat env j s succ (k + 1) r = (.ok (), r')) :
    Ordered (r'.pdr.state s).latches ∧ (r'.pdr.nkCore = r.pdr.nkCore + 1 ↔
      blockedBy (r'.pdr.state s).latches (r.pdr.frame k).cubes = true) := by
  have hwp : (extract_state_from_sat env j s succ (k + 1)).Wp (fun _ r' => Ordered (r'.pdr.state s).latches ∧
      (r'.pdr.nkCore = r.pdr.nkCore + 1 ↔ blockedBy (r'.pdr.state s).latches (r.pdr.frame k).cubes = true))
      (fun _ => True) r := by
    unfold extract_state_from_sat
    refine (askLift_frames j succ).bind fun a r1 h1 => ?_
    obtain ⟨ha, hframes, hstates, hnk⟩ := h1
    simp only [Exec.wp_bind, wp_modifyP, wp_record]
    have hstate : ((r1.pdr.fillState s a.2 succ a.1 (k + 1)).state s).latches = a.2.latches := by
      show ((r1.pdr.setState s _).state s).latches = _
      rw [PDR.state_setState (by rw [hstates]; exact hs), if_pos rfl]
    have hcubes : (r1.pdr.frame k).cubes = (r.pdr.frame k).cubes := by rw [PDR.frame, hframes, PDR.frame]
    have hcore : (r1.pdr.fillState s a.2 succ a.1 (k + 1)).nkCore =
        if blockedBy a.2.latches (r1.pdr.frame k).cubes then r1.pdr.nkCore + 1 else r1.pdr.nkCore := by
      simp [PDR.fillState]
    simp only [record_pdr, setP_pdr, hstate, hcore, ← hcubes, ← hnk]
    refine ⟨ha, ?_⟩
    split <;> simp_all
  exact hwp.run_ok h

/-- Both flags, for any cubes a frame holds during a run and any latches of an obligation or of a lifted
state: they are right iff no cube matches by its variables alone. -/
theorem cpo_right_iff (A : Circuit) (env : PdrEnv) (fuel : Nat) {p : PDR}
    (hp : p ∈ (runCheck env A fuel).2.hist) (k : Nat) (r : Run) (hr : (r.pdr.frame k).cubes = (p.frame k).cubes)
    (env' : PdrEnv) :
    (env'.use_pr = true → ∀ q ∈ (runCheck env A fuel).2.hist, ∀ o ∈ q.obligation_queue,
      (r.pdr.state o.state).latches = (q.state o.state).latches →
      (((pushObligation env' o k r).1 = .ok true ↔ Blocked (q.state o.state).latches (p.frame k).cubes) ↔
        (BlockedUnsigned (q.state o.state).latches (p.frame k).cubes →
          Blocked (q.state o.state).latches (p.frame k).cubes))) ∧
    ∀ j s succ r', s < r.pdr.states.length → extract_state_from_sat env' j s succ (k + 1) r = (.ok (), r') →
      ((r'.pdr.nkCore = r.pdr.nkCore + 1 ↔ Blocked (r'.pdr.state s).latches (p.frame k).cubes) ↔
        (BlockedUnsigned (r'.pdr.state s).latches (p.frame k).cubes →
          Blocked (r'.pdr.state s).latches (p.frame k).cubes)) := by
  obtain ⟨G, ht⟩ := check_tidy A env fuel p hp
  refine ⟨fun huse q hq o ho hla => flag_right_iff ?_, fun j s succ r' hs hrun => flag_right_iff ?_⟩
  · obtain ⟨G', ht'⟩ := check_tidy A env fuel q hq
    rw [pushObligation_ok, hla, hr, huse, Bool.not_true, Bool.or_false, Except.ok.injEq]
    exact blockedBy_iff (ht'.states _ (ht'.queue o ho)).2 (ht.cubes k) (ht.sizes k)
  · obtain ⟨hord, hnk⟩ := extract_nkCore hs j succ k hrun
    rw [hnk, hr]
    exact blockedBy_iff hord (ht.cubes k) (ht.sizes k)

namespace Sample

/-- Each latch sets both; both together are bad. -/
def either : Circuit where
  num_inputs := 0
  num_latches := 2
  num_ands := 2
  ands := [⟨4, -3, -2⟩, ⟨5, 3, 2⟩]
  nexts := [-4, -4]
  init_state := [-2, -3]
  constraints := []
  allbad := [5]
  bad := 5
  default_vals := [0, 0]
  wf := by constructor <;> decide

/-- The cores are not minimal: the state with the first latch is blocked as a whole, then the one with
the second latch comes up. -/
def eitherAnswers : Nat → Answer
  | 0 => .unsat [5]
  | 1 => .unsat [8]
  | 3 => model [2, 6, 7, 8]
  | 5 => .unsat [9, 2, -3]
  | 8 => .unsat [9, 6, -7]
  | 9 => .unsat [2, -3]
  | 11 => model []
  | 12 => .unsat [2]
  | 14 => .unsat [10, 6]
  | 15 => .unsat [2]
  | 17 => model [3, 6, 7, 8, 9]
  | 20 => .unsat [10, 6, -7]
  | 21 => .unsat [2, -3]
  | 23 => model []
  | 24 => .unsat [2]
  | 26 => model [3, 6, 7, 8, 9, 10, 11]
  | 28 => .unsat [10, -2, 3]
  | 30 => model [3, 6, 7, 8, 9, 10, 11]
  | 32 => .unsat [11, -2, 3]
  | 35 => .unsat [11, -6, 7]
  | 36 => .unsat [-2, 3]
  | 38 => .unsat [3]
  | 40 => .unsat [12, 7]
  | 41 => .unsat [3]
  | 42 => model []
  | 44 => .unsat [12, 7]
  | 46 => .unsat [8]
  | 48 => .unsat [13, 6]
  | _ => .unsat [2]

noncomputable def eitherRun : Except Stop Int × Run := runCheck (envOf eitherAnswers) either 10

/-- The point has `cubes` at level `k` and an obligation with the latches `la`. -/
def shows (k : Nat) (cubes : List Cube) (la : Cube) (p : PDR) : Bool :=
  decide ((p.frame k).cubes = cubes) && p.obligation_queue.any fun o => decide ((p.state o.state).latches = la)

theorem eitherRun_eq : eitherRun = runCheck (envOf eitherAnswers) either 10 := rfl

theorem exists_of_shows {k : Nat} {cubes : List Cube} {la : Cube} {hist : List PDR}
    (h : hist.any (shows k cubes la) = true) :
    ∃ p ∈ hist, (p.frame k).cubes = cubes ∧ ∃ o ∈ p.obligation_queue, (p.state o.state).latches = la := by
  obtain ⟨p, hp, hshow⟩ := List.any_eq_true.mp h
  simp only [shows, Bool.and_eq_true, decide_eq_true_eq, List.any_eq_true] at hshow
  exact ⟨p, hp, hshow⟩

/-- The environment of the run, with `use_pr`. -/
noncomputable def prEnv : PdrEnv := { envOf eitherAnswers with use_pr := true }

end Sample

/-- At level 1 the first state is found to be blocked by its first latch. -/
theorem cpo_right_either : ∃ p ∈ Sample.eitherRun.2.hist, (p.frame 1).cubes = [[2]] ∧ ∃ o ∈ p.obligation_queue,
    (p.state o.state).latches = [2, -3] ∧ (pushObligation Sample.prEnv o 1 { pdr := p }).1 = .ok true := by
  have hany : Sample.eitherRun.2.hist.any (Sample.shows 1 [[2]] [2, -3]) = true := by decide +kernel
  obtain ⟨p, hp, hc, o, ho, hla⟩ := Sample.exists_of_shows hany
  rw [Sample.eitherRun_eq] at hp ⊢
  have hright := (cpo_right_iff Sample.either (Sample.envOf Sample.eitherAnswers) 10 hp 1 { pdr := p } rfl
    Sample.prEnv).1 rfl p hp o ho rfl
  have hb : Blocked (p.state o.state).latches (p.frame 1).cubes := by
    rw [hc, hla]
    exact ⟨[2], by simp, by simp⟩
  exact ⟨p, hp, hc, o, ho, hla, (hright.mpr fun _ => hb).mpr hb⟩

/-- At level 2 the second state is taken to be blocked by the cube of the first one. -/
theorem cpo_other_signs : ∃ p ∈ Sample.eitherRun.2.hist, (p.frame 2).cubes = [[2, -3]] ∧ ∃ o ∈ p.obligation_queue,
    (p.state o.state).latches = [-2, 3] ∧ (pushObligation Sample.prEnv o 2 { pdr := p }).1 = .ok true ∧
    ¬ Blocked (p.state o.state).latches (p.frame 2).cubes := by
  have hany : Sample.eitherRun.2.hist.any (Sample.shows 2 [[2, -3]] [-2, 3]) = true := by decide +kernel
  obtain ⟨p, hp, hc, o, ho, hla⟩ := Sample.exists_of_shows hany
  refine ⟨p, hp, hc, o, ho, hla, ?_, ?_⟩
  · rw [pushObligation_ok, hla, hc]
    rfl
  · rw [hc, hla]
    rintro ⟨c, hmem, hsub⟩
    rw [List.mem_singleton.mp hmem] at hsub
    exact absurd (hsub List.mem_cons_self) (by decide)

end ModelChecker
