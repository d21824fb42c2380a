import ModelChecker.Bmc.Witness

/-!
# The cone of influence

`solve_one_frame` adds a gate only if a property or a constraint depends on it, and remembers the gates it
has added. After any number of frames the solver holds the gates of the cone, each of them once, and
nothing else besides the constraints and the properties that were refuted.
-/

namespace ModelChecker

open Logic

/-! ## Cones -/

/-- The nodes that the roots depend on. -/
inductive InCone (ands : List AndGate) (roots : List Nat) : Nat → Prop
  | root {v : Nat} (h : v ∈ roots) : InCone ands roots v
  | fanin1 {a : AndGate} (ha : a ∈ ands) (h : InCone ands roots a.o) : InCone ands roots a.i1.natAbs
  | fanin2 {a : AndGate} (ha : a ∈ ands) (h : InCone ands roots a.o) : InCone ands roots a.i2.natAbs

theorem InCone.mono {ands ands' : List AndGate} {roots roots' : List Nat} {v : Nat} (h : InCone ands roots v)
    (hands : ands ⊆ ands') (hroots : roots ⊆ roots') : InCone ands' roots' v := by
  induction h with
  | root h => exact .root (hroots h)
  | fanin1 ha _ ih => exact .fanin1 (hands ha) ih
  | fanin2 ha _ ih => exact .fanin2 (hands ha) ih

/-- The nodes of the properties and constraints. -/
def UnfoldAiger.roots (U : UnfoldAiger) : List Nat := (U.outputs ++ U.constraints).map Int.natAbs

/-- If the cones of the inserted gates are inserted and the roots are covered, all of the cone is. -/
theorem Closed.covered_of_inCone {U : UnfoldAiger} {ins : Nat → Bool} {roots : List Nat} (h : Closed U ins)
    (hroots : ∀ v ∈ roots, Covered U ins v) {v : Nat} (hv : InCone U.ands roots v) : Covered U ins v := by
  induction hv with
  | root hv => exact hroots _ hv
  | fanin1 ha _ ih =>
      obtain ⟨i, hi⟩ := List.mem_iff_getElem?.mp ha
      exact (h.fanin i _ hi (ih i _ hi rfl)).1
  | fanin2 ha _ ih =>
      obtain ⟨i, hi⟩ := List.mem_iff_getElem?.mp ha
      exact (h.fanin i _ hi (ih i _ hi rfl)).2

/-! ## Inserted gates -/

/-- The gates whose position is marked. -/
def inserted (ands : List (AndGate × Nat)) (ins : Nat → Bool) : List AndGate :=
  (ands.filter fun x => ins x.2).map Prod.fst

theorem inserted_congr {ands : List (AndGate × Nat)} {ins ins' : Nat → Bool}
    (h : ∀ x ∈ ands, ins x.2 = ins' x.2) : inserted ands ins = inserted ands ins' := by
  unfold inserted
  rw [List.filter_congr h]

theorem inserted_update {ands : List AndGate} {k i n : Nat} {a : AndGate} {ins : Nat → Bool}
    (hi : n = k + i) (ha : ands[i]? = some a) (hn : ins n = false) :
    (inserted (ands.zipIdx k) (Function.update ins n true)).Perm (a :: inserted (ands.zipIdx k) ins) := by
  induction ands generalizing k i with
  | nil => cases ha
  | cons b ands ih =>
      rw [List.zipIdx_cons]
      cases i with
      | zero =>
          obtain rfl : n = k := hi
          obtain rfl : b = a := Option.some.inj ha
          have hrest : inserted (ands.zipIdx (n + 1)) (Function.update ins n true) =
              inserted (ands.zipIdx (n + 1)) ins := by
            refine inserted_congr fun x hx => Function.update_of_ne ?_ _ _
            have := List.le_snd_of_mem_zipIdx hx
            omega
          unfold inserted at hrest ⊢
          rw [List.filter_cons, List.filter_cons, Function.update_self, hn, if_pos rfl,
            if_neg Bool.false_ne_true, List.map_cons, hrest]
      | succ i =>
          have hhead : Function.update ins n true k = ins k := Function.update_of_ne (by omega) _ _
          have htail := ih (k := k + 1) (i := i) (by omega) ha
          unfold inserted at htail ⊢
          rw [List.filter_cons, List.filter_cons, hhead]
          cases ins k with
          | false => exact htail
          | true => exact (htail.cons b).trans (List.Perm.swap a b _)

theorem inserted_append {ands rest : List AndGate} {ins : Nat → Bool}
    (h : ∀ i, ins i = true → i < ands.length) :
    inserted (ands ++ rest).zipIdx ins = inserted ands.zipIdx ins := by
  have hnone : inserted (rest.zipIdx ands.length) ins = [] := by
    unfold inserted
    rw [List.map_eq_nil_iff, List.filter_eq_nil_iff]
    intro x hx hi
    have := List.le_snd_of_mem_zipIdx hx
    have := h x.2 hi
    omega
  unfold inserted at hnone ⊢
  rw [List.zipIdx_append, List.filter_append, List.map_append, Nat.zero_add, hnone, List.append_nil]

/-! ## The pass of one frame -/

/-- Only gates of the cone are marked, and besides `C` the solver holds the marked gates. -/
structure Adding (U : UnfoldAiger) (roots : List Nat) (C : Cnf) (s : BMC) : Prop where
  clause : s.bmcSolver.clause = []
  only : ∀ (i : Nat) (a : AndGate), U.ands[i]? = some a → s.lit_has_insert i = true → InCone U.ands roots a.o
  clauses : s.bmcSolver.clauses.Perm
    (C ++ (inserted U.ands.zipIdx s.lit_has_insert).flatMap AndGate.clauses)

variable {U : UnfoldAiger} {roots : List Nat} {C : Cnf}

theorem Adding.insertGate {s : BMC} (h : Adding U roots C s) (ht : Topo U.ands) {n : Nat} {a : AndGate}
    (ha : U.ands[n]? = some a) (hcone : InCone U.ands roots a.o) (hn : s.lit_has_insert n = false) :
    Adding U roots C (s.insertGate n a) := by
  obtain ⟨hclause, _, hclauses⟩ := insertGate_solver ht ha h.clause
  refine ⟨hclause, fun i b hb hi => ?_, ?_⟩
  · rcases insertGate_iff.mp hi with rfl | hi
    · rw [ha] at hb
      cases hb
      exact hcone
    · exact h.only i b hb hi
  · have hmark : (inserted U.ands.zipIdx (s.insertGate n a).lit_has_insert).Perm
        (a :: inserted U.ands.zipIdx s.lit_has_insert) := inserted_update (Nat.zero_add n).symm ha hn
    have hflat := hmark.flatMap_right AndGate.clauses
    rw [List.flatMap_cons] at hflat
    rw [hclauses]
    have hold := h.clauses
    rw [List.perm_iff_count] at hflat hold ⊢
    intro c
    have h1 := hflat c
    have h2 := hold c
    simp only [List.count_append] at h1 h2 ⊢
    omega

/-- The pass marks gates of the cone only, and hands each of them to the solver once. -/
theorem Adding.insertGates (ht : Topo U.ands) {pre post : List AndGate} {lit_set : List Nat} {s : BMC}
    (hands : U.ands = pre ++ post) (hlit : ∀ v ∈ lit_set, InCone U.ands roots v) (h : Adding U roots C s) :
    Adding U roots C (BMC.insertGates pre.zipIdx.reverse lit_set s) := by
  induction pre using List.reverseRecOn generalizing post lit_set s with
  | nil => exact h
  | append_singleton pre a ih =>
      have hands' : U.ands = pre ++ (a :: post) := by rw [hands]; simp
      have ha : U.ands[pre.length]? = some a := by rw [hands']; simp
      rw [List.zipIdx_append, List.reverse_append]
      simp only [List.zipIdx_singleton, List.reverse_singleton, List.singleton_append,
        BMC.insertGates, Nat.zero_add]
      by_cases hskip : s.lit_has_insert pre.length = true ∨ a.o ∉ lit_set
      · rw [if_pos hskip]
        exact ih hands' hlit h
      · rw [if_neg hskip]
        obtain ⟨hn, hin⟩ := not_or.mp hskip
        have hcone := hlit a.o (not_not.mp hin)
        have hmem : a ∈ U.ands := List.mem_of_getElem? ha
        refine ih hands' (fun v hv => ?_) (h.insertGate ht ha hcone (by simpa using hn))
        rcases List.mem_cons.mp hv with rfl | hv
        · exact .fanin2 hmem hcone
        rcases List.mem_cons.mp hv with rfl | hv
        · exact .fanin1 hmem hcone
        · exact hlit v (List.mem_filter.mp hv).1

/-! ## Frames -/

/-- The solver holds the gates of the cone, the constraints, and the complements of `outs`. -/
structure Cone (s : BMC) (outs : List Int) : Prop where
  covered : ∀ v, InCone s.uaiger.ands s.uaiger.roots v → Covered s.uaiger s.lit_has_insert v
  only : ∀ (i : Nat) (a : AndGate), s.uaiger.ands[i]? = some a → s.lit_has_insert i = true →
    InCone s.uaiger.ands s.uaiger.roots a.o
  clauses : s.bmcSolver.clauses.Perm ([-1] :: s.uaiger.constraints.map (fun l => [l]) ++
    outs.map (fun b => [-b]) ++
    (inserted s.uaiger.ands.zipIdx s.lit_has_insert).flatMap AndGate.clauses)

variable {B : BmcConfig} {k : Nat} {s : BMC}

theorem cone_start (B : BmcConfig) : Cone B.start B.start.uaiger.outputs := by
  obtain ⟨_, hout, hcons, hands, _, _⟩ := (initUnfold_spec B).rest
  have hands' : B.start.uaiger.ands = [] := hands
  have hcons' : B.start.uaiger.constraints = [] := hcons
  have hout' : B.start.uaiger.outputs = [] := hout
  have hadd : B.start.bmcSolver.clauses = [[-1]] := by
    have heq : (({} : CaDiCaL).addClause [-1]) = { clauses := [[-1]], nv := 1 } :=
      CaDiCaL.addClause_eq (s := {}) (by intro l hl; simp at hl; omega) rfl
    show (({} : CaDiCaL).addClause [-1]).clauses = _
    rw [heq]
  refine ⟨fun v _ i a ha => ?_, fun i a ha => ?_, ?_⟩
  · rw [hands'] at ha
    cases ha
  · rw [hands'] at ha
    cases ha
  · rw [hadd, hands', hcons', hout']
    exact List.Perm.refl _

theorem Cone.of_eq {s' : BMC} {outs : List Int} (h : Cone s outs) (hu : s'.uaiger = s.uaiger)
    (hins : s'.lit_has_insert = s.lit_has_insert) (hcl : s'.bmcSolver.clauses = s.bmcSolver.clauses) :
    Cone s' outs := by
  refine ⟨?_, ?_, ?_⟩
  · rw [hu, hins]
    exact h.covered
  · rw [hu, hins]
    exact h.only
  · rw [hu, hins, hcl]
    exact h.clauses

theorem Holds.covered_cone {outs : List Int} (h : Holds s.uaiger s outs) {v : Nat}
    (hv : InCone s.uaiger.ands s.uaiger.roots v) : Covered s.uaiger s.lit_has_insert v := by
  refine h.closed.covered_of_inCone (fun v hv => ?_) hv
  obtain ⟨l, hl, rfl⟩ := List.mem_map.mp hv
  exact h.covered l (List.mem_append.mp hl)

theorem Ready.addFrame_cone (h : Ready B k s) (hc : Cone s s.uaiger.outputs) {u : Unfolding}
    (hu : Unrolled B (k + 1) u) (hst : Stepped B.circuit s.toUnfolding u) :
    Cone (B.addFrame { s with toUnfolding := u }) u.uaiger.outputs.dropLast := by
  obtain ⟨hloaded, _, _⟩ := h.addFrame hu hst
  have hcov : ∀ v, InCone (B.addFrame { s with toUnfolding := u }).uaiger.ands
      (B.addFrame { s with toUnfolding := u }).uaiger.roots v →
      Covered (B.addFrame { s with toUnfolding := u }).uaiger
        (B.addFrame { s with toUnfolding := u }).lit_has_insert v := fun v => hloaded.holds.covered_cone
  obtain ⟨b, hb⟩ := hst.outputs
  obtain ⟨cs, hcs, hlen⟩ := hst.constraints
  have hfc : B.frameConstraints u.uaiger = cs := by
    unfold BmcConfig.frameConstraints
    rw [hcs, List.length_append, hlen, Nat.add_sub_cancel, List.drop_left]
  have hbad : u.uaiger.outputs.getLastD 0 = b := by rw [hb]; simp
  have hcin : ∀ l ∈ cs, u.uaiger.LitIn l := fun l hl =>
    hu.constraint_in l (by rw [hcs]; exact List.mem_append_right _ hl)
  have hadd := CaDiCaL.addAll_eq (s := s.bmcSolver) (nonZero_units hcin) h.holds.clause
  obtain ⟨rest, hrest⟩ := hst.ext.ands
  have hroots : s.uaiger.roots ⊆ u.uaiger.roots := by
    unfold UnfoldAiger.roots
    rw [hb, hcs]
    refine List.map_subset _ fun l hl => ?_
    rcases List.mem_append.mp hl with hl | hl
    · exact List.mem_append_left _ (List.mem_append_left _ hl)
    · exact List.mem_append_right _ (List.mem_append_left _ hl)
  have hands : s.uaiger.ands ⊆ u.uaiger.ands := by
    rw [← hrest]
    exact List.subset_append_left _ _
  have hdrop : u.uaiger.outputs.dropLast = s.uaiger.outputs := by rw [hb, List.dropLast_concat]
  unfold BmcConfig.addFrame at hcov ⊢
  simp only [hfc, hbad] at hcov ⊢
  set t : BMC := { s with
    toUnfolding := { u with uaiger := { u.uaiger with
      hash_size := max u.uaiger.hash_size (u.uaiger.nodes.length + B.circuit.num_ands * 3) } }
    bmcSolver := s.bmcSolver.addAll (cs.map fun l => [l]) } with ht
  have hstart : Adding u.uaiger u.uaiger.roots ([-1] :: u.uaiger.constraints.map (fun l => [l]) ++
      s.uaiger.outputs.map fun b => [-b]) t := by
    refine ⟨?_, fun i a ha hi => ?_, ?_⟩
    · rw [ht]
      simp only [hadd]
      exact h.holds.clause
    · have hi' : s.lit_has_insert i = true := hi
      have hold : s.uaiger.ands[i]? = some a := by
        rw [← ha, ← hrest, List.getElem?_append_left (h.holds.closed.bound i hi')]
      exact (hc.only i a hold hi').mono hands hroots
    · have hins : inserted u.uaiger.ands.zipIdx t.lit_has_insert =
          inserted s.uaiger.ands.zipIdx s.lit_has_insert := by
        rw [← hrest]
        exact inserted_append h.holds.closed.bound
      have hcl : t.bmcSolver.clauses = s.bmcSolver.clauses ++ cs.map fun l => [l] := by
        rw [ht]
        simp only [hadd]
      have hold := hc.clauses
      rw [hins, hcl, hcs, List.map_append]
      rw [List.perm_iff_count] at hold ⊢
      intro c
      have h1 := hold c
      simp only [List.count_append, List.cons_append, List.count_cons] at h1 ⊢
      omega
  have hlit : ∀ v ∈ b.natAbs :: cs.map Int.natAbs, InCone u.uaiger.ands u.uaiger.roots v := by
    intro v hv
    refine .root ?_
    unfold UnfoldAiger.roots
    rw [hb, hcs]
    rcases List.mem_cons.mp hv with rfl | hv
    · exact List.mem_map_of_mem (by simp)
    · obtain ⟨l, hl, rfl⟩ := List.mem_map.mp hv
      exact List.mem_map_of_mem (by simp [hl])
  have hpass := hstart.insertGates hu.table.topo (List.append_nil _).symm hlit
  have huai : (BMC.insertGates u.uaiger.ands.zipIdx.reverse (b.natAbs :: cs.map Int.natAbs) t).uaiger = t.uaiger :=
    congrArg Unfolding.uaiger (insertGates_unfolding _ _ _)
  refine ⟨hcov, ?_, ?_⟩
  · rw [huai]
    exact hpass.only
  · rw [huai, hdrop]
    exact hpass.clauses

theorem Cone.refuted {s' : BMC} {b : Int} {outs : List Int} (h : Cone s outs) (hu : s'.uaiger = s.uaiger)
    (hins : s'.lit_has_insert = s.lit_has_insert)
    (hcl : s'.bmcSolver.clauses = s.bmcSolver.clauses ++ [[-b]]) : Cone s' (outs ++ [b]) := by
  refine ⟨?_, ?_, ?_⟩
  · rw [hu, hins]
    exact h.covered
  · rw [hu, hins]
    exact h.only
  · have hold := h.clauses
    rw [hu, hins, hcl, List.map_append, List.map_singleton]
    rw [List.perm_iff_count] at hold ⊢
    intro c
    have h1 := hold c
    simp only [List.count_append, List.cons_append, List.count_cons] at h1 ⊢
    omega

/-- A solved frame: its property is added if it was refuted or is left to another thread. -/
theorem Ready.solve_cone (h : Ready B k s) (hc : Cone s s.uaiger.outputs) {u : Unfolding}
    (hu : Unrolled B (k + 1) u) (hst : Stepped B.circuit s.toUnfolding u) (S : Ipasir) (t : Nat)
    (terminated : Bool) {r : Int × BMC}
    (hr : r = B.solve_one_frame S t terminated { s with toUnfolding := u }) :
    r.1 = 20 ∧ Cone r.2 r.2.uaiger.outputs ∨ r.1 ≠ 20 ∧ Cone r.2 r.2.uaiger.outputs.dropLast := by
  obtain ⟨hl, _, hout⟩ := h.addFrame hu hst
  have hcone := h.addFrame_cone hc hu hst
  obtain ⟨hin, hsplit, _⟩ := hl.unrolled.getLast
  unfold BmcConfig.solve_one_frame at hr
  simp only [← hout] at hr hcone
  generalize B.addFrame { s with toUnfolding := u } = s' at hr hl hcone hin hsplit
  set b := s'.uaiger.outputs.getLastD 0
  have hnz : NonZero [-b] := by
    intro l hl'
    rw [List.mem_singleton.mp hl']
    have := hin.1
    omega
  have hclose : ∀ {r : BMC} {c : CaDiCaL}, r.uaiger = s'.uaiger → r.lit_has_insert = s'.lit_has_insert →
      r.bmcSolver = c.addClause [-b] → c.clause = [] → c.clauses = s'.bmcSolver.clauses →
      Cone r r.uaiger.outputs := by
    intro r c hru hri hrs hcc hcl
    rw [hru, hsplit]
    refine hcone.refuted hru hri ?_
    rw [hrs, CaDiCaL.addClause_eq hnz hcc, ← hcl]
  by_cases hown : ¬ B.Owns s'.bmc_frame_k
  · rw [if_pos hown] at hr
    rw [hr]
    exact .inl ⟨rfl, hclose rfl rfl rfl hl.holds.clause rfl⟩
  rw [if_neg hown] at hr
  cases terminated with
  | true =>
      rw [if_pos rfl] at hr
      rw [hr]
      exact .inr ⟨(by decide : (0 : Int) ≠ 20), hcone.of_eq rfl rfl rfl⟩
  | false =>
      rw [if_neg Bool.false_ne_true] at hr
      cases hans : S.solve t (s'.bmcSolver.assume b).query with
      | sat m =>
          rw [hans] at hr
          rw [hr]
          exact .inr ⟨(by decide : (10 : Int) ≠ 20), hcone.of_eq rfl rfl rfl⟩
      | unsat core =>
          rw [hans] at hr
          rw [hr]
          exact .inl ⟨rfl, hclose rfl rfl rfl (c := (s'.bmcSolver.assume b).solved (.unsat core))
            hl.holds.clause rfl⟩

/-! ## Runs -/

/-- What the solver holds in each phase. -/
def ConeOk (B : BmcConfig) (x : Thread) : Prop :=
  match x.phase with
  | .head => ∃ k, x.bmc.bmc_frame_k = k + 1 ∧ Ready B k x.bmc ∧ Cone x.bmc x.bmc.uaiger.outputs
  | .solving => ∃ (k : Nat) (s : BMC) (u : Unfolding), x.bmc = { s with toUnfolding := u } ∧
      s.bmc_frame_k = k + 1 ∧ Ready B k s ∧ Cone s s.uaiger.outputs ∧ Unrolled B (k + 1) u ∧
      Stepped B.circuit s.toUnfolding u
  | _ => Cone x.bmc x.bmc.uaiger.outputs ∨ Cone x.bmc x.bmc.uaiger.outputs.dropLast

theorem ConeOk.start (B : BmcConfig) : ConeOk B B.startThread := by
  have hr := ready_start B
  exact ⟨0, rfl, ⟨hr.unrolled, hr.holds.closed, hr.holds.covered, hr.holds.clause, hr.holds.assumptions,
    hr.holds.clauses⟩, (cone_start B).of_eq rfl rfl rfl⟩

theorem ConeOk.step {x : Thread} (h : ConeOk B x) (S : Ipasir) (t : Nat) (terminated : Bool) (R : Int)
    (hok : x.phase = .head → x.bmc.bmc_frame_k ≤ B.nframes → R = 0 → B.Fits x.bmc.toUnfolding) :
    ConeOk B (B.threadStep S t terminated R x).1 := by
  obtain ⟨phase, s⟩ := x
  cases phase with
  | head =>
      obtain ⟨k, hk, hr, hc⟩ := h
      simp only [BmcConfig.threadStep]
      by_cases hn : B.nframes < s.bmc_frame_k
      · rw [if_pos hn]
        exact .inl hc
      rw [if_neg hn]
      by_cases hR : R ≠ 0
      · rw [if_pos hR]
        exact .inl hc
      rw [if_neg hR]
      have hf := hok rfl (not_lt.mp hn) (not_not.mp hR)
      obtain ⟨u, hu, hun, hst⟩ := hr.unrolled.unfold hf
      rw [hu]
      exact ⟨k, s, u, rfl, hk, hr, hc, hun, hst⟩
  | solving =>
      obtain ⟨k, s0, u, hs, hk, hr, hc, hun, hst⟩ := h
      obtain rfl : s = { s0 with toUnfolding := u } := hs
      have ho := hr.solve hk hun hst S t terminated
      have hcone := hr.solve_cone hc hun hst S t terminated rfl
      simp only [BmcConfig.threadStep]
      generalize B.solve_one_frame S t terminated { s0 with toUnfolding := u } = r at ho hcone
      by_cases h10 : r.1 = 10
      · rw [if_pos h10]
        exact hcone.imp And.right And.right
      rw [if_neg h10]
      by_cases hstop : r.1 = 0 ∨ BmcConfig.maxNodes < (r.2.uaiger.outputs.getLastD 0).natAbs
      · rw [if_pos hstop]
        exact hcone.imp And.right And.right
      · rw [if_neg hstop]
        obtain ⟨h0, _⟩ := not_or.mp hstop
        have h20 : r.1 = 20 := (ho.cases.resolve_left h10).resolve_right fun hz => h0 hz.1
        by_cases hmax : BmcConfig.maxFrame ≤ r.2.bmc_frame_k
        · rw [if_pos hmax]
          exact hcone.imp And.right And.right
        · rw [if_neg hmax]
          refine ⟨k + 1, ?_, ho.next h20 _, ?_⟩
          · show r.2.bmc_frame_k + 1 = _
            rw [ho.rest.1]
          · exact (hcone.resolve_right fun hne => hne.1 h20).2.of_eq rfl rfl rfl
  | found => exact h
  | returned r => exact h
  | undefined => exact h

theorem CheckRun.coneOk {S : Ipasir} {x : Thread} (h : CheckRun B S BmcConfig.Fits x) : ConeOk B x := by
  induction h with
  | start => exact ConeOk.start B
  | @step x t terminated R _ _ hok ih => exact ih.step S t terminated R hok

/-- The marked gates are those of the cone. -/
theorem Cone.inserted_eq [DecidablePred (InCone s.uaiger.ands s.uaiger.roots)] {outs : List Int}
    (h : Cone s outs) : inserted s.uaiger.ands.zipIdx s.lit_has_insert =
      s.uaiger.ands.filter fun a => InCone s.uaiger.ands s.uaiger.roots a.o := by
  have hmark : ∀ x ∈ s.uaiger.ands.zipIdx, s.lit_has_insert x.2 =
      decide (InCone s.uaiger.ands s.uaiger.roots x.1.o) := by
    intro x hx
    have hget : s.uaiger.ands[x.2]? = some x.1 := List.mk_mem_zipIdx_iff_getElem?.mp hx
    rw [Bool.eq_iff_iff, decide_eq_true_eq]
    exact ⟨h.only x.2 x.1 hget, fun hc => h.covered _ hc x.2 x.1 hget rfl⟩
  unfold inserted
  rw [List.filter_congr hmark]
  have hmap : (s.uaiger.ands.zipIdx.map Prod.fst).filter
      (fun a => decide (InCone s.uaiger.ands s.uaiger.roots a.o)) = _ := List.filter_map
  rw [List.zipIdx_map_fst] at hmap
  exact hmap.symm

open Classical in
/-- At every point of a run of `check` between two frames the clauses of the solver are, each of them once,
the constant, the constraints, the complements of the properties of all frames (but the last one when
`check` returns with it), and the gates that these properties and constraints depend on. -/
theorem check_loads_cone (B : BmcConfig) (S : Ipasir) {x : Thread} (h : CheckRun B S BmcConfig.Fits x)
    (hx : x.phase ≠ .solving) : ∃ outs, (outs = x.bmc.uaiger.outputs ∨
      x.phase ≠ .head ∧ outs = x.bmc.uaiger.outputs.dropLast) ∧
      x.bmc.bmcSolver.clauses.Perm ([-1] :: x.bmc.uaiger.constraints.map (fun l => [l]) ++
        outs.map (fun b => [-b]) ++
        (x.bmc.uaiger.ands.filter fun a =>
          InCone x.bmc.uaiger.ands x.bmc.uaiger.roots a.o).flatMap AndGate.clauses) := by
  have hok := h.coneOk
  have hall : ∀ {outs}, Cone x.bmc outs → x.bmc.bmcSolver.clauses.Perm
      ([-1] :: x.bmc.uaiger.constraints.map (fun l => [l]) ++ outs.map (fun b => [-b]) ++
        (x.bmc.uaiger.ands.filter fun a =>
          InCone x.bmc.uaiger.ands x.bmc.uaiger.roots a.o).flatMap AndGate.clauses) := by
    intro outs hc
    rw [← hc.inserted_eq]
    exact hc.clauses
  obtain ⟨phase, s⟩ := x
  cases phase with
  | head =>
      obtain ⟨k, _, _, hc⟩ := hok
      exact ⟨_, .inl rfl, hall hc⟩
  | solving => exact absurd rfl hx
  | found =>
      rcases hok with hc | hc
      · exact ⟨_, .inl rfl, hall hc⟩
      · exact ⟨_, .inr ⟨Phase.noConfusion, rfl⟩, hall hc⟩
  | returned r =>
      rcases hok with hc | hc
      · exact ⟨_, .inl rfl, hall hc⟩
      · exact ⟨_, .inr ⟨Phase.noConfusion, rfl⟩, hall hc⟩
  | undefined =>
      rcases hok with hc | hc
      · exact ⟨_, .inl rfl, hall hc⟩
      · exact ⟨_, .inr ⟨Phase.noConfusion, rfl⟩, hall hc⟩

namespace Sample

/-- The call of `check` for `pulse`. -/
noncomputable def pulseThread : Nat → Thread
  | 0 => pulseConfig.startThread
  | n + 1 => (pulseConfig.threadStep pulseSolver (n / 2) false 0 (pulseThread n)).1

theorem pulseThread_fits : ∀ n, n < 4 → (pulseThread n).phase = .head →
    pulseConfig.Fits (pulseThread n).bmc.toUnfolding := by
  decide +kernel

theorem pulseThread_run {n : Nat} (hn : n ≤ 4) :
    CheckRun pulseConfig pulseSolver BmcConfig.Fits (pulseThread n) := by
  induction n with
  | zero => exact .start
  | succ n ih =>
      exact .step (ih (by omega)) (fun h => Bool.noConfusion h) fun hp _ _ => pulseThread_fits n (by omega) hp

theorem pulseThread_found : (pulseThread 4).phase = .found ∧ (pulseThread 4).bmc.bmc_frame_k = 2 ∧
    (pulseThread 4).bmc.uaiger.ands = [⟨5, 4, -3⟩, ⟨6, 4, 3⟩] ∧ (pulseThread 4).bmc.uaiger.roots = [1, 6] ∧
    (pulseThread 4).bmc.uaiger.constraints = [] := by
  decide +kernel

theorem pulse_inCone {v : Nat} (h : InCone [⟨5, 4, -3⟩, ⟨6, 4, 3⟩] [1, 6] v) : v ∈ [1, 6, 4, 3] := by
  induction h with
  | root h => exact List.mem_append_left _ h
  | fanin1 ha _ ih =>
      rcases List.mem_pair.mp ha with rfl | rfl
      · exact absurd ih (by decide)
      · decide
  | fanin2 ha _ ih =>
      rcases List.mem_pair.mp ha with rfl | rfl
      · exact absurd ih (by decide)
      · decide

end Sample

/-- After the two frames of `pulse`, the gate of the property is in the solver and the one of the next state is
not. -/
theorem check_loads_cone_pulse : ∃ (x : Thread) (outs : List Int), CheckRun Sample.pulseConfig Sample.pulseSolver BmcConfig.Fits x ∧
    x.phase = .found ∧ x.bmc.bmc_frame_k = 2 ∧ x.bmc.uaiger.ands = [⟨5, 4, -3⟩, ⟨6, 4, 3⟩] ∧
    x.bmc.bmcSolver.clauses.Perm ([-1] :: outs.map (fun b => [-b]) ++ AndGate.clauses ⟨6, 4, 3⟩) := by
  obtain ⟨hx, hk, hands, hroots, hcons⟩ := Sample.pulseThread_found
  have hrun := Sample.pulseThread_run (n := 4) le_rfl
  obtain ⟨outs, _, hperm⟩ := check_loads_cone _ _ hrun (by rw [hx]; exact Phase.noConfusion)
  refine ⟨_, outs, hrun, hx, hk, hands, ?_⟩
  have h6 : InCone [⟨5, 4, -3⟩, ⟨6, 4, 3⟩] [1, 6] 6 := .root (by decide)
  have h5 : ¬ InCone [⟨5, 4, -3⟩, ⟨6, 4, 3⟩] [1, 6] 5 := fun h => absurd (Sample.pulse_inCone h) (by decide)
  rw [hands, hroots, hcons] at hperm
  simpa [h5, h6] using hperm

end ModelChecker
