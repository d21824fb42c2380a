import ModelChecker.Bmc.Theorems

/-!
# Rewriting and structural hashing

`Aig_And` is sound and returns, and the gates that `unfold` adds where it finds no rewriting are all
different: the hash table lists, for every node, exactly the gates above it.
-/

namespace ModelChecker

open Logic

variable {A : Circuit} {B : BmcConfig} {values : Nat → Int} {s s' : Unfolding} {U U' : UnfoldAiger}

/-! ## Rewriting -/

/-- `values` gives every variable below `n` a literal of the unrolled circuit, and in the valuation `e` of
its nodes each gate below `n` is the conjunction of its fan-ins. -/
structure Processed (A : Circuit) (values : Nat → Int) (n : Nat) (e : Assignment) : Prop where
  one : values 1 = 1
  live : ∀ v, 1 ≤ v → v < n → values v ≠ 0
  const : e 1 = false
  gate : ∀ a ∈ A.ands, a.o < n →
    litVal e (values a.o) = (litVal e (value values a.i1) && litVal e (value values a.i2))

theorem exists_bound (f : Nat → Nat) (n : Nat) : ∃ N, 1 < N ∧ ∀ v, v < n → f v < N := by
  induction n with
  | zero => exact ⟨2, by omega, fun v hv => absurd hv (Nat.not_lt_zero v)⟩
  | succ n ih =>
      obtain ⟨N, h1, hN⟩ := ih
      refine ⟨N + f n + 1, by omega, fun v hv => ?_⟩
      rcases Nat.lt_succ_iff_lt_or_eq.mp hv with hlt | rfl
      · have := hN v hlt
        omega
      · omega

theorem Processed.sound {n : Nat} {e : Assignment} (h : Processed A values n e) :
    ∃ N, 1 < N ∧ Sound A values n N (· = e) := by
  obtain ⟨N, h1, hN⟩ := exists_bound (fun v => (values v).natAbs) n
  refine ⟨N, h1, h.one, fun v hv1 hv2 => ⟨?_, hN v hv2⟩, ?_, ?_⟩
  · exact Nat.pos_of_ne_zero (Int.natAbs_ne_zero.mpr (h.live v hv1 hv2))
  · rintro _ rfl
    exact h.const
  · rintro _ rfl
    exact h.gate

theorem aigAnd_mono (A : Aiger) (values : Nat → Int) {fuel : Nat} : ∀ {p0 p1 r : Int},
    Aig_And A values fuel p0 p1 = some r → Aig_And A values (fuel + 1) p0 p1 = some r := by
  induction fuel with
  | zero =>
      intro p0 p1 r h
      cases h
  | succ fuel ih =>
      intro p0 p1 r h
      rw [Aig_And] at h ⊢
      split_ifs at h ⊢
      all_goals try exact h
      -- one of the literals is a gate: only this case calls `Aig_And` again
      obtain ⟨f0, hf0, h⟩ := Option.bind_eq_some_iff.mp h
      obtain ⟨f1, hf1, h⟩ := Option.bind_eq_some_iff.mp h
      rw [hf0, Option.bind_some, hf1, Option.bind_some]
      cases hs0 : strash values p0 f0.1 f0.2 (value values p1) with
      | ret v => rw [hs0] at h; exact h
      | call q0 q1 => rw [hs0] at h; exact ih h
      | skip =>
          rw [hs0] at h
          simp only at h ⊢
          cases hs1 : strash values p1 f1.1 f1.2 (value values p0) with
          | ret v => rw [hs1] at h; exact h
          | call q0 q1 => rw [hs1] at h; exact ih h
          | skip => rw [hs1] at h; exact h

theorem aigAnd_le (A : Aiger) (values : Nat → Int) {fuel fuel' : Nat} (hle : fuel ≤ fuel') {p0 p1 r : Int}
    (h : Aig_And A values fuel p0 p1 = some r) : Aig_And A values fuel' p0 p1 = some r := by
  induction hle with
  | refl => exact h
  | step _ ih => exact aigAnd_mono A values ih

/-- `Aig_And` returns on any two literals of processed variables, without an index outside of `ands`: with
`0`, or with a literal that is the conjunction of the two. -/
theorem aigAnd_sound (A : Circuit) (values : Nat → Int) (n : Nat) (hn : n ≤ A.max_var + 1) (e : Assignment)
    (h : Processed A values n e) (p0 p1 : Int) (hp0 : p0 ≠ 0 ∧ p0.natAbs < n) (hp1 : p1 ≠ 0 ∧ p1.natAbs < n) :
    ∃ r, (∀ fuel, n ≤ fuel → Aig_And A.toAiger values fuel p0 p1 = some r) ∧
      (r = 0 ∨ litVal e r = (litVal e (value values p0) && litVal e (value values p1))) := by
  obtain ⟨N, hN, hs⟩ := h.sound
  have hpos : ∀ p : Int, p ≠ 0 → 1 ≤ p.natAbs := fun p hp => Nat.pos_of_ne_zero (Int.natAbs_ne_zero.mpr hp)
  obtain ⟨r, hr, hfold⟩ := aigAnd_spec hs hn hN ⟨hpos p0 hp0.1, hp0.2⟩ ⟨hpos p1 hp1.1, hp1.2⟩
    hp0.2 hp1.2
  refine ⟨r, fun fuel hfuel => aigAnd_le _ _ hfuel hr, ?_⟩
  by_cases h0 : r = 0
  · exact .inl h0
  · exact .inr (hfold.value h0 e rfl)

namespace Sample

/-- Two inputs, their gate, and a gate of its negation and the first input. -/
def nested : Circuit where
  num_inputs := 2
  num_latches := 0
  num_ands := 2
  ands := [⟨4, 2, 3⟩, ⟨5, -4, 2⟩]
  nexts := []
  init_state := []
  constraints := []
  allbad := [5]
  bad := 5
  default_vals := []
  wf := by constructor <;> decide

end Sample

/-- A rule that calls `Aig_And` again. -/
theorem aigAnd_sound_nested : ∃ r, (∀ fuel, 6 ≤ fuel →
    Aig_And Sample.nested.toAiger (fun v => (v : Int)) fuel (-4) 2 = some r) ∧
      (r = 0 ∨ litVal (fun v => decide (2 ≤ v ∧ v ≤ 4)) r = false) := by
  obtain ⟨r, hr, hv⟩ := aigAnd_sound Sample.nested (fun v => (v : Int)) 6 (by decide)
    (fun v => decide (2 ≤ v ∧ v ≤ 4)) ⟨rfl, fun v hv _ => by omega, rfl, by decide⟩ (-4) 2 (by decide) (by decide)
  exact ⟨r, hr, hv⟩

/-! ## Hashing -/

/-- Two gates have the same fan-ins. -/
def SamePair (a b : AndGate) : Prop := (a.i1 = b.i1 ∧ a.i2 = b.i2) ∨ (a.i1 = b.i2 ∧ a.i2 = b.i1)

/-- The gates are all different and none of them is constant; they are in the order of their nodes, which
record their fan-ins; and the hash table has every gate once at each of its fan-ins. -/
structure Hashed (U : UnfoldAiger) : Prop where
  unique : U.ands.Pairwise fun a b => ¬ SamePair a b
  const : ∀ a ∈ U.ands, a.i1.natAbs ≠ 1 ∧ a.i2.natAbs ≠ 1
  distinct : ∀ a ∈ U.ands, a.i1 ≠ a.i2 ∧ a.i1 ≠ -a.i2
  range : ∀ a ∈ U.ands, (1 ≤ a.i1.natAbs ∧ a.i1.natAbs < a.o) ∧ 1 ≤ a.i2.natAbs ∧ a.i2.natAbs < a.o
  sorted : U.ands.Pairwise fun a b => a.o < b.o
  node : ∀ a ∈ U.ands, U.nodes[a.o]? = some ⟨.and, a.i1, a.i2⟩
  table : ∀ v, U.hash_table v = U.ands.filter fun a => a.i1.natAbs = v ∨ a.i2.natAbs = v

/-- The literals of a gate that is left over by the rules. -/
structure Unsimplified (i1 i2 : Int) : Prop where
  distinct : i1 ≠ i2 ∧ i1 ≠ -i2
  const : i1.natAbs ≠ 1 ∧ i2.natAbs ≠ 1

theorem aigAnd_zero {A : Aiger} {fuel : Nat} {p0 p1 : Int} (h : Aig_And A values fuel p0 p1 = some 0)
    (h0 : value values p0 ≠ 0) (h1 : value values p1 ≠ 0) :
    Unsimplified (value values p0) (value values p1) := by
  cases fuel with
  | zero => cases h
  | succ fuel =>
      rw [Aig_And] at h
      by_cases c1 : value values p0 = value values p1
      · rw [if_pos c1] at h
        exact absurd (Option.some.inj h) h0
      rw [if_neg c1] at h
      by_cases c2 : value values p0 = -value values p1
      · rw [if_pos c2] at h
        cases h
      rw [if_neg c2] at h
      by_cases c3 : (value values p0).natAbs = 1
      · rw [if_pos c3] at h
        split at h
        · exact absurd (Option.some.inj h) h1
        · cases h
      rw [if_neg c3] at h
      by_cases c4 : (value values p1).natAbs = 1
      · rw [if_pos c4] at h
        split at h
        · exact absurd (Option.some.inj h) h0
        · cases h
      exact ⟨⟨c1, c2⟩, c3, c4⟩

theorem lookup_eq_zero {bucket : List AndGate} {i1 i2 : Int} (h : Unfolding.lookup bucket i1 i2 = 0)
    (ho : ∀ g ∈ bucket, g.o ≠ 0) : ∀ g ∈ bucket, ¬ ((g.i1 = i1 ∧ g.i2 = i2) ∨ (g.i2 = i1 ∧ g.i1 = i2)) := by
  unfold Unfolding.lookup at h
  induction bucket using List.reverseRecOn with
  | nil => exact List.forall_mem_nil _
  | append_singleton bucket g ih =>
      rw [List.foldl_append, List.foldl_cons, List.foldl_nil] at h
      by_cases hg : (g.i1 = i1 ∧ g.i2 = i2) ∨ (g.i2 = i1 ∧ g.i1 = i2)
      · rw [if_pos hg] at h
        exact absurd h (ho g (by simp))
      · rw [if_neg hg] at h
        intro g' hg'
        rcases List.mem_append.mp hg' with hg' | hg'
        · exact ih h (fun x hx => ho x (List.mem_append_left _ hx)) g' hg'
        · rwa [List.mem_singleton.mp hg']

/-- What one gate of the circuit does to `uaiger`: nothing, or it adds a gate that the rules and the hash
table do not have. -/
theorem unfoldAnd_cases {A : Aiger} {a : AndGate} (h : s.unfoldAnd A a = some s') :
    s'.uaiger = s.uaiger ∨ ∃ i1 i2, i1 = value (s.setValue a.o 0).values a.i1 ∧
      i2 = value (s.setValue a.o 0).values a.i2 ∧
      Aig_And A (s.setValue a.o 0).values a.o a.i1 a.i2 = some 0 ∧
      Unfolding.lookup (s.uaiger.hash_table i1.natAbs) i1 i2 = 0 ∧
      s'.uaiger = (s.newAnd a.o i1 i2).uaiger := by
  unfold Unfolding.unfoldAnd at h
  obtain ⟨v, hv, h⟩ := Option.bind_eq_some_iff.mp h
  by_cases h0 : v ≠ 0
  · rw [if_pos h0] at h
    cases h
    exact .inl rfl
  · rw [if_neg h0] at h
    simp only at h
    split_ifs at h with h1 h2 h3
    · cases h
      exact .inl rfl
    · cases h
      exact .inr ⟨_, _, rfl, rfl, by rw [hv, not_not.mp h0], not_not.mp h2, rfl⟩

/-! ## The invariant -/

theorem Hashed.lt_length (h : Hashed U) {a : AndGate} (ha : a ∈ U.ands) : a.o < U.nodes.length :=
  (List.getElem?_eq_some_iff.mp (h.node a ha)).1

theorem Hashed.extend (h : Hashed U) (hands : U'.ands = U.ands) (htable : U'.hash_table = U.hash_table)
    (hnodes : U.nodes <+: U'.nodes) : Hashed U' := by
  obtain ⟨xs, hxs⟩ := hnodes
  constructor
  case unique => rw [hands]; exact h.unique
  case const => rw [hands]; exact h.const
  case distinct => rw [hands]; exact h.distinct
  case range => rw [hands]; exact h.range
  case sorted => rw [hands]; exact h.sorted
  case node =>
    rw [hands]
    intro a ha
    rw [← hxs, List.getElem?_append_left (h.lt_length ha)]
    exact h.node a ha
  case table => rw [hands, htable]; exact h.table

theorem table_newAnd {i1 i2 : Int} (hu : Unsimplified i1 i2) (o v : Nat) :
    (s.newAnd o i1 i2).uaiger.hash_table v = s.uaiger.hash_table v ++
      if i1.natAbs = v ∨ i2.natAbs = v then [⟨s.uaiger.nsize, i1, i2⟩] else [] := by
  have hne : i2.natAbs ≠ i1.natAbs := by
    have := hu.distinct
    omega
  show Function.update (Function.update s.uaiger.hash_table i1.natAbs _) i2.natAbs _ v = _
  by_cases h2 : i2.natAbs = v
  · subst h2
    rw [Function.update_self, Function.update_of_ne hne, if_pos (.inr rfl)]
  · rw [Function.update_of_ne (Ne.symm h2)]
    by_cases h1 : i1.natAbs = v
    · subst h1
      rw [Function.update_self, if_pos (.inl rfl)]
    · rw [Function.update_of_ne (Ne.symm h1), if_neg (by tauto), List.append_nil]

theorem Hashed.newAnd (h : Hashed s.uaiger) {i1 i2 : Int} (hu : Unsimplified i1 i2)
    (h1 : s.uaiger.LitIn i1) (h2 : s.uaiger.LitIn i2)
    (hlook : Unfolding.lookup (s.uaiger.hash_table i1.natAbs) i1 i2 = 0) (o : Nat) :
    Hashed (s.newAnd o i1 i2).uaiger := by
  have hbucket : ∀ g ∈ s.uaiger.hash_table i1.natAbs, g.o ≠ 0 := by
    intro g hg
    rw [h.table] at hg
    have := (h.range g (List.mem_of_mem_filter hg)).1
    omega
  have hnew : ∀ g ∈ s.uaiger.ands, ¬ SamePair g ⟨s.uaiger.nsize, i1, i2⟩ := by
    intro g hg hsame
    have hmem : g ∈ s.uaiger.hash_table i1.natAbs := by
      rw [h.table]
      refine List.mem_filter.mpr ⟨hg, decide_eq_true ?_⟩
      rcases hsame with ⟨e1, _⟩ | ⟨_, e2⟩
      · exact .inl (congrArg Int.natAbs e1)
      · exact .inr (congrArg Int.natAbs e2)
    refine lookup_eq_zero hlook hbucket g hmem ?_
    rcases hsame with ⟨e1, e2⟩ | ⟨e1, e2⟩
    · exact .inl ⟨e1, e2⟩
    · exact .inr ⟨e2, e1⟩
  have hands : (s.newAnd o i1 i2).uaiger.ands = s.uaiger.ands ++ [⟨s.uaiger.nsize, i1, i2⟩] := rfl
  have hnodes : (s.newAnd o i1 i2).uaiger.nodes = s.uaiger.nodes ++ [⟨.and, i1, i2⟩] := rfl
  constructor
  case unique =>
    rw [hands]
    refine List.pairwise_append.mpr ⟨h.unique, List.pairwise_singleton _ _, fun g hg b hb => ?_⟩
    rw [List.mem_singleton.mp hb]
    exact hnew g hg
  case const =>
    rw [hands]
    exact List.forall_mem_append.mpr ⟨h.const, List.forall_mem_singleton.mpr hu.const⟩
  case distinct =>
    rw [hands]
    exact List.forall_mem_append.mpr ⟨h.distinct, List.forall_mem_singleton.mpr hu.distinct⟩
  case range =>
    rw [hands]
    exact List.forall_mem_append.mpr ⟨h.range, List.forall_mem_singleton.mpr ⟨h1, h2⟩⟩
  case sorted =>
    rw [hands]
    refine List.pairwise_append.mpr ⟨h.sorted, List.pairwise_singleton _ _, fun g hg b hb => ?_⟩
    rw [List.mem_singleton.mp hb]
    exact h.lt_length hg
  case node =>
    rw [hands, hnodes]
    refine List.forall_mem_append.mpr ⟨fun g hg => ?_, List.forall_mem_singleton.mpr ?_⟩
    · rw [List.getElem?_append_left (h.lt_length hg)]
      exact h.node g hg
    · exact List.getElem?_concat_length
  case table =>
    intro v
    rw [table_newAnd hu, hands, List.filter_append, h.table]
    congr 1
    by_cases hv : i1.natAbs = v ∨ i2.natAbs = v
    · simp [hv]
    · simp [hv]

/-! ## Steps -/

variable {w : Assignment → Assignment}

theorem unfoldAnd_hashed {a : AndGate} (ha : a ∈ A.ands) (h : StepFrame A a.o w s) (hh : Hashed s.uaiger)
    (hs : s.unfoldAnd A.toAiger a = some s') : Hashed s'.uaiger := by
  rcases unfoldAnd_cases hs with heq | ⟨i1, i2, h1, h2, hzero, hlook, heq⟩
  · rw [heq]
    exact hh
  · have h0 : StepFrame A a.o w (s.setValue a.o 0) := h.clear (by have := A.wf.fanin1 a ha; omega)
    have hl1 : s.uaiger.LitIn i1 := h1 ▸ h0.litIn (A.wf.fanin1 a ha)
    have hl2 : s.uaiger.LitIn i2 := h2 ▸ h0.litIn (A.wf.fanin2 a ha)
    have hu : Unsimplified i1 i2 := by
      rw [h1, h2]
      refine aigAnd_zero hzero ?_ ?_
      · have := hl1.1
        omega
      · have := hl2.1
        omega
    rw [heq]
    exact hh.newAnd hu hl1 hl2 hlook a.o

theorem unfoldAnds_hashed {gs : List AndGate} (hgs : ∀ a ∈ gs, a ∈ A.ands) :
    ∀ {n : Nat} {s s' : Unfolding}, (∀ i, (h : i < gs.length) → (gs.get ⟨i, h⟩).o = n + i) →
      StepFrame A n w s → (gs = [] ∨ s.uaiger.nodes.length + gs.length ≤ s.uaiger.hash_size + 1) →
      Hashed s.uaiger → gs.foldlM (Unfolding.unfoldAnd A.toAiger) s = some s' → Hashed s'.uaiger := by
  induction gs with
  | nil =>
      intro n s s' _ _ _ hh hs
      cases hs
      exact hh
  | cons a gs ih =>
      intro n s s' hn h hroom hh hs
      have ho : a.o = n := hn 0 (by simp)
      have hsize := hroom.resolve_left (List.cons_ne_nil a gs)
      rw [List.length_cons] at hsize
      obtain ⟨s1, hs1, hf1, hg1⟩ := unfoldAnd_spec (hgs a List.mem_cons_self) (ho ▸ h) (by omega)
      rw [List.foldlM_cons, hs1] at hs
      refine ih (fun b hb => hgs b (List.mem_cons_of_mem _ hb)) (n := n + 1) (fun i hi => ?_) (ho ▸ hf1) (.inr ?_)
        (unfoldAnd_hashed (hgs a List.mem_cons_self) (ho ▸ h) hh hs1) hs
      · have := hn (i + 1) (by rw [List.length_cons]; omega)
        simp only [List.get_eq_getElem, List.getElem_cons_succ] at this ⊢
        omega
      · have := hg1.nodes
        have := hg1.hash_size
        omega

theorem addInputs_hashed (is : List Nat) (h : Hashed s.uaiger) :
    Hashed (is.foldl Unfolding.addInput s).uaiger := by
  induction is generalizing s with
  | nil => exact h
  | cons i is ih => exact ih (h.extend rfl rfl (List.prefix_append _ _))

/-- One call of `unfold`. -/
theorem Unrolled.hashed {k : Nat} (h : Unrolled B k s) (hroom : B.Fits s) (hh : Hashed s.uaiger)
    (hs : B.unfold s = some s') : Hashed s'.uaiger := by
  have hi := addInputs_spec h.table B.circuit.num_inputs
  have hh1 := addInputs_hashed (List.range B.circuit.num_inputs) hh
  have hlen := B.circuit.wf.ands_length
  unfold BmcConfig.unfold at hs
  simp only at hs
  generalize (List.range B.circuit.num_inputs).foldl Unfolding.addInput s = s1 at hi hh1 hs
  obtain ⟨s2, hs2, hs⟩ := Option.bind_eq_some_iff.mp hs
  have hh2 := unfoldAnds_hashed (fun a (ha : a ∈ B.circuit.ands) => ha) (fun i hi => B.circuit.ands_get hi)
    (h.frame hi) (hroom.2.1.imp (fun h0 => List.length_eq_zero_iff.mp (hlen.trans h0))
      fun hr => by rw [hi.nodes, hi.hash_size, hlen]; exact hr) hh1 hs2
  split at hs
  · cases hs
  · cases hs
    exact hh2.extend rfl rfl List.prefix_rfl

theorem hashed_init (B : BmcConfig) : Hashed B.initUnfold.uaiger := by
  obtain ⟨_, _, ⟨_, _, _, hands, htable, _⟩, _, _⟩ := initUnfold_spec B
  constructor
  case unique => rw [hands]; exact .nil
  case const => rw [hands]; exact List.forall_mem_nil _
  case distinct => rw [hands]; exact List.forall_mem_nil _
  case range => rw [hands]; exact List.forall_mem_nil _
  case sorted => rw [hands]; exact .nil
  case node => rw [hands]; exact List.forall_mem_nil _
  case table => rw [hands]; exact htable

/-! ## Runs -/

/-- `k` calls of `unfold` and `solve_one_frame` in turn, whatever the answers; call `j` of the solver is at
time `t j` and is stopped by `terminate_callback` if `terminated j`. -/
def BmcConfig.rounds (B : BmcConfig) (S : Ipasir) (t : Nat → Nat) (terminated : Nat → Bool) : Nat → Option BMC
  | 0 => some { B.start with bmc_frame_k := 1 }
  | k + 1 => (B.rounds S t terminated k).bind fun s => (B.unfold s.toUnfolding).map fun u =>
      let r := (B.solve_one_frame S (t k) (terminated k) { s with toUnfolding := u }).2
      { r with bmc_frame_k := r.bmc_frame_k + 1 }

variable {S : Ipasir} {t : Nat → Nat} {terminated : Nat → Bool}

theorem rounds_succ {k : Nat} {s : BMC} {u : Unfolding} (hs : B.rounds S t terminated k = some s)
    (hu : B.unfold s.toUnfolding = some u) : B.rounds S t terminated (k + 1) = some
      { (B.solve_one_frame S (t k) (terminated k) { s with toUnfolding := u }).2 with
        bmc_frame_k := (B.solve_one_frame S (t k) (terminated k)
          { s with toUnfolding := u }).2.bmc_frame_k + 1 } := by
  rw [BmcConfig.rounds, hs, Option.bind_some, hu, Option.map_some]

theorem rounds_hashed (k : Nat)
    (hroom : ∀ j, j < k → ∀ s, B.rounds S t terminated j = some s → B.Fits s.toUnfolding) :
    ∃ s, B.rounds S t terminated k = some s ∧ Unrolled B k s.toUnfolding ∧ Hashed s.uaiger := by
  induction k with
  | zero => exact ⟨_, rfl, unrolled_init B, hashed_init B⟩
  | succ k ih =>
      obtain ⟨s, hs, hun, hh⟩ := ih fun j hj => hroom j (by omega)
      have hr := hroom k (by omega) s hs
      obtain ⟨u, hu, hun', _⟩ := hun.unfold hr
      have hh' := hun.hashed hr hh hu
      have hsolve := solve_unfolding B S (t k) (terminated k) { s with toUnfolding := u }
      refine ⟨_, rounds_succ hs hu, ?_, ?_⟩
      · simp only
        rw [hsolve]
        exact hun'.grow _
      · simp only
        rw [hsolve]
        exact hh'.extend rfl rfl List.prefix_rfl

/-- After `k` rounds, and after one more call of `unfold`, the state is there and its gates are hashed. -/
def BmcConfig.HashedAfter (B : BmcConfig) (S : Ipasir) (t : Nat → Nat) (terminated : Nat → Bool) (k : Nat) :
    Prop :=
  ∃ s, B.rounds S t terminated k = some s ∧ Hashed s.uaiger ∧
    ∃ u, B.unfold s.toUnfolding = some u ∧ Hashed u.uaiger

/-- In every run whose calls of `unfold` have room the gates are hashed after every call. -/
theorem gates_hashed (B : BmcConfig) (S : Ipasir) (t : Nat → Nat) (terminated : Nat → Bool) (k : Nat)
    (hroom : ∀ j, j ≤ k → ∀ s, B.rounds S t terminated j = some s → B.Fits s.toUnfolding) :
    B.HashedAfter S t terminated k := by
  obtain ⟨s, hs, hun, hh⟩ := rounds_hashed k fun j hj => hroom j (by omega)
  have hr := hroom k le_rfl s hs
  obtain ⟨u, hu, _, _⟩ := hun.unfold hr
  exact ⟨s, hs, hh, u, hu, hun.hashed hr hh hu⟩

/-- Three frames of `pulse`; the first two have left two gates. -/
theorem gates_hashed_pulse : Sample.pulseConfig.HashedAfter Sample.pulseSolver id (fun _ => false) 2 ∧
    ((Sample.pulseConfig.rounds Sample.pulseSolver id (fun _ => false) 2).map fun s => s.uaiger.ands) =
      some [⟨5, 4, -3⟩, ⟨6, 4, 3⟩] := by
  refine ⟨gates_hashed _ _ _ _ 2 fun j hj s hs => ?_, by decide +kernel⟩
  have hall : ∀ j, j ≤ 2 → ((Sample.pulseConfig.rounds Sample.pulseSolver id (fun _ => false) j).all fun s =>
      Sample.pulseConfig.Fits s.toUnfolding) = true := by decide +kernel
  have hfit := hall j hj
  rw [hs] at hfit
  exact of_decide_eq_true hfit

/-- With so many latches that the entries do not end in the object of `tempvalue`, there is no state after the
first call. -/
theorem gates_overflow : ¬ (Sample.wide 2000000).HashedAfter Sample.solver id (fun _ => false) 0 := by
  rintro ⟨s, _, _, u, hu, _⟩
  rw [unfold_wide _ (Sample.wide_latches (by omega))] at hu
  cases hu

end ModelChecker
