import ModelChecker.Bmc.Hashing

/-!
# The indices of `unfold`

`unfold` once more, with every index into `values`, `tempvalue`, `nodes` and `hash_table` compared with the
size of the container at that moment. On a circuit that fits the initial sizes and whose gates keep pace
with its inputs, no comparison ever fails.
-/

namespace ModelChecker

open Logic

/-! ## Checked indices -/

/-- `values` has as many entries as `variables`. -/
def Aiger.valuesSize (A : Aiger) : Nat := A.max_var + 1

/-- `value(p)` reads an entry of `values`. -/
def Aiger.Reads (A : Aiger) (p : Int) : Prop := p.natAbs < A.valuesSize

instance (A : Aiger) (p : Int) : Decidable (A.Reads p) := inferInstanceAs (Decidable (_ < _))

/-- `Aig_And` with the indices into `values` checked; those into `ands` are checked by `fanins`. -/
def Aig_AndIn (A : Aiger) (values : Nat → Int) : Nat → Int → Int → Option Int
  | 0, _, _ => none
  | fuel + 1, p0, p1 =>
    if ¬ (A.Reads p0 ∧ A.Reads p1) then none
    else
      let v0 := value values p0
      let v1 := value values p1
      if v0 = v1 then some v0
      else if v0 = -v1 then some 1
      else if v0.natAbs = 1 then some (if v0 = -1 then v1 else 1)
      else if v1.natAbs = 1 then some (if v1 = -1 then v0 else 1)
      else
        (A.fanins p0).bind fun f0 => (A.fanins p1).bind fun f1 =>
          if ¬ (A.Reads f0.1 ∧ A.Reads f0.2 ∧ A.Reads f1.1 ∧ A.Reads f1.2) then none
          else if A.first_and ≤ p0.natAbs ∨ A.first_and ≤ p1.natAbs then
            match strash values p0 f0.1 f0.2 v1 with
            | .ret v => some v
            | .call q0 q1 => Aig_AndIn A values fuel q0 q1
            | .skip =>
              match strash values p1 f1.1 f1.2 v0 with
              | .ret v => some v
              | .call q0 q1 => Aig_AndIn A values fuel q0 q1
              | .skip => some 0
          else some 0

/-- `unfoldAnd` with all indices checked. A new gate is pushed to `nodes` before its children are counted
there. -/
def Unfolding.unfoldAndIn (A : Aiger) (s : Unfolding) (a : AndGate) : Option Unfolding :=
  if A.valuesSize ≤ a.o then none
  else
    let s := s.setValue a.o 0
    (Aig_AndIn A s.values a.o a.i1 a.i2).bind fun v =>
      if v ≠ 0 then some (s.setValue a.o v)
      else if ¬ (A.Reads a.i1 ∧ A.Reads a.i2) then none
      else
        let i1 := value s.values a.i1
        let i2 := value s.values a.i2
        if s.uaiger.hash_size ≤ i1.natAbs then none
        else
          let output := lookup (s.uaiger.hash_table i1.natAbs) i1 i2
          if output ≠ 0 then some (s.setValue a.o output)
          else if s.uaiger.nodes.length + 1 ≤ i1.natAbs ∨ s.uaiger.nodes.length + 1 ≤ i2.natAbs then none
          else if s.uaiger.hash_size ≤ i2.natAbs then none
          else some (s.newAnd a.o i1 i2)

/-- The indices behind the gates: the literals of the constraints, of the property and of the next states,
the node of the property, and the entries of the latches. -/
def BmcConfig.TailIn (B : BmcConfig) (s : Unfolding) : Prop :=
  (∀ l ∈ B.circuit.constraints, B.circuit.Reads l) ∧ B.circuit.Reads B.checked ∧
    (value s.values B.checked).natAbs < s.uaiger.nodes.length ∧ B.circuit.num_latches ≤ tempvalueSize ∧
    B.circuit.num_latches ≤ B.circuit.nexts.length ∧ (∀ l ∈ B.circuit.nexts, B.circuit.Reads l) ∧
    ∀ i, i < B.circuit.num_latches → i + B.circuit.num_inputs + 2 < B.circuit.valuesSize

instance (B : BmcConfig) (s : Unfolding) : Decidable (B.TailIn s) :=
  inferInstanceAs (Decidable (_ ∧ _ ∧ _ ∧ _ ∧ _ ∧ _ ∧ _))

/-- `unfold` with all indices checked. -/
def BmcConfig.unfoldIn (B : BmcConfig) (s : Unfolding) : Option Unfolding :=
  let A := B.circuit.toAiger
  if ¬ ∀ i, i < A.num_inputs → i + 2 < A.valuesSize then none
  else
    let s := (List.range A.num_inputs).foldl Unfolding.addInput s
    (A.ands.foldlM (Unfolding.unfoldAndIn A) s).bind fun s =>
      if ¬ B.TailIn s then none else some ((s.addProperties A B.checked).stepLatches A)

/-! ## Indices into `values` -/

variable {A : Circuit} {B : BmcConfig} {values : Nat → Int} {s s' : Unfolding} {w : Assignment → Assignment}

theorem reads_of_lt {p : Int} {n : Nat} (h : p.natAbs < n) (hn : n ≤ A.max_var + 1) : A.Reads p :=
  Nat.lt_of_lt_of_le h hn

theorem reads_of_litOk {l : Int} (h : A.LitOk l) : A.Reads l := Nat.lt_succ_of_le h.2

theorem reads_fanins {p : Int} {f : Int × Int} (hp : A.Reads p) (h : A.fanins p = some f) :
    A.Reads f.1 ∧ A.Reads f.2 := by
  unfold Aiger.fanins at h
  split at h
  · obtain ⟨a, ha, rfl⟩ := Option.map_eq_some_iff.mp h
    have hmem := List.mem_of_getElem? ha
    have ho := (Circuit.o_range hmem).2
    have h1 := A.wf.fanin1 a hmem
    have h2 := A.wf.fanin2 a hmem
    exact ⟨reads_of_lt h1.2 (by omega), reads_of_lt h2.2 (by omega)⟩
  · cases h
    refine ⟨?_, ?_⟩
    · unfold Aiger.Reads at hp ⊢
      rwa [Int.natAbs_natCast]
    · show 1 < A.max_var + 1
      unfold Aiger.max_var
      omega

/-- The rules call `Aig_And` on fan-ins. -/
theorem strash_call {p fa fb v q0 q1 : Int} (h : strash values p fa fb v = .call q0 q1)
    (ha : A.Reads fa) (hb : A.Reads fb) : A.Reads q0 ∧ A.Reads q1 := by
  have hneg : ∀ q : Int, A.Reads q → A.Reads (-q) := fun q hq => by
    unfold Aiger.Reads at *
    rwa [Int.natAbs_neg]
  unfold strash at h
  simp only at h
  split_ifs at h
  · cases h
    exact ⟨hneg _ ha, hb⟩
  · cases h
    exact ⟨hneg _ hb, ha⟩

theorem aigAndIn_eq (values : Nat → Int) (fuel : Nat) : ∀ {p0 p1 : Int}, A.Reads p0 → A.Reads p1 →
    Aig_AndIn A.toAiger values fuel p0 p1 = Aig_And A.toAiger values fuel p0 p1 := by
  induction fuel with
  | zero => exact fun _ _ => rfl
  | succ fuel ih =>
      intro p0 p1 h0 h1
      rw [Aig_AndIn, Aig_And, if_neg (not_not.mpr ⟨h0, h1⟩)]
      dsimp only
      refine ite_congr rfl (fun _ => rfl) fun _ => ite_congr rfl (fun _ => rfl) fun _ => ?_
      refine ite_congr rfl (fun _ => rfl) fun _ => ite_congr rfl (fun _ => rfl) fun _ => ?_
      refine Option.bind_congr fun f0 hf0 => Option.bind_congr fun f1 hf1 => ?_
      obtain ⟨hr0, hr0'⟩ := reads_fanins h0 hf0
      obtain ⟨hr1, hr1'⟩ := reads_fanins h1 hf1
      rw [if_neg (not_not.mpr ⟨hr0, hr0', hr1, hr1'⟩)]
      refine ite_congr rfl (fun _ => ?_) fun _ => rfl
      cases hs0 : strash values p0 f0.1 f0.2 (value values p1) with
      | ret v => rfl
      | call q0 q1 =>
          obtain ⟨hq0, hq1⟩ := strash_call hs0 hr0 hr0'
          exact ih hq0 hq1
      | skip =>
          dsimp only
          cases hs1 : strash values p1 f1.1 f1.2 (value values p0) with
          | ret v => rfl
          | call q0 q1 =>
              obtain ⟨hq0, hq1⟩ := strash_call hs1 hr1 hr1'
              exact ih hq0 hq1
          | skip => rfl

/-! ## One call -/

theorem unfoldAndIn_eq {a : AndGate} (ha : a ∈ A.ands) (h : StepFrame A a.o w s) :
    s.unfoldAndIn A.toAiger a = s.unfoldAnd A.toAiger a := by
  have h1 := A.wf.fanin1 a ha
  have h2 := A.wf.fanin2 a ha
  have hmax := (Circuit.o_range ha).2
  have hr1 : A.Reads a.i1 := reads_of_lt h1.2 (by omega)
  have hr2 : A.Reads a.i2 := reads_of_lt h2.2 (by omega)
  have h0 : StepFrame A a.o w (s.setValue a.o 0) := h.clear (by omega)
  have hl1 := (h0.litIn h1).2
  have hl2 := (h0.litIn h2).2
  unfold Unfolding.unfoldAndIn Unfolding.unfoldAnd
  rw [if_neg (by unfold Aiger.valuesSize; omega)]
  dsimp only
  rw [aigAndIn_eq _ _ hr1 hr2]
  refine Option.bind_congr fun v _ => ite_congr rfl (fun _ => rfl) fun _ => ?_
  rw [if_neg (not_not.mpr ⟨hr1, hr2⟩)]
  refine ite_congr rfl (fun _ => rfl) fun _ => ite_congr rfl (fun _ => rfl) fun _ => ?_
  rw [if_neg (by omega)]

theorem unfoldAndsIn_eq {gs : List AndGate} (hgs : ∀ a ∈ gs, a ∈ A.ands) :
    ∀ {n : Nat} {s : Unfolding}, (∀ i, (h : i < gs.length) → (gs.get ⟨i, h⟩).o = n + i) →
      StepFrame A n w s → (gs = [] ∨ s.uaiger.nodes.length + gs.length ≤ s.uaiger.hash_size + 1) →
      gs.foldlM (Unfolding.unfoldAndIn A.toAiger) s = gs.foldlM (Unfolding.unfoldAnd A.toAiger) s := by
  induction gs with
  | nil => exact fun _ _ _ => rfl
  | cons a gs ih =>
      intro n s hn h hroom
      have ho : a.o = n := hn 0 (by simp)
      have hsize := hroom.resolve_left (List.cons_ne_nil a gs)
      rw [List.length_cons] at hsize
      obtain ⟨s1, hs1, hf1, hg1⟩ := unfoldAnd_spec (hgs a List.mem_cons_self) (ho ▸ h) (by omega)
      rw [List.foldlM_cons, List.foldlM_cons, unfoldAndIn_eq (hgs a List.mem_cons_self) (ho ▸ h), hs1]
      refine ih (fun b hb => hgs b (List.mem_cons_of_mem _ hb)) (n := n + 1) (fun i hi => ?_) (ho ▸ hf1) (.inr ?_)
      · have := hn (i + 1) (by rw [List.length_cons]; omega)
        simp only [List.get_eq_getElem, List.getElem_cons_succ] at this ⊢
        omega
      · have := hg1.nodes
        have := hg1.hash_size
        omega

/-- With room, all indices of a call are in range. -/
theorem Unrolled.unfoldIn_eq {k : Nat} (h : Unrolled B k s) (hroom : B.Fits s) :
    B.unfoldIn s = B.unfold s := by
  have hi := addInputs_spec h.table B.circuit.num_inputs
  have hlen := B.circuit.wf.ands_length
  have hands : B.circuit.ands = [] ∨ (List.range B.circuit.num_inputs |>.foldl Unfolding.addInput s).uaiger.nodes.length +
      B.circuit.ands.length ≤ (List.range B.circuit.num_inputs |>.foldl Unfolding.addInput s).uaiger.hash_size + 1 := by
    refine hroom.2.1.imp (fun h0 => List.length_eq_zero_iff.mp (hlen.trans h0)) fun hr => ?_
    rw [hi.nodes, hi.hash_size, hlen]
    exact hr
  have hin : ∀ i, i < B.circuit.num_inputs → i + 2 < B.circuit.valuesSize := by
    intro i hi
    unfold Aiger.valuesSize Aiger.max_var
    omega
  unfold BmcConfig.unfoldIn BmcConfig.unfold
  dsimp only
  rw [if_neg (not_not.mpr hin), unfoldAndsIn_eq (fun a ha => ha) (fun i hi => B.circuit.ands_get hi) (h.frame hi) hands]
  obtain ⟨s2, hs2, hf, hg⟩ := unfoldAnds_spec (fun a (ha : a ∈ B.circuit.ands) => ha)
    (fun i hi => B.circuit.ands_get hi) (h.frame hi) hands
  rw [hs2, Option.bind_some, Option.bind_some]
  rw [hlen, show B.circuit.first_and + B.circuit.num_ands = B.circuit.max_var + 1 by
    unfold Aiger.first_and Aiger.max_var; omega] at hf
  have hchecked := checked_ok B
  have htail : B.TailIn s2 := by
    refine ⟨fun l hl => reads_of_litOk (B.circuit.wf.constraints_ok l hl), reads_of_litOk hchecked, ?_, hroom.1,
      B.circuit.wf.nexts_length.ge, fun l hl => reads_of_litOk (B.circuit.wf.nexts_ok l hl), fun i hi => ?_⟩
    · exact (hf.litIn ⟨hchecked.1, Nat.lt_succ_of_le hchecked.2⟩).2
    · unfold Aiger.valuesSize Aiger.max_var
      omega
  rw [if_neg (not_not.mpr htail), if_neg (by have := hroom.1; omega)]

/-! ## Runs -/

/-- `k` frames stay within the containers: the latches fit `tempvalue`; if there are gates, the nodes of the
first frame fit the initial hash table, and so do those of all frames unless there are so few inputs that the
growth loop makes up for them; node numbers are of type `int`. -/
def BmcConfig.Paced (B : BmcConfig) (k : Nat) : Prop :=
  B.circuit.num_latches ≤ tempvalueSize ∧
    (B.circuit.num_ands = 0 ∨
      B.circuit.num_latches + 2 + (B.circuit.num_inputs + B.circuit.num_ands) ≤ hashTableSize + 1 ∧
        (B.circuit.num_inputs ≤ 2 * B.circuit.num_ands + 1 ∨
          B.circuit.num_latches + 2 + k * (B.circuit.num_inputs + B.circuit.num_ands) ≤ hashTableSize + 1)) ∧
    B.circuit.num_latches + 2 + k * (B.circuit.num_inputs + B.circuit.num_ands) ≤ 2 ^ 31

/-- How far the nodes and the hash table have grown after `j` frames. -/
structure Growth (B : BmcConfig) (j : Nat) (s : Unfolding) : Prop where
  nodes : s.uaiger.nodes.length ≤
    B.circuit.num_latches + 2 + j * (B.circuit.num_inputs + B.circuit.num_ands)
  initial : hashTableSize ≤ s.uaiger.hash_size
  grown : j = 0 ∨ s.uaiger.nodes.length + B.circuit.num_ands * 3 ≤ s.uaiger.hash_size

theorem Growth.fits {j k : Nat} (h : Growth B j s) (hp : B.Paced k) (hj : j < k) : B.Fits s := by
  obtain ⟨hL, hands, hint⟩ := hp
  have hmul : (j + 1) * (B.circuit.num_inputs + B.circuit.num_ands) ≤
      k * (B.circuit.num_inputs + B.circuit.num_ands) := Nat.mul_le_mul_right _ hj
  have hnodes := h.nodes
  have hinit := h.initial
  rw [Nat.succ_mul] at hmul
  refine ⟨hL, hands.imp id ?_, by omega⟩
  rintro ⟨hfirst, hlater⟩
  rcases h.grown with rfl | hgrown
  · rw [Nat.zero_mul] at hnodes
    omega
  · rcases hlater with hfew | hsmall
    · omega
    · omega

theorem growth_init (B : BmcConfig) : Growth B 0 B.initUnfold := by
  obtain ⟨hnodes, _, ⟨_, _, _, _, _, hsize⟩, _, _⟩ := initUnfold_spec B
  exact ⟨by omega, hsize.ge, .inl rfl⟩

theorem Growth.next {j : Nat} {u : Unfolding} (h : Growth B j s) (hst : Stepped B.circuit s u) :
    Growth B (j + 1) (B.growTable u) := by
  have hnodes := h.nodes
  have hinit := h.initial
  have hstep := hst.nodes
  have hsize := hst.hash_size
  refine ⟨?_, ?_, .inr (le_max_right _ _)⟩
  · show u.uaiger.nodes.length ≤ _
    rw [Nat.succ_mul]
    omega
  · show hashTableSize ≤ max u.uaiger.hash_size _
    exact (hsize.symm ▸ hinit).trans (le_max_left _ _)

variable {S : Ipasir} {t : Nat → Nat} {terminated : Nat → Bool}

theorem rounds_growth {k : Nat} (hp : B.Paced k) {j : Nat} (hj : j ≤ k) :
    ∃ s, B.rounds S t terminated j = some s ∧ Unrolled B j s.toUnfolding ∧ Growth B j s.toUnfolding := by
  induction j with
  | zero => exact ⟨_, rfl, unrolled_init B, growth_init B⟩
  | succ j ih =>
      obtain ⟨s, hs, hun, hg⟩ := ih (by omega)
      obtain ⟨u, hu, hun', hst⟩ := hun.unfold (hg.fits hp hj)
      have hsolve := solve_unfolding B S (t j) (terminated j) { s with toUnfolding := u }
      refine ⟨_, rounds_succ hs hu, ?_, ?_⟩
      · simp only
        rw [hsolve]
        exact hun'.grow _
      · simp only
        rw [hsolve]
        exact hg.next hst

/-- All indices of the first `k` calls of `unfold` are in range, with `solve_one_frame` in between. -/
def BmcConfig.IndicesIn (B : BmcConfig) (S : Ipasir) (t : Nat → Nat) (terminated : Nat → Bool) (k : Nat) : Prop :=
  ∀ j, j < k → ∃ s u, B.rounds S t terminated j = some s ∧ B.unfoldIn s.toUnfolding = some u

/-- As long as the circuit keeps pace with the containers, no index is out of range. -/
theorem indices_in_range (B : BmcConfig) (S : Ipasir) (t : Nat → Nat) (terminated : Nat → Bool) (k : Nat)
    (hp : B.Paced k) : B.IndicesIn S t terminated k := by
  intro j hj
  obtain ⟨s, hs, hun, hg⟩ := rounds_growth hp hj.le
  have hroom := hg.fits hp hj
  obtain ⟨u, hu, _, _⟩ := hun.unfold hroom
  exact ⟨s, u, hs, (hun.unfoldIn_eq hroom).trans hu⟩

/-- A thousand frames of `pulse`. -/
theorem indices_in_range_pulse : Sample.pulseConfig.IndicesIn Sample.solver id (fun _ => false) 1000 := by
  refine indices_in_range _ _ _ _ 1000 ⟨?_, .inr ⟨?_, .inl ?_⟩, ?_⟩
  · show 1 ≤ 999999
    omega
  · show 1 + 2 + (1 + 4) ≤ 99999999 + 1
    omega
  · show 1 ≤ 2 * 4 + 1
    omega
  · show 1 + 2 + 1000 * (1 + 4) ≤ 2 ^ 31
    omega

theorem unfoldIn_wide (B : BmcConfig) (h : tempvalueSize < B.circuit.num_latches) (s : Unfolding) :
    B.unfoldIn s = none := by
  unfold BmcConfig.unfoldIn
  dsimp only
  split
  · rfl
  · refine Option.bind_eq_none_iff.mpr fun s2 _ => if_pos ?_
    rintro ⟨_, _, _, hL, _⟩
    omega

/-- The first call writes past the end of `tempvalue`. -/
theorem index_out_of_range : ¬ (Sample.wide 1000000).IndicesIn Sample.solver id (fun _ => false) 1 := by
  intro h
  obtain ⟨s, u, _, hu⟩ := h 0 Nat.one_pos
  rw [unfoldIn_wide _ (Sample.wide_latches (by omega))] at hu
  cases hu

end ModelChecker
