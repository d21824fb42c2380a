import Mathlib.Data.List.GetD
import ModelChecker.Bmc.Lemmas.Unfold

/-!
# Runs of `unfold`

What holds after `initialize` and any number of calls of `unfold`, as long as the arrays are large
enough.
-/

namespace ModelChecker

open Logic

variable {A : Circuit} {B : BmcConfig} {U : UnfoldAiger} {s s' : Unfolding} {leaf : Assignment}

/-! ## The simulation -/

theorem simulate_input (inputs : List Nat) (k : Nat) {v : Nat} (hv : v < A.num_inputs + 2) :
    A.simulate leaf inputs k v = leaf (inputs.getD (k * A.num_inputs + (v - 2)) 0) := by
  cases k with
  | zero => unfold Circuit.simulate; rw [if_pos hv, Nat.zero_mul, Nat.zero_add]
  | succ k => unfold Circuit.simulate; rw [if_pos hv]

theorem simulate_init (inputs : List Nat) {v : Nat} (hv : A.num_inputs + 2 ≤ v) :
    A.simulate leaf inputs 0 v = A.initValue leaf v :=
  if_neg (by omega)

theorem simulate_latch (inputs : List Nat) (k : Nat) {v : Nat} (hv : A.num_inputs + 2 ≤ v) :
    A.simulate leaf inputs (k + 1) v =
      A.val (A.simulate leaf inputs k) (A.nexts.getD (v - (A.num_inputs + 2)) 1) :=
  if_neg (by omega)

/-- More leaves do not change the steps whose inputs are already there. -/
theorem simulate_append {inputs : List Nat} (more : List Nat) : ∀ k v, 2 ≤ v → v < A.first_and →
    (if v < A.num_inputs + 2 then k + 1 else k) * A.num_inputs ≤ inputs.length →
    A.simulate leaf (inputs ++ more) k v = A.simulate leaf inputs k v := by
  intro k
  induction k with
  | zero =>
      intro v h2 hv hlen
      by_cases hi : v < A.num_inputs + 2
      · rw [if_pos hi] at hlen
        rw [simulate_input _ _ hi, simulate_input _ _ hi, List.getD_append _ _ _ _ (by omega)]
      · unfold Circuit.simulate; rw [if_neg hi, if_neg hi]
  | succ k ih =>
      intro v h2 hv hlen
      by_cases hi : v < A.num_inputs + 2
      · rw [if_pos hi] at hlen
        have : (k + 1 + 1) * A.num_inputs = (k + 1) * A.num_inputs + A.num_inputs := by ring
        rw [simulate_input _ _ hi, simulate_input _ _ hi, List.getD_append _ _ _ _ (by omega)]
      · rw [if_neg hi] at hlen
        have hlat := Circuit.IsLatch.eq_latch (A := A) ⟨not_lt.mp hi, hv⟩
        rw [simulate_latch _ _ (by omega), simulate_latch _ _ (by omega)]
        refine Circuit.val_congr (fun u hu1 hu2 => ih u hu1 hu2 ?_) (Circuit.next_ok hlat.1)
        split
        · exact hlen
        · exact (Nat.mul_le_mul_right _ (Nat.le_succ k)).trans hlen

theorem val_simulate_append {inputs : List Nat} (more : List Nat) {k : Nat} {l : Int} (hl : A.LitOk l)
    (hlen : (k + 1) * A.num_inputs ≤ inputs.length) :
    A.val (A.simulate leaf (inputs ++ more) k) l = A.val (A.simulate leaf inputs k) l := by
  refine Circuit.val_congr (fun u hu1 hu2 => simulate_append more k u hu1 hu2 ?_) hl
  split
  · exact hlen
  · exact (Nat.mul_le_mul_right _ (Nat.le_succ k)).trans hlen

/-! ## The inputs of one step -/

/-- `m` new leaves for the first `m` inputs. -/
structure Inputs (A : Circuit) (s s' : Unfolding) (m : Nat) : Prop where
  table : Table A s'.uaiger
  ext : Ext s.uaiger s'.uaiger
  nodes : s'.uaiger.nodes.length = s.uaiger.nodes.length + m
  ands : s'.uaiger.ands = s.uaiger.ands
  inputs : s'.uaiger.inputs = s.uaiger.inputs ++ (List.range m).map (s.uaiger.nodes.length + ·)
  outputs : s'.uaiger.outputs = s.uaiger.outputs
  constraints : s'.uaiger.constraints = s.uaiger.constraints
  hash_size : s'.uaiger.hash_size = s.uaiger.hash_size
  input : ∀ i, i < m → s'.values (i + 2) = ((s.uaiger.nodes.length + i : Nat) : Int)
  other : ∀ v, (∀ i, i < m → v ≠ i + 2) → s'.values v = s.values v

theorem addInputs_spec (h : Table A s.uaiger) (m : Nat) :
    Inputs A s ((List.range m).foldl Unfolding.addInput s) m := by
  induction m with
  | zero =>
      exact ⟨h, .refl _, rfl, rfl, by simp, rfl, rfl, rfl, fun i hi => absurd hi (by omega),
        fun _ _ => rfl⟩
  | succ m ih =>
      rw [List.range_succ, List.foldl_append]
      generalize (List.range m).foldl Unfolding.addInput s = t at ih
      obtain ⟨ht, hext⟩ := ih.table.pushLeaf [t.uaiger.nodes.length] (Or.inr rfl)
      refine ⟨ht, ih.ext.trans hext, ?_, ih.ands, ?_, ih.outputs, ih.constraints, ih.hash_size,
        fun i hi => ?_, fun v hv => ?_⟩
      · simp [Unfolding.addInput, ih.nodes, Nat.add_assoc]
      · rw [List.range_succ, List.map_append, ← List.append_assoc, ← ih.inputs]
        simp [Unfolding.addInput, UnfoldAiger.nsize, ih.nodes]
      · by_cases he : i = m
        · subst he
          simp [Unfolding.addInput, UnfoldAiger.nsize, ih.nodes]
        · have : (t.addInput m).values (i + 2) = t.values (i + 2) :=
            Function.update_of_ne (by omega) _ _
          exact this.trans (ih.input i (by omega))
      · have : (t.addInput m).values v = t.values v := Function.update_of_ne (hv m (by omega)) _ _
        exact this.trans (ih.other v fun i hi => hv i (by omega))

/-! ## The invariant -/

/-- After `k` steps: `outputs` and `constraints` have the values of the checked property and of the
constraints in the first `k` steps of the simulation, and the latches those of its `k`-th point. -/
structure Unrolled (B : BmcConfig) (k : Nat) (s : Unfolding) : Prop where
  table : Table B.circuit s.uaiger
  one : s.values 1 = 1
  inputs_length : s.uaiger.inputs.length = k * B.circuit.num_inputs
  latch_in : ∀ v, B.circuit.IsLatch v → s.uaiger.LitIn (s.values v)
  output_in : ∀ l ∈ s.uaiger.outputs, s.uaiger.LitIn l
  constraint_in : ∀ l ∈ s.uaiger.constraints, s.uaiger.LitIn l
  latch : ∀ leaf v, B.circuit.IsLatch v → litVal (s.uaiger.eval leaf) (s.values v) =
    B.circuit.simulate leaf s.uaiger.inputs k v
  outputs : ∀ leaf, s.uaiger.outputs.map (litVal (s.uaiger.eval leaf)) =
    (List.range k).map fun j => B.circuit.val (B.circuit.simulate leaf s.uaiger.inputs j) B.checked
  constraints : ∀ leaf, s.uaiger.constraints.map (litVal (s.uaiger.eval leaf)) =
    (List.range k).flatMap fun j =>
      B.circuit.constraints.map (B.circuit.val (B.circuit.simulate leaf s.uaiger.inputs j))

theorem checked_ok (B : BmcConfig) : B.circuit.LitOk B.checked :=
  B.circuit.wf.allbad_ok _ (List.get_mem _ _)

/-- What one call needs: an entry of `tempvalue` for every latch and, if there are gates, one of the hash
table for every node that the last of them may look up; node numbers are of type `int`. -/
def BmcConfig.Fits (B : BmcConfig) (s : Unfolding) : Prop :=
  B.circuit.num_latches ≤ tempvalueSize ∧ (B.circuit.num_ands = 0 ∨
    s.uaiger.nodes.length + B.circuit.num_inputs + B.circuit.num_ands ≤ s.uaiger.hash_size + 1) ∧
    s.uaiger.nodes.length + B.circuit.num_inputs + B.circuit.num_ands ≤ 2 ^ 31

instance (B : BmcConfig) (s : Unfolding) : Decidable (B.Fits s) := inferInstanceAs (Decidable (_ ∧ _ ∧ _))

/-- After the inputs of step `k`, all variables below the gates have their values at that step. -/
theorem Unrolled.frame {k : Nat} (h : Unrolled B k s) (hi : Inputs B.circuit s s' B.circuit.num_inputs) :
    StepFrame B.circuit B.circuit.first_and
      (fun leaf => B.circuit.simulate leaf s'.uaiger.inputs k) s' := by
  have hone : s'.values 1 = 1 := (hi.other 1 fun i _ => by omega).trans h.one
  have hval : ∀ v, B.circuit.IsLatch v → s'.values v = s.values v := fun v hv =>
    hi.other v fun i hlt => by have := hv.1; omega
  have hin : ∀ v, 2 ≤ v → v < B.circuit.num_inputs + 2 →
      s'.values v = ((s.uaiger.nodes.length + (v - 2) : Nat) : Int) := by
    intro v h2 hlt
    have := hi.input (v - 2) (by omega)
    rwa [Nat.sub_add_cancel h2] at this
  have hnodes := h.table.nodes
  refine ⟨hi.table, hone, fun v h1 h2 => ?_, fun leaf v h1 h2 => ?_⟩
  · rcases (by omega : v = 1 ∨ (2 ≤ v ∧ v < B.circuit.num_inputs + 2) ∨ B.circuit.num_inputs + 2 ≤ v)
      with rfl | ⟨h2', hlt⟩ | hge
    · rw [hone]; exact ⟨le_rfl, by have := hi.table.nodes; show 1 < _; omega⟩
    · rw [hin v h2' hlt]
      exact ⟨by rw [Int.natAbs_natCast]; omega, by rw [Int.natAbs_natCast, hi.nodes]; omega⟩
    · rw [hval v ⟨hge, h2⟩]; exact hi.ext.litIn (h.latch_in v ⟨hge, h2⟩)
  · rcases (by omega : v = 1 ∨ (2 ≤ v ∧ v < B.circuit.num_inputs + 2) ∨ B.circuit.num_inputs + 2 ≤ v)
      with rfl | ⟨h2', hlt⟩ | hge
    · rw [hone, Circuit.eval_one]; exact hi.table.eval_one
    · -- the leaf of this input is the one at position `k * num_inputs + (v - 2)`
      rw [hin v h2' hlt, litVal_natCast, Circuit.eval_leaf _ h2' h2, simulate_input _ _ hlt, hi.inputs,
        List.getD_append_right _ _ _ _ (by rw [h.inputs_length]; omega), h.inputs_length,
        Nat.add_sub_cancel_left, List.getD_eq_getElem?_getD, List.getElem?_map,
        List.getElem?_range (by omega)]
      refine hi.table.eval_leaf (fun a ha => ?_) (by omega)
      rw [hi.ands] at ha
      have := (h.table.range a ha).2
      omega
    · rw [hval v ⟨hge, h2⟩, hi.ext.litVal (h.latch_in v ⟨hge, h2⟩), h.latch leaf v ⟨hge, h2⟩,
        Circuit.eval_leaf _ (by omega) h2, hi.inputs]
      refine (simulate_append _ k v (by omega) h2 ?_).symm
      rw [if_neg (by omega), h.inputs_length]

/-- What one call of `unfold` adds. -/
structure Stepped (A : Circuit) (s s' : Unfolding) : Prop where
  ext : Ext s.uaiger s'.uaiger
  outputs : ∃ b, s'.uaiger.outputs = s.uaiger.outputs ++ [b]
  constraints : ∃ cs, s'.uaiger.constraints = s.uaiger.constraints ++ cs ∧
    cs.length = A.constraints.length
  hash_size : s'.uaiger.hash_size = s.uaiger.hash_size
  nodes : s'.uaiger.nodes.length ≤ s.uaiger.nodes.length + A.num_inputs + A.num_ands

/-- The values of old literals in an extended table and a longer simulation. -/
theorem map_litVal_append {f g : Nat → List Bool} {k : Nat} {old new : List Int} {U' : UnfoldAiger}
    (hext : Ext U U') (hin : ∀ l ∈ old, U.LitIn l)
    (hold : old.map (litVal (U.eval leaf)) = (List.range k).flatMap f)
    (hfg : ∀ j, j < k → g j = f j) (hnew : new.map (litVal (U'.eval leaf)) = g k) :
    (old ++ new).map (litVal (U'.eval leaf)) = (List.range (k + 1)).flatMap g := by
  have h1 : old.map (litVal (U'.eval leaf)) = (List.range k).flatMap g := by
    calc old.map (litVal (U'.eval leaf)) = old.map (litVal (U.eval leaf)) :=
          List.map_congr_left fun l hl => hext.litVal (hin l hl)
      _ = (List.range k).flatMap f := hold
      _ = (List.range k).flatMap g := by
          simp only [List.flatMap_def]
          rw [List.map_congr_left fun j hj => (hfg j (List.mem_range.mp hj)).symm]
  rw [List.map_append, h1, hnew, List.range_succ, List.flatMap_append]
  simp

theorem stepLatches_values {v : Nat} (hv : B.circuit.IsLatch v) :
    ((s.addProperties B.circuit.toAiger B.checked).stepLatches B.circuit.toAiger).values v =
      value s.values (B.circuit.nexts.getD (v - (B.circuit.num_inputs + 2)) 1) := by
  have hidx : v - (B.circuit.num_inputs + 2) < B.circuit.nexts.length := by
    rw [B.circuit.wf.nexts_length]; exact (Circuit.IsLatch.eq_latch hv).1
  simp only [Unfolding.stepLatches, if_pos hv, Unfolding.addProperties, List.getD_eq_getElem?_getD,
    List.getElem?_map, List.getElem?_eq_getElem hidx, Option.map_some, Option.getD_some]

/-- All variables have their values at step `k`: the property, the constraints and the latches follow. -/
theorem Unrolled.close {k : Nat} (h : Unrolled B k s) (hext : Ext s.uaiger s'.uaiger)
    (hf : StepFrame B.circuit (B.circuit.max_var + 1)
      (fun leaf => B.circuit.simulate leaf s'.uaiger.inputs k) s')
    (hin : s'.uaiger.inputs = s.uaiger.inputs ++
      (List.range B.circuit.num_inputs).map (s.uaiger.nodes.length + ·))
    (hout : s'.uaiger.outputs = s.uaiger.outputs)
    (hcons : s'.uaiger.constraints = s.uaiger.constraints) :
    Unrolled B (k + 1)
      ((s'.addProperties B.circuit.toAiger B.checked).stepLatches B.circuit.toAiger) := by
  have hlit : ∀ {l}, B.circuit.LitOk l → s'.uaiger.LitIn (value s'.values l) := fun hl =>
    hf.litIn ⟨hl.1, Nat.lt_succ_of_le hl.2⟩
  have hval : ∀ {leaf l}, B.circuit.LitOk l → litVal (s'.uaiger.eval leaf) (value s'.values l) =
      B.circuit.val (B.circuit.simulate leaf s'.uaiger.inputs k) l := fun hl =>
    hf.litVal ⟨hl.1, Nat.lt_succ_of_le hl.2⟩
  have hold : ∀ {leaf j l}, j < k → B.circuit.LitOk l →
      B.circuit.val (B.circuit.simulate leaf s'.uaiger.inputs j) l =
        B.circuit.val (B.circuit.simulate leaf s.uaiger.inputs j) l := by
    intro leaf j l hj hl
    rw [hin]
    exact val_simulate_append _ hl (by rw [h.inputs_length]; exact Nat.mul_le_mul_right _ hj)
  have hnext : ∀ v, B.circuit.IsLatch v →
      B.circuit.LitOk (B.circuit.nexts.getD (v - (B.circuit.num_inputs + 2)) 1) := fun v hv =>
    Circuit.next_ok (Circuit.IsLatch.eq_latch hv).1
  refine ⟨⟨hf.table.nodes, hf.table.ands, hf.table.topo, hf.table.range, hf.table.bucket,
    hf.table.inputs, hf.table.nodup⟩, ?_, ?_, fun v hv => ?_, fun l hl => ?_, fun l hl => ?_,
    fun leaf v hv => ?_, fun leaf => ?_, fun leaf => ?_⟩
  · have hn : ¬ B.circuit.IsLatch 1 := fun hl => by have := hl.1; omega
    simp only [Unfolding.stepLatches, if_neg hn]
    exact hf.one
  · show s'.uaiger.inputs.length = _
    rw [hin, List.length_append, h.inputs_length, List.length_map, List.length_range]
    ring
  · rw [stepLatches_values hv]
    exact hlit (hnext v hv)
  · rcases List.mem_append.mp hl with hl | hl
    · rw [hout] at hl; exact hext.litIn (h.output_in l hl)
    · rw [List.mem_singleton.mp hl]; exact hlit (checked_ok B)
  · rcases List.mem_append.mp hl with hl | hl
    · rw [hcons] at hl; exact hext.litIn (h.constraint_in l hl)
    · obtain ⟨m, hm, rfl⟩ := List.mem_map.mp hl
      exact hlit (B.circuit.wf.constraints_ok m hm)
  · rw [stepLatches_values hv, simulate_latch _ _ hv.1]
    exact hval (hnext v hv)
  · show (s'.uaiger.outputs ++ [value s'.values B.checked]).map (litVal (s'.uaiger.eval leaf)) =
      (List.range (k + 1)).map fun j =>
        B.circuit.val (B.circuit.simulate leaf s'.uaiger.inputs j) B.checked
    rw [hout, List.map_eq_flatMap (l := List.range _)]
    refine map_litVal_append hext h.output_in ((h.outputs leaf).trans List.map_eq_flatMap)
      (fun j hj => by rw [hold hj (checked_ok B)]) ?_
    rw [List.map_singleton, hval (checked_ok B)]
  · show (s'.uaiger.constraints ++ B.circuit.constraints.map (value s'.values)).map
        (litVal (s'.uaiger.eval leaf)) = (List.range (k + 1)).flatMap fun j =>
      B.circuit.constraints.map (B.circuit.val (B.circuit.simulate leaf s'.uaiger.inputs j))
    rw [hcons]
    refine map_litVal_append hext h.constraint_in (h.constraints leaf)
      (fun j hj => List.map_congr_left fun l hl => hold hj (B.circuit.wf.constraints_ok l hl)) ?_
    rw [List.map_map]
    refine List.map_congr_left fun l hl => ?_
    rw [Function.comp_apply, hval (B.circuit.wf.constraints_ok l hl)]

/-- One call of `unfold` adds one step of the simulation. -/
theorem Unrolled.unfold {k : Nat} (h : Unrolled B k s) (hfit : B.Fits s) :
    ∃ s', B.unfold s = some s' ∧ Unrolled B (k + 1) s' ∧ Stepped B.circuit s s' := by
  have hi := addInputs_spec h.table B.circuit.num_inputs
  unfold BmcConfig.unfold
  simp only
  generalize (List.range B.circuit.num_inputs).foldl Unfolding.addInput s = s1 at hi ⊢
  have hlen := B.circuit.wf.ands_length
  obtain ⟨s2, hs2, hf, hg⟩ := unfoldAnds_spec (fun a (ha : a ∈ B.circuit.ands) => ha)
    (fun i hi => B.circuit.ands_get hi) (h.frame hi)
    (hfit.2.1.imp (fun h0 => List.length_eq_zero_iff.mp (hlen.trans h0))
      fun hroom => by rw [hi.nodes, hi.hash_size, hlen]; exact hroom)
  rw [hs2, Option.bind_some, if_neg (by have := hfit.1; omega)]
  rw [hlen, show B.circuit.first_and + B.circuit.num_ands = B.circuit.max_var + 1 by
    unfold Aiger.first_and Aiger.max_var; omega, ← hg.inputs] at hf
  have hext : Ext s.uaiger s2.uaiger := hi.ext.trans hg.ext
  have hout : s2.uaiger.outputs = s.uaiger.outputs := hg.outputs.trans hi.outputs
  have hcons : s2.uaiger.constraints = s.uaiger.constraints := hg.constraints.trans hi.constraints
  refine ⟨_, rfl, h.close hext hf (hg.inputs.trans hi.inputs) hout hcons, ?_⟩
  refine ⟨⟨hext.nodes, hext.ands, hext.fresh, hext.eval⟩, ⟨_, congrArg (· ++ _) hout⟩,
    ⟨_, congrArg (· ++ _) hcons, List.length_map _⟩, hg.hash_size.trans hi.hash_size, ?_⟩
  have := hg.nodes
  rw [hi.nodes, hlen] at this
  exact this

/-! ## `initialize` -/

theorem foldl_initValues {ls : List Int} (hd : ls.Pairwise fun a b => a.natAbs ≠ b.natAbs)
    (h0 : ∀ l ∈ ls, l ≠ 0) (values : Nat → Int) (v : Nat) :
    ls.foldl (fun values latch =>
      if 0 < latch then Function.update values latch.natAbs (-1)
      else if latch < 0 then Function.update values latch.natAbs 1
      else values) values v =
      if (v : Int) ∈ ls then -1 else if -(v : Int) ∈ ls then 1 else values v := by
  induction ls generalizing values with
  | nil => simp
  | cons l ls ih =>
      obtain ⟨hl, hd'⟩ := List.pairwise_cons.mp hd
      rw [List.foldl_cons, ih hd' fun m hm => h0 m (List.mem_cons_of_mem _ hm)]
      have hl0 := h0 l List.mem_cons_self
      have hnot : v = l.natAbs → (v : Int) ∉ ls ∧ -(v : Int) ∉ ls := by
        rintro rfl
        exact ⟨fun hm => hl _ hm (by omega), fun hm => hl _ hm (by omega)⟩
      by_cases he : v = l.natAbs
      · obtain ⟨hn1, hn2⟩ := hnot he
        rw [if_neg hn1, if_neg hn2]
        by_cases hpos : 0 < l
        · rw [if_pos hpos, if_pos (List.mem_cons.mpr (Or.inl (by omega))), he, Function.update_self]
        · rw [if_neg hpos, if_pos (by omega), if_neg, if_pos (List.mem_cons.mpr (Or.inl (by omega))), he,
            Function.update_self]
          rw [List.mem_cons]
          rintro (hv | hv)
          · omega
          · exact hn1 hv
      · have hv1 : (v : Int) ∈ l :: ls ↔ (v : Int) ∈ ls := by
          rw [List.mem_cons]; exact or_iff_right (by omega)
        have hv2 : -(v : Int) ∈ l :: ls ↔ -(v : Int) ∈ ls := by
          rw [List.mem_cons]; exact or_iff_right (by omega)
        simp only [hv1, hv2]
        split
        · rfl
        · split
          · rfl
          · split
            · exact Function.update_of_ne he _ _
            · split
              · exact Function.update_of_ne he _ _
              · rfl

theorem initValues_apply (v : Nat) : A.initValues v =
    if (v : Int) ∈ A.init_state then -1 else if -(v : Int) ∈ A.init_state then 1
    else if v = 1 then 1 else 0 := by
  have h0 : ∀ l ∈ A.init_state, l ≠ 0 := fun l hl => by
    have := (A.wf.init_latch l hl).1; omega
  refine (foldl_initValues A.wf.init_distinct h0 _ v).trans ?_
  simp only [Function.update_apply]

/-- The loop that gives every latch a leaf. -/
structure InitLoop (A : Circuit) (s : Unfolding) (m : Nat) : Prop where
  nodes : s.uaiger.nodes.length = m + 2
  nodeAnds : s.uaiger.nodeAnds = []
  rest : s.uaiger.inputs = [] ∧ s.uaiger.outputs = [] ∧ s.uaiger.constraints = [] ∧
    s.uaiger.ands = [] ∧ (∀ v, s.uaiger.hash_table v = []) ∧ s.uaiger.hash_size = hashTableSize
  latch : ∀ i, i < m → s.values (A.latch i) =
    if A.initValues (A.latch i) = 0 then ((i + 2 : Nat) : Int) else A.initValues (A.latch i)
  other : ∀ v, (∀ i, i < m → v ≠ A.latch i) → s.values v = A.initValues v

theorem initLoop_spec (A : Circuit) (m : Nat) :
    InitLoop A ((List.range m).foldl (fun s i => s.addLatch (A.latch i))
      { uaiger := { nodes := [⟨.null, 0, 0⟩, ⟨.const, 0, 0⟩], hash_size := hashTableSize }
        values := A.initValues }) m := by
  induction m with
  | zero =>
      exact ⟨rfl, rfl, ⟨rfl, rfl, rfl, rfl, fun _ => rfl, rfl⟩, fun i hi => absurd hi (by omega),
        fun _ _ => rfl⟩
  | succ m ih =>
      rw [List.range_succ, List.foldl_append]
      generalize (List.range m).foldl (fun (s : Unfolding) i => s.addLatch (A.latch i)) _ = t at ih
      have hval : (t.addLatch (A.latch m)).values = if t.values (A.latch m) = 0 then
          Function.update t.values (A.latch m) t.uaiger.nsize else t.values := rfl
      have hne : ∀ v, v ≠ A.latch m → (t.addLatch (A.latch m)).values v = t.values v := by
        intro v hv
        rw [hval]
        split
        · exact Function.update_of_ne hv _ _
        · rfl
      refine ⟨?_, ?_, ih.rest, fun i hi => ?_, fun v hv => ?_⟩
      · simp [Unfolding.addLatch, ih.nodes]
      · rw [List.foldl_cons, List.foldl_nil]
        exact (nodeAnds_push (U := t.uaiger) rfl).trans (by rw [ih.nodeAnds]; rfl)
      · by_cases he : i = m
        · subst he
          have hold := ih.other (A.latch i) fun j hj => by unfold Aiger.latch; omega
          rw [List.foldl_cons, List.foldl_nil, hval, hold]
          split
          · rw [Function.update_self, UnfoldAiger.nsize, ih.nodes]
          · exact hold
        · exact (hne _ (by unfold Aiger.latch; omega)).trans (ih.latch i (by omega))
      · exact (hne v (hv m (by omega))).trans (ih.other v fun i hi => hv i (by omega))

theorem initUnfold_spec (B : BmcConfig) : InitLoop B.circuit B.initUnfold B.circuit.num_latches :=
  initLoop_spec B.circuit _

theorem InitLoop.table (h : InitLoop A s A.num_latches) : Table A s.uaiger := by
  obtain ⟨hin, _, _, hands, hhash, _⟩ := h.rest
  refine ⟨by rw [h.nodes], by rw [h.nodeAnds, hands], ?_, ?_, fun v g hg => ?_, ?_, ?_⟩
  · rw [hands]; exact ⟨List.Pairwise.nil, List.forall_mem_nil _, List.forall_mem_nil _⟩
  · rw [hands]; exact List.forall_mem_nil _
  · rw [hhash v] at hg; cases hg
  · rw [hin]; exact List.forall_mem_nil _
  · rw [hin]; exact List.nodup_nil

theorem InitLoop.latch_values (h : InitLoop A s A.num_latches) {v : Nat} (hv : A.IsLatch v) :
    s.values v = if (v : Int) ∈ A.init_state then -1 else if -(v : Int) ∈ A.init_state then 1
      else ((v - A.num_inputs : Nat) : Int) := by
  obtain ⟨hlt, heq⟩ := Circuit.IsLatch.eq_latch hv
  have hl := h.latch _ hlt
  have h2 := hv.1
  have h1 : v ≠ 1 := by omega
  rw [heq, initValues_apply] at hl
  rw [hl]
  by_cases m1 : (v : Int) ∈ A.init_state
  · simp [m1]
  · by_cases m2 : -(v : Int) ∈ A.init_state
    · simp [m1, m2]
    · simp only [m1, m2, h1, if_false, if_true]
      omega

theorem unrolled_init (B : BmcConfig) : Unrolled B 0 B.initUnfold := by
  have h := initUnfold_spec B
  generalize B.initUnfold = s at h
  obtain ⟨hin, hout, hcons, hands, hhash, _⟩ := h.rest
  have htab := h.table
  have hone : s.values 1 = 1 := by
    have hn : ∀ l ∈ B.circuit.init_state, l.natAbs ≠ 1 := fun l hl => by
      have := (B.circuit.wf.init_latch l hl).1; omega
    rw [h.other 1 fun i _ => by unfold Aiger.latch; omega, initValues_apply,
      if_neg fun hl => hn _ hl rfl, if_neg fun hl => hn _ hl rfl, if_pos rfl]
  have hnodes := h.nodes
  refine ⟨htab, hone, by rw [hin]; simp, fun v hv => ?_, by rw [hout]; exact List.forall_mem_nil _,
    by rw [hcons]; exact List.forall_mem_nil _, fun leaf v hv => ?_, fun leaf => by rw [hout]; rfl,
    fun leaf => by rw [hcons]; rfl⟩
  · have h1 := hv.1
    have h2 := hv.2
    unfold Aiger.first_and at h2
    rw [h.latch_values hv]
    unfold UnfoldAiger.LitIn
    split
    · exact ⟨le_rfl, by show 1 < _; omega⟩
    · split
      · exact ⟨le_rfl, by show 1 < _; omega⟩
      · rw [Int.natAbs_natCast]; omega
  · have h1 := hv.1
    have hc : litVal (s.uaiger.eval leaf) 1 = false := htab.eval_one
    rw [h.latch_values hv, simulate_init _ h1, Circuit.initValue]
    split
    · rw [litVal_neg _ (by decide), hc]; rfl
    · split
      · exact hc
      · rw [litVal_natCast]
        exact htab.eval_leaf (by rw [hands]; exact List.forall_mem_nil _) (by omega)

/-! ## Any number of calls -/

/-- A run of `unfold` in which every call meets `Fits`. -/
theorem unfolds_unrolled (k : Nat) (hfit : ∀ j, j < k → ∀ s, B.unfolds j = some s → B.Fits s) :
    ∃ s, B.unfolds k = some s ∧ Unrolled B k s := by
  induction k with
  | zero => exact ⟨_, rfl, unrolled_init B⟩
  | succ k ih =>
      obtain ⟨s, hs, hu⟩ := ih fun j hj => hfit j (by omega)
      obtain ⟨s', hs', hu', _⟩ := hu.unfold (hfit k (by omega) s hs)
      exact ⟨s', by rw [BmcConfig.unfolds, hs]; exact hs', hu'⟩

/-- A small circuit fits for as many steps as the hash table has room for. -/
theorem unfolds_fits (hL : B.circuit.num_latches ≤ tempvalueSize) {k : Nat}
    (hk : B.circuit.num_latches + 2 + k * (B.circuit.num_inputs + B.circuit.num_ands) ≤ hashTableSize) :
    ∀ j, j < k → ∀ s, B.unfolds j = some s → B.Fits s := by
  -- every step adds at most `num_inputs + num_ands` nodes
  have key : ∀ j, j ≤ k → ∃ s, B.unfolds j = some s ∧ Unrolled B j s ∧
      s.uaiger.hash_size = hashTableSize ∧ s.uaiger.nodes.length ≤
        B.circuit.num_latches + 2 + j * (B.circuit.num_inputs + B.circuit.num_ands) := by
    intro j
    induction j with
    | zero =>
        intro _
        have h := initUnfold_spec B
        exact ⟨_, rfl, unrolled_init B, h.rest.2.2.2.2.2, by rw [h.nodes]; omega⟩
    | succ j ih =>
        intro hj
        obtain ⟨s, hs, hu, hh, hn⟩ := ih (by omega)
        have hmul := Nat.mul_le_mul_right (B.circuit.num_inputs + B.circuit.num_ands) hj
        rw [Nat.succ_mul] at hmul
        have hsz : hashTableSize < 2 ^ 31 := by decide
        have hfit : B.Fits s := ⟨hL, .inr (by omega), by omega⟩
        obtain ⟨s', hs', hu', hst⟩ := hu.unfold hfit
        refine ⟨s', by rw [BmcConfig.unfolds, hs]; exact hs', hu', hst.hash_size.trans hh, ?_⟩
        have := hst.nodes
        rw [Nat.succ_mul]
        omega
  intro j hj s hs
  obtain ⟨s', hs', _, hh, hn⟩ := key j (by omega)
  rw [hs] at hs'
  cases hs'
  have hmul := Nat.mul_le_mul_right (B.circuit.num_inputs + B.circuit.num_ands) (Nat.succ_le_of_lt hj)
  rw [Nat.succ_mul] at hmul
  have hsz : hashTableSize < 2 ^ 31 := by decide
  exact ⟨hL, .inr (by omega), by omega⟩

end ModelChecker
