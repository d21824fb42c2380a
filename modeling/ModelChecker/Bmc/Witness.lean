import ModelChecker.Bmc.Theorems

/-!
# The witness of BMC

The text that `check` prints for a counterexample. It replays: whatever is put for the unknown values, the
simulation meets all constraints and ends in a violation. The newlines are printed by the loop over the
inputs, so a circuit without inputs gets no input lines.
-/

namespace ModelChecker

open Logic

/-! ## Printing -/

/-- `'x'` stands for a value the solver does not know. -/
def valueChar (assignment : Int) : Char := if assignment ≠ 0 then if assignment < 0 then '0' else '1' else 'x'

/-- The array `a` at the variable `v`, after the loop over `init_state`. -/
def Aiger.initChar (A : Aiger) (v : Nat) : Char :=
  A.init_state.foldl (fun c latch => if latch.natAbs = v then if 0 < latch then '1' else '0' else c) 'x'

/-- The character of the `i`-th latch; the leaf of an uninitialised one is node `2 + i`. -/
def Aiger.latchChar (A : Aiger) (solver : CaDiCaL) (i : Nat) : Char :=
  if A.initChar (A.latch i) = 'x' then valueChar (solver.val ((2 + i : Nat) : Int)) else A.initChar (A.latch i)

/-- The loop over the inputs; `inputCount` of them are printed already. -/
def inputsText (num_inputs : Nat) : Nat → List Char → List Char
  | _, [] => []
  | inputCount, c :: cs =>
    c :: ((if (inputCount + 1) % num_inputs = 0 then ['\n'] else []) ++ inputsText num_inputs (inputCount + 1) cs)

/-- The text printed when `output_witness` is set. -/
def BmcConfig.witnessText (B : BmcConfig) (s : BMC) : List Char :=
  "1\nb0\n".toList ++ ((List.range B.circuit.num_latches).map (B.circuit.latchChar s.bmcSolver) ++
    ('\n' :: (inputsText B.circuit.num_inputs 0
      (s.uaiger.inputs.map fun (i : Nat) => valueChar (s.bmcSolver.val i)) ++ ".\n".toList)))

/-! ## Replaying -/

/-- The bit may stand for the character. -/
def Shows (c : Char) (b : Bool) : Prop := c = 'x' ∨ c = if b then '1' else '0'

/-- A run of the circuit along the printed values. -/
structure Follows (A : Circuit) (k : Nat) (latches : List Char) (lines : List (List Char))
    (w : Nat → Assignment) : Prop where
  latch : ∀ i, i < A.num_latches → Shows (latches.getD i 'x') (w 0 (A.latch i))
  input : ∀ j, j < k → ∀ i, i < A.num_inputs → Shows ((lines.getD j []).getD i 'x') (w j (i + 2))
  next : ∀ j, j + 1 < k → ∀ i, i < A.num_latches → w (j + 1) (A.latch i) = A.val (w j) (A.nexts.getD i 1)

/-- The text has a line for the latches, which agrees with the reset values, and `k` lines for the inputs; every
run along them meets the constraints in all `k` steps and violates the property in the last one. -/
def BmcConfig.Replays (B : BmcConfig) (k : Nat) (text : List Char) : Prop :=
  ∃ latches lines, text = "1\nb0\n".toList ++ (latches ++ ('\n' :: (lines.flatMap (fun l => l ++ ['\n']) ++
      ".\n".toList))) ∧
    latches.length = B.circuit.num_latches ∧ lines.length = k ∧
    (∀ line ∈ lines, line.length = B.circuit.num_inputs) ∧
    (∀ l ∈ B.circuit.init_state, latches.getD (l.natAbs - (B.circuit.num_inputs + 2)) 'x' =
      if 0 < l then '1' else '0') ∧
    ∀ w, Follows B.circuit k latches lines w →
      (∀ j, j < k → ∀ l ∈ B.circuit.constraints, B.circuit.val (w j) l = true) ∧
        B.circuit.val (w (k - 1)) B.checked = true

/-! ## Lines -/

/-- One line of the loop over the inputs: the count is a multiple of `num_inputs` before and after it. -/
theorem inputsText_line {n : Nat} (c : Nat) (cs rest : List Char) (hcs : cs ≠ []) (hc : (c + cs.length) % n = 0)
    (hmid : ∀ i, 0 < i → i < cs.length → (c + i) % n ≠ 0) :
    inputsText n c (cs ++ rest) = cs ++ ('\n' :: inputsText n (c + cs.length) rest) := by
  induction cs generalizing c with
  | nil => exact absurd rfl hcs
  | cons x cs ih =>
      rw [List.cons_append, inputsText]
      by_cases hnil : cs = []
      · subst hnil
        simp only [List.length_cons, List.length_nil, Nat.zero_add] at hc
        rw [if_pos hc]
        rfl
      · have hpos : 0 < cs.length := List.length_pos_iff.mpr hnil
        rw [if_neg (hmid 1 Nat.one_pos (by rw [List.length_cons]; omega))]
        have hcount : c + 1 + cs.length = c + (x :: cs).length := by
          rw [List.length_cons]
          omega
        rw [List.nil_append, ih (c + 1) hnil (by rw [hcount]; exact hc) fun i hi hlt => ?_, hcount]
        · rfl
        · rw [show c + 1 + i = c + (i + 1) by omega]
          exact hmid (i + 1) (by omega) (by rw [List.length_cons]; omega)

theorem inputsText_lines {n : Nat} (hn : 0 < n) (k c : Nat) (hc : c % n = 0) (cs : List Char)
    (hlen : cs.length = k * n) : inputsText n c cs =
      ((List.range k).map fun j => (cs.drop (j * n)).take n).flatMap fun l => l ++ ['\n'] := by
  induction k generalizing c cs with
  | zero =>
      rw [Nat.zero_mul] at hlen
      rw [List.length_eq_zero_iff.mp hlen]
      rfl
  | succ k ih =>
      rw [Nat.succ_mul] at hlen
      have htake : (cs.take n).length = n := by
        rw [List.length_take]
        omega
      have hdrop : (cs.drop n).length = k * n := by
        rw [List.length_drop]
        omega
      have hstep : (c + (cs.take n).length) % n = 0 := by
        rw [htake, Nat.add_mod_right, hc]
      have hline := inputsText_line c (cs.take n) (cs.drop n) ?_ hstep fun i hi hlt => ?_
      · rw [List.take_append_drop, ih _ hstep _ hdrop] at hline
        rw [hline, List.range_succ_eq_map, List.map_cons, List.map_map, List.flatMap_cons, Nat.zero_mul,
          List.drop_zero, List.append_assoc]
        congr 2
        refine congrArg (List.flatMap _) (List.map_congr_left fun j _ => ?_)
        rw [Function.comp_apply, List.drop_drop, Nat.succ_mul, Nat.add_comm n]
      · rw [← List.length_pos_iff, htake]
        exact hn
      · rw [htake] at hlt
        rw [Nat.add_mod, hc, Nat.zero_add, Nat.mod_mod, Nat.mod_eq_of_lt hlt]
        omega

variable {B : BmcConfig} {A : Circuit} {s : BMC} {k : Nat}

theorem getD_lines {n : Nat} {cs : List Char} {j i : Nat} (hj : j < k) (hi : i < n) :
    ((((List.range k).map fun j => (cs.drop (j * n)).take n).getD j []).getD i 'x') = cs.getD (j * n + i) 'x' := by
  simp [List.getD_eq_getElem?_getD, hj, hi, List.getElem?_take_of_lt]

/-! ## Characters -/

theorem initChar_of_mem {l : Int} (hl : l ∈ A.init_state) :
    A.initChar l.natAbs = if 0 < l then '1' else '0' := by
  have hd := A.wf.init_distinct
  unfold Aiger.initChar
  generalize A.init_state = ls at hl hd ⊢
  induction ls using List.reverseRecOn with
  | nil => cases hl
  | append_singleton ls x ih =>
      rw [List.foldl_append, List.foldl_cons, List.foldl_nil]
      obtain ⟨hd1, _, hd2⟩ := List.pairwise_append.mp hd
      rcases List.mem_append.mp hl with hl | hl
      · rw [if_neg (Ne.symm (hd2 l hl x (List.mem_singleton.mpr rfl)))]
        exact ih hl hd1
      · rw [List.mem_singleton.mp hl, if_pos rfl]

theorem initChar_of_not_mem {v : Nat} (h : ∀ l ∈ A.init_state, l.natAbs ≠ v) : A.initChar v = 'x' := by
  unfold Aiger.initChar
  generalize A.init_state = ls at h ⊢
  induction ls with
  | nil => rfl
  | cons l ls ih =>
      obtain ⟨h1, h2⟩ := List.forall_mem_cons.mp h
      rw [List.foldl_cons, if_neg h1]
      exact ih h2

theorem valueChar_val {solver : CaDiCaL} {m : Nat → Option Bool} (ha : solver.answer = some (.sat m)) {v : Nat}
    (hv : 0 < v) : valueChar (solver.val v) = (m v).elim 'x' fun b => if b then '1' else '0' := by
  have hnn : (0 : Int) ≤ v := by omega
  unfold CaDiCaL.val valueChar
  rw [ha]
  simp only [Int.natAbs_natCast, hnn, decide_true]
  cases m v with
  | none => rfl
  | some b =>
      cases b with
      | true =>
          simp only [if_true]
          rw [if_pos (by omega), if_neg (by omega)]
          rfl
      | false =>
          simp only [Bool.false_eq_true, if_false]
          rw [if_pos (by omega), if_pos (by omega)]
          rfl

theorem Shows.of_known {m : Nat → Option Bool} {v : Nat} {b : Bool}
    (h : Shows ((m v).elim 'x' fun b => if b then '1' else '0') b) : (m v).getD b = b := by
  cases hm : m v with
  | none => rfl
  | some c =>
      rw [hm] at h
      cases b <;> cases c <;> first | rfl | (rcases h with h | h <;> cases h)

/-! ## The simulation along the lines -/

theorem simulate_congr {leaf leaf' : Assignment} {inputs : List Nat} (hlen : inputs.length = (k + 1) * A.num_inputs)
    (hin : ∀ v ∈ inputs, leaf v = leaf' v)
    (hlatch : ∀ v, A.IsLatch v → (v : Int) ∉ A.init_state → -(v : Int) ∉ A.init_state →
      leaf (v - A.num_inputs) = leaf' (v - A.num_inputs)) :
    ∀ j, j ≤ k → ∀ v, 2 ≤ v → v < A.first_and → A.simulate leaf inputs j v = A.simulate leaf' inputs j v := by
  have hinput : ∀ j, j ≤ k → ∀ v, 2 ≤ v → v < A.num_inputs + 2 →
      A.simulate leaf inputs j v = A.simulate leaf' inputs j v := by
    intro j hj v h2 hv
    have hidx : j * A.num_inputs + (v - 2) < inputs.length := by
      have hmul := Nat.mul_le_mul_right A.num_inputs (Nat.succ_le_succ hj)
      rw [Nat.succ_mul] at hmul
      rw [hlen]
      show _ < (Nat.succ k) * _
      omega
    rw [simulate_input _ _ hv, simulate_input _ _ hv, List.getD_eq_getElem _ _ hidx]
    exact hin _ (List.getElem_mem hidx)
  intro j
  induction j with
  | zero =>
      intro hj v h2 hv
      by_cases hi : v < A.num_inputs + 2
      · exact hinput 0 hj v h2 hi
      · rw [simulate_init _ (not_lt.mp hi), simulate_init _ (not_lt.mp hi)]
        unfold Circuit.initValue
        split
        · rfl
        · split
          · rfl
          · exact hlatch v ⟨not_lt.mp hi, hv⟩ ‹_› ‹_›
  | succ j ih =>
      intro hj v h2 hv
      by_cases hi : v < A.num_inputs + 2
      · exact hinput (j + 1) hj v h2 hi
      · rw [simulate_latch _ _ (not_lt.mp hi), simulate_latch _ _ (not_lt.mp hi)]
        exact Circuit.val_congr (ih (by omega))
          (Circuit.next_ok (Circuit.IsLatch.eq_latch ⟨not_lt.mp hi, hv⟩).1)

/-- The lines of the latches and of the inputs. -/
def BmcConfig.latchLine (B : BmcConfig) (s : BMC) : List Char :=
  (List.range B.circuit.num_latches).map (B.circuit.latchChar s.bmcSolver)

def BmcConfig.inputLines (B : BmcConfig) (s : BMC) (k : Nat) : List (List Char) :=
  (List.range k).map fun j => ((s.uaiger.inputs.map fun (i : Nat) => valueChar (s.bmcSolver.val i)).drop
    (j * B.circuit.num_inputs)).take B.circuit.num_inputs

theorem latchLine_getD {i : Nat} (hi : i < B.circuit.num_latches) :
    (B.latchLine s).getD i 'x' = B.circuit.latchChar s.bmcSolver i := by
  simp [BmcConfig.latchLine, List.getD_eq_getElem?_getD, hi]

theorem latchLine_init {l : Int} (hl : l ∈ B.circuit.init_state) :
    (B.latchLine s).getD (l.natAbs - (B.circuit.num_inputs + 2)) 'x' = if 0 < l then '1' else '0' := by
  obtain ⟨hlt, heq⟩ := Circuit.IsLatch.eq_latch (B.circuit.wf.init_latch l hl)
  have hchar := initChar_of_mem hl
  rw [latchLine_getD hlt]
  unfold Aiger.latchChar
  rw [heq, hchar, if_neg (by split <;> decide)]

variable {w : Nat → Assignment}

theorem Follows.init (h : Follows B.circuit k (B.latchLine s) (B.inputLines s k) w) :
    (B.circuit.systemFor B.checked).Init (w 0) := by
  intro l hl
  obtain ⟨hlt, heq⟩ := Circuit.IsLatch.eq_latch (B.circuit.wf.init_latch l hl)
  have hshow := h.latch _ hlt
  rw [latchLine_init hl, heq] at hshow
  have hne : l ≠ 0 := by
    rintro rfl
    have := (B.circuit.wf.init_latch 0 hl).1
    simp at this
  unfold litVal
  by_cases hpos : 0 < l
  · rw [if_pos hpos] at hshow
    rw [if_neg (by omega)]
    rcases hshow with hx | hx
    · cases hx
    · cases hw : w 0 l.natAbs with
      | true => rfl
      | false => rw [hw] at hx; cases hx
  · rw [if_neg hpos] at hshow
    rw [if_pos (by omega)]
    rcases hshow with hx | hx
    · cases hx
    · cases hw : w 0 l.natAbs with
      | true => rw [hw] at hx; cases hx
      | false => rfl

theorem Follows.input_leaf (h : Follows B.circuit k (B.latchLine s) (B.inputLines s k) w)
    (hun : Unrolled B k s.toUnfolding) {m : Nat → Option Bool} (ha : s.bmcSolver.answer = some (.sat m)) {v : Nat}
    (hv : v ∈ s.uaiger.inputs) :
    (m v).getD (B.circuit.leafOf s.uaiger.inputs w v) = B.circuit.leafOf s.uaiger.inputs w v := by
  obtain ⟨idx, hidx, rfl⟩ := List.getElem_of_mem hv
  have hrange := hun.table.inputs _ hv
  have hlen := hun.inputs_length
  have hI : 0 < B.circuit.num_inputs := by
    by_contra h0
    rw [Nat.eq_zero_of_not_pos h0, Nat.mul_zero] at hlen
    omega
  have hj : idx / B.circuit.num_inputs < k := Nat.div_lt_of_lt_mul (by rw [Nat.mul_comm]; omega)
  have hi : idx % B.circuit.num_inputs < B.circuit.num_inputs := Nat.mod_lt _ hI
  have hshow := h.input _ hj _ hi
  unfold BmcConfig.inputLines at hshow
  rw [getD_lines hj hi, Nat.mul_comm, Nat.div_add_mod, List.getD_eq_getElem?_getD, List.getElem?_map,
    List.getElem?_eq_getElem hidx, Option.map_some, Option.getD_some, valueChar_val ha (by omega)] at hshow
  have hleaf : B.circuit.leafOf s.uaiger.inputs w s.uaiger.inputs[idx] =
      w (idx / B.circuit.num_inputs) (idx % B.circuit.num_inputs + 2) := by
    unfold Circuit.leafOf
    rw [if_neg (by omega), hun.table.nodup.idxOf_getElem]
  rw [hleaf]
  exact hshow.of_known

theorem Follows.latch_leaf (h : Follows B.circuit k (B.latchLine s) (B.inputLines s k) w)
    {m : Nat → Option Bool} (ha : s.bmcSolver.answer = some (.sat m)) {v : Nat} (hv : B.circuit.IsLatch v)
    (hpos : (v : Int) ∉ B.circuit.init_state) (hneg : -(v : Int) ∉ B.circuit.init_state) :
    (m (v - B.circuit.num_inputs)).getD (B.circuit.leafOf s.uaiger.inputs w (v - B.circuit.num_inputs)) =
      B.circuit.leafOf s.uaiger.inputs w (v - B.circuit.num_inputs) := by
  obtain ⟨hlt, heq⟩ := Circuit.IsLatch.eq_latch hv
  have hnode : 2 + (v - (B.circuit.num_inputs + 2)) = v - B.circuit.num_inputs := by
    have := hv.1
    omega
  have hinit : B.circuit.initChar v = 'x' := by
    refine initChar_of_not_mem fun l hl hlv => ?_
    rcases Int.natAbs_eq l with he | he
    · rw [he, hlv] at hl
      exact hpos hl
    · rw [he, hlv] at hl
      exact hneg hl
  have hshow := h.latch _ hlt
  rw [latchLine_getD hlt] at hshow
  unfold Aiger.latchChar at hshow
  rw [heq, hinit, if_pos rfl, hnode, valueChar_val ha (by have := hv.1; omega)] at hshow
  have hleaf : B.circuit.leafOf s.uaiger.inputs w (v - B.circuit.num_inputs) = w 0 v := by
    have h1 := hv.1
    have h2 := hv.2
    unfold Aiger.first_and at h2
    unfold Circuit.leafOf
    rw [if_pos (by omega), Nat.sub_add_cancel (by omega)]
  rw [hleaf]
  exact hshow.of_known

/-- The text of a state in which every completion of the model is a counterexample. -/
theorem replays_text (hun : Unrolled B (k + 1) s.toUnfolding) {m : Nat → Option Bool}
    (ha : s.bmcSolver.answer = some (.sat m))
    (hm : ∀ σ, Completes m σ →
      (∀ j, j ≤ k → (B.circuit.systemFor B.checked).Cons (B.circuit.simulate σ s.uaiger.inputs j)) ∧
        (B.circuit.systemFor B.checked).Bad (B.circuit.simulate σ s.uaiger.inputs k))
    (hI : 0 < B.circuit.num_inputs) : B.Replays (k + 1) (B.witnessText s) := by
  refine ⟨B.latchLine s, B.inputLines s (k + 1), ?_, ?_, ?_, ?_, fun l hl => latchLine_init hl, fun w hw => ?_⟩
  · unfold BmcConfig.witnessText BmcConfig.inputLines
    rw [inputsText_lines hI (k + 1) 0 (Nat.zero_mod _) _ (by rw [List.length_map, hun.inputs_length])]
    rfl
  · rw [BmcConfig.latchLine, List.length_map, List.length_range]
  · rw [BmcConfig.inputLines, List.length_map, List.length_range]
  · intro line hline
    obtain ⟨j, hj, rfl⟩ := List.mem_map.mp hline
    have hmul := Nat.mul_le_mul_right B.circuit.num_inputs (List.mem_range.mp hj)
    rw [Nat.succ_mul] at hmul
    rw [List.length_take, List.length_drop, List.length_map, hun.inputs_length]
    omega
  · obtain ⟨hcons, hbad⟩ := hm _ (completes_complete m (B.circuit.leafOf s.uaiger.inputs w))
    have hsame := simulate_congr (A := B.circuit) hun.inputs_length
      (fun v hv => hw.input_leaf hun ha hv) fun v hv hpos hneg => hw.latch_leaf ha hv hpos hneg
    have hfollow := simulate_leafOf (b := B.checked) (k := k) hw.init
      (fun j hj => hw.next j (by omega)) hun.table.nodup (fun v hv => (hun.table.inputs v hv).1) hun.inputs_length
    have hval : ∀ j, j ≤ k → ∀ l, B.circuit.LitOk l →
        B.circuit.val (B.circuit.simulate (complete m (B.circuit.leafOf s.uaiger.inputs w)) s.uaiger.inputs j) l =
          B.circuit.val (w j) l := by
      intro j hj l hl
      exact Circuit.val_congr (fun v h2 hv => (hsame j hj v h2 hv).trans (hfollow j hj v h2 hv)) hl
    refine ⟨fun j hj l hl => ?_, ?_⟩
    · rw [← hval j (by omega) l (B.circuit.wf.constraints_ok l hl)]
      exact hcons j (by omega) l hl
    · rw [Nat.add_sub_cancel, ← hval k le_rfl _ (checked_ok B)]
      exact hbad

theorem length_lines {lines : List (List Char)} (h : ∀ l ∈ lines, l.length = 0) :
    (lines.flatMap fun l => l ++ ['\n']).length = lines.length := by
  induction lines with
  | nil => rfl
  | cons l lines ih =>
      obtain ⟨h1, h2⟩ := List.forall_mem_cons.mp h
      rw [List.flatMap_cons, List.length_append, List.length_append, h1, ih h2, List.length_cons,
        List.length_cons, List.length_nil]
      omega

/-- Without inputs there are no input lines. -/
theorem not_replays_text (hI : B.circuit.num_inputs = 0) (hun : Unrolled B (k + 1) s.toUnfolding) :
    ¬ B.Replays (k + 1) (B.witnessText s) := by
  have hnil : s.uaiger.inputs = [] := by
    have hlen := hun.inputs_length
    rw [hI, Nat.mul_zero] at hlen
    exact List.length_eq_zero_iff.mp hlen
  rintro ⟨latches, lines, htext, hlat, hlines, hline, _⟩
  have hlen := congrArg List.length htext
  have hcount := length_lines fun l hl => (hline l hl).trans hI
  unfold BmcConfig.witnessText at hlen
  rw [hnil] at hlen
  simp only [List.map_nil, inputsText, List.length_append, List.length_cons, List.length_map, List.length_range,
    List.length_nil, hlat, hcount, hlines] at hlen
  omega

/-! ## Runs of `check` -/

/-- The solver has answered 10 for frame `k + 1`. -/
structure Found (B : BmcConfig) (k : Nat) (s : BMC) : Prop where
  unrolled : Unrolled B (k + 1) s.toUnfolding
  frame : s.bmc_frame_k = k + 1
  model : ∃ m, s.bmcSolver.answer = some (.sat m) ∧ ∀ σ, Completes m σ →
    (∀ j, j ≤ k → (B.circuit.systemFor B.checked).Cons (B.circuit.simulate σ s.uaiger.inputs j)) ∧
      (B.circuit.systemFor B.checked).Bad (B.circuit.simulate σ s.uaiger.inputs k)

theorem Solving.found (h : Solving B k s) {S : Ipasir} {t : Nat} {terminated : Bool}
    (h10 : (B.solve_one_frame S t terminated s).1 = 10) : Found B k (B.solve_one_frame S t terminated s).2 := by
  obtain ⟨s0, u, rfl, hr, hu, hst⟩ := h.from_ready
  have hk := h.frame
  obtain ⟨hl, hfk, hout⟩ := hr.addFrame hu hst
  unfold BmcConfig.solve_one_frame at h10 ⊢
  simp only [← hout] at h10 ⊢
  generalize B.addFrame { s0 with toUnfolding := u } = s' at hl hfk h10 ⊢
  by_cases hown : ¬ B.Owns s'.bmc_frame_k
  · rw [if_pos hown] at h10
    cases h10
  rw [if_neg hown] at h10 ⊢
  cases terminated with
  | true => cases h10
  | false =>
      simp only [Bool.false_eq_true, if_false] at h10 ⊢
      have hlegal := S.legal t (s'.bmcSolver.assume (s'.uaiger.outputs.getLastD 0)).query
      cases hans : S.solve t (s'.bmcSolver.assume (s'.uaiger.outputs.getLastD 0)).query with
      | unsat core =>
          rw [hans] at h10
          cases h10
      | sat m =>
          rw [hans] at hlegal
          refine ⟨hl.unrolled, hfk.trans hk, m, rfl, fun σ hσ => ?_⟩
          obtain ⟨hcl, has⟩ := hlegal σ hσ
          exact hl.simulated hcl (has _ (List.mem_append_right _ List.mem_cons_self))

/-- The threads reached by `check`, whatever `RESULT` is when it is read; `ok` restricts the calls of
`unfold`. -/
inductive CheckRun (B : BmcConfig) (S : Ipasir) (ok : BmcConfig → Unfolding → Prop) : Thread → Prop
  | start : CheckRun B S ok B.startThread
  | step {x : Thread} {t : Nat} {terminated : Bool} {RESULT : Int} (h : CheckRun B S ok x)
      (hterm : terminated = true → RESULT ≠ 0)
      (hok : x.phase = .head → x.bmc.bmc_frame_k ≤ B.nframes → RESULT = 0 → ok B x.bmc.toUnfolding) :
      CheckRun B S ok (B.threadStep S t terminated RESULT x).1

theorem ThreadOk.active {x : Thread} {R R' : Int} (h : ThreadOk B R x) (hx : ∀ r, x.phase ≠ .returned r) :
    ThreadOk B R' x := by
  unfold ThreadOk at *
  cases hp : x.phase with
  | head => rw [hp] at h; exact h
  | solving => rw [hp] at h; exact h
  | found => rw [hp] at h; exact h
  | returned r => exact absurd hp (hx r)
  | undefined => rw [hp] at h; exact h

theorem ThreadOk.found_step {x : Thread} {R R' : Int} (h : ThreadOk B R' x) {S : Ipasir} {t : Nat} {terminated : Bool}
    (hf : (B.threadStep S t terminated R x).1.phase = .found) :
    ∃ k, Found B k (B.threadStep S t terminated R x).1.bmc := by
  obtain ⟨phase, s⟩ := x
  cases phase with
  | solving =>
      obtain ⟨k, hk, _⟩ := h
      simp only [BmcConfig.threadStep] at hk hf ⊢
      by_cases h10 : (B.solve_one_frame S t terminated s).1 = 10
      · rw [if_pos h10]
        exact ⟨k, hk.found h10⟩
      · rw [if_neg h10] at hf
        split_ifs at hf
  | head =>
      simp only [BmcConfig.threadStep] at hf
      split_ifs at hf
      split at hf <;> cases hf
  | found => cases hf
  | returned r => cases hf
  | undefined => cases hf

theorem CheckRun.found {S : Ipasir} {x : Thread} (h : CheckRun B S BmcConfig.Fits x) :
    (∃ R, ThreadOk B R x) ∧ (x.phase = .found → ∃ k, Found B k x.bmc) := by
  induction h with
  | start => exact ⟨⟨0, ThreadOk.start B⟩, by rintro ⟨⟩⟩
  | @step x t terminated R h hterm hok ih =>
      obtain ⟨⟨R0, h0⟩, _⟩ := ih
      refine ⟨?_, fun hf => h0.found_step hf⟩
      by_cases hx : ∃ r, x.phase = .returned r
      · obtain ⟨r, hr⟩ := hx
        have hsame : (B.threadStep S t terminated R x).1 = x := by
          unfold BmcConfig.threadStep
          rw [hr]
        rw [hsame]
        exact ⟨R0, h0⟩
      · exact ⟨_, ((h0.active fun r hr => hx ⟨r, hr⟩).step S t hterm hok).1⟩

/-- A counterexample of one step is found in the first frame. -/
theorem CheckRun.first {S : Ipasir} (hfit : B.Fits B.initUnfold) (hn : 1 ≤ B.nframes) (hown : B.Owns 1)
    (hcex : B.HasCex 1) : ∃ x, CheckRun B S BmcConfig.Fits x ∧ x.phase = .found ∧ x.bmc.bmc_frame_k = 1 := by
  obtain ⟨u, hu, hun, hst⟩ := (unrolled_init B).unfold hfit
  have hsolving : CheckRun B S BmcConfig.Fits ⟨.solving, { B.start with toUnfolding := u, bmc_frame_k := 1 }⟩ := by
    have h := @CheckRun.step B S BmcConfig.Fits _ 0 false 0 .start (by rintro ⟨⟩) fun _ _ _ => hfit
    have hhead : (B.threadStep S 0 false 0 B.startThread).1 =
        ⟨.solving, { B.start with toUnfolding := u, bmc_frame_k := 1 }⟩ := by
      have hlt : ¬ B.nframes < B.startThread.bmc.bmc_frame_k := not_lt.mpr hn
      have hinit : B.unfold B.startThread.bmc.toUnfolding = some u := hu
      unfold BmcConfig.threadStep
      rw [show B.startThread.phase = .head from rfl]
      dsimp only
      rw [if_neg hlt, if_neg (not_not.mpr rfl), hinit]
      rfl
    exact hhead ▸ h
  have hready : Ready B 0 { B.start with bmc_frame_k := 1 } := by
    have h := ready_start B
    exact ⟨h.unrolled, h.holds.closed, h.holds.covered, h.holds.clause, h.holds.assumptions, h.holds.clauses⟩
  have hout := hready.solve rfl hun hst S 0 false
  have hfirst : B.First 1 := hcex.first_or.resolve_right fun ⟨j, hj, hc⟩ => absurd hc.1 (by omega)
  have h10 : (B.solve_one_frame S 0 false { B.start with toUnfolding := u, bmc_frame_k := 1 }).1 = 10 := by
    rcases hout.cases with h | h | ⟨_, h⟩
    · exact h
    · exact absurd hfirst (hout.none h hown)
    · cases h
  refine ⟨_, @CheckRun.step B S BmcConfig.Fits _ 0 false 0 hsolving (by rintro ⟨⟩) (by rintro ⟨⟩), ?_, ?_⟩
  · simp only [BmcConfig.threadStep]
    rw [if_pos h10]
  · simp only [BmcConfig.threadStep]
    rw [if_pos h10]
    exact hout.rest.1

/-- In every run whose calls of `unfold` have room, the witness of frame `k` replays iff the circuit has an
input. -/
theorem witness_replays (B : BmcConfig) (S : Ipasir) {x : Thread} (h : CheckRun B S BmcConfig.Fits x)
    (hx : x.phase = .found) :
    B.Replays x.bmc.bmc_frame_k (B.witnessText x.bmc) ↔ 0 < B.circuit.num_inputs := by
  obtain ⟨k, hun, hk, m, ha, hm⟩ := h.found.2 hx
  rw [hk]
  constructor
  · intro hr
    by_contra hI
    exact not_replays_text (Nat.eq_zero_of_not_pos hI) hun hr
  · exact fun hI => replays_text hun ha hm hI

namespace Sample

/-- An input that violates the property and is stored in an uninitialised latch. -/
def lever : Circuit where
  num_inputs := 1
  num_latches := 1
  num_ands := 0
  ands := []
  nexts := [2]
  init_state := []
  constraints := []
  allbad := [2]
  bad := 2
  default_vals := [4]
  wf := by constructor <;> decide

theorem lever_hasCex : (config lever Nat.one_pos).HasCex 1 := by
  refine ⟨le_rfl, fun _ _ => true, ⟨List.forall_mem_nil _, fun i hi => absurd hi (Nat.not_lt_zero i),
    fun _ _ => List.forall_mem_nil _⟩, ?_⟩
  exact Circuit.val_input (A := lever) _ (l := 2) (by decide)

end Sample

/-- The input of the first frame is printed. -/
theorem witness_replays_lever : ∃ x, CheckRun (Sample.config Sample.lever Nat.one_pos) Sample.solver BmcConfig.Fits x ∧
    x.phase = .found ∧ (Sample.config Sample.lever Nat.one_pos).Replays x.bmc.bmc_frame_k
      ((Sample.config Sample.lever Nat.one_pos).witnessText x.bmc) := by
  obtain ⟨x, hrun, hx, _⟩ := CheckRun.first (B := Sample.config Sample.lever Nat.one_pos) (S := Sample.solver)
    (start_fits _ (by decide) (by decide)) (by decide) (by decide) Sample.lever_hasCex
  exact ⟨x, hrun, hx, (witness_replays _ _ hrun hx).mpr Nat.one_pos⟩

/-- The circuit without inputs gets no line for its first frame. -/
theorem witness_without_lines : ∃ x, CheckRun Sample.pair Sample.solver BmcConfig.Fits x ∧ x.phase = .found ∧
    ¬ Sample.pair.Replays x.bmc.bmc_frame_k (Sample.pair.witnessText x.bmc) := by
  obtain ⟨x, hrun, hx, _⟩ := CheckRun.first (B := Sample.pair) (S := Sample.solver) Sample.pair_fits (by decide)
    (by decide) (Sample.zeros_hasCex 2)
  obtain ⟨k, hun, hk, _⟩ := hrun.found.2 hx
  exact ⟨x, hrun, hx, hk ▸ not_replays_text rfl hun⟩

end ModelChecker
