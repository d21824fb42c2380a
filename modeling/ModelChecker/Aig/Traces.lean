import ModelChecker.Aig.Trailer

/-!
# What a file means

The traces of an AIGER file in its own numbering. A well-formed file that is loaded and translated gives
a well-formed circuit, and the circuit has the traces of the file.
-/

namespace ModelChecker

open Logic

namespace AigerFile

/-! ## Traces -/

section Meaning

variable (F : AigerFile)

/-- Valuations `v 0, …, v n` of the inputs and latches: the first one has the reset values, each other
one the next states of the one before, and the constraints hold in all of them. -/
structure Trace (n : Nat) (v : Nat → Nat → Bool) : Prop where
  reset : ∀ a ∈ F.Aiger_latches, (a.default_val = 0 → v 0 (a.l / 2) = false) ∧
    (a.default_val = 1 → v 0 (a.l / 2) = true)
  next : ∀ i, i < n → ∀ a ∈ F.Aiger_latches, v (i + 1) (a.l / 2) = F.val (v i) a.next
  constraints : ∀ i, i ≤ n → ∀ l ∈ F.Aiger_constraints, F.val (v i) l = true

/-- The literal `p` is true at the end of a trace of `n` transitions. -/
def Violates (p n : Nat) : Prop := ∃ v, F.Trace n v ∧ F.val (v n) p = true

/-- The bad literals, or the outputs when there are none. -/
def properties : List Nat := if 0 < F.num_bads then F.Aiger_bads else F.Aiger_outputs

/-- The index of the checked property; one out of range counts as `0`. -/
def chosen (propertyIndex : Nat) : Nat := if F.properties.length ≤ propertyIndex then 0 else propertyIndex

end Meaning

variable {F : AigerFile}

theorem WellFormed.properties_ok (h : F.WellFormed) {l : Nat} (hl : l ∈ F.properties) : F.LitOk l := by
  unfold properties at hl
  split at hl
  · exact h.bads_ok l hl
  · exact h.outputs_ok l hl

theorem WellFormed.properties_pos (h : F.WellFormed) (hprop : 0 < F.num_outputs ∨ 0 < F.num_bads) :
    0 < F.properties.length := by
  unfold properties
  split
  · rw [h.bads_length]; assumption
  · rw [h.outputs_length]; tauto

theorem chosen_lt (h : 0 < F.properties.length) (propertyIndex : Nat) :
    F.chosen propertyIndex < F.properties.length := by
  unfold chosen
  split <;> omega

theorem properties_input : (F.input false).properties = F.properties := by
  simp only [AigerInput.properties, properties, input, header, Int.natCast_pos]

/-! ## The circuit is well formed -/

section Circuit

variable (h : F.WellFormed) (hlit : 2 * F.max_var + 1 < 2 ^ 31) (i : Nat)

include h hlit in
/-- A literal of the file is one of the circuit. -/
theorem litOk_literalOf {l : Nat} (hl : F.LitOk l) : ((F.input false).dimacs i).LitOk (literalOf l) := by
  have hm := h.max_var
  unfold LitOk at hl
  unfold Aiger.LitOk
  rw [literalOf_eq (by omega), natAbs_aiger_to_dimacs]
  show 1 ≤ l / 2 + 1 ∧ l / 2 + 1 ≤ F.num_inputs + F.num_latches + F.num_ands + 1
  omega

include h in
theorem fanin_lt {a : Aiger_and} (ha : a ∈ F.Aiger_ands) {l : Nat} (hl : l < a.o) :
    1 ≤ (aiger_to_dimacs l).natAbs ∧ (aiger_to_dimacs l).natAbs < a.toDimacs.o := by
  obtain ⟨j, hj, rfl⟩ := List.getElem_of_mem ha
  have ho : (F.Aiger_ands[j]).o = 2 * (F.num_inputs + F.num_latches + j + 1) := h.ands_o j hj
  rw [natAbs_aiger_to_dimacs]
  show 1 ≤ l / 2 + 1 ∧ l / 2 + 1 < (F.Aiger_ands[j]).o / 2 + 1
  omega

/-- The literals of the reset values, latch by latch. -/
theorem init_state_eq (h : F.WellFormed) : ((F.input false).dimacs i).init_state =
    (List.range F.num_latches).flatMap fun j => Aiger.resetLits (F.num_inputs + 2 + j)
      ((F.Aiger_latches.map (·.default_val)).getD j 0) := by
  show (F.Aiger_latches.mapIdx fun j a => Aiger.resetLits (2 + F.num_inputs + j) a.default_val).flatten = _
  rw [List.flatMap_def]
  congr 1
  refine List.ext_getElem (by simp [h.latches_length]) fun j h1 h2 => ?_
  rw [List.length_mapIdx] at h1
  simp only [List.getElem_mapIdx, List.getElem_map, List.getElem_range, List.getD_eq_getElem?_getD,
    List.getElem?_map, List.getElem?_eq_getElem h1, Option.map_some, Option.getD_some, Nat.add_comm 2]

/-- A reset literal is a literal of its latch. -/
theorem natAbs_of_mem_resetLits {v d : Nat} {l : Int} (hl : l ∈ Aiger.resetLits v d) : l.natAbs = v := by
  unfold Aiger.resetLits at hl
  split at hl
  · rw [List.mem_singleton.mp hl, Int.natAbs_neg, Int.natAbs_natCast]
  · split at hl
    · rw [List.mem_singleton.mp hl, Int.natAbs_natCast]
    · cases hl

theorem init_distinct (n k : Nat) (d : Nat → Nat) :
    ((List.range n).flatMap fun j => Aiger.resetLits (k + j) (d j)).Pairwise
      fun a b => a.natAbs ≠ b.natAbs := by
  rw [List.flatMap_def, List.pairwise_flatten]
  refine ⟨fun ls hls => ?_, ?_⟩
  · obtain ⟨j, _, rfl⟩ := List.mem_map.mp hls
    unfold Aiger.resetLits
    split
    · exact List.pairwise_singleton _ _
    · split
      · exact List.pairwise_singleton _ _
      · exact List.Pairwise.nil
  · rw [List.pairwise_map]
    refine List.nodup_range.imp fun hne a ha b hb => ?_
    rw [natAbs_of_mem_resetLits ha, natAbs_of_mem_resetLits hb]
    omega

include hlit in
theorem wellFormed_dimacs (hprop : 0 < F.num_outputs ∨ 0 < F.num_bads) (h : F.WellFormed) :
    ((F.input false).dimacs i).WellFormed := by
  have hands := dimacs_ands h hlit false i
  have hok : ∀ l, F.LitOk l → _ := fun l => litOk_literalOf h hlit i (l := l)
  have hinit := init_state_eq i h
  constructor
  case ands_length =>
    rw [hands, List.length_map, h.ands_length]
    rfl
  case ands_o =>
    intro j hj
    show (((F.input false).dimacs i).ands.get ⟨j, hj⟩).o = F.num_inputs + F.num_latches + 2 + j
    rw [List.get_eq_getElem]
    simp only [AigerInput.dimacs, List.getElem_mapIdx, AigerInput.gateOf]
    show 2 + F.num_inputs + F.num_latches + j = _
    omega
  case fanin1 =>
    rw [hands]
    intro g hg
    obtain ⟨a, ha, rfl⟩ := List.mem_map.mp hg
    exact fanin_lt h ha (h.fanins a ha).1
  case fanin2 =>
    rw [hands]
    intro g hg
    obtain ⟨a, ha, rfl⟩ := List.mem_map.mp hg
    exact fanin_lt h ha (h.fanins a ha).2
  case nexts_length => exact (List.length_map _).trans h.latches_length
  case nexts_ok =>
    intro l hl
    obtain ⟨a, ha, rfl⟩ := List.mem_map.mp hl
    exact hok _ (h.latches_next a ha)
  case constraints_ok =>
    intro l hl
    obtain ⟨a, ha, rfl⟩ := List.mem_map.mp hl
    exact hok _ (h.constraints_ok a ha)
  case bad_ok =>
    have hbad : ((F.input false).dimacs i).bad = literalOf ((F.input false).propertyOf i) := by
      simp only [AigerInput.dimacs]
    rw [hbad]
    exact hok _ (propertyOf_ok h hprop false i)
  case allbad_ok =>
    intro l hl
    obtain ⟨a, ha, rfl⟩ := List.mem_map.mp hl
    rw [properties_input] at ha
    exact hok _ (h.properties_ok ha)
  case init_latch =>
    rw [hinit]
    intro l hl
    obtain ⟨j, hj, hl⟩ := List.mem_flatMap.mp hl
    rw [natAbs_of_mem_resetLits hl]
    have hj := List.mem_range.mp hj
    show F.num_inputs + 2 ≤ _ ∧ _ < F.num_inputs + F.num_latches + 2
    omega
  case init_distinct =>
    rw [hinit]
    exact init_distinct _ _ _
  case vals_length => exact (List.length_map _).trans h.latches_length
  case vals_ok =>
    intro j hj
    have hj' : j < F.Aiger_latches.length := by
      rw [← List.length_map]
      exact hj
    have hl : (F.Aiger_latches[j]).l = 2 * (F.num_inputs + j + 1) := h.latches_l j hj'
    have hv : ((F.input false).dimacs i).default_vals.get ⟨j, hj⟩ = (F.Aiger_latches[j]).default_val :=
      List.getElem_map _
    rw [hv]
    show _ ∨ _ ∨ _ = 2 * (F.num_inputs + j + 1)
    rw [← hl]
    exact h.latches_reset _ (List.getElem_mem hj')
  case init_eq => exact hinit

end Circuit

/-- The circuit that the file is loaded as. -/
def circuit (F : AigerFile) (h : F.WellFormed) (hlit : 2 * F.max_var + 1 < 2 ^ 31)
    (hprop : 0 < F.num_outputs ∨ 0 < F.num_bads) (propertyIndex : Nat) : Circuit :=
  ⟨(F.input false).dimacs propertyIndex, wellFormed_dimacs hlit propertyIndex hprop h⟩

/-! ## The circuit has the traces of the file -/

section Traces

variable {h : F.WellFormed} {hlit : 2 * F.max_var + 1 < 2 ^ 31}
  {hprop : 0 < F.num_outputs ∨ 0 < F.num_bads} {i : Nat}

/-- A valuation in the two numberings. -/
def Agree (v : Nat → Bool) (w : Assignment) : Prop := ∀ k, w (k + 1) = v k

theorem Agree.val {v : Nat → Bool} {w : Assignment} (ha : Agree v w) {l : Nat} (hl : F.LitOk l) :
    (F.circuit h hlit hprop i).val w (literalOf l) = F.val v l := by
  have hok : (F.circuit h hlit hprop i).LitOk (literalOf l) := litOk_literalOf h hlit i hl
  have hcongr : (F.circuit h hlit hprop i).val w (literalOf l) =
      (F.circuit h hlit hprop i).val (toDimacs v) (literalOf l) :=
    Circuit.val_congr (fun u hu _ => by rw [toDimacs, ← ha (u - 1), Nat.sub_add_cancel (by omega)]) hok
  rw [hcongr]
  exact val_dimacs h hlit false i v (Nat.lt_of_le_of_lt hl hlit)

theorem WellFormed.latch_at (h : F.WellFormed) {j : Nat} (hj : j < F.num_latches) :
    ∃ a ∈ F.Aiger_latches, F.Aiger_latches[j]? = some a ∧ a.l / 2 = F.num_inputs + j + 1 := by
  have hj' : j < F.Aiger_latches.length := by rw [h.latches_length]; exact hj
  have hl : (F.Aiger_latches[j]).l = 2 * (F.num_inputs + j + 1) := h.latches_l j hj'
  exact ⟨_, List.getElem_mem hj', List.getElem?_eq_getElem hj', by omega⟩

theorem WellFormed.forall_latches (h : F.WellFormed) {P : Aiger_latch → Prop} :
    (∀ a ∈ F.Aiger_latches, P a) ↔ ∀ j, j < F.num_latches → ∀ a, F.Aiger_latches[j]? = some a → P a := by
  constructor
  · intro hall j _ a ha
    exact hall a (List.mem_of_getElem? ha)
  · intro hall a ha
    obtain ⟨j, hj, rfl⟩ := List.getElem_of_mem ha
    exact hall j (by rw [← h.latches_length]; exact hj) _ (List.getElem?_eq_getElem hj)

theorem cubeSat_resetLits {w : Assignment} {u d : Nat} (hu : 0 < u) : CubeSat w (Aiger.resetLits u d) ↔
    (d = 0 → w u = false) ∧ (d = 1 → w u = true) := by
  unfold Aiger.resetLits CubeSat
  split_ifs with h0 h1
  · simp [h0, litVal_neg_natCast w hu]
  · simp [h1, litVal_natCast]
  · simp [h0, h1]

theorem Agree.init {v : Nat → Bool} {w : Assignment} (ha : Agree v w) :
    CubeSat w (F.circuit h hlit hprop i).init_state ↔ ∀ a ∈ F.Aiger_latches,
      (a.default_val = 0 → v (a.l / 2) = false) ∧ (a.default_val = 1 → v (a.l / 2) = true) := by
  have hinit : (F.circuit h hlit hprop i).init_state = _ := init_state_eq i h
  have hflat : CubeSat w (F.circuit h hlit hprop i).init_state ↔ ∀ j, j < F.num_latches →
      CubeSat w (Aiger.resetLits (F.num_inputs + 2 + j)
        ((F.Aiger_latches.map (·.default_val)).getD j 0)) := by
    rw [hinit]
    unfold CubeSat
    simp only [List.mem_flatMap, List.mem_range]
    constructor
    · intro hall j hj l hl
      exact hall l ⟨j, hj, hl⟩
    · rintro hall l ⟨j, hj, hl⟩
      exact hall j hj l hl
  rw [hflat, h.forall_latches]
  refine forall_congr' fun j => forall_congr' fun hj => ?_
  obtain ⟨a, _, hj', hl⟩ := h.latch_at hj
  have hd : (F.Aiger_latches.map (·.default_val)).getD j 0 = a.default_val := by
    rw [List.getD_eq_getElem?_getD, List.getElem?_map, hj', Option.map_some, Option.getD_some]
  have hw : w (F.num_inputs + 2 + j) = v (a.l / 2) := by
    rw [hl, ← ha, Nat.add_right_comm]
  rw [cubeSat_resetLits (by omega), hd, hw, hj']
  simp only [Option.some.injEq, forall_eq']

theorem Agree.next {v v' : Nat → Bool} {w w' : Assignment} (ha : Agree v w) (ha' : Agree v' w') {b : Int} :
    ((F.circuit h hlit hprop i).systemFor b).Next w w' ↔
      ∀ a ∈ F.Aiger_latches, v' (a.l / 2) = F.val v a.next := by
  show (∀ j, j < F.num_latches → w' (F.num_inputs + 2 + j) = (F.circuit h hlit hprop i).val w
    ((F.Aiger_latches.map fun a => literalOf a.next).getD j 1)) ↔ _
  rw [h.forall_latches]
  refine forall_congr' fun j => forall_congr' fun hj => ?_
  obtain ⟨a, hmem, hj', hl⟩ := h.latch_at hj
  have hd : (F.Aiger_latches.map fun a => literalOf a.next).getD j 1 = literalOf a.next := by
    rw [List.getD_eq_getElem?_getD, List.getElem?_map, hj', Option.map_some, Option.getD_some]
  have hw : w' (F.num_inputs + 2 + j) = v' (a.l / 2) := by
    rw [hl, ← ha', Nat.add_right_comm]
  rw [hd, hw, ha.val (h.latches_next a hmem), hj']
  simp only [Option.some.injEq, forall_eq']

theorem trace_iff {n : Nat} {v : Nat → Nat → Bool} {w : Nat → Assignment} (ha : ∀ t, Agree (v t) (w t))
    {b : Int} : ((F.circuit h hlit hprop i).systemFor b).Trace n w ↔ F.Trace n v := by
  have hcons : ∀ t, ((F.circuit h hlit hprop i).systemFor b).Cons (w t) ↔
      ∀ l ∈ F.Aiger_constraints, F.val (v t) l = true := by
    intro t
    have heq : (F.circuit h hlit hprop i).constraints = F.Aiger_constraints.map literalOf := by
      simp only [circuit, AigerInput.dimacs, input]
    show (∀ l ∈ (F.circuit h hlit hprop i).constraints, (F.circuit h hlit hprop i).val (w t) l = true) ↔ _
    rw [heq, List.forall_mem_map]
    exact forall_congr' fun l => forall_congr' fun hl => by rw [(ha t).val (h.constraints_ok l hl)]
  constructor
  · rintro ⟨h0, hn, hc⟩
    exact ⟨(ha 0).init.mp h0, fun t ht => ((ha t).next (ha (t + 1))).mp (hn t ht),
      fun t ht => (hcons t).mp (hc t ht)⟩
  · rintro ⟨h0, hn, hc⟩
    exact ⟨(ha 0).init.mpr h0, fun t ht => ((ha t).next (ha (t + 1))).mpr (hn t ht),
      fun t ht => (hcons t).mpr (hc t ht)⟩

/-- The file and the circuit violate a property in the same number of steps. -/
theorem violates_iff {p n : Nat} (hp : F.LitOk p) : F.Violates p n ↔
    ∃ w, ((F.circuit h hlit hprop i).systemFor (literalOf p)).Trace n w ∧
      ((F.circuit h hlit hprop i).systemFor (literalOf p)).Bad (w n) := by
  constructor
  · rintro ⟨v, ht, hb⟩
    have ha : ∀ t, Agree (v t) (toDimacs (v t)) := fun t k => rfl
    exact ⟨fun t => toDimacs (v t), (trace_iff ha).mpr ht, ((ha n).val hp).trans hb⟩
  · rintro ⟨w, ht, hb⟩
    have ha : ∀ t, Agree (fun k => w t (k + 1)) (w t) := fun t k => rfl
    exact ⟨fun t k => w t (k + 1), (trace_iff ha).mp ht, ((ha n).val hp).symm.trans hb⟩

variable (h hlit hprop i)

theorem circuit_allbad : (F.circuit h hlit hprop i).allbad = F.properties.map literalOf := by
  rw [← properties_input]
  simp only [circuit, AigerInput.dimacs]

theorem circuit_nexts : (F.circuit h hlit hprop i).nexts = F.Aiger_latches.map fun a => literalOf a.next := by
  simp only [circuit, AigerInput.dimacs, input]

theorem circuit_bad : (F.circuit h hlit hprop i).bad = literalOf (F.properties.getD (F.chosen i) 0) := by
  unfold chosen
  rw [← properties_input]
  simp only [circuit, AigerInput.dimacs, AigerInput.propertyOf]

theorem circuit_getD {j p : Nat} (hj : F.properties[j]? = some p) :
    (F.circuit h hlit hprop i).allbad.getD j 0 = literalOf p := by
  rw [circuit_allbad, List.getD_eq_getElem?_getD, List.getElem?_map, hj, Option.map_some, Option.getD_some]

theorem circuit_checked : (F.circuit h hlit hprop i).bad =
    (F.circuit h hlit hprop i).allbad.getD (F.chosen i) 0 := by
  have hlt := chosen_lt (h.properties_pos hprop) i
  have hget := List.getElem?_eq_getElem hlt
  rw [circuit_getD h hlit hprop i hget, circuit_bad, List.getD_eq_getElem?_getD, hget, Option.getD_some]

/-- A written circuit is loaded and translated to `circuit`, also with symbols and a comment behind it. -/
theorem load_circuit (lay : Layout) (binary : Bool) (hb : binary = true → F.Descending) (T : Trailer)
    (hskip : Skippable T.entries) (hshort : (F.serialise lay binary ++ T.text).length < 2 ^ 31 - 1) :
    (load_aiger_from_file (F.serialise lay binary ++ T.text) >>= fun D => D.translate_to_dimacs i) =
      .ok (F.circuit h hlit hprop i).toAiger := by
  have hcount := h.counted.counts_le lay binary
  have hlen : (F.serialise lay binary).length ≤ (F.serialise lay binary ++ T.text).length := by
    rw [List.length_append]
    exact Nat.le_add_right _ _
  have hw : F.Writable binary :=
    ⟨h.counted, h.fits hlit (by omega), fun hbin => h.consecutive (hb hbin)⟩
  have hload := load_body (isBody_serialise hw lay) T.text hshort (F.input binary)
  rw [hload.mpr ⟨⟨accepted h hlit binary, (trailing_iff binary T).mpr hskip⟩, rfl⟩]
  exact translate_ok h hlit hprop binary i

end Traces

end AigerFile

/-- A well-formed file in either format, with a trailing section that the loader skips, is loaded as a
well-formed circuit that violates each property in the same numbers of steps as the file does. The checked
property is the chosen one. -/
theorem load_traces (F : AigerFile) (h : F.WellFormed) (hlit : 2 * F.max_var + 1 < 2 ^ 31)
    (hprop : 0 < F.num_outputs ∨ 0 < F.num_bads) (lay : Layout) (binary : Bool)
    (hb : binary = true → F.Descending) (T : Trailer) (hskip : Skippable T.entries)
    (hshort : (F.serialise lay binary ++ T.text).length < 2 ^ 31 - 1) (propertyIndex : Nat) : ∃ A : Circuit,
      (load_aiger_from_file (F.serialise lay binary ++ T.text) >>=
        fun D => D.translate_to_dimacs propertyIndex) = .ok A.toAiger ∧ A.allbad.length = F.properties.length ∧
      A.bad = A.allbad.getD (F.chosen propertyIndex) 0 ∧
      ∀ j p, F.properties[j]? = some p → ∀ n, (F.Violates p n ↔
        ∃ w, (A.systemFor (A.allbad.getD j 0)).Trace n w ∧ (A.systemFor (A.allbad.getD j 0)).Bad (w n)) := by
  refine ⟨F.circuit h hlit hprop propertyIndex, AigerFile.load_circuit h hlit hprop _ lay binary hb T hskip hshort,
    ?_, ?_, fun j p hj n => ?_⟩
  · rw [AigerFile.circuit_allbad, List.length_map]
  · exact AigerFile.circuit_checked h hlit hprop propertyIndex
  · rw [AigerFile.circuit_getD h hlit hprop propertyIndex hj]
    exact AigerFile.violates_iff (h.properties_ok (List.mem_of_getElem? hj))

/-- The only latch of `gated` has no reset value, so its property is violated at once. -/
theorem load_traces_gated : ∃ A : Circuit,
    (load_aiger_from_file (Sample.gated.binary {} ++ Sample.names.text) >>= fun D => D.translate_to_dimacs 7) =
      .ok A.toAiger ∧
      ∃ w, A.system.Trace 0 w ∧ A.system.Bad (w 0) := by
  obtain ⟨A, hload, hlen, hbad, hv⟩ := load_traces Sample.gated Sample.gated_wellFormed (by decide)
    (by decide) {} true (fun _ => by unfold AigerFile.Descending; decide) Sample.names (by decide)
    (by decide +kernel) 7
  refine ⟨A, hload, ?_⟩
  unfold Circuit.system
  rw [hbad]
  refine (hv 0 6 rfl 0).mp ⟨fun _ _ => true, ⟨?_, ?_, ?_⟩, ?_⟩
  · decide
  · exact fun t ht => absurd ht (Nat.not_lt_zero t)
  · exact fun _ _ l hl => absurd hl List.not_mem_nil
  · decide

end ModelChecker
