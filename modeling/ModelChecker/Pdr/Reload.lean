import ModelChecker.Aig.Traces
import ModelChecker.Pdr.Completeness

/-!
# Certificates are inputs

The text of a certificate is a file that the loader accepts. The circuit in it has the initial states and
the transitions of the checked circuit, and its property is an inductive one that implies the checked
property.
-/

namespace ModelChecker

open Logic

/-! ## Long files -/

namespace AigerFile

variable {F : AigerFile}

theorem numberLine_ne_nil {ns : List Nat} (h : ns ≠ []) : numberLine ns ≠ [] := by
  obtain ⟨n, ns, rfl⟩ := List.exists_cons_of_ne_nil h
  cases ns with
  | nil => exact digitBytes_ne_nil n
  | cons m ns => exact List.append_ne_nil_of_left_ne_nil (digitBytes_ne_nil n) _

theorem line_ne_nil {lay : Layout} {l : List Nat} (h : l ∈ F.asciiLines lay) : l ≠ [] := by
  unfold asciiLines at h
  simp only [List.mem_append, List.mem_singleton, List.mem_map, List.mem_mapIdx] at h
  rcases h with (((((rfl | ⟨n, _, rfl⟩) | ⟨i, hi, rfl⟩) | ⟨n, _, rfl⟩) | ⟨n, _, rfl⟩) | ⟨n, _, rfl⟩) |
    ⟨a, _, rfl⟩
  · exact List.cons_ne_nil _ _
  all_goals exact numberLine_ne_nil (List.cons_ne_nil _ _)

theorem two_mul_length_le {lines : List (List Nat)} (h : ∀ l ∈ lines, l ≠ []) :
    2 * lines.length ≤ (lines.flatMap fun l => l ++ [10]).length := by
  induction lines with
  | nil => exact le_rfl
  | cons l lines ih =>
      have hpos := List.length_pos_of_ne_nil (h l List.mem_cons_self)
      have hrest := ih fun l hl => h l (List.mem_cons_of_mem _ hl)
      rw [List.flatMap_cons, List.length_append, List.length_append, List.length_cons]
      simp only [List.length_singleton]
      omega

/-- A file that can be loaded has small variables, since each of them has a line. -/
theorem max_var_of_short (h : F.WellFormed) {lay : Layout} (hshort : (F.ascii lay).length < 2 ^ 31 - 1) :
    2 * F.max_var + 1 < 2 ^ 31 := by
  have hlines : 2 * (F.asciiLines lay).length ≤ ((F.asciiLines lay).flatMap fun l => l ++ [10]).length :=
    two_mul_length_le fun l => line_ne_nil
  have hm := h.max_var
  have hcount : F.max_var ≤ (F.asciiLines lay).length := by
    have hi : F.Aiger_inputs.length = F.num_inputs := h.counted.inputs
    simp only [asciiLines, List.length_append, List.length_map, List.length_mapIdx, hi, h.latches_length,
      h.ands_length]
    omega
  unfold ascii at hshort
  omega

end AigerFile

/-! ## The loaded certificate -/

section Loaded

variable {A : Circuit} {B : Aiger} (hext : Extends A B) (hbad : B.LitOk B.bad)
  (hlit : 2 * B.toFile.max_var + 1 < 2 ^ 31)

/-- The circuit that is loaded from the file. -/
def certCircuit : Circuit :=
  B.toFile.circuit (hext.toFile_wf hbad) hlit (.inr Nat.one_pos) 0

variable {hext hbad hlit}

theorem literalOf_dimacs {l : Int} (hl : B.LitOk l) (hlit : 2 * B.toFile.max_var + 1 < 2 ^ 31) :
    literalOf (dimacs_to_aiger l) = l := by
  have hle := dimacs_to_aiger_le hl
  have hm : B.toFile.max_var = B.num_inputs + B.num_latches + B.num_ands := rfl
  have h1 := hl.1
  rw [AigerFile.literalOf_eq (by omega), aiger_to_dimacs_of_dimacs (by omega)]

theorem certCircuit_val {l : Int} (hl : B.LitOk l) (w : Assignment) :
    (certCircuit hext hbad hlit).val w l = B.val (AigerFile.toDimacs fun k => w (k + 1)) l := by
  have hag : AigerFile.Agree (fun k => w (k + 1)) w := fun _ => rfl
  have hok : B.toFile.LitOk (dimacs_to_aiger l) := dimacs_to_aiger_le hl
  have h1 := hl.1
  have hval : (certCircuit hext hbad hlit).val w (literalOf (dimacs_to_aiger l)) =
      B.toFile.val (fun k => w (k + 1)) (dimacs_to_aiger l) := hag.val hok
  rw [literalOf_dimacs hl hlit, hext.toFile_val _ (by omega)] at hval
  exact hval

theorem val_toDimacs {l : Int} (hl : A.LitOk l) (w : Assignment) :
    A.val (AigerFile.toDimacs fun k => w (k + 1)) l = A.val w l := by
  refine Circuit.val_congr (fun u hu _ => ?_) hl
  show w (u - 1 + 1) = w u
  rw [Nat.sub_add_cancel (by omega)]

/-- The literals of the checked circuit keep their values. -/
theorem certCircuit_val_circuit {l : Int} (hl : A.LitOk l) (w : Assignment) :
    (certCircuit hext hbad hlit).val w l = A.val w l := by
  rw [certCircuit_val (hext.grows.litOk hl), hext.grows.val _ _ hl]
  exact val_toDimacs hl w

theorem toFile_latch {j : Nat} (hj : j < B.num_latches) : B.toFile.Aiger_latches[j]? =
    some ⟨2 * (B.num_inputs + j + 1), dimacs_to_aiger (B.nexts.getD j 1), B.default_vals.getD j 0⟩ := by
  simp only [Aiger.toFile, List.getElem?_map, List.getElem?_range hj, Option.map_some]

theorem certCircuit_init : (certCircuit hext hbad hlit).init_state = A.init_state := by
  have hinit : (certCircuit hext hbad hlit).init_state = _ := AigerFile.init_state_eq 0 (hext.toFile_wf hbad)
  rw [hinit, A.wf.init_eq]
  show (List.range B.num_latches).flatMap _ = _
  rw [hext.num_latches]
  refine List.flatMap_congr fun j hj => ?_
  have hj := List.mem_range.mp hj
  show Aiger.resetLits (B.num_inputs + 2 + j) _ = Aiger.resetLits (A.num_inputs + 2 + j) _
  rw [hext.num_inputs, ← hext.default_vals]
  congr 1
  have hj' : j < B.num_latches := by rw [hext.num_latches]; exact hj
  rw [List.getD_eq_getElem?_getD, List.getElem?_map, toFile_latch hj', Option.map_some, Option.getD_some]

theorem certCircuit_nexts {j : Nat} (hj : j < A.num_latches) :
    (certCircuit hext hbad hlit).nexts.getD j 1 = A.nexts.getD j 1 := by
  have hj' : j < B.num_latches := by rw [hext.num_latches]; exact hj
  unfold certCircuit
  rw [AigerFile.circuit_nexts, List.getD_eq_getElem?_getD, List.getElem?_map, toFile_latch hj', Option.map_some,
    Option.getD_some, hext.nexts, literalOf_dimacs (hext.grows.litOk (Circuit.next_ok hj)) hlit]

theorem certCircuit_bad : (certCircuit hext hbad hlit).bad = B.bad := by
  have hb : (certCircuit hext hbad hlit).bad = literalOf (dimacs_to_aiger B.bad) :=
    AigerFile.circuit_bad _ _ _ _
  rw [hb, literalOf_dimacs hbad hlit]

theorem certCircuit_next {w w' : Assignment} :
    (certCircuit hext hbad hlit).system.Next w w' ↔ A.system.Next w w' := by
  show (∀ j, j < B.num_latches → w' (B.num_inputs + 2 + j) = _) ↔
    ∀ j, j < A.num_latches → w' (A.num_inputs + 2 + j) = _
  rw [hext.num_latches, hext.num_inputs]
  refine forall_congr' fun j => forall_congr' fun hj => ?_
  rw [certCircuit_nexts hj, certCircuit_val_circuit (Circuit.next_ok hj)]

end Loaded

/-- The lines that `show_aag` writes are those of the file. -/
theorem show_aag_bytes (B : Aiger) :
    (B.show_aag.flatMap fun line => stringBytes line ++ [10]) = B.toFile.ascii {} := by
  unfold AigerFile.ascii
  rw [← show_aag_eq, List.flatMap_map]

/-! ## Inductive properties -/

theorem FixpointOf.certInv_init {A : Circuit} {env : PdrEnv} {blocked : List Cube} {x : Fixpoint}
    (h : FixpointOf A env blocked x) (hA : A.constraints = []) (hsafe : A.system.Safe) {w : Assignment}
    (hw : A.system.Init w) : CertInv A x w := by
  have hcons := cons_of_nil hA
  have hblocked := (h.reach.sound hcons).blocked
  refine ⟨hsafe 0 (fun _ => w) ⟨hw, fun i hi => absurd hi (Nat.not_lt_zero i), fun _ _ => hcons w⟩, hcons w,
    fun j _ _ c hc hsat => ?_⟩
  exact h.reach.initiation hblocked j c hc ⟨w, hw, hcons w, hsat⟩

/-- Whenever `check` on a circuit without constraints writes a certificate of less than 2 GiB, the loader
accepts it. The loaded circuit has the same initial states and transitions, its bad literal is true where
the checked one is, and its property is inductive: it holds initially and each transition keeps it. -/
theorem certificate_reloads (A : Circuit) (env : PdrEnv) (fuel : Nat) (hA : A.constraints = []) {r : Run}
    (h : runCheck env A fuel = (.ok 20, r)) {x : Fixpoint} (hx : r.fixpoint = some x) {text : List String}
    (ht : x.certificate = some text)
    (hshort : (text.flatMap fun line => stringBytes line ++ [10]).length < 2 ^ 31 - 1) :
    ∃ C : Circuit, (load_aiger_from_file (text.flatMap fun line => stringBytes line ++ [10]) >>=
        fun D => D.translate_to_dimacs 0) = .ok C.toAiger ∧
      (∀ w, C.system.Init w ↔ A.system.Init w) ∧ (∀ w w', C.system.Next w w' ↔ A.system.Next w w') ∧
      (∀ w, A.system.Bad w → C.system.Bad w) ∧ (∀ w, C.system.Init w → ¬ C.system.Bad w) ∧
      ∀ w w', ¬ C.system.Bad w → C.system.Next w w' → ¬ C.system.Bad w' := by
  have hres := run_result A env fuel h
  obtain ⟨y, hy, hf⟩ := hres.fixpoint rfl
  obtain rfl : y = x := Option.some.inj (hy.symm.trans hx)
  have hne : y.engine.certCubes y.level ≠ [] :=
    List.ne_nil_of_mem ((mem_certCubes hf.le_depth).mpr (Or.inl rfl))
  obtain ⟨hext, hbad, hval⟩ := certify_spec hne hf.certCubes_ok
  obtain ⟨_, htext⟩ : env.output_certificate = true ∧
      y.certificate = some (A.certify (y.engine.certCubes y.level)).show_aag :=
    hf.certificate.resolve_left fun hnone => by rw [ht] at hnone; cases hnone.1
  obtain rfl : text = _ := Option.some.inj (ht.symm.trans htext)
  generalize A.certify (y.engine.certCubes y.level) = B at *
  rw [show_aag_bytes] at hshort ⊢
  have hlit := AigerFile.max_var_of_short (hext.toFile_wf hbad) hshort
  have hbadC : ∀ w, (certCircuit hext hbad hlit).system.Bad w ↔ ¬ CertInv A y w := by
    intro w
    have hcubes : ((y.engine.certCubes y.level).any fun c => c.all
        (A.val (AigerFile.toDimacs fun k => w (k + 1)))) =
        (y.engine.certCubes y.level).any fun c => c.all (A.val w) := by
      rw [Bool.eq_iff_iff, List.any_eq_true, List.any_eq_true]
      refine exists_congr fun c => and_congr_right fun hc => ?_
      rw [List.all_eq_true, List.all_eq_true]
      refine forall₂_congr fun l hl => ?_
      rw [val_toDimacs (hf.certCubes_ok c hc l hl)]
    show (certCircuit hext hbad hlit).val w (certCircuit hext hbad hlit).bad = true ↔ _
    rw [certCircuit_bad, certCircuit_val hbad, hval, hcubes]
    exact hf.certInv_iff w
  have hinit : ∀ w, (certCircuit hext hbad hlit).system.Init w ↔ A.system.Init w := by
    intro w
    show CubeSat w (certCircuit hext hbad hlit).init_state ↔ CubeSat w A.init_state
    rw [certCircuit_init]
  have hnone : (⟨[], none⟩ : Trailer).text = [] := rfl
  have hload := AigerFile.load_circuit (hext.toFile_wf hbad) hlit (.inr Nat.one_pos) 0 {} false
    (fun hb => Bool.noConfusion hb) ⟨[], none⟩ (by decide) (by rw [hnone, List.append_nil]; exact hshort)
  rw [hnone, List.append_nil] at hload
  refine ⟨certCircuit hext hbad hlit, hload, hinit, fun w w' => certCircuit_next, fun w hb => ?_,
    fun w hi => ?_, fun w w' hb hn => ?_⟩
  · exact (hbadC w).mpr fun hinv => hinv.1 hb
  · rw [hbadC, not_not]
    exact hf.certInv_init hA (hres.safe hA) ((hinit w).mp hi)
  · rw [hbadC, not_not] at hb ⊢
    exact hf.certInv_closed hb (certCircuit_next.mp hn) (cons_of_nil hA w')

/-- The certificate of the run on `stuck`. -/
theorem certificate_reloads_stuck : ∃ (text : List String) (C : Circuit),
    Sample.stuckRun.2.fixpoint.bind Fixpoint.certificate = some text ∧
      (load_aiger_from_file (text.flatMap fun line => stringBytes line ++ [10]) >>=
        fun D => D.translate_to_dimacs 0) = .ok C.toAiger ∧
      ∀ w w', ¬ C.system.Bad w → C.system.Next w w' → ¬ C.system.Bad w' := by
  have hrun := Sample.eq_of_verdict Sample.stuckRun_verdict
  have hlen : (((Sample.stuckRun.2.fixpoint.bind Fixpoint.certificate).getD []).flatMap fun line =>
      stringBytes line ++ [10]).length < 2 ^ 31 - 1 := by decide +kernel
  have hsome : (Sample.stuckRun.2.fixpoint.bind Fixpoint.certificate).isSome = true := by decide +kernel
  obtain ⟨text, htext⟩ := Option.isSome_iff_exists.mp hsome
  obtain ⟨x, hx, ht⟩ := Option.bind_eq_some_iff.mp htext
  rw [htext] at hlen
  obtain ⟨C, hload, _, _, _, _, hstep⟩ := certificate_reloads Sample.stuck (Sample.envOf Sample.stuckAnswers) 10
    rfl hrun hx ht hlen
  exact ⟨text, C, htext, hload, hstep⟩

end ModelChecker
