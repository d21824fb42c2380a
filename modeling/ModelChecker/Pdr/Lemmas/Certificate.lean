import ModelChecker.Pdr.Lemmas.Check

/-!
# Certificates

The gates added by `propagate` extend the circuit without changing any value, and the new bad literal is
the complement of the invariant.
-/

namespace ModelChecker

open Logic

variable {A : Circuit} {B C : Aiger}

/-! ## Extensions of a circuit -/

/-- `B` is `A` with more gates at the end. -/
structure Extends (A : Circuit) (B : Aiger) : Prop where
  num_inputs : B.num_inputs = A.num_inputs
  num_latches : B.num_latches = A.num_latches
  nexts : B.nexts = A.nexts
  constraints : B.constraints = A.constraints
  init_state : B.init_state = A.init_state
  default_vals : B.default_vals = A.default_vals
  ands : A.ands <+: B.ands
  ands_length : B.ands.length = B.num_ands
  ands_o : ∀ i, (h : i < B.ands.length) → (B.ands.get ⟨i, h⟩).o = B.first_and + i
  fanin1 : ∀ a ∈ B.ands, 1 ≤ a.i1.natAbs ∧ a.i1.natAbs < a.o
  fanin2 : ∀ a ∈ B.ands, 1 ≤ a.i2.natAbs ∧ a.i2.natAbs < a.o

theorem Extends.refl (A : Circuit) : Extends A A.toAiger :=
  ⟨rfl, rfl, rfl, rfl, rfl, rfl, List.prefix_rfl, A.wf.ands_length, A.wf.ands_o, A.wf.fanin1,
    A.wf.fanin2⟩

/-- `C` has the values of `B`, and possibly more. -/
structure Grows (B C : Aiger) : Prop where
  max_var : B.max_var ≤ C.max_var
  val : ∀ w l, B.LitOk l → C.val w l = B.val w l

theorem Grows.refl (B : Aiger) : Grows B B := ⟨le_rfl, fun _ _ _ => rfl⟩

theorem Grows.litOk (h : Grows B C) {l : Int} (hl : B.LitOk l) : C.LitOk l :=
  ⟨hl.1, hl.2.trans h.max_var⟩

theorem Grows.trans {D : Aiger} (h : Grows B C) (h' : Grows C D) : Grows B D :=
  ⟨h.max_var.trans h'.max_var, fun w l hl => (h'.val w l (h.litOk hl)).trans (h.val w l hl)⟩

theorem Extends.first_and (h : Extends A B) : B.first_and = A.first_and := by
  unfold Aiger.first_and; rw [h.num_inputs, h.num_latches]

theorem Extends.grows (h : Extends A B) : Grows A.toAiger B := by
  obtain ⟨rest, hrest⟩ := h.ands
  have hlen : A.ands.length + rest.length = B.ands.length := by rw [← hrest, List.length_append]
  have hA := A.wf.ands_length
  have hB := h.ands_length
  refine ⟨?_, fun w l hl => litVal_congr ?_⟩
  · unfold Aiger.max_var; rw [h.num_inputs, h.num_latches]; omega
  · unfold Aiger.eval
    rw [← hrest, evalAnds_append]
    refine evalAnds_of_not_output fun a ha => ?_
    obtain ⟨i, hi, rfl⟩ := List.getElem_of_mem ha
    have ho := h.ands_o (A.ands.length + i) (by omega)
    simp only [← hrest, List.get_eq_getElem, List.getElem_append_right (Nat.le_add_right _ i),
      Nat.add_sub_cancel_left] at ho
    have := hl.2
    rw [ho, h.first_and]
    unfold Aiger.first_and Aiger.max_var at *
    omega

/-! ## New gates -/

/-- One more gate. -/
theorem Extends.gate (h : Extends A B) {a b : Int} (ha : B.LitOk a) (hb : B.LitOk b) :
    Extends A { B with ands := B.ands ++ [⟨1 + B.num_inputs + B.num_latches + B.num_ands + 1, a, b⟩]
                       num_ands := B.num_ands + 1 } := by
  have hlen := h.ands_length
  refine ⟨h.num_inputs, h.num_latches, h.nexts, h.constraints, h.init_state, h.default_vals,
    h.ands.trans (List.prefix_append _ _), by simp [hlen], fun i hi => ?_, fun g hg => ?_, fun g hg => ?_⟩
  · simp only [List.length_append, List.length_singleton] at hi
    simp only [List.get_eq_getElem]
    rcases Nat.lt_or_ge i B.ands.length with hlt | hge
    · have ho := h.ands_o i hlt
      rw [List.getElem_append_left hlt]
      simpa [Aiger.first_and] using ho
    · obtain rfl : i = B.ands.length := by omega
      rw [List.getElem_append_right hge]
      simp only [Nat.sub_self, List.getElem_cons_zero, Aiger.first_and]
      omega
  · rcases List.mem_append.mp hg with hg | hg
    · exact h.fanin1 g hg
    · rw [List.mem_singleton.mp hg]
      have h1 := ha.1
      have h2 := ha.2
      unfold Aiger.max_var at h2
      exact ⟨h1, by simp only; omega⟩
  · rcases List.mem_append.mp hg with hg | hg
    · exact h.fanin2 g hg
    · rw [List.mem_singleton.mp hg]
      have h1 := hb.1
      have h2 := hb.2
      unfold Aiger.max_var at h2
      exact ⟨h1, by simp only; omega⟩

theorem gate_grows (B : Aiger) (a b : Int) :
    Grows B { B with ands := B.ands ++ [⟨1 + B.num_inputs + B.num_latches + B.num_ands + 1, a, b⟩]
                     num_ands := B.num_ands + 1 } := by
  refine ⟨by simp [Aiger.max_var], fun w l hl => litVal_congr ?_⟩
  have h2 := hl.2
  unfold Aiger.max_var at h2
  unfold Aiger.eval
  rw [evalAnds_append]
  refine evalAnds_of_not_output fun g hg => ?_
  rw [List.mem_singleton.mp hg]
  simp only
  omega

/-- The new gate is the conjunction of its fan-ins, in whichever order they are stored. -/
theorem newGate_spec (h : Extends A B) {a b : Int} (ha : B.LitOk a) (hb : B.LitOk b) :
    Extends A (B.newGate a b).1 ∧ Grows B (B.newGate a b).1 ∧
      (B.newGate a b).1.LitOk (B.newGate a b).2 ∧
      ∀ w, (B.newGate a b).1.val w (B.newGate a b).2 = (B.val w a && B.val w b) := by
  have hval : ∀ w (x y : Int), evalAnds (Function.update w 1 false)
      (B.ands ++ [⟨1 + B.num_inputs + B.num_latches + B.num_ands + 1, x, y⟩])
      (1 + B.num_inputs + B.num_latches + B.num_ands + 1) = (B.val w x && B.val w y) := by
    intro w x y
    rw [evalAnds_append]
    simp [evalAnds, evalGate, Aiger.val, Aiger.eval]
  unfold Aiger.newGate
  by_cases hab : a.natAbs > b.natAbs
  · simp only [if_pos hab]
    refine ⟨h.gate ha hb, gate_grows B a b, ⟨by omega, by simp [Aiger.max_var]; omega⟩, fun w => ?_⟩
    rw [← hval w a b]
    exact litVal_natCast _ _
  · simp only [if_neg hab]
    refine ⟨h.gate hb ha, gate_grows B b a, ⟨by omega, by simp [Aiger.max_var]; omega⟩, fun w => ?_⟩
    rw [Bool.and_comm, ← hval w b a]
    exact litVal_natCast _ _

theorem chainGates_spec (h : Extends A B) {g : Int} (hg : B.LitOk g) {ls : List Int}
    (hls : ∀ l ∈ ls, B.LitOk l) :
    Extends A (B.chainGates g ls).1 ∧ Grows B (B.chainGates g ls).1 ∧
      (B.chainGates g ls).1.LitOk (B.chainGates g ls).2 ∧
      ∀ w, (B.chainGates g ls).1.val w (B.chainGates g ls).2 = (B.val w g && ls.all (B.val w)) := by
  induction ls generalizing B g with
  | nil => exact ⟨h, .refl B, hg, fun w => by simp [Aiger.chainGates]⟩
  | cons l ls ih =>
      obtain ⟨h1, hgr, hok, hval⟩ := newGate_spec h hg (hls l List.mem_cons_self)
      have hls' : ∀ m ∈ ls, B.LitOk m := fun m hm => hls m (List.mem_cons_of_mem _ hm)
      obtain ⟨h2, hgr2, hok2, hval2⟩ := ih h1 hok fun m hm => hgr.litOk (hls' m hm)
      refine ⟨h2, hgr.trans hgr2, hok2, fun w => ?_⟩
      have hall : ls.all ((B.newGate g l).1.val w) = ls.all (B.val w) := by
        rw [Bool.eq_iff_iff, List.all_eq_true, List.all_eq_true]
        exact forall₂_congr fun m hm => by rw [hgr.val w m (hls' m hm)]
      rw [List.all_cons, ← Bool.and_assoc, ← hval w, ← hall]
      exact hval2 w

theorem certCube_ne_nil (c : Cube) : Aiger.certCube c ≠ [] := by
  unfold Aiger.certCube
  rw [ne_eq, List.reverse_eq_nil_iff, ← List.length_eq_zero_iff, length_sortLits]
  split <;> simp_all

theorem mem_certCube {c : Cube} {l : Int} : l ∈ Aiger.certCube c ↔ l ∈ c ∨ c = [] ∧ l = -1 := by
  unfold Aiger.certCube
  rw [List.mem_reverse, mem_sortLits]
  by_cases hc : c = []
  · subst hc; simp
  · rw [if_neg (by rw [List.length_eq_zero_iff]; exact hc)]
    simp [hc]

/-- The gates of one cube; the empty cube is true. -/
theorem cubeGates_spec (h : Extends A B) {c : Cube} (hc : ∀ l ∈ c, A.LitOk l) :
    Extends A (B.cubeGates c).1 ∧ Grows B (B.cubeGates c).1 ∧
      (B.cubeGates c).1.LitOk (B.cubeGates c).2 ∧
      ∀ w, (B.cubeGates c).1.val w (B.cubeGates c).2 = c.all (A.val w) := by
  have hcert : ∀ l ∈ Aiger.certCube c, A.LitOk l := by
    intro l hl
    rcases mem_certCube.mp hl with hl | ⟨_, rfl⟩
    · exact hc l hl
    · exact ⟨by decide, by unfold Aiger.max_var; simp⟩
  have hall : ∀ w, (Aiger.certCube c).all (A.val w) = c.all (A.val w) := by
    intro w
    rw [Bool.eq_iff_iff, List.all_eq_true, List.all_eq_true]
    constructor
    · exact fun hw l hl => hw l (mem_certCube.mpr (Or.inl hl))
    · intro hw l hl
      rcases mem_certCube.mp hl with hl | ⟨_, rfl⟩
      · exact hw l hl
      · simp [Aiger.val, litVal]
  unfold Aiger.cubeGates
  cases hcc : Aiger.certCube c with
  | nil => exact absurd hcc (certCube_ne_nil c)
  | cons l ls =>
      rw [hcc] at hcert hall
      have hgr := h.grows
      obtain ⟨h1, hg1, hok1, hv1⟩ := chainGates_spec h (hgr.litOk (hcert l List.mem_cons_self))
        fun m hm => hgr.litOk (hcert m (List.mem_cons_of_mem _ hm))
      refine ⟨h1, hg1, hok1, fun w => (hv1 w).trans ?_⟩
      rw [← hall w, List.all_cons, hgr.val w l (hcert l List.mem_cons_self)]
      congr 1
      rw [Bool.eq_iff_iff, List.all_eq_true, List.all_eq_true]
      exact forall₂_congr fun m hm => by rw [hgr.val w m (hcert m (List.mem_cons_of_mem _ hm))]

theorem LitOk.neg {l : Int} (h : B.LitOk l) : B.LitOk (-l) := by
  unfold Aiger.LitOk at *; rwa [Int.natAbs_neg]

theorem val_neg {w : Assignment} {l : Int} (h : B.LitOk l) : B.val w (-l) = !B.val w l :=
  litVal_neg _ (by have := h.1; omega)

theorem invariantGates_spec (h : Extends A B) {inv : Int} (hinv : B.LitOk inv) {cs : List Cube}
    (hcs : ∀ c ∈ cs, ∀ l ∈ c, A.LitOk l) :
    Extends A (B.invariantGates inv cs).1 ∧ Grows B (B.invariantGates inv cs).1 ∧
      (B.invariantGates inv cs).1.LitOk (B.invariantGates inv cs).2 ∧
      ∀ w, (B.invariantGates inv cs).1.val w (B.invariantGates inv cs).2 =
        (B.val w inv && cs.all fun c => !c.all (A.val w)) := by
  induction cs generalizing B inv with
  | nil => exact ⟨h, .refl B, hinv, fun w => by simp [Aiger.invariantGates]⟩
  | cons c cs ih =>
      obtain ⟨h1, hg1, hok1, hv1⟩ := cubeGates_spec h (hcs c List.mem_cons_self)
      obtain ⟨h2, hg2, hok2, hv2⟩ := newGate_spec h1 (LitOk.neg hok1) (hg1.litOk hinv)
      obtain ⟨h3, hg3, hok3, hv3⟩ := ih h2 hok2 fun d hd => hcs d (List.mem_cons_of_mem _ hd)
      refine ⟨h3, hg1.trans (hg2.trans hg3), hok3, fun w => (hv3 w).trans ?_⟩
      rw [hv2 w, val_neg hok1, hv1 w, hg1.val w inv hinv, List.all_cons, Bool.and_comm (!c.all _),
        Bool.and_assoc]

/-- The bad literal of the certificate is true where some cube is. -/
theorem certify_spec {cs : List Cube} (hne : cs ≠ []) (hcs : ∀ c ∈ cs, ∀ l ∈ c, A.LitOk l) :
    Extends A (A.certify cs) ∧ (A.certify cs).LitOk (A.certify cs).bad ∧
      ∀ w, (A.certify cs).val w (A.certify cs).bad = cs.any fun c => c.all (A.val w) := by
  obtain ⟨c, cs, rfl⟩ := List.exists_cons_of_ne_nil hne
  obtain ⟨h1, hg1, hok1, hv1⟩ := cubeGates_spec (Extends.refl A) (hcs c List.mem_cons_self)
  obtain ⟨h2, _, hok2, hv2⟩ := invariantGates_spec h1 (LitOk.neg hok1)
    fun d hd => hcs d (List.mem_cons_of_mem _ hd)
  unfold Aiger.certify
  refine ⟨⟨h2.num_inputs, h2.num_latches, h2.nexts, h2.constraints, h2.init_state, h2.default_vals,
    h2.ands, h2.ands_length, h2.ands_o, h2.fanin1, h2.fanin2⟩, LitOk.neg hok2, fun w => ?_⟩
  refine (val_neg (B := (((A.cubeGates c).1.invariantGates (-(A.cubeGates c).2) cs)).1) hok2).trans ?_
  rw [hv2 w, val_neg hok1, hv1 w, List.any_cons, Bool.not_and, Bool.not_not, List.not_all_eq_any_not]
  simp

/-! ## The written file -/

/-- The AIGER file `show_aag` writes. -/
def Aiger.toFile (B : Aiger) : AigerFile where
  max_var := B.num_inputs + B.num_latches + B.num_ands
  num_inputs := B.num_inputs
  num_latches := B.num_latches
  num_outputs := 0
  num_ands := B.num_ands
  num_bads := 1
  num_constraints := B.constraints.length
  Aiger_inputs := (List.range B.num_inputs).map fun i => 2 * (i + 1)
  Aiger_latches := (List.range B.num_latches).map fun i =>
    ⟨2 * (B.num_inputs + i + 1), dimacs_to_aiger (B.nexts.getD i 1), B.default_vals.getD i 0⟩
  Aiger_outputs := []
  Aiger_bads := [dimacs_to_aiger B.bad]
  Aiger_constraints := B.constraints.map dimacs_to_aiger
  Aiger_ands := B.ands.map fun a => ⟨dimacs_to_aiger a.o, dimacs_to_aiger a.i1, dimacs_to_aiger a.i2⟩

def stringBytes (s : String) : List Nat := s.toList.map Char.toNat

theorem stringBytes_append (s t : String) : stringBytes (s ++ t) = stringBytes s ++ stringBytes t := by
  simp [stringBytes]

theorem stringBytes_repr (n : Nat) : stringBytes n.repr = digitBytes n := by
  simp [stringBytes, digitBytes, Nat.repr]

theorem stringBytes_blank : stringBytes (toString " ") = [32] := by decide

theorem stringBytes_number (n : Nat) : stringBytes s!"{n}" = numberLine [n] := by
  simp [stringBytes_repr, numberLine]

theorem show_header (B : Aiger) :
    stringBytes (s!"aag {B.num_inputs + B.num_latches + B.num_ands} {B.num_inputs} {B.num_latches} 0 {
      B.num_ands} 1" ++ (if B.constraints.length > 0 then s!" {B.constraints.length}" else "")) =
      [97, 97, 103, 32] ++ numberLine (B.toFile.headerNumbers {}) := by
  have hone : stringBytes (toString " 1") = 32 :: digitBytes 1 := by decide
  have hzero : stringBytes (toString " 0 ") = 32 :: (digitBytes 0 ++ [32]) := by decide
  have haag : stringBytes (toString "aag ") = [97, 97, 103, 32] := by decide
  by_cases hc : B.constraints.length > 0
  · have hc' : B.constraints ≠ [] := List.length_pos_iff.mp hc
    simp [stringBytes_append, stringBytes_repr, stringBytes_blank, hone, hzero, haag, hc, hc', numberLine,
      AigerFile.headerNumbers, Aiger.toFile]
  · have hc' : B.constraints = [] := by simpa using hc
    simp [stringBytes_append, stringBytes_repr, stringBytes_blank, hone, hzero, haag, hc', numberLine,
      AigerFile.headerNumbers, Aiger.toFile]

theorem show_latch (l n d : Nat) :
    stringBytes (s!"{l} {n}" ++ (if d ≠ 0 then s!" {d}" else "")) =
      numberLine ([l, n] ++ if d ≠ 0 then [d] else []) := by
  by_cases hd : d = 0
  · simp [stringBytes_append, stringBytes_repr, stringBytes_blank, numberLine, hd]
  · simp [stringBytes_append, stringBytes_repr, stringBytes_blank, numberLine, hd]

theorem show_gate (o i1 i2 : Nat) : stringBytes s!"{o} {i1} {i2}" = numberLine [o, i1, i2] := by
  simp [stringBytes_append, stringBytes_repr, stringBytes_blank, numberLine]

/-- The text is the ASCII serialisation of the file, with the optional fields that are zero left
out. -/
theorem show_aag_eq (B : Aiger) : B.show_aag.map stringBytes = B.toFile.asciiLines {} := by
  have hlatches : (B.toFile.Aiger_latches.mapIdx fun i a =>
      numberLine ([a.l, a.next] ++ AigerFile.resetNumbers {} i a)) =
      (List.range B.num_latches).map fun i => stringBytes
        (s!"{2 * (B.num_inputs + i + 1)} {dimacs_to_aiger (B.nexts.getD i 1)}" ++
          (if B.default_vals.getD i 0 ≠ 0 then s!" {B.default_vals.getD i 0}" else "")) := by
    refine List.ext_getElem (by simp [Aiger.toFile]) fun i _ _ => ?_
    simp only [List.getElem_mapIdx, List.getElem_map, List.getElem_range, show_latch, Aiger.toFile,
      AigerFile.resetNumbers, Bool.false_eq_true, or_false]
  unfold Aiger.show_aag AigerFile.asciiLines
  rw [hlatches]
  simp only [List.map_append, List.map_cons, List.map_nil, List.map_map, show_header, Function.comp_def,
    stringBytes_number, show_gate, Aiger.toFile, List.append_nil]

theorem dimacs_to_aiger_le {l : Int} (h : B.LitOk l) :
    dimacs_to_aiger l ≤ 2 * (B.num_inputs + B.num_latches + B.num_ands) + 1 := by
  have h1 := h.1
  have h2 := h.2
  unfold Aiger.max_var at h2
  unfold dimacs_to_aiger
  split <;> omega

theorem Extends.toFile_wf (h : Extends A B) (hbad : B.LitOk B.bad) : B.toFile.WellFormed := by
  have hg := h.grows
  have hlast : ∀ a ∈ B.ands, 1 ≤ a.o := fun a ha => by have := h.fanin1 a ha; omega
  refine { max_var := rfl, inputs := rfl, latches_length := by simp [Aiger.toFile]
           latches_l := fun i _ => by simp [Aiger.toFile]
           latches_next := fun a ha => ?_, latches_reset := fun a ha => ?_
           outputs_length := rfl, outputs_ok := (by rintro _ ⟨⟩), bads_length := rfl, bads_ok := fun l hl => ?_
           constraints_length := by simp [Aiger.toFile], constraints_ok := fun l hl => ?_
           ands_length := by simp [Aiger.toFile, h.ands_length]
           ands_o := fun i hi => ?_, fanins := fun a ha => ?_ }
  · obtain ⟨i, hi, rfl⟩ := List.mem_map.mp ha
    have hi' : i < A.num_latches := by rw [← h.num_latches]; exact List.mem_range.mp hi
    refine dimacs_to_aiger_le (hg.litOk ?_)
    rw [h.nexts]
    exact Circuit.next_ok hi'
  · obtain ⟨i, hi, rfl⟩ := List.mem_map.mp ha
    have hi' : i < A.default_vals.length := by
      rw [A.wf.vals_length, ← h.num_latches]; exact List.mem_range.mp hi
    have hv := A.wf.vals_ok i hi'
    simp only [h.default_vals, h.num_inputs, List.getD_eq_getElem?_getD, List.getElem?_eq_getElem hi',
      Option.getD_some]
    exact hv
  · rw [List.mem_singleton.mp hl]; exact dimacs_to_aiger_le hbad
  · obtain ⟨m, hm, rfl⟩ := List.mem_map.mp hl
    rw [h.constraints] at hm
    exact dimacs_to_aiger_le (hg.litOk (A.wf.constraints_ok m hm))
  · have hi' : i < B.ands.length := by simpa [Aiger.toFile] using hi
    have ho := h.ands_o i hi'
    simp only [List.get_eq_getElem] at ho
    simp only [Aiger.toFile, List.get_eq_getElem, List.getElem_map, ho, dimacs_to_aiger]
    rw [if_neg (by omega)]
    unfold Aiger.first_and
    omega
  · obtain ⟨g, hg, rfl⟩ := List.mem_map.mp ha
    have h1 := h.fanin1 g hg
    have h2 := h.fanin2 g hg
    simp only [dimacs_to_aiger]
    constructor <;> split <;> split <;> omega

/-- The file has the values of the circuit. -/
theorem Extends.toFile_val (h : Extends A B) (v : Nat → Bool) {l : Int} (hl : l ≠ 0) :
    B.toFile.val v (dimacs_to_aiger l) = B.val (fun u => v (u - 1)) l := by
  have hands : B.toFile.Aiger_ands.map Aiger_and.toDimacs = B.ands := by
    simp only [Aiger.toFile, List.map_map]
    refine (List.map_congr_left fun a ha => ?_).trans (List.map_id B.ands)
    have h1 := h.fanin1 a ha
    have h2 := h.fanin2 a ha
    simp only [Function.comp, Aiger_and.toDimacs, aiger_to_dimacs_of_dimacs (l := a.i1) (by omega),
      aiger_to_dimacs_of_dimacs (l := a.i2) (by omega)]
    congr 1
    have := dimacs_to_aiger_div (l := (a.o : Int)) (by omega)
    simpa using this
  have hstart : ∀ k, Function.update (fun u => v (u - 1)) 1 false (k + 1) = Function.update v 0 false k := by
    intro k
    by_cases hk : k = 0
    · subst hk; simp
    · rw [Function.update_of_ne (by omega), Function.update_of_ne hk]; simp
  have heval := fun k => evalAnds_toDimacs hstart B.toFile.Aiger_ands k
  rw [hands] at heval
  have hval := litVal_aiger_to_dimacs (e := B.toFile.eval v) (σ := B.eval fun u => v (u - 1)) heval
    (dimacs_to_aiger l)
  rw [aiger_to_dimacs_of_dimacs hl] at hval
  exact hval.symm

/-! ## The invariant -/

theorem mem_foldl_setInsert {c : Cube} {cs start : List Cube} :
    c ∈ cs.foldl (fun s d => setInsert Cube_CMP d s) start ↔ c ∈ cs ∨ c ∈ start := by
  induction cs generalizing start with
  | nil => simp
  | cons d cs ih =>
      rw [List.foldl_cons, ih, mem_setInsert cube_CMP_separates, List.mem_cons]
      tauto

theorem mem_certCubes {p : PDR} {i : Nat} (hi : i ≤ p.depth) {c : Cube} :
    c ∈ p.certCubes i ↔ c = [p.circuit.bad] ∨ (∃ l ∈ p.circuit.constraints, c = [-l]) ∨
      ∃ j, i + 1 ≤ j ∧ j ≤ p.depth + 1 ∧ c ∈ (p.frame j).cubes := by
  unfold PDR.certCubes
  rw [mem_foldl_setInsert, mem_foldl_setInsert]
  simp only [List.mem_flatMap, List.mem_range, List.mem_cons, List.mem_map]
  constructor
  · rintro (⟨d, hd, hc⟩ | (rfl | ⟨l, hl, rfl⟩) | hc)
    · exact Or.inr (Or.inr ⟨i + 2 + d, by omega, by omega, hc⟩)
    · exact Or.inl rfl
    · exact Or.inr (Or.inl ⟨l, hl, rfl⟩)
    · exact Or.inr (Or.inr ⟨i + 1, le_rfl, by omega, hc⟩)
  · rintro (rfl | ⟨l, hl, rfl⟩ | ⟨j, h1, h2, hc⟩)
    · exact Or.inr (Or.inl (Or.inl rfl))
    · exact Or.inr (Or.inl (Or.inr ⟨l, hl, rfl⟩))
    · by_cases hj : j = i + 1
      · subst hj; exact Or.inr (Or.inr hc)
      · exact Or.inl ⟨j - (i + 2), by omega, by rwa [show i + 2 + (j - (i + 2)) = j by omega]⟩

/-- The invariant the certificate stands for: not bad, all constraints true, and outside every cube
stored above the empty level. -/
def CertInv (A : Circuit) (x : Fixpoint) (w : Assignment) : Prop :=
  ¬ A.system.Bad w ∧ A.system.Cons w ∧
    ∀ j, x.level + 1 ≤ j → j ≤ x.engine.depth + 1 → ∀ c ∈ (x.engine.frame j).cubes, ¬ CubeSat w c

section Fixpoint

variable {env : PdrEnv} {blocked : List Cube} {x : Fixpoint}

theorem FixpointOf.certCubes_ok (h : FixpointOf A env blocked x) :
    ∀ c ∈ x.engine.certCubes x.level, ∀ l ∈ c, A.LitOk l := by
  intro c hc l hl
  rw [mem_certCubes h.le_depth, h.shape.circuit] at hc
  rcases hc with rfl | ⟨m, hm, rfl⟩ | ⟨j, _, _, hc⟩
  · rw [List.mem_singleton.mp hl]; exact A.wf.bad_ok
  · rw [List.mem_singleton.mp hl]; exact LitOk.neg (A.wf.constraints_ok m hm)
  · exact litOk_of_latch ((h.shape.cubes j c hc).1 l hl)

theorem FixpointOf.certInv_iff (h : FixpointOf A env blocked x) (w : Assignment) :
    ((x.engine.certCubes x.level).any fun c => c.all (A.val w)) = true ↔ ¬ CertInv A x w := by
  have hlatch : ∀ j, ∀ c ∈ (x.engine.frame j).cubes, (c.all (A.val w) = true ↔ CubeSat w c) := by
    intro j c hc
    rw [List.all_eq_true]
    refine forall₂_congr fun l hl => ?_
    rw [Circuit.val_latch w ((h.shape.cubes j c hc).1 l hl)]
  rw [List.any_eq_true, ← not_forall_not, not_iff_not]
  unfold CertInv
  constructor
  · intro hno
    have hcube : ∀ c ∈ x.engine.certCubes x.level, ¬ c.all (A.val w) = true :=
      fun c hc hall => hno c ⟨hc, hall⟩
    refine ⟨fun hb => ?_, fun l hl => ?_, fun j h1 h2 c hc hsat => ?_⟩
    · refine hcube [A.bad] ((mem_certCubes h.le_depth).mpr (Or.inl ?_)) ?_
      · rw [h.shape.circuit]
      · rw [List.all_cons, List.all_nil, Bool.and_true]; exact hb
    · by_contra hfalse
      refine hcube [-l] ((mem_certCubes h.le_depth).mpr (Or.inr (Or.inl ⟨l, ?_, rfl⟩))) ?_
      · rw [h.shape.circuit]; exact hl
      · simpa [val_neg (A.wf.constraints_ok l hl)] using hfalse
    · refine hcube c ((mem_certCubes h.le_depth).mpr (Or.inr (Or.inr ⟨j, h1, h2, hc⟩))) ?_
      exact (hlatch j c hc).mpr hsat
  · rintro ⟨hb, hcons, hcubes⟩ c ⟨hc, hall⟩
    rw [mem_certCubes h.le_depth, h.shape.circuit] at hc
    rcases hc with rfl | ⟨l, hl, rfl⟩ | ⟨j, h1, h2, hc⟩
    · rw [List.all_cons, List.all_nil, Bool.and_true] at hall
      exact hb hall
    · have htrue : A.val w l = true := hcons l hl
      simp [val_neg (A.wf.constraints_ok l hl), htrue] at hall
    · exact hcubes j h1 h2 c hc ((hlatch j c hc).mp hall)

/-- The invariant is closed under constrained transitions. -/
theorem FixpointOf.certInv_closed (h : FixpointOf A env blocked x) {w w' : Assignment}
    (hw : CertInv A x w) (hn : A.system.Next w w') (hc' : A.system.Cons w') : CertInv A x w' := by
  obtain ⟨hb, hc, hcubes⟩ := hw
  have h1 := h.one_le
  have hd := h.le_depth
  have hlen : x.engine.depth + 2 = x.engine.frames.length := by unfold PDR.depth at *; omega
  have hst : A.system.Step w w' := ⟨hc, hb, hn, hc'⟩
  have hexcl : Ic3.Excluded InCube x.engine.cubes x.level w := by
    intro j hj c hcj
    have hmem : c ∈ (x.engine.frame j).cubes := hcj
    have hlt := PDR.lt_length_of_mem hmem
    by_cases hji : j = x.level
    · subst hji; rw [h.empty] at hmem; cases hmem
    · exact hcubes j (by omega) (by omega) c hmem
  have hnext := h.reach.closed h1 (show x.level + 1 < x.engine.frames.length by omega) hexcl hst
  refine ⟨h.badFree w w' ?_ hst, hc', fun j hj _ c hcj => hnext j hj c hcj⟩
  rw [Ic3.level_pos (by omega)]
  exact hexcl.mono hd

end Fixpoint

end ModelChecker
