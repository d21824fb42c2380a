import ModelChecker.Logic.Gates
import ModelChecker.Logic.System

/-!
# Circuits in DIMACS numbering

The circuit as the two engines see it, after `translate_to_dimacs`. Variable `1` is the constant
false, followed by the inputs, the latches and the AND gates. A valuation of the inputs and latches
(both read from one assignment) determines the value of every variable, and with it the successor
state, the constraints and the bad literal.
-/

namespace ModelChecker

open Logic

/-- The fields of class `Aiger` that the engines read. `default_vals` are the reset values of
`Aiger_latches`, which only the certificate prints. -/
structure Aiger where
  num_inputs : Nat
  num_latches : Nat
  num_ands : Nat
  ands : List AndGate
  nexts : List Int
  init_state : List Int
  constraints : List Int
  allbad : List Int
  bad : Int
  default_vals : List Nat
deriving DecidableEq, Repr

namespace Aiger

variable (A : Aiger)

/-- `num_inputs + num_latches + 2`, the output of the first gate. -/
def first_and : Nat := A.num_inputs + A.num_latches + 2

def max_var : Nat := A.num_inputs + A.num_latches + A.num_ands + 1

def IsInput (v : Nat) : Prop := 2 ≤ v ∧ v < A.num_inputs + 2

def IsLatch (v : Nat) : Prop := A.num_inputs + 2 ≤ v ∧ v < A.first_and

instance (v : Nat) : Decidable (A.IsInput v) := inferInstanceAs (Decidable (_ ∧ _))

instance (v : Nat) : Decidable (A.IsLatch v) := inferInstanceAs (Decidable (_ ∧ _))

/-- The variable of the `i`-th latch. -/
def latch (i : Nat) : Nat := A.num_inputs + 2 + i

/-- A literal of one of the circuit's variables. -/
def LitOk (l : Int) : Prop := 1 ≤ l.natAbs ∧ l.natAbs ≤ A.max_var

instance (l : Int) : Decidable (A.LitOk l) := inferInstanceAs (Decidable (_ ∧ _))

/-- The value of every variable, from a valuation of the inputs and latches. -/
def eval (w : Assignment) : Assignment := evalAnds (Function.update w 1 false) A.ands

def val (w : Assignment) (l : Int) : Bool := litVal (A.eval w) l

/-- The literal a reset value stands for; a latch that is its own reset value is uninitialised. -/
def resetLits (v default_val : Nat) : List Int :=
  if default_val = 0 then [-(v : Int)] else if default_val = 1 then [(v : Int)] else []

/-- What a loaded circuit satisfies when its AND list is topologically ordered. -/
structure WellFormed : Prop where
  ands_length : A.ands.length = A.num_ands
  ands_o : ∀ i, (h : i < A.ands.length) → (A.ands.get ⟨i, h⟩).o = A.first_and + i
  fanin1 : ∀ a ∈ A.ands, 1 ≤ a.i1.natAbs ∧ a.i1.natAbs < a.o
  fanin2 : ∀ a ∈ A.ands, 1 ≤ a.i2.natAbs ∧ a.i2.natAbs < a.o
  nexts_length : A.nexts.length = A.num_latches
  nexts_ok : ∀ l ∈ A.nexts, A.LitOk l
  constraints_ok : ∀ l ∈ A.constraints, A.LitOk l
  bad_ok : A.LitOk A.bad
  allbad_ok : ∀ l ∈ A.allbad, A.LitOk l
  init_latch : ∀ l ∈ A.init_state, A.IsLatch l.natAbs
  init_distinct : A.init_state.Pairwise fun a b => a.natAbs ≠ b.natAbs
  vals_length : A.default_vals.length = A.num_latches
  vals_ok : ∀ i, (h : i < A.default_vals.length) → A.default_vals.get ⟨i, h⟩ = 0 ∨
    A.default_vals.get ⟨i, h⟩ = 1 ∨ A.default_vals.get ⟨i, h⟩ = 2 * (A.num_inputs + i + 1)
  init_eq : A.init_state = (List.range A.num_latches).flatMap fun i =>
    resetLits (A.latch i) (A.default_vals.getD i 0)

end Aiger

/-- A well-formed circuit. -/
structure Circuit extends Aiger where
  wf : toAiger.WellFormed

namespace Circuit

variable (A : Circuit)

theorem ands_get {i : Nat} (h : i < A.ands.length) : (A.ands.get ⟨i, h⟩).o = A.first_and + i :=
  A.wf.ands_o i h

theorem topo : Topo A.ands := by
  refine ⟨?_, A.wf.fanin1, A.wf.fanin2⟩
  rw [List.pairwise_iff_getElem]
  intro i j hi hj hij
  have h1 := A.ands_get hi
  have h2 := A.ands_get hj
  simp only [List.get_eq_getElem] at h1 h2
  omega

variable {A}

theorem o_range {a : AndGate} (ha : a ∈ A.ands) : A.first_and ≤ a.o ∧ a.o ≤ A.max_var := by
  obtain ⟨i, hi, rfl⟩ := List.getElem_of_mem ha
  have h := A.ands_get hi
  have hl := A.wf.ands_length
  simp only [List.get_eq_getElem] at h
  unfold Aiger.max_var Aiger.first_and at *
  omega

theorem exists_gate {v : Nat} (h1 : A.first_and ≤ v) (h2 : v ≤ A.max_var) :
    ∃ a ∈ A.ands, a.o = v := by
  have hl := A.wf.ands_length
  have hi : v - A.first_and < A.ands.length := by
    unfold Aiger.max_var Aiger.first_and at *; omega
  exact ⟨A.ands.get ⟨_, hi⟩, List.get_mem _ _, by rw [A.ands_get hi]; omega⟩

theorem first_and_le_max : A.first_and ≤ A.max_var + 1 := by
  unfold Aiger.first_and Aiger.max_var; omega

/-! ## Evaluation -/

theorem eval_small (w : Assignment) {v : Nat} (h : v < A.first_and) :
    A.eval w v = if v = 1 then false else w v := by
  unfold Aiger.eval
  rw [evalAnds_of_not_output]
  · by_cases hv : v = 1
    · simp [hv]
    · simp [hv]
  · intro a ha
    have := (o_range ha).1
    omega

@[simp] theorem eval_one (w : Assignment) : A.eval w 1 = false := by
  rw [eval_small w (by unfold Aiger.first_and; omega)]
  simp

theorem eval_leaf (w : Assignment) {v : Nat} (h2 : 2 ≤ v) (h : v < A.first_and) : A.eval w v = w v := by
  rw [eval_small w h, if_neg (by omega)]

theorem eval_latch (w : Assignment) {v : Nat} (h : A.IsLatch v) : A.eval w v = w v := by
  have := h.1
  exact eval_leaf w (by omega) h.2

theorem eval_input (w : Assignment) {v : Nat} (h : A.IsInput v) : A.eval w v = w v := by
  have := h.2
  exact eval_leaf w h.1 (by unfold Aiger.first_and; omega)

theorem eval_gate (w : Assignment) {a : AndGate} (ha : a ∈ A.ands) : GateHolds (A.eval w) a :=
  evalAnds_holds A.topo ha

/-- Values depend on the inputs and latches only. -/
theorem eval_congr {w w' : Assignment} (h : ∀ v, 2 ≤ v → v < A.first_and → w v = w' v) {v : Nat}
    (h1 : 1 ≤ v) (h2 : v ≤ A.max_var) : A.eval w v = A.eval w' v := by
  refine evalAnds_congr A.topo ?_ v h1 h2
  intro u hu1 hu2 hout
  by_cases hone : u = 1
  · subst hone; simp
  · rw [Function.update_of_ne hone, Function.update_of_ne hone]
    refine h u (by omega) ?_
    by_contra hge
    obtain ⟨a, ha, ho⟩ := exists_gate (by omega) hu2
    exact hout a ha ho

theorem val_congr {w w' : Assignment} (h : ∀ v, 2 ≤ v → v < A.first_and → w v = w' v) {l : Int}
    (hl : A.LitOk l) : A.val w l = A.val w' l :=
  litVal_congr (eval_congr h hl.1 hl.2)

theorem val_latch (w : Assignment) {l : Int} (h : A.IsLatch l.natAbs) : A.val w l = litVal w l :=
  litVal_congr (eval_latch w h)

theorem val_input (w : Assignment) {l : Int} (h : A.IsInput l.natAbs) : A.val w l = litVal w l :=
  litVal_congr (eval_input w h)

/-- An assignment that satisfies the gates of a cone, with variable `1` false, has the circuit values
on the cone. -/
theorem cone_value {σ : Assignment} (h1 : σ 1 = false) {s : List Nat}
    (hg : ∀ a ∈ coneGates s A.ands.reverse, GateHolds σ a) {v : Nat} (hv : v ∈ s) :
    σ v = A.eval σ v := by
  have he : Function.update σ 1 false = σ := by
    funext u
    by_cases hu : u = 1
    · subst hu; simp [h1]
    · rw [Function.update_of_ne hu]
  unfold Aiger.eval
  rw [he]
  exact cone_eval A.topo hg (subset_coneSet _ _ hv)

/-! ## The transition system -/

variable (A)

/-- The circuit with `b` as the bad literal. -/
def systemFor (b : Int) : System Assignment where
  Init w := CubeSat w A.init_state
  Next w w' := ∀ i, i < A.num_latches → w' (A.latch i) = A.val w (A.nexts.getD i 1)
  Cons w := ∀ l ∈ A.constraints, A.val w l = true
  Bad w := A.val w b = true
  same w v := ∀ u, A.IsLatch u → w u = v u
  same_refl _ _ _ := rfl
  init_same hs hi l hl := by
    rw [← litVal_congr (hs _ (A.wf.init_latch l hl))]; exact hi l hl
  next_same hs hn i hi := by
    rw [← hs (A.latch i) ⟨by unfold Aiger.latch; omega, by
      unfold Aiger.latch Aiger.first_and; omega⟩]
    exact hn i hi
  total w := by
    refine ⟨fun v => A.val w (A.nexts.getD (v - (A.num_inputs + 2)) 1), fun i _ => ?_⟩
    simp [Aiger.latch]

/-- The circuit as a transition system with its own bad literal. -/
def system : System Assignment := A.systemFor A.bad

variable {A}

theorem next_ok {i : Nat} (h : i < A.num_latches) : A.LitOk (A.nexts.getD i 1) := by
  have hi : i < A.nexts.length := by rw [A.wf.nexts_length]; exact h
  rw [List.getD_eq_getElem?_getD, List.getElem?_eq_getElem hi, Option.getD_some]
  exact A.wf.nexts_ok _ (List.getElem_mem hi)

theorem isLatch_latch {i : Nat} (h : i < A.num_latches) : A.IsLatch (A.latch i) :=
  ⟨by unfold Aiger.latch; omega, by unfold Aiger.latch Aiger.first_and; omega⟩

theorem IsLatch.eq_latch {v : Nat} (h : A.IsLatch v) :
    v - (A.num_inputs + 2) < A.num_latches ∧ A.latch (v - (A.num_inputs + 2)) = v := by
  obtain ⟨h1, h2⟩ := h
  unfold Aiger.first_and at h2
  unfold Aiger.latch
  omega

/-- A list of latch literals. -/
def LatchCube (A : Circuit) (c : List Int) : Prop := ∀ l ∈ c, A.IsLatch l.natAbs

theorem LatchCube.nonZero {c : List Int} (h : A.LatchCube c) : NonZero c := by
  intro l hl h0
  have := (h l hl).1
  subst h0
  simp at this

theorem LatchCube.congr {c : List Int} (h : A.LatchCube c) {w v : Assignment}
    (hs : ∀ u, A.IsLatch u → w u = v u) : CubeSat w c ↔ CubeSat v c :=
  cubeSat_congr fun l hl => hs _ (h l hl)

theorem LatchCube.mono {c d : List Int} (hs : c ⊆ d) (h : A.LatchCube d) : A.LatchCube c :=
  fun l hl => h l (hs hl)

end Circuit

end ModelChecker
