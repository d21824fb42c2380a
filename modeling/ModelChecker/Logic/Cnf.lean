import Mathlib.Tactic

/-!
# Literals, clauses and cubes

Literals are the signed integers of the DIMACS format: `v` and `-v` for the variable `v > 0`.
A list of literals is read as a clause (some literal is true) or as a cube (all of them are).
-/

namespace ModelChecker.Logic

abbrev Clause := List Int

abbrev Cnf := List Clause

abbrev Assignment := Nat → Bool

/-- The value of a literal. -/
def litVal (σ : Assignment) (l : Int) : Bool := if l < 0 then !σ l.natAbs else σ l.natAbs

def ClauseSat (σ : Assignment) (c : Clause) : Prop := ∃ l ∈ c, litVal σ l = true

def CnfSat (σ : Assignment) (F : Cnf) : Prop := ∀ c ∈ F, ClauseSat σ c

def CubeSat (σ : Assignment) (c : List Int) : Prop := ∀ l ∈ c, litVal σ l = true

instance (σ : Assignment) (c : Clause) : Decidable (ClauseSat σ c) :=
  inferInstanceAs (Decidable (∃ l ∈ c, litVal σ l = true))

instance (σ : Assignment) (F : Cnf) : Decidable (CnfSat σ F) :=
  inferInstanceAs (Decidable (∀ c ∈ F, ClauseSat σ c))

instance (σ : Assignment) (c : List Int) : Decidable (CubeSat σ c) :=
  inferInstanceAs (Decidable (∀ l ∈ c, litVal σ l = true))

/-- No literal of the list is `0`, which ends a clause in the DIMACS format. -/
def NonZero (c : List Int) : Prop := ∀ l ∈ c, l ≠ 0

/-- Every variable of the list is at most `n`. -/
def VarsLe (n : Nat) (c : List Int) : Prop := ∀ l ∈ c, l.natAbs ≤ n

/-! ## Values of literals -/

theorem litVal_neg (σ : Assignment) {l : Int} (h : l ≠ 0) : litVal σ (-l) = !litVal σ l := by
  unfold litVal
  rcases lt_trichotomy l 0 with hl | hl | hl
  · simp [hl, hl.le]
  · exact absurd hl h
  · have h2 : ¬ l < 0 := by omega
    simp [hl, h2]

theorem litVal_natCast (σ : Assignment) (n : Nat) : litVal σ (n : Int) = σ n := by
  have : ¬ (n : Int) < 0 := by omega
  simp [litVal, this]

theorem litVal_neg_natCast (σ : Assignment) {n : Nat} (h : 0 < n) :
    litVal σ (-(n : Int)) = !σ n := by
  rw [litVal_neg σ (by omega), litVal_natCast]

theorem litVal_congr {σ τ : Assignment} {l : Int} (h : σ l.natAbs = τ l.natAbs) :
    litVal σ l = litVal τ l := by
  simp [litVal, h]

theorem litVal_neg_eq_true {σ : Assignment} {l : Int} (h : l ≠ 0) :
    litVal σ (-l) = true ↔ litVal σ l = false := by
  rw [litVal_neg σ h]; simp

/-! ## Clauses and cubes -/

theorem clauseSat_congr {σ τ : Assignment} {c : Clause} (h : ∀ l ∈ c, σ l.natAbs = τ l.natAbs) :
    ClauseSat σ c ↔ ClauseSat τ c := by
  constructor
  · rintro ⟨l, hl, hv⟩; exact ⟨l, hl, by rw [← litVal_congr (h l hl)]; exact hv⟩
  · rintro ⟨l, hl, hv⟩; exact ⟨l, hl, by rw [litVal_congr (h l hl)]; exact hv⟩

theorem cubeSat_congr {σ τ : Assignment} {c : List Int} (h : ∀ l ∈ c, σ l.natAbs = τ l.natAbs) :
    CubeSat σ c ↔ CubeSat τ c := by
  constructor
  · intro hc l hl; rw [← litVal_congr (h l hl)]; exact hc l hl
  · intro hc l hl; rw [litVal_congr (h l hl)]; exact hc l hl

theorem cnfSat_append {σ : Assignment} {F G : Cnf} :
    CnfSat σ (F ++ G) ↔ CnfSat σ F ∧ CnfSat σ G := by
  unfold CnfSat
  constructor
  · intro h
    exact ⟨fun c hc => h c (List.mem_append_left _ hc), fun c hc => h c (List.mem_append_right _ hc)⟩
  · rintro ⟨hF, hG⟩ c hc
    rcases List.mem_append.mp hc with hc | hc
    · exact hF c hc
    · exact hG c hc

theorem cnfSat_cons {σ : Assignment} {c : Clause} {F : Cnf} :
    CnfSat σ (c :: F) ↔ ClauseSat σ c ∧ CnfSat σ F := by
  simp [CnfSat]

@[simp] theorem cnfSat_nil (σ : Assignment) : CnfSat σ [] := by
  intro c hc; cases hc

@[simp] theorem clauseSat_nil (σ : Assignment) : ¬ ClauseSat σ [] := by
  simp [ClauseSat]

@[simp] theorem clauseSat_singleton {σ : Assignment} {l : Int} :
    ClauseSat σ [l] ↔ litVal σ l = true := by
  simp [ClauseSat]

theorem clauseSat_cons {σ : Assignment} {l : Int} {c : Clause} :
    ClauseSat σ (l :: c) ↔ litVal σ l = true ∨ ClauseSat σ c := by
  simp [ClauseSat]

/-- The unit clauses of a list of literals say what the cube says. -/
theorem cnfSat_units {σ : Assignment} {c : List Int} :
    CnfSat σ (c.map fun l => [l]) ↔ CubeSat σ c := by
  simp [CnfSat, CubeSat]

theorem CubeSat.mono {σ : Assignment} {c d : List Int} (hs : c ⊆ d) (h : CubeSat σ d) :
    CubeSat σ c :=
  fun l hl => h l (hs hl)

/-- The clause that excludes a cube. -/
def negCube (c : List Int) : Clause := c.map (-·)

theorem clauseSat_negCube {σ : Assignment} {c : List Int} (h : NonZero c) :
    ClauseSat σ (negCube c) ↔ ¬ CubeSat σ c := by
  unfold ClauseSat negCube CubeSat
  constructor
  · rintro ⟨l, hl, hv⟩ hc
    obtain ⟨m, hm, rfl⟩ := List.mem_map.mp hl
    rw [litVal_neg_eq_true (h m hm), hc m hm] at hv
    cases hv
  · intro hc
    push Not at hc
    obtain ⟨m, hm, hv⟩ := hc
    exact ⟨-m, List.mem_map_of_mem hm, (litVal_neg_eq_true (h m hm)).mpr (by simpa using hv)⟩

/-! ## Partial assignments -/

/-- `σ` completes the partial assignment `m`. -/
def Completes (m : Nat → Option Bool) (σ : Assignment) : Prop := ∀ v b, m v = some b → σ v = b

/-- The completion of `m` that sets every open variable to `τ`. -/
def complete (m : Nat → Option Bool) (τ : Assignment) : Assignment := fun v => (m v).getD (τ v)

theorem completes_complete (m : Nat → Option Bool) (τ : Assignment) :
    Completes m (complete m τ) := by
  intro v b h; simp [complete, h]

/-- A completion of `m` that also agrees with `τ` is the completion by `τ`. -/
theorem complete_eq_of_completes {m : Nat → Option Bool} {τ : Assignment} {v : Nat}
    (h : ∀ b, m v = some b → τ v = b) : complete m τ v = τ v := by
  unfold complete
  cases hm : m v with
  | none => rfl
  | some b => exact (h b hm).symm

end ModelChecker.Logic
