import ModelChecker.Logic.Cnf

/-!
# Lists of AND gates

A gate list is evaluated from the front to the back; in a topologically ordered list this makes every
gate the conjunction of its fan-ins. `coneGates` is the backward pass that collects the gates a set of
variables depends on, and `cone_eval` says that the defining clauses of these gates already fix the
values of that set.
-/

namespace ModelChecker.Logic

/-- `o = i1 ∧ i2`. -/
structure AndGate where
  o : Nat
  i1 : Int
  i2 : Int
deriving DecidableEq, Repr

/-- Outputs increase along the list, and the fan-ins of a gate are smaller than its output. -/
structure Topo (ands : List AndGate) : Prop where
  sorted : ands.Pairwise fun a b => a.o < b.o
  fanin1 : ∀ a ∈ ands, 1 ≤ a.i1.natAbs ∧ a.i1.natAbs < a.o
  fanin2 : ∀ a ∈ ands, 1 ≤ a.i2.natAbs ∧ a.i2.natAbs < a.o

theorem Topo.nonzero1 {ands : List AndGate} (h : Topo ands) {a : AndGate} (ha : a ∈ ands) :
    a.i1 ≠ 0 := by
  have := (h.fanin1 a ha).1; omega

theorem Topo.nonzero2 {ands : List AndGate} (h : Topo ands) {a : AndGate} (ha : a ∈ ands) :
    a.i2 ≠ 0 := by
  have := (h.fanin2 a ha).1; omega

theorem Topo.one_lt {ands : List AndGate} (h : Topo ands) {a : AndGate} (ha : a ∈ ands) :
    1 < a.o := by
  have := h.fanin1 a ha; omega

/-- Outputs increase along the list. -/
theorem Topo.o_lt {ands : List AndGate} (h : Topo ands) {i j : Nat} {a b : AndGate}
    (hi : ands[i]? = some a) (hj : ands[j]? = some b) (hij : i < j) : a.o < b.o := by
  obtain ⟨hil, rfl⟩ := List.getElem?_eq_some_iff.mp hi
  obtain ⟨hjl, rfl⟩ := List.getElem?_eq_some_iff.mp hj
  exact List.pairwise_iff_getElem.mp h.sorted i j hil hjl hij

/-- So each one stands at a single position. -/
theorem Topo.index_unique {ands : List AndGate} (h : Topo ands) {i j : Nat} {a b : AndGate}
    (hi : ands[i]? = some a) (hj : ands[j]? = some b) (ho : a.o = b.o) : i = j := by
  rcases Nat.lt_trichotomy i j with hlt | heq | hgt
  · exact absurd (h.o_lt hi hj hlt) (by omega)
  · exact heq
  · exact absurd (h.o_lt hj hi hgt) (by omega)

/-! ## Evaluation -/

def evalGate (val : Assignment) (a : AndGate) : Assignment :=
  Function.update val a.o (litVal val a.i1 && litVal val a.i2)

def evalAnds (val : Assignment) (ands : List AndGate) : Assignment := ands.foldl evalGate val

/-- The gate holds in `σ`. -/
def GateHolds (σ : Assignment) (a : AndGate) : Prop :=
  σ a.o = (litVal σ a.i1 && litVal σ a.i2)

theorem evalAnds_append (val : Assignment) (as bs : List AndGate) :
    evalAnds val (as ++ bs) = evalAnds (evalAnds val as) bs := by
  simp [evalAnds, List.foldl_append]

theorem evalAnds_of_not_output {val : Assignment} {ands : List AndGate} {v : Nat}
    (h : ∀ a ∈ ands, a.o ≠ v) : evalAnds val ands v = val v := by
  induction ands generalizing val with
  | nil => rfl
  | cons a ands ih =>
      show evalAnds (evalGate val a) ands v = val v
      rw [ih fun b hb => h b (List.mem_cons_of_mem _ hb), evalGate, Function.update_of_ne]
      exact fun he => h a List.mem_cons_self he.symm

theorem evalAnds_holds {val : Assignment} {ands : List AndGate} (ht : Topo ands) {a : AndGate}
    (ha : a ∈ ands) : GateHolds (evalAnds val ands) a := by
  obtain ⟨pre, post, rfl⟩ := List.append_of_mem ha
  have hpost : ∀ b ∈ post, a.o < b.o :=
    (List.pairwise_cons.mp (List.pairwise_append.mp ht.sorted).2.1).1
  -- later gates have larger outputs, so they touch neither the gate nor its fan-ins
  have hkeep : ∀ v, v ≤ a.o →
      evalAnds val (pre ++ a :: post) v = evalGate (evalAnds val pre) a v := by
    intro v hv
    rw [evalAnds_append]
    show evalAnds (evalGate (evalAnds val pre) a) post v = _
    exact evalAnds_of_not_output fun b hb => by have := hpost b hb; omega
  have hfan : ∀ l : Int, l.natAbs < a.o →
      litVal (evalAnds val (pre ++ a :: post)) l = litVal (evalAnds val pre) l := by
    intro l hl
    refine litVal_congr ?_
    rw [hkeep _ hl.le, evalGate, Function.update_of_ne (by omega)]
  unfold GateHolds
  rw [hkeep _ le_rfl, hfan _ (ht.fanin1 a ha).2, hfan _ (ht.fanin2 a ha).2]
  simp [evalGate]

/-- Gate values depend on the values of the smaller non-gate variables only. -/
theorem evalAnds_congr {val val' : Assignment} {ands : List AndGate} (ht : Topo ands) {n : Nat}
    (h : ∀ v, 1 ≤ v → v ≤ n → (∀ a ∈ ands, a.o ≠ v) → val v = val' v) :
    ∀ v, 1 ≤ v → v ≤ n → evalAnds val ands v = evalAnds val' ands v := by
  intro v
  induction v using Nat.strong_induction_on with
  | _ v ih =>
      intro h1 hn
      by_cases hg : ∃ a ∈ ands, a.o = v
      · obtain ⟨a, ha, rfl⟩ := hg
        rw [evalAnds_holds ht ha, evalAnds_holds ht ha]
        have e1 := ht.fanin1 a ha
        have e2 := ht.fanin2 a ha
        rw [litVal_congr (ih _ e1.2 e1.1 (by omega)), litVal_congr (ih _ e2.2 e2.1 (by omega))]
      · push Not at hg
        rw [evalAnds_of_not_output hg, evalAnds_of_not_output hg]
        exact h v h1 hn hg

/-! ## Defining clauses -/

def andClauses (o i1 i2 : Int) : Cnf := [[-o, i1], [-o, i2], [o, -i1, -i2]]

theorem cnfSat_andClauses {σ : Assignment} {o i1 i2 : Int} (h : o ≠ 0) (h1 : i1 ≠ 0) (h2 : i2 ≠ 0) :
    CnfSat σ (andClauses o i1 i2) ↔ litVal σ o = (litVal σ i1 && litVal σ i2) := by
  simp only [andClauses, cnfSat_cons, clauseSat_cons, cnfSat_nil, and_true, clauseSat_nil, or_false,
    litVal_neg_eq_true h, litVal_neg_eq_true h1, litVal_neg_eq_true h2]
  cases litVal σ o <;> cases litVal σ i1 <;> cases litVal σ i2 <;> simp

def AndGate.clauses (a : AndGate) : Cnf := andClauses a.o a.i1 a.i2

theorem cnfSat_gate {σ : Assignment} {ands : List AndGate} (ht : Topo ands) {a : AndGate}
    (ha : a ∈ ands) : CnfSat σ a.clauses ↔ GateHolds σ a := by
  have := ht.one_lt ha
  rw [AndGate.clauses, cnfSat_andClauses (by omega) (ht.nonzero1 ha) (ht.nonzero2 ha), litVal_natCast]
  rfl

theorem nonZero_andClauses {o i1 i2 : Int} (h : o ≠ 0) (h1 : i1 ≠ 0) (h2 : i2 ≠ 0) :
    ∀ c ∈ andClauses o i1 i2, NonZero c := by
  intro c hc l hl
  simp only [andClauses, List.mem_cons, List.not_mem_nil, or_false] at hc
  rcases hc with rfl | rfl | rfl <;> simp at hl <;> omega

theorem Topo.nonZero_clauses {ands : List AndGate} (ht : Topo ands) {a : AndGate} (ha : a ∈ ands) :
    ∀ c ∈ a.clauses, NonZero c := by
  have := ht.one_lt ha
  exact nonZero_andClauses (by omega) (ht.nonzero1 ha) (ht.nonzero2 ha)

theorem cnfSat_flatMap {α : Type} {σ : Assignment} {f : α → Cnf} {as : List α} :
    CnfSat σ (as.flatMap f) ↔ ∀ a ∈ as, CnfSat σ (f a) := by
  simp only [CnfSat, List.mem_flatMap]
  constructor
  · exact fun h a ha c hc => h c ⟨a, ha, hc⟩
  · rintro h c ⟨a, ha, hc⟩
    exact h a ha c hc

/-! ## The backward cone pass -/

/-- The gates reached from `s` in one pass over a reversed gate list. -/
def coneGates : List Nat → List AndGate → List AndGate
  | _, [] => []
  | s, a :: rest =>
    if a.o ∈ s then a :: coneGates (a.i2.natAbs :: a.i1.natAbs :: s) rest else coneGates s rest

/-- The variables the pass has collected at its end. -/
def coneSet : List Nat → List AndGate → List Nat
  | s, [] => s
  | s, a :: rest =>
    if a.o ∈ s then coneSet (a.i2.natAbs :: a.i1.natAbs :: s) rest else coneSet s rest

theorem subset_coneSet (s : List Nat) (rest : List AndGate) : s ⊆ coneSet s rest := by
  induction rest generalizing s with
  | nil => exact fun _ h => h
  | cons a rest ih =>
      unfold coneSet
      split
      · exact fun v hv => ih _ (by simp [hv])
      · exact ih s

theorem coneGates_of_mem {s : List Nat} {a : AndGate} (h : a.o ∈ s) (rest : List AndGate) :
    coneGates s (a :: rest) = a :: coneGates (a.i2.natAbs :: a.i1.natAbs :: s) rest := by
  rw [coneGates, if_pos h]

theorem coneGates_of_notMem {s : List Nat} {a : AndGate} (h : a.o ∉ s) (rest : List AndGate) :
    coneGates s (a :: rest) = coneGates s rest := by
  rw [coneGates, if_neg h]

theorem coneGates_subset (s : List Nat) (rest : List AndGate) : coneGates s rest ⊆ rest := by
  induction rest generalizing s with
  | nil => simp [coneGates]
  | cons a rest ih =>
      unfold coneGates
      split
      · exact List.cons_subset_cons a (ih _)
      · exact fun b hb => List.mem_cons_of_mem _ (ih s hb)

/-- The fan-ins of a collected gate are collected. -/
theorem coneSet_fanin {s : List Nat} {rest : List AndGate} {a : AndGate}
    (h : a ∈ coneGates s rest) :
    a.i1.natAbs ∈ coneSet s rest ∧ a.i2.natAbs ∈ coneSet s rest := by
  induction rest generalizing s with
  | nil => simp [coneGates] at h
  | cons b rest ih =>
      unfold coneGates at h
      unfold coneSet
      split at h
      · rename_i hb
        rw [if_pos hb]
        rcases List.mem_cons.mp h with rfl | h
        · exact ⟨subset_coneSet _ _ (by simp), subset_coneSet _ _ (by simp)⟩
        · exact ih h
      · rename_i hb
        rw [if_neg hb]
        exact ih h

theorem coneSet_bound {s : List Nat} {rest : List AndGate} {n v : Nat}
    (hf : ∀ a ∈ rest, a.i1.natAbs < n ∧ a.i2.natAbs < n) (hv : v ∈ coneSet s rest) :
    v ∈ s ∨ v < n := by
  induction rest generalizing s with
  | nil => exact Or.inl hv
  | cons b rest ih =>
      have hf' := fun a ha => hf a (List.mem_cons_of_mem b ha)
      unfold coneSet at hv
      split at hv
      · rcases ih hf' hv with h | h
        · rcases List.mem_cons.mp h with rfl | h
          · exact Or.inr (hf b List.mem_cons_self).2
          · rcases List.mem_cons.mp h with rfl | h
            · exact Or.inr (hf b List.mem_cons_self).1
            · exact Or.inl h
        · exact Or.inr h
      · exact ih hf' hv

/-- A gate whose output is collected is itself collected. -/
theorem coneGates_complete {s : List Nat} {rest : List AndGate}
    (hs : rest.Pairwise fun a b => b.o < a.o)
    (hf : ∀ a ∈ rest, a.i1.natAbs < a.o ∧ a.i2.natAbs < a.o)
    {a : AndGate} (ha : a ∈ rest) (hv : a.o ∈ coneSet s rest) : a ∈ coneGates s rest := by
  induction rest generalizing s with
  | nil => cases ha
  | cons b rest ih =>
      obtain ⟨hb, hrest⟩ := List.pairwise_cons.mp hs
      have hf' := fun a ha => hf a (List.mem_cons_of_mem b ha)
      unfold coneSet at hv
      unfold coneGates
      split at hv
      · rename_i hin
        rw [if_pos hin]
        rcases List.mem_cons.mp ha with rfl | ha
        · exact List.mem_cons_self
        · exact List.mem_cons_of_mem _ (ih hrest hf' ha hv)
      · rename_i hin
        rw [if_neg hin]
        rcases List.mem_cons.mp ha with rfl | ha
        · have hlt : ∀ c ∈ rest, c.i1.natAbs < a.o ∧ c.i2.natAbs < a.o := fun c hc =>
            ⟨(hf' c hc).1.trans (hb c hc), (hf' c hc).2.trans (hb c hc)⟩
          rcases coneSet_bound hlt hv with h | h
          · exact absurd h hin
          · exact absurd h (lt_irrefl _)
        · exact ih hrest hf' ha hv

/-- When the collected gates hold in `σ`, every collected variable has its circuit value. -/
theorem cone_eval {σ : Assignment} {ands : List AndGate} (ht : Topo ands) {s : List Nat}
    (hg : ∀ a ∈ coneGates s ands.reverse, GateHolds σ a) {v : Nat}
    (hv : v ∈ coneSet s ands.reverse) : σ v = evalAnds σ ands v := by
  have hs : ands.reverse.Pairwise fun a b => b.o < a.o := List.pairwise_reverse.mpr ht.sorted
  have hf : ∀ a ∈ ands.reverse, a.i1.natAbs < a.o ∧ a.i2.natAbs < a.o := fun a ha =>
    ⟨(ht.fanin1 a (List.mem_reverse.mp ha)).2, (ht.fanin2 a (List.mem_reverse.mp ha)).2⟩
  induction v using Nat.strong_induction_on with
  | _ v ih =>
      by_cases hgate : ∃ a ∈ ands, a.o = v
      · obtain ⟨a, ha, rfl⟩ := hgate
        have hin := coneGates_complete hs hf (List.mem_reverse.mpr ha) hv
        obtain ⟨m1, m2⟩ := coneSet_fanin hin
        rw [hg a hin, evalAnds_holds ht ha, litVal_congr (ih _ (ht.fanin1 a ha).2 m1),
          litVal_congr (ih _ (ht.fanin2 a ha).2 m2)]
      · push Not at hgate
        rw [evalAnds_of_not_output hgate]

end ModelChecker.Logic
