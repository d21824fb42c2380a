import ModelChecker.Logic.Ipasir

/-!
# The SAT wrappers of `sat_solver.hpp`

`CaDiCaL` collects what is handed to the IPASIR library and remembers the last answer; the answer
itself is chosen by an `Ipasir`. `MinisatSimp` collects the clauses for Minisat's preprocessor, whose
`eliminate()` is the parameter `Eliminator`.
-/

namespace ModelChecker

open Logic

/-! ## CaDiCaL -/

structure CaDiCaL where
  clauses : Cnf := []
  /-- The clause that has not been ended by `0` yet. -/
  clause : Clause := []
  assumptions : List Int := []
  nv : Nat := 0
  clear_flag : Bool := false
  answer : Option Answer := none

instance : Inhabited CaDiCaL := ⟨{}⟩

namespace CaDiCaL

def add (s : CaDiCaL) (dimacs_lit : Int) : CaDiCaL :=
  let nv := max s.nv dimacs_lit.natAbs
  if dimacs_lit = 0 then { s with clauses := s.clauses ++ [s.clause], clause := [], nv := nv }
  else { s with clause := s.clause ++ [dimacs_lit], nv := nv }

def assume (s : CaDiCaL) (assumption_lit : Int) : CaDiCaL :=
  { s with assumptions := s.assumptions ++ [assumption_lit] }

/-- The query `ipasir_solve` answers. -/
def query (s : CaDiCaL) : Query := ⟨s.clauses, s.assumptions⟩

/-- The wrapper after `ipasir_solve` returned the answer `a`; assumptions hold for one call only. -/
def solved (s : CaDiCaL) (a : Answer) : CaDiCaL := { s with assumptions := [], answer := some a }

def failed (s : CaDiCaL) (lit : Int) : Bool :=
  match s.answer with
  | some (.unsat core) => core.contains lit
  | _ => false

/-- `lit` if the model makes it true, `-lit` if it makes it false and `0` if it leaves it open. -/
def val (s : CaDiCaL) (lit : Int) : Int :=
  match s.answer with
  | some (.sat m) =>
    match m lit.natAbs with
    | some b => if b = decide (0 ≤ lit) then lit else -lit
    | none => 0
  | _ => 0

def max_var (s : CaDiCaL) : Nat := s.nv

def set_clear_act (s : CaDiCaL) : CaDiCaL := { s with clear_flag := true }

def clear_act (s : CaDiCaL) : CaDiCaL :=
  let s := if s.clear_flag then (s.add (-(s.nv : Int))).add 0 else s
  { s with clear_flag := false }

/-- The literals of a clause one after the other, and `0`. -/
def addClause (s : CaDiCaL) (c : Clause) : CaDiCaL := (c.foldl add s).add 0

def addAll (s : CaDiCaL) (F : Cnf) : CaDiCaL := F.foldl addClause s

def assumeAll (s : CaDiCaL) (ls : List Int) : CaDiCaL := ls.foldl assume s

end CaDiCaL

/-- `SATSolver::set_clear_act` and `clear_act` are empty and not virtual: this is what runs when the
solver is held as a `SATSolver *`. -/
def SATSolver.set_clear_act (s : CaDiCaL) : CaDiCaL := s

def SATSolver.clear_act (s : CaDiCaL) : CaDiCaL := s

namespace CaDiCaL

/-- The largest variable of a clause and of `n`. -/
def maxVar (n : Nat) (c : Clause) : Nat := c.foldl (fun n l => max n l.natAbs) n

theorem le_maxVar (n : Nat) (c : Clause) : n ≤ maxVar n c := by
  induction c generalizing n with
  | nil => exact le_rfl
  | cons l c ih => exact (le_max_left n l.natAbs).trans (ih _)

theorem varsLe_maxVar (n : Nat) (c : Clause) : VarsLe (maxVar n c) c := by
  induction c generalizing n with
  | nil => intro l hl; cases hl
  | cons l c ih =>
      intro m hm
      rcases List.mem_cons.mp hm with rfl | hm
      · exact (le_max_right n m.natAbs).trans (le_maxVar _ c)
      · exact ih _ m hm

theorem maxVar_le {n k : Nat} {c : Clause} (hn : n ≤ k) (hc : VarsLe k c) : maxVar n c ≤ k := by
  induction c generalizing n with
  | nil => exact hn
  | cons l c ih =>
      exact ih (max_le hn (hc l List.mem_cons_self)) fun m hm => hc m (List.mem_cons_of_mem _ hm)

theorem foldl_add {s : CaDiCaL} {c : Clause} (h0 : NonZero c) :
    c.foldl add s = { s with clause := s.clause ++ c, nv := maxVar s.nv c } := by
  induction c generalizing s with
  | nil => simp [maxVar]
  | cons l c ih =>
      rw [List.foldl_cons, ih fun m hm => h0 m (List.mem_cons_of_mem _ hm)]
      simp [add, h0 l List.mem_cons_self, maxVar]

theorem addClause_eq {s : CaDiCaL} {c : Clause} (h0 : NonZero c) (hs : s.clause = []) :
    s.addClause c = { s with clauses := s.clauses ++ [c], nv := maxVar s.nv c } := by
  rw [addClause, foldl_add h0]
  simp [add, hs]

def maxVars (n : Nat) (F : Cnf) : Nat := F.foldl maxVar n

theorem le_maxVars (n : Nat) (F : Cnf) : n ≤ maxVars n F := by
  induction F generalizing n with
  | nil => exact le_rfl
  | cons c F ih => exact (le_maxVar n c).trans (ih _)

theorem varsLe_maxVars (n : Nat) {F : Cnf} {c : Clause} (hc : c ∈ F) : VarsLe (maxVars n F) c := by
  induction F generalizing n with
  | nil => cases hc
  | cons d F ih =>
      rcases List.mem_cons.mp hc with rfl | hc
      · exact fun l hl => (varsLe_maxVar n c l hl).trans (le_maxVars _ F)
      · exact ih _ hc

theorem maxVars_le {n k : Nat} {F : Cnf} (hn : n ≤ k) (hF : ∀ c ∈ F, VarsLe k c) :
    maxVars n F ≤ k := by
  induction F generalizing n with
  | nil => exact hn
  | cons c F ih =>
      exact ih (maxVar_le hn (hF c List.mem_cons_self)) fun d hd => hF d (List.mem_cons_of_mem _ hd)

theorem addAll_eq {s : CaDiCaL} {F : Cnf} (h0 : ∀ c ∈ F, NonZero c) (hs : s.clause = []) :
    s.addAll F = { s with clauses := s.clauses ++ F, nv := maxVars s.nv F } := by
  induction F generalizing s with
  | nil => simp [addAll, maxVars]
  | cons c F ih =>
      have hc := addClause_eq (s := s) (h0 c List.mem_cons_self) hs
      show (s.addClause c).addAll F = _
      rw [ih (fun d hd => h0 d (List.mem_cons_of_mem _ hd)) (by rw [hc]; exact hs), hc]
      simp [maxVars]

theorem assumeAll_eq {s : CaDiCaL} {ls : List Int} :
    s.assumeAll ls = { s with assumptions := s.assumptions ++ ls } := by
  induction ls generalizing s with
  | nil => simp [assumeAll]
  | cons l ls ih =>
      show (s.assume l).assumeAll ls = _
      rw [ih]
      simp [assume]

/-- `val` of a variable gives a literal of that variable that every completion makes true. -/
theorem val_spec {s : CaDiCaL} {m : Nat → Option Bool} (ha : s.answer = some (.sat m)) {v : Nat}
    (hv : 0 < v) (h0 : s.val v ≠ 0) :
    (s.val v).natAbs = v ∧ ∀ σ, Completes m σ → litVal σ (s.val v) = true := by
  unfold val at *
  rw [ha] at *
  simp only [Int.natAbs_natCast] at *
  cases hm : m v with
  | none => simp [hm] at h0
  | some b =>
      have hnn : (0 : Int) ≤ v := by omega
      cases b with
      | true =>
          simp only [hnn, decide_true, ↓reduceIte, Int.natAbs_natCast, true_and]
          intro σ hσ
          rw [litVal_natCast, hσ v _ hm]
      | false =>
          simp only [hnn, decide_true, Bool.false_eq_true, ↓reduceIte, Int.natAbs_neg,
            Int.natAbs_natCast, true_and]
          intro σ hσ
          rw [litVal_neg_natCast σ hv, hσ v _ hm]
          rfl

/-- A variable every completion makes true has a value. -/
theorem val_of_forced {s : CaDiCaL} {m : Nat → Option Bool} (ha : s.answer = some (.sat m)) {l : Int}
    (hf : ∀ σ, Completes m σ → litVal σ l = true) : s.val l.natAbs = l := by
  have hm : m l.natAbs = some (decide (0 ≤ l)) := by
    cases hml : m l.natAbs with
    | none =>
        -- the completion that makes `l` false would be a completion too
        have h := hf _ (completes_complete m fun _ => decide (l < 0))
        simp only [litVal, complete, hml, Option.getD_none] at h
        by_cases hneg : l < 0 <;> simp [hneg] at h
    | some b =>
        have h := hf _ (completes_complete m fun _ => false)
        simp only [litVal, complete, hml, Option.getD_some] at h
        by_cases hneg : l < 0
        · simp only [hneg, ↓reduceIte, Bool.not_eq_true'] at h
          simp [h, hneg]
        · simp only [hneg, ↓reduceIte] at h
          simp [h, not_lt.mp hneg]
  unfold val
  rw [ha]
  simp only [Int.natAbs_natCast, hm]
  have hnn : (0 : Int) ≤ l.natAbs := by omega
  by_cases hneg : l < 0
  · have : ¬ (0 : Int) ≤ l := by omega
    simp only [hnn, this, decide_true, decide_false, Bool.false_eq_true, ↓reduceIte]
    omega
  · have : (0 : Int) ≤ l := by omega
    simp only [hnn, this, decide_true, ↓reduceIte]
    omega

theorem failed_iff {s : CaDiCaL} {core : List Int} (ha : s.answer = some (.unsat core)) {l : Int} :
    s.failed l = true ↔ l ∈ core := by
  simp [failed, ha]

end CaDiCaL

/-! ## Minisat's preprocessor -/

/-- `SimpSolver::eliminate()` on the clauses `F` over `n` variables, of which `frozen` must stay: the
clauses and top-level literals it leaves. Whatever it keeps or derives follows from `F`, and as long as
`F` has a model, each model of the result agrees on the frozen variables with a model of `F`. -/
structure Eliminator where
  eliminate : (n : Nat) → (frozen : List Nat) → (F : Cnf) → Cnf
  nonZero : ∀ n frozen F, ∀ c ∈ eliminate n frozen F, NonZero c
  varsLe : ∀ n frozen F, ∀ c ∈ eliminate n frozen F, VarsLe n c
  keeps : ∀ n frozen F σ, CnfSat σ F → CnfSat σ (eliminate n frozen F)
  lifts : ∀ n frozen F, (∀ c ∈ F, NonZero c ∧ VarsLe n c) → (∃ τ, CnfSat τ F) →
    ∀ σ, CnfSat σ (eliminate n frozen F) → ∃ τ, CnfSat τ F ∧ ∀ v ∈ frozen, τ v = σ v

/-- The result has the models of `F` over the frozen variables also where `F` has none. -/
def Eliminator.Exact (E : Eliminator) : Prop :=
  ∀ n frozen F, (∀ c ∈ F, NonZero c ∧ VarsLe n c) → ∀ σ, CnfSat σ (E.eliminate n frozen F) →
    ∃ τ, CnfSat τ F ∧ ∀ v ∈ frozen, τ v = σ v

/-- The preprocessor that keeps every clause over its variables. -/
def Eliminator.keepAll : Eliminator where
  eliminate n _ F := F.filter fun c => c.all fun l => decide (l ≠ 0) && decide (l.natAbs ≤ n)
  nonZero n _ F c hc l hl := by
    have := (List.mem_filter.mp hc).2
    simp only [List.all_eq_true, Bool.and_eq_true, decide_eq_true_eq] at this
    exact (this l hl).1
  varsLe n _ F c hc l hl := by
    have := (List.mem_filter.mp hc).2
    simp only [List.all_eq_true, Bool.and_eq_true, decide_eq_true_eq] at this
    exact (this l hl).2
  keeps n _ F σ h c hc := h c (List.mem_of_mem_filter hc)
  lifts n _ F hF _ σ h := by
    refine ⟨σ, fun c hc => h c (List.mem_filter.mpr ⟨hc, ?_⟩), fun _ _ => rfl⟩
    simp only [List.all_eq_true, Bool.and_eq_true, decide_eq_true_eq]
    exact fun l hl => ⟨(hF c hc).1 l hl, (hF c hc).2 l hl⟩

theorem Eliminator.keepAll_exact : keepAll.Exact := by
  intro n frozen F hF σ h
  by_cases hsat : ∃ τ, CnfSat τ F
  · exact keepAll.lifts n frozen F hF hsat σ h
  · refine absurd ⟨σ, fun c hc => h c (List.mem_filter.mpr ⟨hc, ?_⟩)⟩ hsat
    simp only [List.all_eq_true, Bool.and_eq_true, decide_eq_true_eq]
    exact fun l hl => ⟨(hF c hc).1 l hl, (hF c hc).2 l hl⟩

/-! ### Contradictory clauses -/

/-- What `Solver::addClause_` has stored: `ok` is false once a contradiction was found. -/
structure ClauseStore where
  ok : Bool := true
  clauses : Cnf := []
  trail : List Int := []

namespace ClauseStore

/-- `addClause_` on clauses that force nothing in those stored before. -/
def addClause (s : ClauseStore) (c : Clause) : ClauseStore :=
  if s.ok = false ∨ ∃ l ∈ c, l ∈ s.trail then s
  else match c.filter fun l => -l ∉ s.trail with
    | [] => { s with ok := false }
    | [l] => { s with trail := s.trail ++ [l] }
    | ps => { s with clauses := s.clauses ++ [ps] }

/-- The clauses and the trail, as `simplify` exports them. -/
def cnf (s : ClauseStore) : Cnf := s.clauses ++ s.trail.map fun l => [l]

variable {s : ClauseStore} {c : Clause} {σ : Assignment}

theorem cnfSat_cnf : CnfSat σ s.cnf ↔ CnfSat σ s.clauses ∧ CubeSat σ s.trail := by
  rw [cnf, cnfSat_append, cnfSat_units]

/-- The outcomes of `addClause`. -/
theorem addClause_cases (s : ClauseStore) (c : Clause) :
    (s.addClause c = s ∧ (s.ok = false ∨ ∃ l ∈ c, l ∈ s.trail)) ∨
      ((c.filter fun l => -l ∉ s.trail) = [] ∧ (s.addClause c).ok = false ∧ (s.addClause c).cnf = s.cnf) ∨
      ((c.filter fun l => -l ∉ s.trail) ≠ [] ∧ (s.addClause c).ok = s.ok ∧
        ∀ σ, CnfSat σ (s.addClause c).cnf ↔
          CnfSat σ s.cnf ∧ ClauseSat σ (c.filter fun l => -l ∉ s.trail)) := by
  unfold addClause
  split_ifs with h
  · exact .inl ⟨rfl, h⟩
  · right
    generalize (c.filter fun l => -l ∉ s.trail) = ps
    rcases ps with _ | ⟨l, _ | ⟨m, ms⟩⟩
    · exact .inl ⟨rfl, rfl, rfl⟩
    · refine .inr ⟨by simp, rfl, fun σ => ?_⟩
      simp only [cnfSat_cnf, CubeSat, List.mem_append, List.mem_singleton, clauseSat_singleton]
      constructor
      · exact fun hs => ⟨⟨hs.1, fun x hx => hs.2 x (.inl hx)⟩, hs.2 l (.inr rfl)⟩
      · rintro ⟨⟨h1, h2⟩, h3⟩
        refine ⟨h1, fun x hx => ?_⟩
        rcases hx with hx | rfl
        · exact h2 x hx
        · exact h3
    · refine .inr ⟨by simp, rfl, fun σ => ?_⟩
      simp only [cnfSat_cnf, cnfSat_append, cnfSat_cons, cnfSat_nil, and_true]
      tauto

/-- A literal that satisfies the clause is not among those removed. -/
theorem clauseSat_filter (h0 : NonZero c) (ht : CubeSat σ s.trail) (hc : ClauseSat σ c) :
    ClauseSat σ (c.filter fun l => -l ∉ s.trail) := by
  obtain ⟨l, hl, hv⟩ := hc
  refine ⟨l, List.mem_filter.mpr ⟨hl, ?_⟩, hv⟩
  simp only [decide_eq_true_eq]
  intro hmem
  have hneg := ht _ hmem
  rw [litVal_neg_eq_true (h0 l hl), hv] at hneg
  cases hneg

/-- Models are kept, and then no contradiction is found. -/
theorem addClause_keeps (h0 : NonZero c) (hs : CnfSat σ s.cnf) (hc : ClauseSat σ c) :
    CnfSat σ (s.addClause c).cnf ∧ (s.addClause c).ok = s.ok := by
  have hf := clauseSat_filter h0 (cnfSat_cnf.mp hs).2 hc
  rcases addClause_cases s c with ⟨h, _⟩ | ⟨h, _⟩ | ⟨_, hok, hiff⟩
  · rw [h]; exact ⟨hs, rfl⟩
  · rw [h] at hf; exact absurd hf (clauseSat_nil σ)
  · exact ⟨(hiff σ).mpr ⟨hs, hf⟩, hok⟩

/-- Without a contradiction, the clause follows from what is stored. -/
theorem addClause_sound (hok : (s.addClause c).ok = true) (hs : CnfSat σ (s.addClause c).cnf) :
    s.ok = true ∧ CnfSat σ s.cnf ∧ ClauseSat σ c := by
  rcases addClause_cases s c with ⟨h, hw⟩ | ⟨_, h, _⟩ | ⟨_, h, hiff⟩
  · rw [h] at hok hs
    refine ⟨hok, hs, ?_⟩
    rcases hw with hw | ⟨l, hl, ht⟩
    · rw [hok] at hw; cases hw
    · exact ⟨l, hl, (cnfSat_cnf.mp hs).2 l ht⟩
  · rw [h] at hok; cases hok
  · obtain ⟨h1, l, hl, hv⟩ := (hiff σ).mp hs
    exact ⟨h ▸ hok, h1, l, List.mem_of_mem_filter hl, hv⟩

theorem foldl_keeps {F : Cnf} (h0 : ∀ c ∈ F, NonZero c) (hs : CnfSat σ s.cnf) (hF : CnfSat σ F) :
    CnfSat σ (F.foldl addClause s).cnf ∧ (F.foldl addClause s).ok = s.ok := by
  induction F generalizing s with
  | nil => exact ⟨hs, rfl⟩
  | cons c F ih =>
      obtain ⟨h1, h2⟩ := addClause_keeps (h0 c List.mem_cons_self) hs (hF c List.mem_cons_self)
      obtain ⟨h3, h4⟩ := ih (fun d hd => h0 d (List.mem_cons_of_mem _ hd)) h1
        fun d hd => hF d (List.mem_cons_of_mem _ hd)
      exact ⟨h3, h4.trans h2⟩

theorem foldl_sound {F : Cnf} (hok : (F.foldl addClause s).ok = true)
    (hs : CnfSat σ (F.foldl addClause s).cnf) : s.ok = true ∧ CnfSat σ s.cnf ∧ CnfSat σ F := by
  induction F generalizing s with
  | nil => exact ⟨hok, hs, cnfSat_nil σ⟩
  | cons c F ih =>
      obtain ⟨h1, h2, h3⟩ := ih hok hs
      obtain ⟨h4, h5, h6⟩ := addClause_sound h1 h2
      exact ⟨h4, h5, cnfSat_cons.mpr ⟨h6, h3⟩⟩

/-- Every stored literal comes from a clause. -/
theorem foldl_lits {P : Int → Prop} {F : Cnf} (hF : ∀ c ∈ F, ∀ l ∈ c, P l)
    (hs : ∀ c ∈ s.cnf, ∀ l ∈ c, P l) : ∀ c ∈ (F.foldl addClause s).cnf, ∀ l ∈ c, P l := by
  induction F generalizing s with
  | nil => exact hs
  | cons c F ih =>
      refine ih (fun d hd => hF d (List.mem_cons_of_mem _ hd)) ?_
      have hc := hF c List.mem_cons_self
      have hcl : ∀ l ∈ c.filter fun l => -l ∉ s.trail, P l := fun l hl => hc l (List.mem_of_mem_filter hl)
      unfold cnf at hs ⊢
      intro d hd l hl
      unfold addClause at hd
      split_ifs at hd with h
      · exact hs d hd l hl
      · generalize (c.filter fun l => -l ∉ s.trail) = ps at hcl hd
        rcases ps with _ | ⟨m, _ | ⟨m', ms⟩⟩
        · exact hs d hd l hl
        · simp only [List.map_append, List.map_cons, List.map_nil, List.mem_append, List.mem_singleton] at hd
          rcases hd with hd | hd | rfl
          · exact hs d (List.mem_append_left _ hd) l hl
          · exact hs d (List.mem_append_right _ hd) l hl
          · exact hcl l hl
        · simp only [List.mem_append, List.mem_singleton] at hd
          rcases hd with (hd | rfl) | hd
          · exact hs d (List.mem_append_left _ hd) l hl
          · exact hcl l hl
          · exact hs d (List.mem_append_right _ hd) l hl

end ClauseStore

/-- The preprocessor that stores clauses one after the other and eliminates no variable. Once it has
found a contradiction, it ignores the clauses that follow. -/
def Eliminator.store : Eliminator where
  eliminate n _ F := ((F.filter fun c => c.all fun l => decide (l ≠ 0) && decide (l.natAbs ≤ n)).foldl
    ClauseStore.addClause {}).cnf
  nonZero n _ F c hc l hl := by
    refine ClauseStore.foldl_lits (P := (· ≠ 0)) (fun d hd m hm => ?_) (by rintro c ⟨⟩) c hc l hl
    have := (List.mem_filter.mp hd).2
    simp only [List.all_eq_true, Bool.and_eq_true, decide_eq_true_eq] at this
    exact (this m hm).1
  varsLe n _ F c hc l hl := by
    refine ClauseStore.foldl_lits (P := fun l => l.natAbs ≤ n) (fun d hd m hm => ?_) (by rintro c ⟨⟩) c hc
      l hl
    have := (List.mem_filter.mp hd).2
    simp only [List.all_eq_true, Bool.and_eq_true, decide_eq_true_eq] at this
    exact (this m hm).2
  keeps n _ F σ h := by
    refine (ClauseStore.foldl_keeps (fun c hc l hl => ?_) (by rintro c ⟨⟩)
      fun c hc => h c (List.mem_of_mem_filter hc)).1
    have := (List.mem_filter.mp hc).2
    simp only [List.all_eq_true, Bool.and_eq_true, decide_eq_true_eq] at this
    exact (this l hl).1
  lifts n _ F hF hsat σ h := by
    obtain ⟨τ, hτ⟩ := hsat
    have hall : (F.filter fun c => c.all fun l => decide (l ≠ 0) && decide (l.natAbs ≤ n)) = F := by
      refine List.filter_eq_self.mpr fun c hc => ?_
      simp only [List.all_eq_true, Bool.and_eq_true, decide_eq_true_eq]
      exact fun l hl => ⟨(hF c hc).1 l hl, (hF c hc).2 l hl⟩
    rw [hall] at h
    have hok := (ClauseStore.foldl_keeps (s := {}) (fun c hc => (hF c hc).1) (by rintro c ⟨⟩) hτ).2
    exact ⟨σ, (ClauseStore.foldl_sound hok h).2.2, fun _ _ => rfl⟩

structure MinisatSimp where
  nVars : Nat := 0
  frozen : List Nat := []
  clauses : Cnf := []

namespace MinisatSimp

def var_enlarge_to (s : MinisatSimp) (v : Nat) : MinisatSimp := { s with nVars := max s.nVars v }

/-- The literals of a clause, each of which enlarges the solver, and the final `0`. -/
def addClause (s : MinisatSimp) (c : Clause) : MinisatSimp :=
  { s with nVars := CaDiCaL.maxVar s.nVars c, clauses := s.clauses ++ [c] }

def addAll (s : MinisatSimp) (F : Cnf) : MinisatSimp := F.foldl addClause s

def set_frozen (s : MinisatSimp) (lit : Int) : MinisatSimp :=
  { s.var_enlarge_to lit.natAbs with frozen := lit.natAbs :: s.frozen }

/-- `simplified_cnf`: a tautology over the last variable, then what `eliminate()` leaves. -/
def simplify (s : MinisatSimp) (E : Eliminator) : Cnf :=
  [(s.nVars : Int), -(s.nVars : Int)] :: E.eliminate s.nVars s.frozen s.clauses

theorem addAll_eq (s : MinisatSimp) (F : Cnf) :
    s.addAll F = { s with nVars := CaDiCaL.maxVars s.nVars F, clauses := s.clauses ++ F } := by
  induction F generalizing s with
  | nil => simp [addAll, CaDiCaL.maxVars]
  | cons c F ih =>
      show (s.addClause c).addAll F = _
      rw [ih]
      simp [addClause, CaDiCaL.maxVars]

end MinisatSimp

end ModelChecker
