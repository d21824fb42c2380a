import ModelChecker.Logic.Interface
import ModelChecker.Sat.Solver

/-!
# Three wrappers, one contract

`CaDiCaL` and `minisatCore` hand their clauses and assumptions on, literal by literal. `minisatSimp` clears
its list of assumptions in `assume`, so every assumption is lost; and its `solve` eliminates variables, which
later clauses must not mention.
-/

namespace ModelChecker

open Logic

/-! ## Minisat -/

namespace Minisat

/-- Twice the variable, plus one for a negative literal. -/
structure Lit where
  x : Nat
deriving DecidableEq, Repr

def mkLit (var : Nat) (sign : Bool) : Lit := ⟨var + var + sign.toNat⟩

def Lit.sign (p : Lit) : Bool := p.x % 2 == 1

def Lit.var (p : Lit) : Nat := p.x / 2

@[simp] theorem var_mkLit (var : Nat) (sign : Bool) : (mkLit var sign).var = var := by
  cases sign <;> simp only [Lit.var, mkLit, Bool.toNat_false, Bool.toNat_true] <;> omega

@[simp] theorem sign_mkLit (var : Nat) (sign : Bool) : (mkLit var sign).sign = sign := by
  cases sign <;> simp only [Lit.sign, mkLit, Bool.toNat_false, Bool.toNat_true, beq_iff_eq,
    beq_eq_false_iff_ne] <;> omega

def Lit.holds (τ : Nat → Bool) (p : Lit) : Bool := τ p.var ^^ p.sign

/-- A solver as far as its answers depend on it. `asserts` is whether the assertions of `addClause_` would
have held so far; the release build leaves them out. -/
structure Solver where
  nVars : Nat := 0
  clauses : List (List Lit) := []
  eliminated : List Nat := []
  asserts : Bool := true
  solves : Nat := 0

namespace Solver

def newVar (s : Solver) : Solver := { s with nVars := s.nVars + 1 }

/-- The variable exists and `isEliminated` is false. -/
def usable (s : Solver) (p : Lit) : Bool := decide (p.var < s.nVars) && !s.eliminated.contains p.var

def addClause (s : Solver) (ps : List Lit) : Solver :=
  { s with clauses := s.clauses ++ [ps], asserts := s.asserts && ps.all s.usable }

/-- The loop `while(nVars() < v) newVar();` of the wrappers. -/
def var_enlarge_to (s : Solver) (v : Nat) : Solver := newVar^[v - s.nVars] s

theorem var_enlarge_to_eq (s : Solver) (v : Nat) :
    s.var_enlarge_to v = { s with nVars := max s.nVars v } := by
  have hiter : ∀ n (s : Solver), newVar^[n] s = { s with nVars := s.nVars + n } := by
    intro n
    induction n with
    | zero => exact fun s => rfl
    | succ n ih =>
        intro s
        rw [Function.iterate_succ_apply, ih]
        simp only [newVar, Nat.add_assoc, Nat.add_comm 1 n]
  rw [var_enlarge_to, hiter]
  congr 1
  omega

end Solver

/-- The search of Minisat, and the variables the preprocessor eliminates before it. As long as clauses and
assumptions are over variables that exist and are not eliminated, the search decides them. -/
structure Library where
  search : Solver → List Lit → Bool
  eliminate : Solver → List Lit → List Nat
  correct : ∀ s assumps, s.asserts = true → (∀ p ∈ assumps, s.usable p = true) →
    (search s assumps = true ↔
      ∃ τ, (∀ ps ∈ s.clauses, ∃ p ∈ ps, p.holds τ = true) ∧ ∀ p ∈ assumps, p.holds τ = true)

def Solver.solve (L : Library) (s : Solver) (assumps : List Lit) : Bool × Solver :=
  (L.search s assumps, { s with solves := s.solves + 1 })

/-- `SimpSolver::solve` with its default `do_simp = true`. -/
def SimpSolver.solve (L : Library) (s : Solver) (assumps : List Lit) : Bool × Solver :=
  (L.search s assumps,
    { s with solves := s.solves + 1, eliminated := s.eliminated ++ L.eliminate s assumps })

/-- The translation of literals in `add` and `assume`. -/
def toLit (dimacs_lit : Int) : Lit := mkLit (dimacs_lit.natAbs - 1) (dimacs_lit < 0)

end Minisat

/-! ## The wrappers -/

/-- The state of `CaDiCaL` with the number of queries so far. -/
def CaDiCaL.interface (S : Ipasir) : Interface (CaDiCaL × Nat) where
  init := ({}, 0)
  add s l := (s.1.add l, s.2)
  assume s l := (s.1.assume l, s.2)
  solve s :=
    let a := S.solve s.2 s.1.query
    (match a with | .sat _ => 10 | .unsat _ => 20, (s.1.solved a, s.2 + 1))

structure MinisatCore where
  s : Minisat.Solver := {}
  clause : List Minisat.Lit := []
  assumptions : List Minisat.Lit := []
  nv : Nat := 0

namespace MinisatCore

def add (w : MinisatCore) (dimacs_lit : Int) : MinisatCore :=
  if dimacs_lit = 0 then { w with s := w.s.addClause w.clause, clause := [] }
  else
    let nv := max w.nv dimacs_lit.natAbs
    { w with nv := nv, s := w.s.var_enlarge_to nv, clause := w.clause ++ [Minisat.toLit dimacs_lit] }

def assume (w : MinisatCore) (assumption_lit : Int) : MinisatCore :=
  let nv := max w.nv assumption_lit.natAbs
  { w with
    nv := nv
    s := w.s.var_enlarge_to nv
    assumptions := w.assumptions ++ [Minisat.toLit assumption_lit] }

def solve (L : Minisat.Library) (w : MinisatCore) : Int × MinisatCore :=
  let res := w.s.solve L w.assumptions
  (if res.1 then 10 else 20, { w with s := res.2, assumptions := [] })

def interface (L : Minisat.Library) : Interface MinisatCore := ⟨{}, add, assume, solve L⟩

end MinisatCore

/-- `minisatSimp`, call by call. -/
structure MinisatSimp.State where
  s : Minisat.Solver := {}
  clause : List Minisat.Lit := []
  assumptions : List Minisat.Lit := []

namespace MinisatSimp.State

def add (w : State) (dimacs_lit : Int) : State :=
  if dimacs_lit = 0 then { w with s := w.s.addClause w.clause, clause := [] }
  else
    { w with s := w.s.var_enlarge_to dimacs_lit.natAbs, clause := w.clause ++ [Minisat.toLit dimacs_lit] }

/-- The literal is translated and then not used: the list is cleared. -/
def assume (w : State) (_assumption_lit : Int) : State := { w with assumptions := [] }

def solve (L : Minisat.Library) (w : State) : Int × State :=
  let res := Minisat.SimpSolver.solve L w.s w.assumptions
  (if res.1 then 10 else 20, { w with s := res.2, assumptions := [] })

def interface (L : Minisat.Library) : Interface State := ⟨{}, add, assume, solve L⟩

/-- No literal of an eliminated variable is added. -/
def Fresh (w : State) : Op → Prop
  | .add l => l = 0 ∨ l.natAbs - 1 ∉ w.s.eliminated
  | .assume _ => True
  | .solve => True

instance (w : State) : (op : Op) → Decidable (w.Fresh op)
  | .add l => inferInstanceAs (Decidable (l = 0 ∨ l.natAbs - 1 ∉ w.s.eliminated))
  | .assume _ => inferInstanceAs (Decidable True)
  | .solve => inferInstanceAs (Decidable True)

end MinisatSimp.State

/-! ## What Minisat stores -/

namespace Minisat

variable {s : Solver} {clause : List Lit} {x : Told} {l : Int} {σ : Assignment} {τ : Nat → Bool}

theorem holds_toLit : (toLit l).holds τ = litVal (fun v => τ (v - 1)) l := by
  simp only [Lit.holds, toLit, var_mkLit, sign_mkLit, litVal]
  by_cases hl : l < 0 <;> simp [hl]

theorem holds_toLit_shift (h0 : l ≠ 0) : (toLit l).holds (fun v => σ (v + 1)) = litVal σ l := by
  have hv : l.natAbs - 1 + 1 = l.natAbs := by omega
  rw [holds_toLit]
  simp only [litVal, hv]

/-- The clauses and the open one, translated. -/
structure Stores (s : Solver) (ps : List Lit) (x : Told) : Prop where
  clause : ps = x.clause.map toLit
  clauses : s.clauses = x.clauses.map (List.map toLit)
  asserts : s.asserts = true
  usable : ∀ p ∈ ps, s.usable p = true
  nonZero : NonZero x.clause ∧ ∀ c ∈ x.clauses, NonZero c

theorem Stores.start : Stores {} [] {} :=
  ⟨rfl, rfl, rfl, by rintro p ⟨⟩, by rintro l ⟨⟩, by rintro c ⟨⟩⟩

theorem Stores.addClause (h : Stores s clause x) : Stores (s.addClause clause) [] (x.add 0) := by
  refine ⟨rfl, ?_, ?_, by rintro p ⟨⟩, by rintro l ⟨⟩, ?_⟩
  · simp [Solver.addClause, Told.add, h.clauses, h.clause]
  · simp only [Solver.addClause, h.asserts, Bool.true_and, List.all_eq_true]
    exact h.usable
  · simp only [Told.add, ↓reduceIte, List.mem_append, List.mem_singleton]
    rintro c (hc | rfl)
    · exact h.nonZero.2 c hc
    · exact h.nonZero.1

theorem usable_enlarge {p : Lit} (h : s.usable p = true) (n : Nat) :
    (s.var_enlarge_to n).usable p = true := by
  rw [Solver.var_enlarge_to_eq]
  simp only [Solver.usable, Bool.and_eq_true, decide_eq_true_eq] at h ⊢
  exact ⟨lt_max_of_lt_left h.1, h.2⟩

theorem usable_toLit {n : Nat} (h0 : l ≠ 0) (hn : l.natAbs ≤ n) (he : l.natAbs - 1 ∉ s.eliminated) :
    (s.var_enlarge_to n).usable (toLit l) = true := by
  rw [Solver.var_enlarge_to_eq]
  simp only [Solver.usable, toLit, var_mkLit, Bool.and_eq_true, decide_eq_true_eq, Bool.not_eq_true',
    List.contains_eq_mem, decide_eq_false_iff_not]
  exact ⟨by omega, he⟩

theorem Stores.enlarge (h : Stores s clause x) (n : Nat) : Stores (s.var_enlarge_to n) clause x := by
  refine ⟨h.clause, ?_, ?_, fun p hp => usable_enlarge (h.usable p hp) n, h.nonZero⟩
  · rw [Solver.var_enlarge_to_eq]; exact h.clauses
  · rw [Solver.var_enlarge_to_eq]; exact h.asserts

theorem Stores.push (h : Stores s clause x) {n : Nat} (h0 : l ≠ 0) (hn : l.natAbs ≤ n)
    (he : l.natAbs - 1 ∉ s.eliminated) :
    Stores (s.var_enlarge_to n) (clause ++ [toLit l]) (x.add l) := by
  have hadd : x.add l = { x with clause := x.clause ++ [l] } := if_neg h0
  have hgrow := h.enlarge n
  rw [hadd]
  refine ⟨by simp [h.clause], hgrow.clauses, hgrow.asserts, ?_, ?_, h.nonZero.2⟩
  · simp only [List.mem_append, List.mem_singleton]
    rintro p (hp | rfl)
    · exact hgrow.usable p hp
    · exact usable_toLit h0 hn he
  · simp only [NonZero, List.mem_append, List.mem_singleton]
    rintro m (hm | rfl)
    · exact h.nonZero.1 m hm
    · exact h0

/-- The search decides the clauses together with the assumptions it is given. -/
theorem Stores.search (h : Stores s clause x) (L : Library) {ls : List Int} (h0 : NonZero ls)
    (hu : ∀ l ∈ ls, s.usable (toLit l) = true) :
    L.search s (ls.map toLit) = true ↔ (⟨x.clauses, ls⟩ : Query).Satisfiable := by
  rw [L.correct s _ h.asserts (by simpa using hu), h.clauses]
  simp only [List.forall_mem_map]
  constructor
  · rintro ⟨τ, hF, ha⟩
    refine ⟨fun v => τ (v - 1), fun c hc => ?_, fun l hl => holds_toLit.symm.trans (ha l hl)⟩
    obtain ⟨p, hp, hv⟩ := hF c hc
    obtain ⟨l, hl, rfl⟩ := List.mem_map.mp hp
    exact ⟨l, hl, holds_toLit.symm.trans hv⟩
  · rintro ⟨σ, hF, ha⟩
    refine ⟨fun v => σ (v + 1), fun c hc => ?_, fun l hl => (holds_toLit_shift (h0 l hl)).trans (ha l hl)⟩
    obtain ⟨l, hl, hv⟩ := hF c hc
    exact ⟨toLit l, List.mem_map_of_mem hl, (holds_toLit_shift (h.nonZero.2 c hc l hl)).trans hv⟩

end Minisat

/-! ## `minisatSimp` as it is filled for `simplify`

The encodings add whole clauses; this is what the calls with their literals come to. -/

namespace MinisatSimp.State

theorem foldl_add {c : Clause} (h0 : NonZero c) (w : State) : c.foldl add w =
    { w with
      s := { w.s with nVars := CaDiCaL.maxVar w.s.nVars c }
      clause := w.clause ++ c.map Minisat.toLit } := by
  induction c generalizing w with
  | nil => simp [CaDiCaL.maxVar]
  | cons l c ih =>
      have hl : l ≠ 0 := h0 l List.mem_cons_self
      rw [List.foldl_cons, ih fun m hm => h0 m (List.mem_cons_of_mem _ hm)]
      simp [add, hl, Minisat.Solver.var_enlarge_to_eq, CaDiCaL.maxVar]

/-- The variables and clauses of the solver. -/
structure Fills (w : State) (m : MinisatSimp) : Prop where
  nVars : w.s.nVars = m.nVars
  clauses : w.s.clauses = m.clauses.map (List.map Minisat.toLit)
  clause : w.clause = []

theorem Fills.addClause {w : State} {m : MinisatSimp} (h : Fills w m) {c : Clause} (h0 : NonZero c) :
    Fills ((c.foldl add w).add 0) (m.addClause c) := by
  rw [foldl_add h0]
  refine ⟨?_, ?_, rfl⟩
  · simp [add, Minisat.Solver.addClause, MinisatSimp.addClause, h.nVars]
  · simp [add, Minisat.Solver.addClause, MinisatSimp.addClause, h.clauses, h.clause]

end MinisatSimp.State

/-! ## Each wrapper against the contract -/

variable {ops : List Op}

theorem CaDiCaL.answers_eq_contract (S : Ipasir) (hok : contract.Always Told.Ok ops) :
    (CaDiCaL.interface S).answers ops = contract.answers ops := by
  refine Interface.answers_eq (R := fun s x => (⟨s.1.clauses, s.1.clause, s.1.assumptions⟩ : Told) = x) rfl
    ?_ ?_ hok
  · rintro ⟨s, t⟩ x op rfl _
    cases op with
    | add l =>
        simp only [Interface.next, CaDiCaL.interface, contract, CaDiCaL.add, Told.add]
        split <;> rfl
    | assume l => rfl
    | solve => rfl
  · rintro ⟨s, t⟩ x rfl _
    have hleg := S.legal t s.query
    simp only [CaDiCaL.interface]
    cases ha : S.solve t s.query with
    | sat m =>
        rw [ha] at hleg
        exact (if_pos hleg.satisfiable).symm
    | unsat core =>
        rw [ha] at hleg
        exact (if_neg hleg.not_satisfiable).symm

/-- The state of `minisatCore`. -/
structure MinisatCore.Mirrors (w : MinisatCore) (x : Told) : Prop where
  stores : Minisat.Stores w.s w.clause x
  assumptions : w.assumptions = x.assumptions.map Minisat.toLit
  nonZero : NonZero x.assumptions
  usable : ∀ l ∈ x.assumptions, w.s.usable (Minisat.toLit l) = true
  eliminated : w.s.eliminated = []

theorem MinisatCore.Mirrors.add {w : MinisatCore} {x : Told} (h : w.Mirrors x) (l : Int) :
    (w.add l).Mirrors (x.add l) := by
  by_cases h0 : l = 0
  · subst h0
    exact ⟨h.stores.addClause, h.assumptions, h.nonZero, h.usable, h.eliminated⟩
  · have hw : w.add l = { w with
        nv := max w.nv l.natAbs
        s := w.s.var_enlarge_to (max w.nv l.natAbs)
        clause := w.clause ++ [Minisat.toLit l] } := if_neg h0
    have hx : (x.add l).assumptions = x.assumptions := by rw [Told.add, if_neg h0]
    rw [hw]
    refine ⟨h.stores.push h0 (le_max_right _ _) (by simp [h.eliminated]), h.assumptions.trans (by rw [hx]),
      hx ▸ h.nonZero, fun m hm => ?_, ?_⟩
    · exact Minisat.usable_enlarge (h.usable m (hx ▸ hm)) _
    · rw [Minisat.Solver.var_enlarge_to_eq]
      exact h.eliminated

theorem MinisatCore.Mirrors.assume {w : MinisatCore} {x : Told} (h : w.Mirrors x) {l : Int} (h0 : l ≠ 0) :
    (w.assume l).Mirrors (x.assume l) := by
  have hnew : ∀ m ∈ x.assumptions ++ [l],
      m ≠ 0 ∧ (w.s.var_enlarge_to (max w.nv l.natAbs)).usable (Minisat.toLit m) = true := by
    simp only [List.mem_append, List.mem_singleton]
    rintro m (hm | rfl)
    · exact ⟨h.nonZero m hm, Minisat.usable_enlarge (h.usable m hm) _⟩
    · exact ⟨h0, Minisat.usable_toLit h0 (le_max_right _ _) (by simp [h.eliminated])⟩
  refine ⟨⟨h.stores.clause, ?_, ?_, ?_, h.stores.nonZero⟩, ?_, fun m hm => (hnew m hm).1,
    fun m hm => (hnew m hm).2, ?_⟩
  · exact (h.stores.enlarge _).clauses
  · exact (h.stores.enlarge _).asserts
  · exact (h.stores.enlarge _).usable
  · simp [MinisatCore.assume, Told.assume, h.assumptions]
  · simp only [MinisatCore.assume, Minisat.Solver.var_enlarge_to_eq]
    exact h.eliminated

theorem MinisatCore.answers_eq_contract (L : Minisat.Library) (hok : contract.Always Told.Ok ops) :
    (MinisatCore.interface L).answers ops = contract.answers ops := by
  refine Interface.answers_eq (R := MinisatCore.Mirrors) ?_ ?_ ?_ hok
  · exact ⟨.start, rfl, by rintro l ⟨⟩, by rintro l ⟨⟩, rfl⟩
  · intro w x op h hop
    cases op with
    | add l => exact h.add l
    | assume l => exact h.assume hop
    | solve =>
        exact ⟨⟨h.stores.clause, h.stores.clauses, h.stores.asserts, h.stores.usable, h.stores.nonZero⟩, rfl,
          by rintro l ⟨⟩, by rintro l ⟨⟩, h.eliminated⟩
  · intro w x h _
    refine contract_solve.mpr ?_
    rw [Minisat.Solver.solve, h.assumptions]
    exact h.stores.search L h.nonZero h.usable

/-- `minisatSimp` decides the clauses alone. -/
theorem MinisatSimp.answers_iff (L : Minisat.Library) (hok : contract.Always Told.Ok ops)
    (hfresh : (MinisatSimp.State.interface L).Always MinisatSimp.State.Fresh ops) :
    (MinisatSimp.State.interface L).answers ops = contract.answers ops ↔
      contract.Always (fun x op => op = .solve → (∃ σ, CnfSat σ x.clauses) → x.query.Satisfiable) ops := by
  refine Interface.answers_iff
    (R := fun w x => Minisat.Stores w.s w.clause x ∧ w.assumptions = []) ?_ ?_ ?_ hfresh hok
  · exact ⟨.start, rfl⟩
  · rintro w x op ⟨h, ha⟩ hf hop
    cases op with
    | add l =>
        by_cases h0 : l = 0
        · subst h0
          exact ⟨h.addClause, ha⟩
        · have hw : w.add l = { w with
              s := w.s.var_enlarge_to l.natAbs
              clause := w.clause ++ [Minisat.toLit l] } := if_neg h0
          show Minisat.Stores (w.add l).s (w.add l).clause (x.add l) ∧ (w.add l).assumptions = []
          rw [hw]
          exact ⟨h.push h0 le_rfl (hf.resolve_left h0), ha⟩
    | assume l => exact ⟨⟨h.clause, h.clauses, h.asserts, h.usable, h.nonZero⟩, rfl⟩
    | solve =>
        have hx : x.clause = [] := hop
        have hclause : w.clause = [] := by rw [h.clause, hx]; rfl
        refine ⟨⟨h.clause, h.clauses, h.asserts, fun p hp => ?_, h.nonZero⟩, rfl⟩
        have hp : p ∈ w.clause := hp
        rw [hclause] at hp
        cases hp
  · rintro w x ⟨h, ha⟩ _
    have hsearch : L.search w.s w.assumptions = true ↔ ∃ σ, CnfSat σ x.clauses := by
      have h0 : NonZero [] := by rintro l ⟨⟩
      have hs := h.search L h0 (by rintro l ⟨⟩)
      rw [ha]
      refine hs.trans (exists_congr fun σ => and_iff_left ?_)
      rintro l ⟨⟩
    refine contract_solve.trans ?_
    rw [Minisat.SimpSolver.solve, hsearch]
    refine ⟨fun h' => h'.mp, fun h' => ⟨h', ?_⟩⟩
    rintro ⟨σ, hσ, _⟩
    exact ⟨σ, hσ⟩

/-- `CaDiCaL` and `minisatCore` keep the contract. With `minisatSimp`, the answers are those of the contract
iff no `solve` depends on its assumptions to be unsatisfiable. -/
theorem wrappers_agree (S : Ipasir) (core simp : Minisat.Library) (hok : contract.Always Told.Ok ops)
    (hfresh : (MinisatSimp.State.interface simp).Always MinisatSimp.State.Fresh ops) :
    ((CaDiCaL.interface S).answers ops = contract.answers ops ∧
      (MinisatCore.interface core).answers ops = contract.answers ops ∧
      (MinisatSimp.State.interface simp).answers ops = contract.answers ops) ↔
    contract.Always (fun x op => op = .solve → (∃ σ, CnfSat σ x.clauses) → x.query.Satisfiable) ops := by
  rw [MinisatSimp.answers_iff simp hok hfresh]
  exact ⟨fun h => h.2.2, fun h =>
    ⟨CaDiCaL.answers_eq_contract S hok, MinisatCore.answers_eq_contract core hok, h⟩⟩

open Classical in
/-- The search that is right on any input, with a preprocessor that eliminates all variables. -/
noncomputable def Minisat.Library.exact : Minisat.Library where
  search s assumps :=
    decide (∃ τ, (∀ ps ∈ s.clauses, ∃ p ∈ ps, p.holds τ = true) ∧ ∀ p ∈ assumps, p.holds τ = true)
  eliminate s _ := List.range s.nVars
  correct _ _ _ _ := decide_eq_true_iff

namespace Sample

/-- Both assumptions can be met, and the second clause is over a new variable. -/
def harmless : List Op :=
  [.add 1, .add 2, .add 0, .assume 1, .solve, .add 3, .add 0, .assume 3, .solve]

def dropped : List Op := [.add (-1), .add 0, .assume 1, .solve]

end Sample

theorem wrappers_agree_harmless :
    (CaDiCaL.interface (replay fun _ => .unsat [])).answers Sample.harmless = contract.answers Sample.harmless ∧
    (MinisatCore.interface .exact).answers Sample.harmless = contract.answers Sample.harmless ∧
    (MinisatSimp.State.interface .exact).answers Sample.harmless = contract.answers Sample.harmless := by
  have hok : contract.Always Told.Ok Sample.harmless := by decide +kernel
  have hfresh : (MinisatSimp.State.interface .exact).Always MinisatSimp.State.Fresh Sample.harmless := by
    decide +kernel
  refine (wrappers_agree _ _ _ hok hfresh).mpr ?_
  refine ⟨by rintro ⟨⟩, by rintro ⟨⟩, by rintro ⟨⟩, by rintro ⟨⟩, fun _ _ => ?_, by rintro ⟨⟩, by rintro ⟨⟩,
    by rintro ⟨⟩, fun _ _ => ?_, trivial⟩
  · exact ⟨fun _ => true, by decide +kernel, by decide +kernel⟩
  · exact ⟨fun _ => true, by decide +kernel, by decide +kernel⟩

/-- The assumption contradicts the clause, and `minisatSimp` answers 10. -/
theorem minisatSimp_drops_assumption : contract.Always Told.Ok Sample.dropped ∧
    (MinisatSimp.State.interface .exact).answers Sample.dropped = [10] ∧
    (MinisatCore.interface .exact).answers Sample.dropped = [20] ∧
    contract.answers Sample.dropped = [20] := by
  have hok : contract.Always Told.Ok Sample.dropped := by decide +kernel
  have hcontract : contract.answers Sample.dropped = [20] := by
    refine congrArg (fun a => [a]) (if_neg ?_)
    rintro ⟨σ, hF, ha⟩
    have h1 := hF [-1] (List.mem_singleton.mpr rfl)
    have h2 := ha 1 (List.mem_singleton.mpr rfl)
    simp [ClauseSat, litVal] at h1 h2
    rw [h1] at h2
    cases h2
  refine ⟨hok, ?_, (MinisatCore.answers_eq_contract _ hok).trans hcontract, hcontract⟩
  refine congrArg (fun a => [a]) (if_pos ?_)
  refine (Minisat.Library.exact.correct _ _ (by decide +kernel) (by rintro p ⟨⟩)).mpr ⟨fun _ => false, ?_, ?_⟩
  · decide +kernel
  · rintro p ⟨⟩

end ModelChecker
