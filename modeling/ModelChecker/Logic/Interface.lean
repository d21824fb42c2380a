import ModelChecker.Logic.Ipasir

/-!
# Incremental solvers as machines

The calls `add`, `assume` and `solve` drive an `Interface`, and a run is seen through the answers of its
`solve` calls. `contract` is the interface that remembers what it was told and decides it. `answers_iff`
compares two interfaces along related states.
-/

namespace ModelChecker.Logic

inductive Op where
  | add (lit : Int)
  | assume (lit : Int)
  | solve
deriving DecidableEq, Repr

structure Interface (S : Type) where
  init : S
  add : S → Int → S
  assume : S → Int → S
  solve : S → Int × S

namespace Interface

variable {S T : Type} (w : Interface S) (v : Interface T)

def next (s : S) : Op → S
  | .add l => w.add s l
  | .assume l => w.assume s l
  | .solve => (w.solve s).2

/-- What the calls of `solve` return, from the state `s` on. -/
def answersFrom : S → List Op → List Int
  | _, [] => []
  | s, .solve :: ops => (w.solve s).1 :: answersFrom (w.solve s).2 ops
  | s, .add l :: ops => answersFrom (w.add s l) ops
  | s, .assume l :: ops => answersFrom (w.assume s l) ops

def answers (ops : List Op) : List Int := w.answersFrom w.init ops

/-- `P` holds at every call, of the state before it. -/
def AlwaysFrom (P : S → Op → Prop) : S → List Op → Prop
  | _, [] => True
  | s, op :: ops => P s op ∧ AlwaysFrom P (w.next s op) ops

def Always (P : S → Op → Prop) (ops : List Op) : Prop := w.AlwaysFrom P w.init ops

instance decidableAlwaysFrom (P : S → Op → Prop) [∀ s op, Decidable (P s op)] :
    (s : S) → (ops : List Op) → Decidable (w.AlwaysFrom P s ops)
  | _, [] => inferInstanceAs (Decidable True)
  | s, op :: ops =>
    have := decidableAlwaysFrom P (w.next s op) ops
    inferInstanceAs (Decidable (_ ∧ _))

instance (P : S → Op → Prop) [∀ s op, Decidable (P s op)] (ops : List Op) : Decidable (w.Always P ops) :=
  inferInstanceAs (Decidable (w.AlwaysFrom P w.init ops))

variable {w v} {R : S → T → Prop} {P : S → Op → Prop} {Q : T → Op → Prop} {C : T → Prop}

theorem answersFrom_iff
    (hstep : ∀ s t op, R s t → P s op → Q t op → R (w.next s op) (v.next t op))
    (hsolve : ∀ s t, R s t → Q t .solve → ((w.solve s).1 = (v.solve t).1 ↔ C t))
    {s : S} {t : T} (hR : R s t) {ops : List Op} (hP : w.AlwaysFrom P s ops) (hQ : v.AlwaysFrom Q t ops) :
    w.answersFrom s ops = v.answersFrom t ops ↔ v.AlwaysFrom (fun t op => op = .solve → C t) t ops := by
  induction ops generalizing s t with
  | nil => exact iff_of_true rfl trivial
  | cons op ops ih =>
      have hnext := ih (hstep s t op hR hP.1 hQ.1) hP.2 hQ.2
      cases op with
      | add l => exact hnext.trans (and_iff_right (by rintro ⟨⟩)).symm
      | assume l => exact hnext.trans (and_iff_right (by rintro ⟨⟩)).symm
      | solve =>
          simp only [answersFrom, AlwaysFrom, List.cons.injEq, true_imp_iff]
          exact and_congr (hsolve s t hR hQ.1) hnext

/-- Two interfaces whose related states stay related give the same answers as long as `C` holds at each
`solve`, the condition under which they agree there. -/
theorem answers_iff (h0 : R w.init v.init)
    (hstep : ∀ s t op, R s t → P s op → Q t op → R (w.next s op) (v.next t op))
    (hsolve : ∀ s t, R s t → Q t .solve → ((w.solve s).1 = (v.solve t).1 ↔ C t))
    {ops : List Op} (hP : w.Always P ops) (hQ : v.Always Q ops) :
    w.answers ops = v.answers ops ↔ v.Always (fun t op => op = .solve → C t) ops :=
  answersFrom_iff hstep hsolve h0 hP hQ

theorem alwaysFrom_of_forall {P : S → Op → Prop} (h : ∀ s op, P s op) (s : S) (ops : List Op) :
    w.AlwaysFrom P s ops := by
  induction ops generalizing s with
  | nil => trivial
  | cons op ops ih => exact ⟨h s op, ih _⟩

/-- Interfaces that agree at every `solve`. -/
theorem answers_eq (h0 : R w.init v.init)
    (hstep : ∀ s t op, R s t → Q t op → R (w.next s op) (v.next t op))
    (hsolve : ∀ s t, R s t → Q t .solve → (w.solve s).1 = (v.solve t).1) {ops : List Op}
    (hQ : v.Always Q ops) : w.answers ops = v.answers ops :=
  (answers_iff (P := fun _ _ => True) (C := fun _ => True) h0 (fun s t op hR _ hq => hstep s t op hR hq)
    (fun s t hR hq => iff_of_true (hsolve s t hR hq) trivial) (alwaysFrom_of_forall (fun _ _ => trivial) _ _)
    hQ).mpr (alwaysFrom_of_forall (fun _ _ _ => trivial) _ _)

end Interface

/-! ## The contract -/

/-- The clauses, the one that has not been ended by `0`, and the assumptions since the last `solve`. -/
structure Told where
  clauses : Cnf := []
  clause : Clause := []
  assumptions : List Int := []
deriving DecidableEq, Repr

namespace Told

def add (x : Told) (l : Int) : Told :=
  if l = 0 then { x with clauses := x.clauses ++ [x.clause], clause := [] }
  else { x with clause := x.clause ++ [l] }

def assume (x : Told) (l : Int) : Told := { x with assumptions := x.assumptions ++ [l] }

def query (x : Told) : Query := ⟨x.clauses, x.assumptions⟩

/-- Literals that are assumed are not `0`, and `solve` is not called within a clause. -/
def Ok (x : Told) : Op → Prop
  | .add _ => True
  | .assume l => l ≠ 0
  | .solve => x.clause = []

instance (x : Told) : (op : Op) → Decidable (x.Ok op)
  | .add _ => inferInstanceAs (Decidable True)
  | .assume l => inferInstanceAs (Decidable (l ≠ 0))
  | .solve => inferInstanceAs (Decidable (x.clause = []))

end Told

open Classical in
/-- `solve` returns 20 if the clauses together with the assumptions made since the last `solve` are
unsatisfiable, and 10 otherwise. -/
noncomputable def contract : Interface Told where
  init := {}
  add := Told.add
  assume := Told.assume
  solve x := (if x.query.Satisfiable then 10 else 20, { x with assumptions := [] })

theorem contract_solve {x : Told} {b : Bool} :
    (if b then (10 : Int) else 20) = (contract.solve x).1 ↔ (b = true ↔ x.query.Satisfiable) := by
  by_cases h : x.query.Satisfiable <;> cases b <;> simp [contract, h]

end ModelChecker.Logic
