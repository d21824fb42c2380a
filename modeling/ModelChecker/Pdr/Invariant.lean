import ModelChecker.Logic.Ic3
import ModelChecker.Pdr.Check
import ModelChecker.Pdr.Lemmas.Cubes
import ModelChecker.Pdr.Lemmas.Simplified

/-!
# The invariant of a run

The solvers of a run hold their encoding, lemma clauses and activated query clauses (`Shape`); the
lemma clauses of a level are those of the cubes stored at this level or above (`Stored`); and the cubes
and obligations are a state of the abstract machine (`Reachable`).
-/

namespace ModelChecker

open Logic

variable (A : Circuit) (E : Eliminator)

/-! ## Encodings -/

/-- The primed variables once `encode_translation` has run. -/
def primes1 : Primes := (A.transition true (primes0 A)).2

/-- The last variable of `encode_translation`. -/
def frameVars : Nat := simpVars A true (primes0 A)

/-- The last variable of `encode_lift`. -/
def liftVars : Nat := simpVars A false (primes1 A)

def liftBase : Cnf := simpCnf A false (primes1 A) E

/-- The clauses a new solver of level `k` starts with. -/
def frameBase (k : Nat) : Cnf :=
  simpCnf A true (primes0 A) E ++ (if A.satelite_unsat then [[1]] else []) ++
    (consPrime A (primes1 A)).map (fun l => [l]) ++
    if k = 0 then A.encode_init_condition else []

/-- The clauses added to the solver of level `k` later. -/
def frameExtra (k : Nat) (s : CaDiCaL) : Cnf := s.clauses.drop (frameBase A E k).length

/-- The clauses over latches among those added to the solver of level `i` after its encoding: activated
query clauses hold a variable that is no latch. -/
def lemmaClauses (i : Nat) (s : CaDiCaL) : Cnf :=
  (frameExtra A E i s).filter fun c => c.all fun l => decide (A.IsLatch l.natAbs)

/-- The clause of a lemma. -/
def IsLemma (c : Clause) : Prop := ∃ d, A.LatchCube d ∧ c = negCube d

/-- A clause activated by a variable between `lo` and `hi`. -/
def IsQuery (lo hi : Nat) (c : Clause) : Prop :=
  ∃ (v : Nat) (d : Clause), lo < v ∧ v ≤ hi ∧ VarsLe lo d ∧ NonZero d ∧ c = -(v : Int) :: d

/-! ## Solvers -/

structure FrameSolver (k : Nat) (s : CaDiCaL) : Prop where
  clause : s.clause = []
  assumptions : s.assumptions = []
  base : frameBase A E k <+: s.clauses
  extra : ∀ c ∈ frameExtra A E k s, IsLemma A c ∨ IsQuery (frameVars A) s.nv c
  nv : frameVars A ≤ s.nv

structure LiftSolver (s : CaDiCaL) : Prop where
  clause : s.clause = []
  assumptions : s.assumptions = []
  clauses : ∃ rest, s.clauses = liftBase A E ++ rest ∧ ∀ c ∈ rest, IsQuery (liftVars A) s.nv c
  nv : liftVars A ≤ s.nv
  flag : s.clear_flag = true → liftVars A < s.nv

structure InitSolver (s : CaDiCaL) : Prop where
  clause : s.clause = []
  assumptions : s.assumptions = []
  clauses : s.clauses = A.encode_init_condition

structure Shape (p : PDR) : Prop where
  circuit : p.circuit = A.toAiger
  primes : p.primes = primes1 A
  bad_prime : p.bad_prime = badPrime A (primes1 A)
  constraints_prime : p.constraints_prime = consPrime A (primes1 A)
  satelite : p.satelite = some (simpCnf A true (primes0 A) E)
  satelite_unsat : p.satelite_unsat = A.satelite_unsat
  satelite2 : p.satelite2 = none ∨ p.satelite2 = some (liftBase A E)
  init : ∀ s, p.init = some s → InitSolver A s
  lift : ∀ s, p.lift = some s → LiftSolver A E s
  frames : ∀ k, k < p.frames.length → FrameSolver A E k (p.frame k).solver
  cubes : ∀ k, ∀ c ∈ (p.frame k).cubes, A.LatchCube c ∧ sortLits c = c
  nodup : ∀ k, (p.frame k).cubes.Nodup
  states : ∀ s, A.LatchCube (p.state s).latches
  core : A.LatchCube p.core
  tmp_core : A.LatchCube p.tmp_core

/-- The lemma clauses of a level are those of the cubes stored there or above. -/
structure Stored (p : PDR) : Prop where
  stored : ∀ i j c, 1 ≤ i → i ≤ j → c ∈ (p.frame j).cubes →
    negCube c ∈ frameExtra A E i (p.frame i).solver
  lemmas : ∀ i d, i < p.frames.length → A.LatchCube d → negCube d ∈ frameExtra A E i (p.frame i).solver →
    1 ≤ i ∧ ∃ j, i ≤ j ∧ ∃ c ∈ (p.frame j).cubes, c ⊆ d
  level0 : (p.frame 0).cubes = []

/-! ## The abstract machine -/

/-- The points of a cube. -/
abbrev InCube (c : Cube) (w : Assignment) : Prop := CubeSat w c

def PDR.cubes (p : PDR) (j : Nat) : Set Cube := {c | c ∈ (p.frame j).cubes}

def PDR.abs (p : PDR) (blocked : List Cube) : Ic3 Cube where
  len := p.frames.length
  frames := p.cubes
  queue := {q | ∃ o ∈ p.obligation_queue, q = ((p.state o.state).latches, o.frame_k)}
  blocked := {c | c ∈ blocked}

/-- The states of a run between two operations. -/
structure Good (p : PDR) : Prop where
  shape : Shape A E p
  stored : Stored A E p
  reach : ∃ blocked, Ic3.Reachable A.system InCube (p.abs blocked)

/-! ## Counterexample chains -/

/-- Whatever values the open positions take, reading the inputs one after the other from `w` on meets a
bad point. -/
def Forced : List (List Int) → Assignment → Prop
  | [], _ => False
  | I :: Is, w => ∀ v, A.system.same w v → CubeSat v I →
      A.system.Bad v ∨ ∀ w', A.system.Next v w' → Forced Is w'

/-- The inputs along `next`, all of whose state objects were made before the `n`-th. -/
inductive Path (p : PDR) (n : Nat) : Nat → List (List Int) → Prop
  | last {s : Nat} (hs : s < n) (hn : (p.state s).next = none) : Path p n s [(p.state s).inputs]
  | step {s t : Nat} {L : List (List Int)} (hs : s < n) (hn : (p.state s).next = some t)
      (ht : Path p n t L) : Path p n s ((p.state s).inputs :: L)

/-- Input literals, at most one for each input. -/
def InputLine (I : List Int) : Prop := ∀ l ∈ I, A.IsInput l.natAbs ∧ -l ∉ I

/-- Every point of the state object's cube is the start of a counterexample. -/
def Chained (p : PDR) (n s : Nat) : Prop :=
  ∃ L, Path p n s L ∧ (∀ I ∈ L, InputLine A I) ∧ ∀ w, CubeSat w (p.state s).latches → Forced A L w

/-- A list of state objects that is a counterexample: it starts with the reset values, and reading its
inputs from any completion of its first latches on meets a bad point. -/
structure Counterexample (L : List State) : Prop where
  nonempty : L ≠ []
  inputs : ∀ st ∈ L, InputLine A st.inputs
  latches : ∀ st ∈ L, A.LatchCube st.latches
  consistent : ∀ st, L.head? = some st → ∀ l ∈ st.latches, -l ∉ st.latches
  init : ∀ st, L.head? = some st → A.init_state ⊆ st.latches
  forced : ∀ st, L.head? = some st → ∀ w, CubeSat w st.latches → Forced A (L.map State.inputs) w

/-! ## The invariant -/

/-- The invariant between two operations; the state objects of the queue were made before the
`n`-th. -/
structure Inv (n : Nat) (r : Run) : Prop where
  shape : Shape A E r.pdr
  stored : Stored A E r.pdr
  reach : Ic3.Reachable A.system InCube (r.pdr.abs r.blocked)
  queue : ∀ o ∈ r.pdr.obligation_queue, o.state < n ∧ o.frame_k ≤ r.pdr.depth
  chains : A.constraints = [] → ∀ o ∈ r.pdr.obligation_queue, Chained A r.pdr n o.state
  size : n ≤ r.pdr.states.length
  hist : ∀ p ∈ r.hist, Good A E p

/-- The condition kept also when a run stops early. -/
def HistGood (r : Run) : Prop := ∀ p ∈ r.hist, Good A E p

/-- What an operation that only learns lemmas may change. -/
structure Evolves (n : Nat) (r r' : Run) : Prop where
  len : r'.pdr.frames.length = r.pdr.frames.length
  stronger : ∀ i w, Ic3.Excluded InCube r'.pdr.cubes i w → Ic3.Excluded InCube r.pdr.cubes i w
  queue : r'.pdr.obligation_queue = r.pdr.obligation_queue
  blocked : r'.blocked = r.blocked
  heap : ∀ s, s < n → (r'.pdr.state s).latches = (r.pdr.state s).latches ∧
    (r'.pdr.state s).inputs = (r.pdr.state s).inputs ∧ (r'.pdr.state s).next = (r.pdr.state s).next
  size : r.pdr.states.length ≤ r'.pdr.states.length
  earliest : 1 ≤ r.pdr.earliest_strengthened_frame → 1 ≤ r'.pdr.earliest_strengthened_frame
  cex : r'.pdr.cex_states = r.pdr.cex_states

/-- The cube may be stored one level above `k`. -/
structure Learnable (r : Run) (k : Nat) (c : Cube) : Prop where
  latches : A.LatchCube c
  relInd : Ic3.RelInd A.system InCube r.pdr.cubes k c
  init : Ic3.MeetsInit A.system InCube c → ∃ b ∈ r.blocked, Ic3.MeetsInit A.system InCube b

variable {A E}

theorem Evolves.refl (n : Nat) (r : Run) : Evolves n r r :=
  ⟨rfl, fun _ _ h => h, rfl, rfl, fun _ _ => ⟨rfl, rfl, rfl⟩, le_rfl, fun h => h, rfl⟩

theorem Evolves.trans {n : Nat} {r r' r'' : Run} (h : Evolves n r r') (h' : Evolves n r' r'') :
    Evolves n r r'' where
  len := h'.len.trans h.len
  stronger i w hw := h.stronger i w (h'.stronger i w hw)
  queue := h'.queue.trans h.queue
  blocked := h'.blocked.trans h.blocked
  heap s hs := by
    obtain ⟨h1, h2, h3⟩ := h.heap s hs
    obtain ⟨h1', h2', h3'⟩ := h'.heap s hs
    exact ⟨h1'.trans h1, h2'.trans h2, h3'.trans h3⟩
  size := h.size.trans h'.size
  earliest he := h'.earliest (h.earliest he)
  cex := h'.cex.trans h.cex

theorem Evolves.depth {n : Nat} {r r' : Run} (h : Evolves n r r') : r'.pdr.depth = r.pdr.depth := by
  unfold PDR.depth; rw [h.len]

/-- Levels only get smaller, so relative induction is kept. -/
theorem Learnable.evolves {n : Nat} {r r' : Run} {k : Nat} {c : Cube} (h : Learnable A r k c)
    (he : Evolves n r r') : Learnable A r' k c where
  latches := h.latches
  relInd := by
    intro w w' hw
    refine h.relInd w w' ?_
    by_cases hk : k = 0
    · subst hk; simpa using hw
    · rw [Ic3.level_pos (by omega)] at hw ⊢
      exact he.stronger k w hw
  init hm := by rw [he.blocked]; exact h.init hm

/-- Only the set of literals matters. -/
theorem Learnable.congr {r : Run} {k : Nat} {c d : Cube} (h : Learnable A r k c)
    (hcd : ∀ l, l ∈ d ↔ l ∈ c) : Learnable A r k d where
  latches l hl := h.latches l ((hcd l).mp hl)
  relInd w w' hw hd hst := by
    have hsat : ∀ v, InCube d v ↔ InCube c v := fun v =>
      ⟨fun h l hl => h l ((hcd l).mpr hl), fun h l hl => h l ((hcd l).mp hl)⟩
    rw [hsat] at hd ⊢
    exact h.relInd w w' hw hd hst
  init := by
    rintro ⟨w, hi, hc, hd⟩
    exact h.init ⟨w, hi, hc, fun l hl => hd l ((hcd l).mpr hl)⟩

end ModelChecker
