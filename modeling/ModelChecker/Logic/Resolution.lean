import ModelChecker.Logic.Cnf

/-!
# Resolution

Resolution and subsumption of clauses, and the elimination of a variable by all resolvents on it. A model
of what is left is turned into a model of the original clauses by a stack of clauses, each of which makes
its first literal true unless another one is.
-/

namespace ModelChecker.Logic

variable {σ : Assignment} {c d : Clause} {x l : Int} {v : Nat}

/-- No variable occurs twice. -/
def DistinctVars (c : Clause) : Prop := c.Pairwise fun a b => a.natAbs ≠ b.natAbs

instance (c : Clause) : Decidable (DistinctVars c) :=
  inferInstanceAs (Decidable (c.Pairwise fun a b => a.natAbs ≠ b.natAbs))

/-- The literals of the other variables. -/
def dropVar (v : Nat) (c : Clause) : Clause := c.filter fun l => decide (l.natAbs ≠ v)

theorem mem_dropVar : l ∈ dropVar v c ↔ l ∈ c ∧ l.natAbs ≠ v := by
  unfold dropVar
  rw [List.mem_filter, decide_eq_true_eq]

theorem DistinctVars.eq_of_natAbs (h : DistinctVars c) {a b : Int} (ha : a ∈ c) (hb : b ∈ c)
    (hab : a.natAbs = b.natAbs) : a = b := by
  have : Std.Symm fun a b : Int => a.natAbs ≠ b.natAbs := ⟨fun _ _ h => h.symm⟩
  by_contra hne
  exact List.Pairwise.forall h ha hb hne hab

theorem DistinctVars.sublist (h : DistinctVars c) (hs : d.Sublist c) : DistinctVars d :=
  List.Pairwise.sublist hs h

theorem DistinctVars.neg_notMem (h : DistinctVars c) (h0 : x ≠ 0) (hx : x ∈ c) : -x ∉ c := by
  intro hn
  have heq := h.eq_of_natAbs hx hn (Int.natAbs_neg x).symm
  omega

/-! ## Assignments -/

/-- The assignment with one more literal true. -/
def setLit (σ : Assignment) (x : Int) : Assignment := Function.update σ x.natAbs (decide (0 < x))

theorem litVal_setLit_self (h : x ≠ 0) : litVal (setLit σ x) x = true := by
  unfold litVal setLit
  rw [Function.update_self]
  split
  · simp
    omega
  · simp
    omega

theorem clauseSat_setLit_of_ne (h : ∀ l ∈ c, l.natAbs ≠ x.natAbs) : ClauseSat (setLit σ x) c ↔ ClauseSat σ c :=
  clauseSat_congr fun l hl => Function.update_of_ne (h l hl) _ _

theorem setLit_setLit_neg : setLit (setLit σ x) (-x) = setLit σ (-x) := by
  unfold setLit
  rw [Int.natAbs_neg, Function.update_idem]

/-! ## Resolution -/

/-- A literal and its complement are not both false. -/
theorem clauseSat_of_complement (h0 : x ≠ 0) (h1 : x ∈ c) (h2 : -x ∈ c) : ClauseSat σ c := by
  cases hv : litVal σ x with
  | true => exact ⟨x, h1, hv⟩
  | false => exact ⟨-x, h2, (litVal_neg_eq_true h0).mpr hv⟩

/-- A clause that holds without its literal `x`. -/
theorem ClauseSat.dropVar_or (h : DistinctVars c) (hx : x ∈ c) (hs : ClauseSat σ c) :
    litVal σ x = true ∨ ClauseSat σ (dropVar x.natAbs c) := by
  obtain ⟨l, hl, hv⟩ := hs
  by_cases he : l.natAbs = x.natAbs
  · left
    rwa [h.eq_of_natAbs hl hx he] at hv
  · exact .inr ⟨l, mem_dropVar.mpr ⟨hl, he⟩, hv⟩

theorem ClauseSat.mono (h : ClauseSat σ c) (hs : ∀ l ∈ c, l ∈ d) : ClauseSat σ d := by
  obtain ⟨l, hl, hv⟩ := h
  exact ⟨l, hs l hl, hv⟩

theorem ClauseSat.of_dropVar (h : ClauseSat σ (dropVar v c)) : ClauseSat σ c :=
  h.mono fun _ hl => (mem_dropVar.mp hl).1

/-- The resolvent of two clauses follows from them. -/
theorem ClauseSat.resolve (h0 : x ≠ 0) (hc : DistinctVars c) (hd : DistinctVars d) (hx : x ∈ c) (hn : -x ∈ d)
    (hsc : ClauseSat σ c) (hsd : ClauseSat σ d) :
    ClauseSat σ (dropVar x.natAbs c) ∨ ClauseSat σ (dropVar x.natAbs d) := by
  rcases hsc.dropVar_or hc hx with hv | hs
  · rcases hsd.dropVar_or hd hn with hv' | hs'
    · rw [litVal_neg_eq_true h0, hv] at hv'
      cases hv'
    · rw [Int.natAbs_neg] at hs'
      exact .inr hs'
  · exact .inl hs

/-- A clause without a literal that another clause makes superfluous. -/
theorem ClauseSat.strengthen (h0 : x ≠ 0) (hsub : ∀ l ∈ c, l = x ∨ l ∈ d) (hn : -x ∉ c)
    (hsc : ClauseSat σ c) (hsd : ClauseSat σ d) : ClauseSat σ (d.erase (-x)) := by
  obtain ⟨m, hm, hv⟩ := hsd
  by_cases he : m = -x
  · subst he
    obtain ⟨l, hl, hvl⟩ := hsc
    rcases hsub l hl with rfl | hld
    · rw [litVal_neg_eq_true h0, hvl] at hv
      cases hv
    · have hne : l ≠ -x := fun hlx => hn (hlx ▸ hl)
      exact ⟨l, (List.mem_erase_of_ne hne).mpr hld, hvl⟩
  · exact ⟨m, (List.mem_erase_of_ne he).mpr hm, hv⟩

/-! ## Reconstruction -/

/-- The first literal of the clause is made true, unless another one is. -/
def repair (σ : Assignment) : Clause → Assignment
  | [] => σ
  | x :: rest => if ClauseSat σ rest then σ else setLit σ x

theorem repair_cons (σ : Assignment) (x : Int) (rest : Clause) :
    repair σ (x :: rest) = if ClauseSat σ rest then σ else setLit σ x := rfl

/-- All clauses of the stack, the last one first. -/
def reconstruct (stack : List Clause) (σ : Assignment) : Assignment := stack.foldr (fun c τ => repair τ c) σ

theorem reconstruct_append (s t : List Clause) (σ : Assignment) :
    reconstruct (s ++ t) σ = reconstruct s (reconstruct t σ) := List.foldr_append

/-- Variables that are first in no clause of the stack keep their values. -/
theorem reconstruct_of_ne {stack : List Clause} (h : ∀ c ∈ stack, ∀ x rest, c = x :: rest → x.natAbs ≠ v) :
    reconstruct stack σ v = σ v := by
  induction stack with
  | nil => rfl
  | cons c stack ih =>
      have hrest := ih fun d hd => h d (List.mem_cons_of_mem _ hd)
      show repair (reconstruct stack σ) c v = σ v
      cases c with
      | nil => exact hrest
      | cons x rest =>
          have hne := h _ List.mem_cons_self x rest rfl
          rw [repair_cons]
          split
          · exact hrest
          · rw [setLit, Function.update_of_ne hne.symm]
            exact hrest

/-- A block of clauses with the first literal `-x`, on top of the unit clause `x`: the value of `x` is
changed if one of them needs it. -/
theorem reconstruct_block {cs : List Clause}
    (h : ∀ c ∈ cs, ∃ rest, c = -x :: rest ∧ ∀ l ∈ rest, l.natAbs ≠ x.natAbs) :
    reconstruct (cs ++ [[x]]) σ =
      if ∀ c ∈ cs, ClauseSat σ c.tail then setLit σ x else setLit σ (-x) := by
  have hstart : reconstruct [[x]] σ = setLit σ x := (repair_cons σ x []).trans (if_neg (clauseSat_nil σ))
  rw [reconstruct_append, hstart]
  induction cs with
  | nil => exact (if_pos fun c hc => absurd hc List.not_mem_nil).symm
  | cons c cs ih =>
      have ih := ih fun d hd => h d (List.mem_cons_of_mem _ hd)
      obtain ⟨rest, rfl, hrest⟩ := h c List.mem_cons_self
      show repair (reconstruct cs (setLit σ x)) (-x :: rest) = _
      have hsat : ∀ y : Int, y.natAbs = x.natAbs → (ClauseSat (setLit σ y) rest ↔ ClauseSat σ rest) :=
        fun y hy => clauseSat_setLit_of_ne fun l hl => by rw [hy]; exact hrest l hl
      simp only [List.forall_mem_cons, List.tail_cons]
      rw [ih, repair_cons]
      by_cases hr : ClauseSat σ rest
      · simp only [hr, true_and]
        split
        · exact if_pos ((hsat x rfl).mpr hr)
        · exact if_pos ((hsat (-x) (Int.natAbs_neg x)).mpr hr)
      · simp only [hr, false_and, if_false]
        split
        · rw [if_neg fun hs => hr ((hsat x rfl).mp hs), setLit_setLit_neg]
        · rw [if_neg fun hs => hr ((hsat (-x) (Int.natAbs_neg x)).mp hs)]
          unfold setLit
          rw [Function.update_idem]

/-- Eliminating a variable: if all resolvents hold, the reconstruction satisfies the clauses with `x` and
those with `-x`. -/
theorem reconstruct_eliminated (h0 : x ≠ 0) {pos neg : Cnf} (hpos : ∀ c ∈ pos, x ∈ c)
    (hneg : ∀ c ∈ neg, -x ∈ c)
    (hres : ∀ c ∈ pos, ∀ d ∈ neg, ClauseSat σ (dropVar x.natAbs c) ∨ ClauseSat σ (dropVar x.natAbs d))
    {f : Clause → Clause} (hf : ∀ c ∈ neg, ∃ rest, f c = -x :: rest ∧ rest.Perm (dropVar x.natAbs c)) :
    CnfSat (reconstruct (neg.map f ++ [[x]]) σ) (pos ++ neg) := by
  have htail : ∀ c ∈ neg, (ClauseSat σ (f c).tail ↔ ClauseSat σ (dropVar x.natAbs c)) := by
    intro c hc
    obtain ⟨rest, hrest, hperm⟩ := hf c hc
    rw [hrest, List.tail_cons]
    exact exists_congr fun l => and_congr_left fun _ => hperm.mem_iff
  have hkeep : ∀ y : Int, y.natAbs = x.natAbs → ∀ c, ClauseSat σ (dropVar x.natAbs c) →
      ClauseSat (setLit σ y) c := fun y hy c hc => ClauseSat.of_dropVar
    ((clauseSat_setLit_of_ne fun l hl => by rw [hy]; exact (mem_dropVar.mp hl).2).mpr hc)
  rw [reconstruct_block (x := x) fun c hc => ?_]
  · split
    · rename_i hall
      rw [cnfSat_append]
      refine ⟨fun c hc => ⟨x, hpos c hc, litVal_setLit_self h0⟩, fun c hc => hkeep x rfl c ?_⟩
      exact (htail c hc).mp (hall _ (List.mem_map_of_mem hc))
    · -- some clause with `-x` needs it, so its resolvents make all clauses with `x` true
      rename_i hsome
      push Not at hsome
      obtain ⟨e, he, hfalse⟩ := hsome
      obtain ⟨d, hd, rfl⟩ := List.mem_map.mp he
      rw [htail d hd] at hfalse
      rw [cnfSat_append]
      refine ⟨fun c hc => hkeep (-x) (Int.natAbs_neg x) c ?_,
        fun c hc => ⟨-x, hneg c hc, litVal_setLit_self (by omega)⟩⟩
      exact (hres c hc d hd).resolve_right hfalse
  · obtain ⟨d, hd, rfl⟩ := List.mem_map.mp hc
    obtain ⟨rest, hrest, hperm⟩ := hf d hd
    exact ⟨rest, hrest, fun l hl => (mem_dropVar.mp (hperm.mem_iff.mp hl)).2⟩

end ModelChecker.Logic
