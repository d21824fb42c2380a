import ModelChecker.Sat.Lemmas.Clauses
import ModelChecker.Sat.Solver

/-!
# Runs of the preprocessor

Every step adds what follows from the clauses and drops what follows from the rest, except the elimination
of a variable, which `extendModel` undoes.
-/

namespace ModelChecker.Minisat.SimpSolver

open Logic

variable {s s' s1 s2 : SimpSolver} {σ : Assignment} {c d ps : Clause} {F G H : Cnf} {l m : Int} {i n v : Nat}
  {frozen : List Nat}

/-! ## Models -/

/-- The clauses that are not removed and the trail hold. -/
def Live (s : SimpSolver) (σ : Assignment) : Prop :=
  (∀ c, ⟨c, false⟩ ∈ s.clauses → ClauseSat σ c) ∧ CubeSat σ s.trail

theorem cnfSat_cnf : CnfSat σ s.cnf ↔ (∀ x ∈ s.clauses, ClauseSat σ x.lits) ∧ CubeSat σ s.trail := by
  unfold cnf
  rw [cnfSat_append, cnfSat_units]
  unfold CnfSat
  rw [List.forall_mem_map]

theorem live_of_cnfSat (h : CnfSat σ s.cnf) : s.Live σ := by
  obtain ⟨hc, ht⟩ := cnfSat_cnf.mp h
  exact ⟨fun c hm => hc _ hm, ht⟩

theorem Live.false_of_neg (h : s.Live σ) (h0 : l ≠ 0) (hl : -l ∈ s.trail) : litVal σ l = false :=
  (litVal_neg_eq_true h0).mp (h.2 _ hl)

/-- A clause loses the literals that are false on the trail. -/
theorem Live.clauseSat_reduced (h : s.Live σ) (h0 : NonZero ps) (hsub : ∀ l ∈ c, l ∈ ps)
    (hdrop : ∀ l ∈ ps, l ∈ c ∨ -l ∈ s.trail) : ClauseSat σ c ↔ ClauseSat σ ps := by
  constructor
  · exact fun hc => hc.mono hsub
  · rintro ⟨l, hl, hv⟩
    rcases hdrop l hl with hc | ht
    · exact ⟨l, hc, hv⟩
    · rw [h.false_of_neg (h0 l hl) ht] at hv
      cases hv

/-! ## Well-formed states -/

/-- A literal of a variable that is still there. -/
def Usable (n : Nat) (s : SimpSolver) (l : Int) : Prop := l ≠ 0 ∧ l.natAbs ≤ n ∧ s.eliminated l.natAbs = false

structure WellFormed (n : Nat) (s : SimpSolver) : Prop where
  ranged : ∀ x ∈ s.clauses, NonZero x.lits ∧ VarsLe n x.lits
  distinct : ∀ x ∈ s.clauses, DistinctVars x.lits
  kept : ∀ c, ⟨c, false⟩ ∈ s.clauses → ∀ l ∈ c, s.Usable n l
  trail : ∀ l ∈ s.trail, s.Usable n l

/-- What some steps without an elimination do: `G` is added, and all the rest follows from what was there. -/
structure Adds (n : Nat) (G : Cnf) (s s' : SimpSolver) : Prop where
  wf : s'.WellFormed n
  eliminated : s'.eliminated = s.eliminated
  elimclauses : s'.elimclauses = s.elimclauses
  keeps : s.ok = true → ∀ σ, CnfSat σ s.cnf → CnfSat σ G → s'.ok = true ∧ CnfSat σ s'.cnf
  sound : s'.ok = true → s.ok = true ∧ ∀ σ, s'.Live σ → s.Live σ ∧ CnfSat σ G

namespace Adds

theorem refl (h : s.WellFormed n) : Adds n [] s s :=
  ⟨h, rfl, rfl, fun hok _ hs _ => ⟨hok, hs⟩, fun hok => ⟨hok, fun _ hl => ⟨hl, cnfSat_nil _⟩⟩⟩

theorem trans (h : Adds n G s s1) (h' : Adds n H s1 s2) : Adds n (G ++ H) s s2 := by
  refine ⟨h'.wf, h'.eliminated.trans h.eliminated, h'.elimclauses.trans h.elimclauses, ?_, ?_⟩
  · intro hok σ hs hGH
    obtain ⟨hG, hH⟩ := cnfSat_append.mp hGH
    obtain ⟨hok1, hs1⟩ := h.keeps hok σ hs hG
    exact h'.keeps hok1 σ hs1 hH
  · intro hok2
    obtain ⟨hok1, hlive1⟩ := h'.sound hok2
    obtain ⟨hok, hlive⟩ := h.sound hok1
    refine ⟨hok, fun σ hl => ?_⟩
    obtain ⟨hl1, hH⟩ := hlive1 σ hl
    obtain ⟨hl0, hG⟩ := hlive σ hl1
    exact ⟨hl0, cnfSat_append.mpr ⟨hG, hH⟩⟩

theorem congr (h : Adds n G s s') (hG : ∀ σ, s.Live σ → (CnfSat σ G ↔ CnfSat σ H)) : Adds n H s s' := by
  refine ⟨h.wf, h.eliminated, h.elimclauses, ?_, ?_⟩
  · exact fun hok σ hs hH => h.keeps hok σ hs ((hG σ (live_of_cnfSat hs)).mpr hH)
  · intro hok'
    obtain ⟨hok, hlive⟩ := h.sound hok'
    refine ⟨hok, fun σ hl => ?_⟩
    obtain ⟨hl0, hsat⟩ := hlive σ hl
    exact ⟨hl0, (hG σ hl0).mp hsat⟩

/-- What follows from the clauses is not worth mentioning. -/
theorem absorb (h : Adds n G s s') (hG : ∀ σ, s.Live σ → CnfSat σ G) : Adds n [] s s' :=
  h.congr fun σ hl => iff_of_true (hG σ hl) (cnfSat_nil σ)

theorem usable (h : Adds n G s s') (hl : s.Usable n l) : s'.Usable n l := by
  unfold Usable
  rw [h.eliminated]
  exact hl

/-- A contradiction was found. -/
theorem fail (h : s'.WellFormed n) (helim : s'.eliminated = s.eliminated)
    (hclauses : s'.elimclauses = s.elimclauses) (hok : s'.ok = false)
    (hs : s.ok = true → ∀ σ, s.Live σ → ¬ CnfSat σ G) : Adds n G s s' := by
  refine ⟨h, helim, hclauses, ?_, ?_⟩
  · exact fun hok σ hsat hG => absurd hG (hs hok σ (live_of_cnfSat hsat))
  · intro hok'
    rw [hok] at hok'
    cases hok'

end Adds

/-! ## Changes of the state -/

theorem WellFormed.enqueue (h : s.WellFormed n) (hl : s.Usable n l) :
    WellFormed n { s with trail := s.trail ++ [l] } := by
  refine ⟨h.ranged, h.distinct, h.kept, ?_⟩
  intro m hm
  rcases List.mem_append.mp hm with hm | hm
  · exact h.trail m hm
  · cases List.mem_singleton.mp hm
    exact hl

theorem cubeSat_append_singleton {t : List Int} : CubeSat σ (t ++ [l]) ↔ CubeSat σ t ∧ litVal σ l = true := by
  unfold CubeSat
  rw [List.forall_mem_append, List.forall_mem_singleton]

theorem adds_enqueue (h : s.WellFormed n) (hl : s.Usable n l) :
    Adds n [[l]] s { s with trail := s.trail ++ [l] } := by
  refine ⟨h.enqueue hl, rfl, rfl, ?_, ?_⟩
  · intro hok σ hs hG
    obtain ⟨hc, ht⟩ := cnfSat_cnf.mp hs
    have hv : litVal σ l = true := clauseSat_singleton.mp (hG _ List.mem_cons_self)
    exact ⟨hok, cnfSat_cnf.mpr ⟨hc, cubeSat_append_singleton.mpr ⟨ht, hv⟩⟩⟩
  · refine fun hok => ⟨hok, fun σ hlive => ?_⟩
    obtain ⟨ht, hv⟩ := cubeSat_append_singleton.mp hlive.2
    refine ⟨⟨hlive.1, ht⟩, ?_⟩
    rw [cnfSat_cons]
    exact ⟨clauseSat_singleton.mpr hv, cnfSat_nil σ⟩

theorem WellFormed.setClause (h : s.WellFormed n) (hc : s.clauses[i]? = some ⟨c, false⟩)
    (hd : d.Subperm c) {b : Bool} : WellFormed n { s with clauses := s.clauses.set i ⟨d, b⟩ } := by
  have hmem := List.mem_of_getElem? hc
  refine ⟨?_, ?_, ?_, h.trail⟩
  · intro x hx
    rcases List.mem_or_eq_of_mem_set hx with hx | rfl
    · exact h.ranged x hx
    · obtain ⟨h0, hle⟩ := h.ranged _ hmem
      exact ⟨fun l hl => h0 l (hd.subset hl), fun l hl => hle l (hd.subset hl)⟩
  · intro x hx
    rcases List.mem_or_eq_of_mem_set hx with hx | rfl
    · exact h.distinct x hx
    · obtain ⟨e, hperm, hsub⟩ := hd
      have he : DistinctVars e := (h.distinct _ hmem).sublist hsub
      exact (hperm.pairwise_iff fun hab => hab.symm).mp he
  · intro e he
    rcases List.mem_or_eq_of_mem_set he with he | heq
    · exact h.kept e he
    · cases heq
      exact fun l hl => h.kept c hmem l (hd.subset hl)

theorem mem_set_or {α : Type} {xs : List α} {x y z : α} (hx : x ∈ xs) (hy : xs[i]? = some y) :
    x = y ∨ x ∈ xs.set i z := by
  obtain ⟨j, hj⟩ := List.getElem?_of_mem hx
  by_cases hij : i = j
  · subst hij
    rw [hy] at hj
    exact .inl (Option.some.inj hj).symm
  · refine .inr (List.mem_of_getElem? (i := j) ?_)
    rw [List.getElem?_set_ne hij]
    exact hj

/-- A clause is replaced by a part of it. -/
theorem adds_setClause (h : s.WellFormed n) (hc : s.clauses[i]? = some ⟨c, false⟩) (hd : d.Subperm c) {b : Bool}
    (hkeeps : ∀ σ, s.Live σ → ClauseSat σ d)
    (hsound : ∀ σ, Live { s with clauses := s.clauses.set i ⟨d, b⟩ } σ → ClauseSat σ c) :
    Adds n [] s { s with clauses := s.clauses.set i ⟨d, b⟩ } := by
  refine ⟨h.setClause hc hd, rfl, rfl, ?_, ?_⟩
  · intro hok σ hs _
    obtain ⟨hall, ht⟩ := cnfSat_cnf.mp hs
    refine ⟨hok, cnfSat_cnf.mpr ⟨fun x hx => ?_, ht⟩⟩
    rcases List.mem_or_eq_of_mem_set hx with hx | rfl
    · exact hall x hx
    · exact hkeeps σ (live_of_cnfSat hs)
  · refine fun hok => ⟨hok, fun σ hlive => ⟨⟨fun e he => ?_, hlive.2⟩, cnfSat_nil σ⟩⟩
    rcases mem_set_or he hc with heq | hmem
    · cases heq
      exact hsound σ hlive
    · exact hlive.1 e hmem

/-! ## Propagation -/

theorem Propagate.adds (h : Propagate s s') (hwf : s.WellFormed n) : Adds n [] s s' := by
  induction h with
  | done => exact .refl hwf
  | @watch s s' i c c' hc hperm _ ih =>
      have hsat : ∀ σ, ClauseSat σ c' ↔ ClauseSat σ c :=
        fun σ => exists_congr fun l => and_congr_left fun _ => hperm.mem_iff
      have hset : Adds n [] s { s with clauses := s.clauses.set i ⟨c', false⟩ } := by
        refine adds_setClause hwf hc hperm.subperm (fun σ hl => ?_) fun σ hl => ?_
        · exact (hsat σ).mpr (hl.1 c (List.mem_of_getElem? hc))
        · have hlt : i < s.clauses.length := (List.getElem?_eq_some_iff.mp hc).1
          exact (hsat σ).mp (hl.1 c' (List.mem_set hlt _))
      exact hset.trans (ih hset.wf)
  | @unit s s' c l hc hl _ hothers _ ih =>
      have hput := adds_enqueue hwf (hwf.kept c hc l hl)
      refine (hput.trans (ih hput.wf)).absorb fun σ hlive => ?_
      rw [List.append_nil, cnfSat_cons]
      refine ⟨?_, cnfSat_nil σ⟩
      -- all other literals of the clause are false
      obtain ⟨m, hm, hv⟩ := hlive.1 c hc
      by_cases heq : m = l
      · exact ⟨l, List.mem_singleton_self l, heq ▸ hv⟩
      · rw [hlive.false_of_neg (hwf.kept c hc m hm).1 (hothers m hm heq)] at hv
        cases hv
  | @conflict s c hc hfalse =>
      refine .fail ⟨hwf.ranged, hwf.distinct, hwf.kept, hwf.trail⟩ rfl rfl rfl fun _ σ hlive => ?_
      obtain ⟨m, hm, hv⟩ := hlive.1 c hc
      rw [hlive.false_of_neg (hwf.kept c hc m hm).1 (hfalse m hm)] at hv
      cases hv

/-! ## Adding clauses -/

theorem WellFormed.append (h : s.WellFormed n) (hu : ∀ l ∈ c, s.Usable n l) (hd : DistinctVars c) :
    WellFormed n { s with clauses := s.clauses ++ [⟨c, false⟩] } := by
  refine ⟨?_, ?_, ?_, h.trail⟩
  · intro x hx
    rcases List.mem_append.mp hx with hx | hx
    · exact h.ranged x hx
    · cases List.mem_singleton.mp hx
      exact ⟨fun l hl => (hu l hl).1, fun l hl => (hu l hl).2.1⟩
  · intro x hx
    rcases List.mem_append.mp hx with hx | hx
    · exact h.distinct x hx
    · cases List.mem_singleton.mp hx
      exact hd
  · intro e he
    rcases List.mem_append.mp he with he | he
    · exact h.kept e he
    · cases List.mem_singleton.mp he
      exact hu

theorem adds_append (h : s.WellFormed n) (hu : ∀ l ∈ c, s.Usable n l) (hd : DistinctVars c) :
    Adds n [c] s { s with clauses := s.clauses ++ [⟨c, false⟩] } := by
  refine ⟨h.append hu hd, rfl, rfl, ?_, ?_⟩
  · intro hok σ hs hG
    obtain ⟨hall, ht⟩ := cnfSat_cnf.mp hs
    refine ⟨hok, cnfSat_cnf.mpr ⟨fun x hx => ?_, ht⟩⟩
    rcases List.mem_append.mp hx with hx | hx
    · exact hall x hx
    · cases List.mem_singleton.mp hx
      exact hG c List.mem_cons_self
  · refine fun hok => ⟨hok, fun σ hlive => ⟨⟨fun e he => ?_, hlive.2⟩, ?_⟩⟩
    · exact hlive.1 e (List.mem_append_left _ he)
    · rw [cnfSat_cons]
      exact ⟨hlive.1 c (List.mem_append_right _ (List.mem_singleton_self _)), cnfSat_nil σ⟩

theorem AddClause.adds (h : AddClause ps s s') (hwf : s.WellFormed n) (hps : ∀ l ∈ ps, s.Usable n l) :
    Adds n [ps] s s' := by
  have h0 : NonZero ps := fun l hl => (hps l hl).1
  -- the reduced clause says the same as the clause
  have hsame : ∀ r, reduce s.trail none (sort ps) = some r →
      ∀ σ, s.Live σ → (CnfSat σ [r] ↔ CnfSat σ [ps]) := by
    intro r hr σ hlive
    obtain ⟨hsub, _, _, hdrop⟩ := reduce_sort_some hr
    rw [cnfSat_cons, cnfSat_cons, hlive.clauseSat_reduced h0 hsub hdrop]
  cases h with
  | notOk hok =>
      refine .fail hwf rfl rfl hok fun hok' => ?_
      rw [hok] at hok'
      cases hok'
  | satisfied hok h =>
      refine (Adds.refl hwf).congr fun σ hlive => iff_of_true (cnfSat_nil σ) ?_
      rw [cnfSat_cons]
      refine ⟨?_, cnfSat_nil σ⟩
      rcases reduce_sort_none h with ⟨l, hl, ht⟩ | ⟨l, hl, hn⟩
      · exact ⟨l, hl, hlive.2 l ht⟩
      · exact clauseSat_of_complement (h0 l hl) hl hn
  | empty hok h =>
      refine .fail ⟨hwf.ranged, hwf.distinct, hwf.kept, hwf.trail⟩ rfl rfl rfl fun _ σ hlive hG => ?_
      exact clauseSat_nil σ ((hsame [] h σ hlive).mpr hG [] List.mem_cons_self)
  | @unit _ l hok h hp =>
      have hu : s.Usable n l := hps l ((reduce_sort_some h).1 l List.mem_cons_self)
      have hput := adds_enqueue hwf hu
      refine ((hput.trans (hp.adds hput.wf)).congr fun σ hlive => ?_)
      rw [List.append_nil]
      exact hsame [l] h σ hlive
  | @stored a b rest hok h =>
      obtain ⟨hsub, hd, _, _⟩ := reduce_sort_some h
      exact (adds_append hwf (fun l hl => hps l (hsub l hl)) hd).congr (hsame _ h)

theorem Load.adds (h : Load F s s') (hwf : s.WellFormed n) (hF : ∀ c ∈ F, ∀ l ∈ c, s.Usable n l) :
    Adds n F s s' := by
  induction h with
  | nil => exact .refl hwf
  | @cons s s1 s' c cs h _ ih =>
      obtain ⟨hc, hcs⟩ := List.forall_mem_cons.mp hF
      have h1 := h.adds hwf hc
      exact h1.trans (ih h1.wf fun d hd l hl => h1.usable (hcs d hd l hl))

theorem AddAll.adds (h : AddAll F s s') (hwf : s.WellFormed n) (hF : ∀ c ∈ F, ∀ l ∈ c, s.Usable n l) :
    Adds n F s s' := by
  induction h with
  | nil => exact .refl hwf
  | @cons s s1 s' c cs h _ _ ih =>
      obtain ⟨hc, hcs⟩ := List.forall_mem_cons.mp hF
      have h1 := h.adds hwf hc
      exact h1.trans (ih h1.wf fun d hd l hl => h1.usable (hcs d hd l hl))
  | @fail s s1 c cs h hok =>
      obtain ⟨hc, _⟩ := List.forall_mem_cons.mp hF
      have h1 := h.adds hwf hc
      refine ⟨h1.wf, h1.eliminated, h1.elimclauses, ?_, ?_⟩
      · intro hs σ hsat hG
        obtain ⟨hcsat, _⟩ := cnfSat_cons.mp hG
        refine h1.keeps hs σ hsat ?_
        rw [cnfSat_cons]
        exact ⟨hcsat, cnfSat_nil σ⟩
      · intro hok'
        rw [hok] at hok'
        cases hok'

/-! ## Subsumption -/

theorem StrengthenClause.adds (h : StrengthenClause i l s s') (hwf : s.WellFormed n)
    (hstr : ∀ c, s.clauses[i]? = some ⟨c, false⟩ → ∀ σ, s.Live σ → ClauseSat σ (c.erase l)) :
    Adds n [] s s' := by
  have hsub : ∀ c : Clause, (c.erase l).Subperm c := fun c => List.erase_sublist.subperm
  cases h with
  | @long c hc _ =>
      refine adds_setClause hwf hc (hsub c) (hstr c hc) fun σ hlive => ?_
      have hlt : i < s.clauses.length := (List.getElem?_eq_some_iff.mp hc).1
      exact (hlive.1 _ (List.mem_set hlt _)).mono fun m hm => List.mem_of_mem_erase hm
  | @enqueue _ c m hc herase hvalue hp =>
      have hm : m ∈ c := (hsub c).subset (herase ▸ List.mem_singleton_self m)
      have hput := adds_enqueue hwf (hwf.kept c (List.mem_of_getElem? hc) m hm)
      have hset := adds_setClause (d := [m]) (b := true) hput.wf hc (herase ▸ hsub c)
        (fun σ hlive => ⟨m, List.mem_singleton_self m, (cubeSat_append_singleton.mp hlive.2).2⟩)
        fun σ hlive => ⟨m, hm, (cubeSat_append_singleton.mp hlive.2).2⟩
      refine ((hput.trans hset).trans (hp.adds hset.wf)).absorb fun σ hlive => ?_
      rw [List.append_nil, List.append_nil, cnfSat_cons, ← herase]
      exact ⟨hstr c hc σ hlive, cnfSat_nil σ⟩
  | @holds _ c m hc herase hvalue hp =>
      have hm : m ∈ c := (hsub c).subset (herase ▸ List.mem_singleton_self m)
      have hset := adds_setClause (d := [m]) (b := true) hwf hc (herase ▸ hsub c)
        (fun σ hlive => ⟨m, List.mem_singleton_self m, hlive.2 m hvalue⟩)
        fun σ hlive => ⟨m, hm, hlive.2 m hvalue⟩
      exact hset.trans (hp.adds hset.wf)
  | @fails c m hc herase hvalue =>
      have hm : m ∈ c := (hsub c).subset (herase ▸ List.mem_singleton_self m)
      have hw := hwf.setClause hc (herase ▸ hsub c) (b := true)
      refine .fail ⟨hw.ranged, hw.distinct, hw.kept, hw.trail⟩ rfl rfl rfl fun _ σ hlive _ => ?_
      have hv := hstr c hc σ hlive
      have h0 := (hwf.kept c (List.mem_of_getElem? hc) m hm).1
      rw [herase, clauseSat_singleton, hlive.false_of_neg h0 hvalue] at hv
      cases hv

theorem Queued.clauseSat {i : Option Nat} (h : Queued s i c) (hl : s.Live σ) : ClauseSat σ c := by
  cases h with
  | clause h => exact hl.1 c (List.mem_of_getElem? h)
  | unit h => exact ⟨_, List.mem_singleton_self _, hl.2 _ h⟩

theorem Queued.usable {i : Option Nat} (h : Queued s i c) (hwf : s.WellFormed n) : ∀ l ∈ c, s.Usable n l := by
  cases h with
  | clause h => exact hwf.kept c (List.mem_of_getElem? h)
  | unit h => exact List.forall_mem_singleton.mpr (hwf.trail _ h)

theorem Queued.distinct {i : Option Nat} (h : Queued s i c) (hwf : s.WellFormed n) : DistinctVars c := by
  cases h with
  | clause h => exact hwf.distinct _ (List.mem_of_getElem? h)
  | unit h => exact List.pairwise_singleton _ _

theorem Subsume.adds (h : Subsume s s') (hwf : s.WellFormed n) : Adds n [] s s' := by
  cases h with
  | @remove i j c d hc hd hij _ h =>
      refine adds_setClause hwf hd (List.Subperm.refl d) (fun σ hlive => ?_) fun σ hlive => ?_
      · exact hlive.1 d (List.mem_of_getElem? hd)
      · -- the subsuming clause is still there
        have hq : Queued { s with clauses := s.clauses.set j ⟨d, true⟩ } i c := by
          cases hc with
          | @clause i c hi =>
              refine .clause ?_
              show (s.clauses.set j _)[i]? = _
              rw [List.getElem?_set_ne fun hji => hij (congrArg some hji.symm)]
              exact hi
          | unit hl => exact .unit hl
        exact (hq.clauseSat hlive).mono (subsumes_undef h)
  | @strengthen _ i j c d l hc hd _ _ h hs =>
      refine hs.adds hwf fun e he σ hlive => ?_
      obtain rfl : d = e := by
        rw [hd] at he
        cases he
        rfl
      obtain ⟨hl, _, hsub⟩ := subsumes_lit h
      have h0 := (hc.usable hwf l hl).1
      exact (hc.clauseSat hlive).strengthen h0 hsub ((hc.distinct hwf).neg_notMem h0 hl)
        (hlive.1 d (List.mem_of_getElem? hd))

/-! ## Elimination -/

theorem mem_kept : c ∈ s.kept ↔ ⟨c, false⟩ ∈ s.clauses := by
  unfold kept
  rw [List.mem_map]
  constructor
  · rintro ⟨⟨c, removed⟩, hx, rfl⟩
    obtain ⟨hm, hr⟩ := List.mem_filter.mp hx
    cases removed with
    | false => exact hm
    | true => cases hr
  · exact fun h => ⟨⟨c, false⟩, List.mem_filter.mpr ⟨h, rfl⟩, rfl⟩

theorem mem_occurs : c ∈ s.occurs v ↔ ⟨c, false⟩ ∈ s.clauses ∧ HasVar v c := by
  unfold occurs
  rw [List.mem_filter, mem_kept, decide_eq_true_eq]

theorem mem_pos : c ∈ s.pos v ↔ ⟨c, false⟩ ∈ s.clauses ∧ (v : Int) ∈ c := by
  unfold pos
  rw [List.mem_filter, mem_occurs, decide_eq_true_eq]
  constructor
  · exact fun h => ⟨h.1.1, h.2⟩
  · exact fun h => ⟨⟨h.1, v, h.2, Int.natAbs_natCast v⟩, h.2⟩

theorem mem_neg : c ∈ s.neg v ↔ ⟨c, false⟩ ∈ s.clauses ∧ -(v : Int) ∈ c ∧ (v : Int) ∉ c := by
  unfold neg
  rw [List.mem_filter, mem_occurs, decide_eq_true_eq]
  constructor
  · rintro ⟨⟨hc, l, hl, hv⟩, hn⟩
    refine ⟨hc, ?_, hn⟩
    rcases natAbs_eq_cases (hv.trans (Int.natAbs_natCast v).symm) with rfl | rfl
    · exact absurd hl hn
    · exact hl
  · rintro ⟨hc, hneg, hn⟩
    exact ⟨⟨hc, _, hneg, by rw [Int.natAbs_neg, Int.natAbs_natCast]⟩, hn⟩

/-- A clause with `v` has one of the two literals. -/
theorem mem_pos_or_neg (hc : ⟨c, false⟩ ∈ s.clauses) (hv : HasVar v c) : c ∈ s.pos v ++ s.neg v := by
  rw [List.mem_append]
  by_cases hm : (v : Int) ∈ c
  · exact .inl (mem_pos.mpr ⟨hc, hm⟩)
  · exact .inr (List.mem_filter.mpr ⟨mem_occurs.mpr ⟨hc, hv⟩, decide_eq_true hm⟩)

theorem mem_dropOccurs : ⟨c, false⟩ ∈ (s.dropOccurs v).clauses ↔ ⟨c, false⟩ ∈ s.clauses ∧ ¬ HasVar v c := by
  show _ ∈ s.clauses.map _ ↔ _
  rw [List.mem_map]
  constructor
  · rintro ⟨x, hx, heq⟩
    split_ifs at heq with hcond
    · cases heq
    · subst heq
      exact ⟨hx, fun hv => hcond ⟨rfl, hv⟩⟩
  · rintro ⟨hc, hv⟩
    exact ⟨⟨c, false⟩, hc, if_neg fun hcond => hv hcond.2⟩

theorem forall_dropOccurs {P : Clause → Prop} :
    (∀ x ∈ (s.dropOccurs v).clauses, P x.lits) ↔ ∀ x ∈ s.clauses, P x.lits := by
  show (∀ x : Stored, x ∈ s.clauses.map _ → P x.lits) ↔ _
  rw [List.forall_mem_map]
  refine forall₂_congr fun x _ => ?_
  split_ifs <;> rfl

theorem cnfSat_dropOccurs : CnfSat σ (s.dropOccurs v).cnf ↔ CnfSat σ s.cnf := by
  rw [cnfSat_cnf, cnfSat_cnf, forall_dropOccurs]
  rfl

theorem usable_dropOccurs (h : s.Usable n l) (hl : l.natAbs ≠ v) : (s.dropOccurs v).Usable n l :=
  ⟨h.1, h.2.1, (Function.update_of_ne hl _ _).trans h.2.2⟩

theorem WellFormed.dropOccurs (h : s.WellFormed n) (hv : (v : Int) ∉ s.trail ∧ -(v : Int) ∉ s.trail) :
    (s.dropOccurs v).WellFormed n := by
  refine ⟨?_, ?_, ?_, ?_⟩
  · exact (forall_dropOccurs (P := fun c => NonZero c ∧ VarsLe n c)).mpr h.ranged
  · exact forall_dropOccurs.mpr h.distinct
  · intro c hc l hl
    obtain ⟨hmem, hno⟩ := mem_dropOccurs.mp hc
    exact usable_dropOccurs (h.kept c hmem l hl) fun heq => hno ⟨l, hl, heq⟩
  · intro l hl
    refine usable_dropOccurs (h.trail l hl) fun heq => ?_
    rcases natAbs_eq_cases (heq.trans (Int.natAbs_natCast v).symm) with rfl | rfl
    · exact hv.1 hl
    · exact hv.2 hl

theorem mem_resolvents : c ∈ s.resolvents v ↔ ∃ p ∈ s.pos v, ∃ q ∈ s.neg v, merge p q v = some c := by
  unfold resolvents
  simp only [List.mem_flatMap, List.mem_filterMap]

section

variable (h : s.WellFormed n)

include h

theorem WellFormed.distinct_pos (hc : c ∈ s.pos v) : DistinctVars c := h.distinct _ (mem_pos.mp hc).1

theorem WellFormed.distinct_neg (hc : c ∈ s.neg v) : DistinctVars c := h.distinct _ (mem_neg.mp hc).1

/-- No literal of a resolvent belongs to an eliminated variable, as `addClause_` asserts. -/
theorem WellFormed.resolvent_usable (hc : c ∈ s.resolvents v) : ∀ l ∈ c, (s.dropOccurs v).Usable n l := by
  intro l hl
  obtain ⟨p, hp, q, hq, hm⟩ := mem_resolvents.mp hc
  obtain ⟨hlits, hne⟩ := ((merge_some (h.distinct_pos hp) (h.distinct_neg hq) hm).1 l).mp hl
  refine usable_dropOccurs ?_ hne
  rcases hlits with hlp | hlq
  · exact h.kept p (mem_pos.mp hp).1 l hlp
  · exact h.kept q (mem_neg.mp hq).1 l hlq

/-- The resolvents follow from the clauses. -/
theorem WellFormed.resolvents_hold (hv : 1 ≤ v) (hs : s.Live σ) : CnfSat σ (s.resolvents v) := by
  intro c hc
  obtain ⟨p, hp, q, hq, hm⟩ := mem_resolvents.mp hc
  obtain ⟨hpc, hpv⟩ := mem_pos.mp hp
  obtain ⟨hqc, hqv, _⟩ := mem_neg.mp hq
  have hlits := (merge_some (h.distinct_pos hp) (h.distinct_neg hq) hm).1
  have hres := ClauseSat.resolve (by omega) (h.distinct_pos hp) (h.distinct_neg hq) hpv hqv (hs.1 p hpc)
    (hs.1 q hqc)
  rw [Int.natAbs_natCast] at hres
  rcases hres with hr | hr
  · exact hr.mono fun l hl => (hlits l).mpr ⟨.inl (mem_dropVar.mp hl).1, (mem_dropVar.mp hl).2⟩
  · exact hr.mono fun l hl => (hlits l).mpr ⟨.inr (mem_dropVar.mp hl).1, (mem_dropVar.mp hl).2⟩

/-- If the resolvents hold, each pair of clauses holds on one side without the variable. -/
theorem WellFormed.resolvents_split (hs : CnfSat σ (s.resolvents v)) {p q : Clause} (hp : p ∈ s.pos v)
    (hq : q ∈ s.neg v) : ClauseSat σ (dropVar v p) ∨ ClauseSat σ (dropVar v q) := by
  cases hm : merge p q v with
  | none =>
      -- complementary literals of another variable
      obtain ⟨l, hl, hne, hn⟩ := merge_none hm
      have h0 := (h.kept p (mem_pos.mp hp).1 l hl).1
      cases hv : litVal σ l with
      | true => exact .inl ⟨l, mem_dropVar.mpr ⟨hl, hne⟩, hv⟩
      | false =>
          refine .inr ⟨-l, mem_dropVar.mpr ⟨hn, ?_⟩, (litVal_neg_eq_true h0).mpr hv⟩
          rwa [Int.natAbs_neg]
  | some r =>
      obtain ⟨l, hl, hv⟩ := hs r (mem_resolvents.mpr ⟨p, hp, q, hq, hm⟩)
      obtain ⟨hlits, hne⟩ := ((merge_some (h.distinct_pos hp) (h.distinct_neg hq) hm).1 l).mp hl
      exact hlits.imp (fun hlp => ⟨l, mem_dropVar.mpr ⟨hlp, hne⟩, hv⟩)
        fun hlq => ⟨l, mem_dropVar.mpr ⟨hlq, hne⟩, hv⟩

end

/-- The clauses that `eliminateVar` stores. -/
def block (s : SimpSolver) (v : Nat) : List Clause :=
  if (s.neg v).length < (s.pos v).length then (s.neg v).map (mkElimClause v) ++ [[(v : Int)]]
  else (s.pos v).map (mkElimClause v) ++ [[-(v : Int)]]

theorem WellFormed.mkElimClause_pos (h : s.WellFormed n) (hc : c ∈ s.pos v) :
    ∃ rest, mkElimClause v c = (v : Int) :: rest ∧ rest.Perm (dropVar v c) := by
  have heq := mkElimClause_eq (h.distinct_pos hc) (mem_pos.mp hc).2
  rwa [Int.natAbs_natCast] at heq

theorem WellFormed.mkElimClause_neg (h : s.WellFormed n) (hc : c ∈ s.neg v) :
    ∃ rest, mkElimClause v c = -(v : Int) :: rest ∧ rest.Perm (dropVar v c) := by
  have heq := mkElimClause_eq (h.distinct_neg hc) (mem_neg.mp hc).2.1
  rwa [Int.natAbs_neg, Int.natAbs_natCast] at heq

theorem WellFormed.block_heads (h : s.WellFormed n) (hc : c ∈ s.block v) :
    ∃ x rest, c = x :: rest ∧ x.natAbs = v := by
  unfold block at hc
  have hunit : ∀ x : Int, x.natAbs = v → c ∈ [[x]] → ∃ y rest, c = y :: rest ∧ y.natAbs = v :=
    fun x hx hm => ⟨x, [], List.mem_singleton.mp hm, hx⟩
  split_ifs at hc
  · rcases List.mem_append.mp hc with hc | hc
    · obtain ⟨e, he, rfl⟩ := List.mem_map.mp hc
      obtain ⟨rest, heq, _⟩ := h.mkElimClause_neg he
      exact ⟨_, rest, heq, by rw [Int.natAbs_neg, Int.natAbs_natCast]⟩
    · exact hunit _ (Int.natAbs_natCast v) hc
  · rcases List.mem_append.mp hc with hc | hc
    · obtain ⟨e, he, rfl⟩ := List.mem_map.mp hc
      obtain ⟨rest, heq, _⟩ := h.mkElimClause_pos he
      exact ⟨_, rest, heq, Int.natAbs_natCast v⟩
    · exact hunit _ (by rw [Int.natAbs_neg, Int.natAbs_natCast]) hc

/-- The stored clauses give the variable a value with which all its clauses hold. -/
theorem WellFormed.block_satisfies (h : s.WellFormed n) (hv : 1 ≤ v) (hs : CnfSat σ (s.resolvents v)) :
    CnfSat (reconstruct (s.block v) σ) (s.pos v ++ s.neg v) := by
  have hpos : ∀ c ∈ s.pos v, (v : Int) ∈ c := fun c hc => (mem_pos.mp hc).2
  have hneg : ∀ c ∈ s.neg v, -(v : Int) ∈ c := fun c hc => (mem_neg.mp hc).2.1
  unfold block
  split_ifs
  · refine reconstruct_eliminated (by omega) hpos hneg ?_ ?_
    · intro p hp q hq
      rw [Int.natAbs_natCast]
      exact h.resolvents_split hs hp hq
    · intro c hc
      rw [Int.natAbs_natCast]
      exact h.mkElimClause_neg hc
  · have hrec : CnfSat (reconstruct ((s.pos v).map (mkElimClause v) ++ [[-(v : Int)]]) σ)
        (s.neg v ++ s.pos v) := by
      refine reconstruct_eliminated (by omega) hneg (fun c hc => ?_) ?_ ?_
      · rw [neg_neg]
        exact hpos c hc
      · intro q hq p hp
        rw [Int.natAbs_neg, Int.natAbs_natCast]
        exact (h.resolvents_split hs hp hq).symm
      · intro c hc
        rw [Int.natAbs_neg, Int.natAbs_natCast, neg_neg]
        exact h.mkElimClause_pos hc
    rw [cnfSat_append] at hrec ⊢
    exact hrec.symm

/-- Undoing an elimination. -/
theorem WellFormed.lift_dropOccurs (h : s.WellFormed n) (hv : 1 ≤ v)
    (hvalue : (v : Int) ∉ s.trail ∧ -(v : Int) ∉ s.trail) (hlive : (s.dropOccurs v).Live σ)
    (hs : CnfSat σ (s.resolvents v)) : s.Live (reconstruct (s.block v) σ) := by
  have hsame : ∀ u, u ≠ v → reconstruct (s.block v) σ u = σ u := by
    intro u hu
    refine reconstruct_of_ne fun c hc x rest heq => ?_
    obtain ⟨y, rest', heq', hy⟩ := h.block_heads hc
    cases heq.symm.trans heq'
    rw [hy]
    exact hu.symm
  constructor
  · intro c hc
    by_cases hcv : HasVar v c
    · exact h.block_satisfies hv hs c (mem_pos_or_neg hc hcv)
    · refine (clauseSat_congr fun l hl => ?_).mp (hlive.1 c (mem_dropOccurs.mpr ⟨hc, hcv⟩))
      exact (hsame _ fun heq => hcv ⟨l, hl, heq⟩).symm
  · intro l hl
    refine (litVal_congr (hsame _ fun heq => ?_)).trans (hlive.2 l hl)
    rcases natAbs_eq_cases (heq.trans (Int.natAbs_natCast v).symm) with rfl | rfl
    · exact hvalue.1 hl
    · exact hvalue.2 hl

/-! ## Runs -/

/-- What the state says about the clauses `F` it was loaded with. -/
structure Inv (n : Nat) (frozen : List Nat) (F : Cnf) (s : SimpSolver) : Prop where
  wf : s.WellFormed n
  frozen : ∀ v ∈ frozen, s.eliminated v = false
  heads : ∀ c ∈ s.elimclauses, ∃ x rest, c = x :: rest ∧ s.eliminated x.natAbs = true
  keeps : ∀ σ, CnfSat σ F → s.ok = true ∧ CnfSat σ s.cnf
  lifts : s.ok = true → ∀ σ, s.Live σ → CnfSat (s.extendModel σ) F

theorem Inv.adds (h : Inv n frozen F s) (ha : Adds n G s s') (hG : ∀ σ, s.Live σ → CnfSat σ G) :
    Inv n frozen F s' := by
  refine ⟨ha.wf, ?_, ?_, ?_, ?_⟩
  · rw [ha.eliminated]
    exact h.frozen
  · rw [ha.elimclauses, ha.eliminated]
    exact h.heads
  · intro σ hF
    obtain ⟨hok, hs⟩ := h.keeps σ hF
    exact ha.keeps hok σ hs (hG σ (live_of_cnfSat hs))
  · intro hok' σ hlive
    obtain ⟨hok, hall⟩ := ha.sound hok'
    unfold extendModel
    rw [ha.elimclauses]
    exact h.lifts hok σ (hall σ hlive).1

theorem Inv.eliminateVar (h : Inv n frozen F s) (hv : 1 ≤ v) (hfrozen : v ∉ frozen)
    (hvalue : (v : Int) ∉ s.trail ∧ -(v : Int) ∉ s.trail)
    (ha : AddAll (s.resolvents v) (s.dropOccurs v) s') : Inv n frozen F s' := by
  have ha := ha.adds (h.wf.dropOccurs hvalue) fun c hc => h.wf.resolvent_usable hc
  have helim : s'.eliminated = Function.update s.eliminated v true := ha.eliminated
  have hclauses : s'.elimclauses = s.elimclauses ++ s.block v := ha.elimclauses
  refine ⟨ha.wf, ?_, ?_, ?_, ?_⟩
  · intro u hu
    have huv : u ≠ v := fun heq => hfrozen (heq ▸ hu)
    rw [helim, Function.update_of_ne huv]
    exact h.frozen u hu
  · intro c hc
    rw [hclauses] at hc
    rw [helim]
    rcases List.mem_append.mp hc with hc | hc
    · obtain ⟨x, rest, heq, hx⟩ := h.heads c hc
      refine ⟨x, rest, heq, ?_⟩
      by_cases hxv : x.natAbs = v
      · rw [hxv, Function.update_self]
      · rw [Function.update_of_ne hxv]
        exact hx
    · obtain ⟨x, rest, heq, hx⟩ := h.wf.block_heads hc
      exact ⟨x, rest, heq, by rw [hx, Function.update_self]⟩
  · intro σ hF
    obtain ⟨hok, hs⟩ := h.keeps σ hF
    exact ha.keeps hok σ (cnfSat_dropOccurs.mpr hs) (h.wf.resolvents_hold hv (live_of_cnfSat hs))
  · intro hok' σ hlive
    obtain ⟨hok, hall⟩ := ha.sound hok'
    obtain ⟨hdrop, hres⟩ := hall σ hlive
    unfold extendModel
    rw [hclauses, reconstruct_append]
    exact h.lifts hok _ (h.wf.lift_dropOccurs hv hvalue hdrop hres)

theorem Inv.garbageCollect (h : Inv n frozen F s) :
    Inv n frozen F { s with clauses := s.clauses.filter fun c => !c.removed } := by
  have hsub : ∀ x ∈ s.clauses.filter fun c => !c.removed, x ∈ s.clauses := fun x hx => List.mem_of_mem_filter hx
  have hkept : ∀ c, ⟨c, false⟩ ∈ s.clauses → ⟨c, false⟩ ∈ s.clauses.filter fun c => !c.removed :=
    fun c hc => List.mem_filter.mpr ⟨hc, rfl⟩
  have hlive : ∀ σ, Live { s with clauses := s.clauses.filter fun c => !c.removed } σ → s.Live σ :=
    fun σ hl => ⟨fun c hc => hl.1 c (hkept c hc), hl.2⟩
  refine ⟨⟨fun x hx => h.wf.ranged x (hsub x hx), fun x hx => h.wf.distinct x (hsub x hx),
    fun c hc => h.wf.kept c (hsub _ hc), h.wf.trail⟩, h.frozen, h.heads, ?_, ?_⟩
  · intro σ hF
    obtain ⟨hok, hs⟩ := h.keeps σ hF
    obtain ⟨hall, ht⟩ := cnfSat_cnf.mp hs
    exact ⟨hok, cnfSat_cnf.mpr ⟨fun x hx => hall x (hsub x hx), ht⟩⟩
  · exact fun hok σ hl => h.lifts hok σ (hlive σ hl)

theorem Inv.step (h : Inv n frozen F s) (hs : Step n frozen s s') : Inv n frozen F s' := by
  cases hs with
  | propagate _ hp => exact h.adds (hp.adds h.wf) fun σ _ => cnfSat_nil σ
  | subsume _ hp => exact h.adds (hp.adds h.wf) fun σ _ => cnfSat_nil σ
  | eliminateVar _ hv hfrozen _ hvalue _ ha => exact h.eliminateVar hv.1 hfrozen hvalue ha
  | garbageCollect => exact h.garbageCollect

theorem wellFormed_empty : WellFormed n {} :=
  ⟨List.forall_mem_nil _, List.forall_mem_nil _, fun _ hc => absurd hc List.not_mem_nil, List.forall_mem_nil _⟩

theorem Run.inv (h : Run n frozen F s) (hF : ∀ c ∈ F, NonZero c ∧ VarsLe n c) : Inv n frozen F s := by
  obtain ⟨s0, hload, hsteps⟩ := h
  have hadds : Adds n F {} s0 := hload.adds wellFormed_empty fun c hc l hl =>
    ⟨(hF c hc).1 l hl, (hF c hc).2 l hl, rfl⟩
  have hstart : Inv n frozen F s0 := by
    refine ⟨hadds.wf, ?_, ?_, ?_, ?_⟩
    · rw [hadds.eliminated]
      exact fun _ _ => rfl
    · rw [hadds.elimclauses]
      exact List.forall_mem_nil _
    · exact fun σ hsat => hadds.keeps rfl σ (cnfSat_nil σ) hsat
    · intro hok σ hlive
      unfold extendModel
      rw [hadds.elimclauses]
      exact ((hadds.sound hok).2 σ hlive).2
  induction hsteps with
  | refl => exact hstart
  | tail _ hstep ih => exact ih.step hstep

theorem Inv.extendModel_eq (h : Inv n frozen F s) (hv : s.eliminated v = false) (σ : Assignment) :
    s.extendModel σ v = σ v := by
  refine reconstruct_of_ne fun c hc x rest heq hx => ?_
  obtain ⟨y, rest', heq', hy⟩ := h.heads c hc
  cases heq.symm.trans heq'
  rw [hx, hv] at hy
  cases hy

theorem Inv.cnf_ranged (h : Inv n frozen F s) (hc : c ∈ s.cnf) : NonZero c ∧ VarsLe n c := by
  rcases List.mem_append.mp hc with hc | hc
  · obtain ⟨x, hx, rfl⟩ := List.mem_map.mp hc
    exact h.wf.ranged x hx
  · obtain ⟨l, hl, rfl⟩ := List.mem_map.mp hc
    obtain ⟨h0, hle, _⟩ := h.wf.trail l hl
    exact ⟨List.forall_mem_singleton.mpr h0, List.forall_mem_singleton.mpr hle⟩

/-! ## The preprocessor as an eliminator -/

theorem exists_addClause (ps : Clause) (s : SimpSolver) : ∃ s', AddClause ps s s' := by
  cases hok : s.ok with
  | false => exact ⟨s, .notOk hok⟩
  | true =>
      rcases hr : reduce s.trail none (sort ps) with _ | _ | ⟨a, _ | ⟨b, rest⟩⟩
      · exact ⟨s, .satisfied hok hr⟩
      · exact ⟨_, .empty hok hr⟩
      · exact ⟨_, .unit hok hr .done⟩
      · exact ⟨_, .stored hok hr⟩

theorem exists_load (F : Cnf) (s : SimpSolver) : ∃ s', Load F s s' := by
  induction F generalizing s with
  | nil => exact ⟨s, .nil⟩
  | cons c F ih =>
      obtain ⟨s1, h1⟩ := exists_addClause c s
      obtain ⟨s', h'⟩ := ih s1
      exact ⟨s', .cons h1 h'⟩

theorem exists_run (n : Nat) (frozen : List Nat) (F : Cnf) : ∃ s, Run n frozen F s := by
  obtain ⟨s, hs⟩ := exists_load F {}
  exact ⟨s, s, hs, .refl⟩

end ModelChecker.Minisat.SimpSolver

namespace ModelChecker

open Logic Minisat

/-- The clauses over the variables up to `n`. -/
def inRange (n : Nat) (F : Cnf) : Cnf :=
  F.filter fun c => c.all fun l => decide (l ≠ 0) && decide (l.natAbs ≤ n)

theorem mem_inRange {n : Nat} {F : Cnf} {c : Clause} : c ∈ inRange n F ↔ c ∈ F ∧ NonZero c ∧ VarsLe n c := by
  unfold inRange
  rw [List.mem_filter]
  refine and_congr_right fun _ => ?_
  simp only [List.all_eq_true, Bool.and_eq_true, decide_eq_true_eq]
  exact forall₂_and

theorem inRange_eq {n : Nat} {F : Cnf} (h : ∀ c ∈ F, NonZero c ∧ VarsLe n c) : inRange n F = F := by
  refine List.filter_eq_self.mpr fun c hc => ?_
  simp only [List.all_eq_true, Bool.and_eq_true, decide_eq_true_eq]
  exact fun l hl => ⟨(h c hc).1 l hl, (h c hc).2 l hl⟩

theorem inv_inRange {n : Nat} {frozen : List Nat} {F : Cnf} {s : SimpSolver}
    (h : SimpSolver.Run n frozen (inRange n F) s) : SimpSolver.Inv n frozen (inRange n F) s :=
  h.inv fun _ hc => (mem_inRange.mp hc).2

/-- The preprocessor, whose steps are chosen by `run`. -/
def Eliminator.ofRuns (run : Nat → List Nat → Cnf → SimpSolver)
    (h : ∀ n frozen F, SimpSolver.Run n frozen F (run n frozen F)) : Eliminator where
  eliminate n frozen F := (run n frozen (inRange n F)).cnf
  nonZero n frozen F _ hc := ((inv_inRange (h n frozen (inRange n F))).cnf_ranged hc).1
  varsLe n frozen F _ hc := ((inv_inRange (h n frozen (inRange n F))).cnf_ranged hc).2
  keeps n frozen F σ hσ :=
    ((inv_inRange (h n frozen (inRange n F))).keeps σ fun c hc => hσ c (mem_inRange.mp hc).1).2
  lifts n frozen F hF hsat σ hσ := by
    rw [inRange_eq hF] at hσ
    have hinv := (h n frozen F).inv hF
    obtain ⟨τ, hτ⟩ := hsat
    refine ⟨_, hinv.lifts (hinv.keeps τ hτ).1 σ (SimpSolver.live_of_cnfSat hσ), fun v hv => ?_⟩
    exact hinv.extendModel_eq (hinv.frozen v hv) σ

/-- Whatever steps `eliminate` takes in whatever order: the exported clauses are over the same variables and
follow from those that were added; if `ok` is false, these have no model; and if it is true, `extendModel`
turns each model of the exported clauses into one of them, changing eliminated variables only. Frozen
variables are not eliminated, and no clause that is left has an eliminated variable. -/
theorem eliminate_exact {n : Nat} {frozen : List Nat} {F : Cnf} {s : SimpSolver}
    (hF : ∀ c ∈ F, NonZero c ∧ VarsLe n c) (h : SimpSolver.Run n frozen F s) :
    (∀ c ∈ s.cnf, NonZero c ∧ VarsLe n c) ∧ (∀ σ, CnfSat σ F → CnfSat σ s.cnf) ∧
    (s.ok = false → ∀ σ, ¬ CnfSat σ F) ∧
    (s.ok = true → ∀ σ, CnfSat σ s.cnf → CnfSat (s.extendModel σ) F ∧
      ∀ v, s.eliminated v = false → s.extendModel σ v = σ v) ∧
    (∀ v ∈ frozen, s.eliminated v = false) ∧
    ∀ c ∈ s.kept, ∀ l ∈ c, s.eliminated l.natAbs = false := by
  have hinv := h.inv hF
  refine ⟨fun c hc => hinv.cnf_ranged hc, fun σ hσ => (hinv.keeps σ hσ).2, ?_, ?_, hinv.frozen, ?_⟩
  · intro hok σ hσ
    rw [(hinv.keeps σ hσ).1] at hok
    cases hok
  · intro hok σ hσ
    exact ⟨hinv.lifts hok σ (SimpSolver.live_of_cnfSat hσ), fun v hv => hinv.extendModel_eq hv σ⟩
  · intro c hc l hl
    exact (hinv.wf.kept c (SimpSolver.mem_kept.mp hc) l hl).2.2

namespace Sample

/-- The clauses `1 ∨ 2` and `¬ 1 ∨ 3`. -/
def loaded : SimpSolver where
  clauses := [⟨[1, 2], false⟩, ⟨[-1, 3], false⟩]

/-- They after the elimination of `1`. -/
def resolved : SimpSolver where
  clauses := [⟨[1, 2], true⟩, ⟨[-1, 3], true⟩, ⟨[2, 3], false⟩]
  eliminated := Function.update (fun _ => false) 1 true
  elimclauses := [[1, 2], [-1]]

theorem loaded_run : SimpSolver.Run 3 [2, 3] [[1, 2], [-1, 3]] loaded :=
  ⟨loaded, .cons (.stored rfl (by decide)) (.cons (.stored rfl (by decide)) .nil), .refl⟩

theorem resolved_run : SimpSolver.Run 3 [2, 3] [[1, 2], [-1, 3]] resolved := by
  obtain ⟨s0, hload, hsteps⟩ := loaded_run
  refine ⟨s0, hload, hsteps.tail ?_⟩
  refine .eliminateVar (v := 1) rfl (by decide) (by decide) rfl (by decide) ?_ ?_
  · unfold SimpSolver.Worthwhile
    decide
  · exact .cons (.stored rfl (by decide)) rfl .nil

end Sample

/-- A model of `2 ∨ 3` is extended. -/
theorem eliminate_exact_resolved : Sample.resolved.ok = true ∧
    CnfSat (fun v => decide (v ≠ 2)) Sample.resolved.cnf ∧
    CnfSat (Sample.resolved.extendModel fun v => decide (v ≠ 2)) [[1, 2], [-1, 3]] := by
  have hF : ∀ c ∈ [[1, 2], [-1, 3]], NonZero c ∧ VarsLe 3 c := by
    unfold NonZero VarsLe
    decide
  have hsat : CnfSat (fun v => decide (v ≠ 2)) Sample.resolved.cnf := by decide
  obtain ⟨_, _, _, hlift, _⟩ := eliminate_exact hF Sample.resolved_run
  exact ⟨rfl, hsat, (hlift rfl _ hsat).1⟩

end ModelChecker
