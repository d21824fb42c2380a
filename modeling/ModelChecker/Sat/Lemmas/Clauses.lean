import ModelChecker.Sat.Minisat

/-!
# The clause operations of the preprocessor

What `reduce`, `subsumes`, `merge` and `mkElimClause` compute.
-/

namespace ModelChecker.Minisat

open Logic

variable {c d ps qs r : Clause} {l m p q : Int} {v : Nat} {trail : List Int}

theorem natAbs_eq_cases (h : l.natAbs = m.natAbs) : l = m ∨ l = -m := Int.natAbs_eq_natAbs_iff.mp h

/-! ## Sorting -/

theorem natAbs_le_of_litKey (h : litKey l ≤ litKey m) : l.natAbs ≤ m.natAbs := by
  unfold litKey at h
  split at h <;> split at h <;> omega

theorem mem_sort : l ∈ sort ps ↔ l ∈ ps := List.mem_insertionSort _

theorem sort_sorted (ps : Clause) : (sort ps).Pairwise fun a b => litKey a ≤ litKey b := by
  have : Std.Total fun a b : Int => litKey a ≤ litKey b := ⟨fun a b => le_total _ _⟩
  have : IsTrans Int fun a b => litKey a ≤ litKey b := ⟨fun a b c => le_trans⟩
  exact List.pairwise_insertionSort _ ps

/-! ## Reduction -/

theorem reduce_cons (trail : List Int) (p : Option Int) (l : Int) (ls : Clause) :
    reduce trail p (l :: ls) = if l ∈ trail ∨ p = some (-l) then none
      else if -l ∉ trail ∧ p ≠ some l then (reduce trail (some l) ls).map (l :: ·) else reduce trail p ls := rfl

/-- What is kept: undefined literals of different variables. What is dropped is false or a duplicate. -/
structure Reduced (trail : List Int) (p : Option Int) (ls r : Clause) : Prop where
  sublist : r.Sublist ls
  undefined : ∀ l ∈ r, l ∉ trail ∧ -l ∉ trail
  dropped : ∀ l ∈ ls, l ∈ r ∨ -l ∈ trail ∨ p = some l
  above : ∀ q, p = some q → ∀ l ∈ r, q.natAbs < l.natAbs
  increasing : r.Pairwise fun a b => a.natAbs < b.natAbs

theorem reduce_some {p : Option Int} {ls : Clause} (hs : ls.Pairwise fun a b => litKey a ≤ litKey b)
    (hp : ∀ q, p = some q → ∀ l ∈ ls, litKey q ≤ litKey l) (h : reduce trail p ls = some r) :
    Reduced trail p ls r := by
  induction ls generalizing p r with
  | nil =>
      cases h
      exact ⟨List.Sublist.refl [], List.forall_mem_nil _, List.forall_mem_nil _,
        fun q _ => List.forall_mem_nil _, List.Pairwise.nil⟩
  | cons l ls ih =>
      obtain ⟨hl, hls⟩ := List.pairwise_cons.mp hs
      rw [reduce_cons] at h
      split at h
      · cases h
      · rename_i hkeep
        push Not at hkeep
        split at h
        · -- `l` is kept, and the rest has larger variables
          rename_i hnew
          obtain ⟨r', hr', rfl⟩ := Option.map_eq_some_iff.mp h
          have ih := ih hls (fun q hq m hm => by cases hq; exact hl m hm) hr'
          have hlt : ∀ q, p = some q → q.natAbs < l.natAbs := by
            intro q hq
            have hle := natAbs_le_of_litKey (hp q hq l List.mem_cons_self)
            refine lt_of_le_of_ne hle fun heq => ?_
            rcases natAbs_eq_cases heq with rfl | rfl
            · exact hnew.2 hq
            · exact hkeep.2 hq
          refine ⟨ih.sublist.cons_cons l, ?_, ?_, ?_, ?_⟩
          · exact List.forall_mem_cons.mpr ⟨⟨hkeep.1, hnew.1⟩, ih.undefined⟩
          · refine List.forall_mem_cons.mpr ⟨.inl List.mem_cons_self, fun m hm => ?_⟩
            rcases ih.dropped m hm with hmr | hmt | hml
            · exact .inl (List.mem_cons_of_mem _ hmr)
            · exact .inr (.inl hmt)
            · cases hml
              exact .inl List.mem_cons_self
          · intro q hq
            refine List.forall_mem_cons.mpr ⟨hlt q hq, fun m hm => ?_⟩
            exact (hlt q hq).trans (ih.above l rfl m hm)
          · exact List.pairwise_cons.mpr ⟨ih.above l rfl, ih.increasing⟩
        · rename_i hold
          have ih := ih hls (fun q hq m hm => hp q hq m (List.mem_cons_of_mem _ hm)) h
          refine ⟨ih.sublist.cons l, ih.undefined, ?_, ih.above, ih.increasing⟩
          refine List.forall_mem_cons.mpr ⟨?_, ih.dropped⟩
          by_cases hlt : -l ∈ trail
          · exact .inr (.inl hlt)
          · by_contra hne
            push Not at hne
            exact hold ⟨hlt, hne.2.2⟩

theorem reduce_none {p : Option Int} {ls : Clause} (h : reduce trail p ls = none) :
    (∃ l ∈ ls, l ∈ trail) ∨ ∃ l ∈ ls, -l ∈ ls ∨ p = some (-l) := by
  induction ls generalizing p with
  | nil => cases h
  | cons l ls ih =>
      rw [reduce_cons] at h
      have hrest : ∀ q, reduce trail q ls = none → (q = p ∨ q = some l) →
          (∃ m ∈ l :: ls, m ∈ trail) ∨ ∃ m ∈ l :: ls, -m ∈ l :: ls ∨ p = some (-m) := by
        intro q hq hqp
        rcases ih hq with ⟨m, hm, ht⟩ | ⟨m, hm, hc | hc⟩
        · exact .inl ⟨m, List.mem_cons_of_mem _ hm, ht⟩
        · exact .inr ⟨m, List.mem_cons_of_mem _ hm, .inl (List.mem_cons_of_mem _ hc)⟩
        · rcases hqp with rfl | rfl
          · exact .inr ⟨m, List.mem_cons_of_mem _ hm, .inr hc⟩
          · cases hc
            exact .inr ⟨m, List.mem_cons_of_mem _ hm, .inl List.mem_cons_self⟩
      split at h
      · rename_i hstop
        rcases hstop with ht | hp
        · exact .inl ⟨l, List.mem_cons_self, ht⟩
        · exact .inr ⟨l, List.mem_cons_self, .inr hp⟩
      · split at h
        · exact hrest _ (Option.map_eq_none_iff.mp h) (.inr rfl)
        · exact hrest _ h (.inl rfl)

/-- What `addClause_` makes of its clause. -/
theorem reduce_sort_some (h : reduce trail none (sort ps) = some r) :
    (∀ l ∈ r, l ∈ ps) ∧ DistinctVars r ∧ (∀ l ∈ r, l ∉ trail ∧ -l ∉ trail) ∧ ∀ l ∈ ps, l ∈ r ∨ -l ∈ trail := by
  have hr := reduce_some (sort_sorted ps) (fun q hq => by cases hq) h
  refine ⟨fun l hl => mem_sort.mp (hr.sublist.subset hl), hr.increasing.imp fun hab => hab.ne, hr.undefined,
    fun l hl => ?_⟩
  rcases hr.dropped l (mem_sort.mpr hl) with hlr | hlt | hlp
  · exact .inl hlr
  · exact .inr hlt
  · cases hlp

theorem reduce_sort_none (h : reduce trail none (sort ps) = none) :
    (∃ l ∈ ps, l ∈ trail) ∨ ∃ l ∈ ps, -l ∈ ps := by
  rcases reduce_none h with ⟨l, hl, ht⟩ | ⟨l, hl, hc | hc⟩
  · exact .inl ⟨l, mem_sort.mp hl, ht⟩
  · exact .inr ⟨l, mem_sort.mp hl, mem_sort.mp hc⟩
  · cases hc

/-! ## Subsumption -/

theorem search_some {ret ret' : Option Int} (h : search l ret d = some ret') :
    l ∈ d ∧ ret' = ret ∨ ret = none ∧ -l ∈ d ∧ ret' = some l := by
  induction d with
  | nil => cases h
  | cons m d ih =>
      unfold search at h
      split at h
      · rename_i heq
        cases h
        exact .inl ⟨heq ▸ List.mem_cons_self, rfl⟩
      · split at h
        · rename_i hneg
          cases h
          refine .inr ⟨hneg.1, ?_, rfl⟩
          rw [hneg.2, neg_neg]
          exact List.mem_cons_self
        · rcases ih h with ⟨hl, hr⟩ | ⟨hn, hl, hr⟩
          · exact .inl ⟨List.mem_cons_of_mem _ hl, hr⟩
          · exact .inr ⟨hn, List.mem_cons_of_mem _ hl, hr⟩

theorem subsumesLoop_undef {ret : Option Int} (h : subsumesLoop d c ret = .undef) :
    ret = none ∧ ∀ l ∈ c, l ∈ d := by
  induction c generalizing ret with
  | nil =>
      cases ret with
      | none => exact ⟨rfl, List.forall_mem_nil _⟩
      | some p => cases h
  | cons l c ih =>
      unfold subsumesLoop at h
      split at h
      · cases h
      · rename_i ret' hs
        obtain ⟨rfl, hc⟩ := ih h
        rcases search_some hs with ⟨hl, rfl⟩ | ⟨_, _, hr⟩
        · exact ⟨rfl, List.forall_mem_cons.mpr ⟨hl, hc⟩⟩
        · cases hr

theorem subsumesLoop_lit {ret : Option Int} (h : subsumesLoop d c ret = .lit p) :
    ret = some p ∧ (∀ l ∈ c, l ∈ d) ∨ ret = none ∧ p ∈ c ∧ -p ∈ d ∧ ∀ l ∈ c, l = p ∨ l ∈ d := by
  induction c generalizing ret with
  | nil =>
      cases ret with
      | none => cases h
      | some q =>
          cases h
          exact .inl ⟨rfl, List.forall_mem_nil _⟩
  | cons l c ih =>
      unfold subsumesLoop at h
      split at h
      · cases h
      · rename_i ret' hs
        rcases search_some hs with ⟨hl, rfl⟩ | ⟨rfl, hl, rfl⟩
        · rcases ih h with ⟨hr, hc⟩ | ⟨hr, hp, hn, hc⟩
          · exact .inl ⟨hr, List.forall_mem_cons.mpr ⟨hl, hc⟩⟩
          · exact .inr ⟨hr, List.mem_cons_of_mem _ hp, hn, List.forall_mem_cons.mpr ⟨.inr hl, hc⟩⟩
        · rcases ih h with ⟨hr, hc⟩ | ⟨hr, _⟩
          · cases hr
            refine .inr ⟨rfl, List.mem_cons_self, hl, List.forall_mem_cons.mpr ⟨.inl rfl, fun m hm => ?_⟩⟩
            exact .inr (hc m hm)
          · cases hr

theorem subsumes_undef (h : subsumes c d = .undef) : ∀ l ∈ c, l ∈ d := by
  unfold subsumes at h
  split at h
  · cases h
  · exact (subsumesLoop_undef h).2

theorem subsumes_lit (h : subsumes c d = .lit p) : p ∈ c ∧ -p ∈ d ∧ ∀ l ∈ c, l = p ∨ l ∈ d := by
  unfold subsumes at h
  split at h
  · cases h
  · rcases subsumesLoop_lit h with ⟨hr, _⟩ | ⟨_, hc⟩
    · cases hr
    · exact hc

/-! ## Resolvents -/

theorem clash_none (h : clash q ps = none) : ∀ p ∈ ps, p.natAbs ≠ q.natAbs := by
  induction ps with
  | nil => exact List.forall_mem_nil _
  | cons p ps ih =>
      unfold clash at h
      split at h
      · cases h
      · rename_i hne
        exact List.forall_mem_cons.mpr ⟨hne, ih h⟩

theorem clash_some {b : Bool} (h : clash q ps = some b) : (if b then -q else q) ∈ ps := by
  induction ps with
  | nil => cases h
  | cons p ps ih =>
      unfold clash at h
      split at h
      · rename_i heq
        obtain rfl := Option.some.inj h
        by_cases hp : p = -q
        · rw [decide_eq_true hp, if_pos rfl, hp]
          exact List.mem_cons_self
        · have hpq := (natAbs_eq_cases heq).resolve_right hp
          rw [decide_eq_false hp, if_neg Bool.false_ne_true, hpq]
          exact List.mem_cons_self
      · exact List.mem_cons_of_mem _ (ih h)

/-- The literals that the loop adds to `ps`. -/
structure Merged (v : Nat) (ps qs r : Clause) : Prop where
  sublist : r.Sublist qs
  fresh : ∀ l ∈ r, l.natAbs ≠ v ∧ ∀ p ∈ ps, p.natAbs ≠ l.natAbs
  dropped : ∀ l ∈ qs, l.natAbs ≠ v → l ∈ r ∨ l ∈ ps

theorem Merged.cons_of_mem (h : Merged v ps qs r) (hq : q.natAbs ≠ v → q ∈ ps) : Merged v ps (q :: qs) r :=
  ⟨h.sublist.cons q, h.fresh, List.forall_mem_cons.mpr ⟨fun hv => .inr (hq hv), h.dropped⟩⟩

theorem mergeLoop_some (h : mergeLoop v ps qs = some r) : Merged v ps qs r := by
  induction qs generalizing r with
  | nil =>
      cases h
      exact ⟨List.Sublist.refl [], List.forall_mem_nil _, List.forall_mem_nil _⟩
  | cons q qs ih =>
      unfold mergeLoop at h
      split at h
      · rename_i hv
        split at h
        · cases h
        · rename_i hc
          exact (ih h).cons_of_mem fun _ => clash_some hc
        · rename_i hc
          obtain ⟨r', hr', rfl⟩ := Option.map_eq_some_iff.mp h
          have ih := ih hr'
          refine ⟨ih.sublist.cons_cons q, List.forall_mem_cons.mpr ⟨⟨hv, clash_none hc⟩, ih.fresh⟩, ?_⟩
          refine List.forall_mem_cons.mpr ⟨fun _ => .inl List.mem_cons_self, fun l hl hlv => ?_⟩
          exact (ih.dropped l hl hlv).imp_left (List.mem_cons_of_mem _)
      · rename_i hv
        exact (ih h).cons_of_mem fun hne => absurd hne hv

theorem mergeLoop_none (h : mergeLoop v ps qs = none) : ∃ q ∈ qs, q.natAbs ≠ v ∧ -q ∈ ps := by
  induction qs with
  | nil => cases h
  | cons q qs ih =>
      have hrest : mergeLoop v ps qs = none → ∃ m ∈ q :: qs, m.natAbs ≠ v ∧ -m ∈ ps := by
        intro hnone
        obtain ⟨m, hm, hmv⟩ := ih hnone
        exact ⟨m, List.mem_cons_of_mem _ hm, hmv⟩
      unfold mergeLoop at h
      split at h
      · rename_i hv
        split at h
        · rename_i hc
          exact ⟨q, List.mem_cons_self, hv, clash_some hc⟩
        · exact hrest h
        · exact hrest (Option.map_eq_none_iff.mp h)
      · exact hrest h

theorem Merged.resolvent (h : Merged v ps qs r) (hp : DistinctVars ps) (hq : DistinctVars qs) :
    (∀ l, l ∈ r ++ dropVar v ps ↔ (l ∈ ps ∨ l ∈ qs) ∧ l.natAbs ≠ v) ∧ DistinctVars (r ++ dropVar v ps) := by
  constructor
  · intro l
    rw [List.mem_append, mem_dropVar]
    constructor
    · rintro (hl | ⟨hl, hv⟩)
      · exact ⟨.inr (h.sublist.subset hl), (h.fresh l hl).1⟩
      · exact ⟨.inl hl, hv⟩
    · rintro ⟨hl | hl, hv⟩
      · exact .inr ⟨hl, hv⟩
      · rcases h.dropped l hl hv with hr | hps
        · exact .inl hr
        · exact .inr ⟨hps, hv⟩
  · refine List.pairwise_append.mpr ⟨hq.sublist h.sublist, hp.sublist List.filter_sublist, fun a ha b hb => ?_⟩
    exact ((h.fresh a ha).2 b (mem_dropVar.mp hb).1).symm

/-- The resolvent has the literals of both clauses but those of `v`. -/
theorem merge_some (hp : DistinctVars ps) (hq : DistinctVars qs) (h : merge ps qs v = some r) :
    (∀ l, l ∈ r ↔ (l ∈ ps ∨ l ∈ qs) ∧ l.natAbs ≠ v) ∧ DistinctVars r := by
  unfold merge at h
  split at h
  · obtain ⟨r', hr', rfl⟩ := Option.map_eq_some_iff.mp h
    obtain ⟨hmem, hd⟩ := (mergeLoop_some hr').resolvent hq hp
    refine ⟨fun l => ?_, hd⟩
    rw [hmem, or_comm]
  · obtain ⟨r', hr', rfl⟩ := Option.map_eq_some_iff.mp h
    exact (mergeLoop_some hr').resolvent hp hq

/-- Otherwise the two clauses have complementary literals of another variable. -/
theorem merge_none (h : merge ps qs v = none) : ∃ l ∈ ps, l.natAbs ≠ v ∧ -l ∈ qs := by
  unfold merge at h
  split at h
  · exact mergeLoop_none (Option.map_eq_none_iff.mp h)
  · obtain ⟨q, hq, hv, hn⟩ := mergeLoop_none (Option.map_eq_none_iff.mp h)
    exact ⟨-q, hn, by rwa [Int.natAbs_neg], by rwa [neg_neg]⟩

theorem mergeSizeLoop_eq (v : Nat) (ps qs : Clause) (size : Nat) :
    mergeSizeLoop v ps qs size = (mergeLoop v ps qs).map fun r => size + r.length := by
  induction qs generalizing size with
  | nil => rfl
  | cons q qs ih =>
      unfold mergeSizeLoop mergeLoop
      split
      · rcases clash q ps with _ | _ | _
        · simp only
          rw [ih, Option.map_map]
          congr 1
          funext r
          simp only [Function.comp_apply, List.length_cons]
          omega
        · exact ih size
        · rfl
      · exact ih size

theorem length_dropVar (hc : DistinctVars c) (hl : l ∈ c) : (dropVar l.natAbs c).length = c.length - 1 := by
  induction c with
  | nil => cases hl
  | cons m c ih =>
      obtain ⟨hm, hc⟩ := List.pairwise_cons.mp hc
      by_cases heq : m.natAbs = l.natAbs
      · have hrest : dropVar l.natAbs c = c :=
          List.filter_eq_self.mpr fun a ha => decide_eq_true fun hal => hm a ha (heq.trans hal.symm)
        unfold dropVar at hrest ⊢
        rw [List.filter_cons_of_neg (by simp [heq]), hrest]
        rfl
      · have hlc : l ∈ c := (List.mem_cons.mp hl).resolve_left fun h => heq (h ▸ rfl)
        have hpos := List.length_pos_of_mem hlc
        have ih := ih hc hlc
        unfold dropVar at ih ⊢
        rw [List.filter_cons_of_pos (by simp [heq]), List.length_cons, List.length_cons, ih]
        omega

/-- The count is the number of literals of the resolvent. -/
theorem mergeSize_eq (hp : DistinctVars ps) (hq : DistinctVars qs) (hl : l ∈ ps) (hm : m ∈ qs) (hlv : l.natAbs = v)
    (hmv : m.natAbs = v) : mergeSize ps qs v = (merge ps qs v).map List.length := by
  have hps := length_dropVar hp hl
  have hqs := length_dropVar hq hm
  rw [hlv] at hps
  rw [hmv] at hqs
  unfold mergeSize merge
  split
  · rw [mergeSizeLoop_eq, Option.map_map]
    congr 1
    funext r
    simp only [Function.comp_apply, List.length_append, hqs]
    omega
  · rw [mergeSizeLoop_eq, Option.map_map]
    congr 1
    funext r
    simp only [Function.comp_apply, List.length_append, hps]
    omega

/-! ## Stored clauses -/

theorem vPos_of_ne {i k : Nat} (h : ∀ l ∈ c, l.natAbs ≠ v) : vPos v c i k = k := by
  induction c generalizing i k with
  | nil => rfl
  | cons l c ih =>
      obtain ⟨hl, hc⟩ := List.forall_mem_cons.mp h
      unfold vPos
      rw [ih hc, if_neg hl]

theorem vPos_append {i k : Nat} (h : ∀ l ∈ c, l.natAbs ≠ v) (hm : m.natAbs = v)
    (hd : ∀ l ∈ d, l.natAbs ≠ v) : vPos v (c ++ m :: d) i k = i + c.length := by
  induction c generalizing i k with
  | nil =>
      show vPos v d (i + 1) (if m.natAbs = v then i else k) = i + 0
      rw [vPos_of_ne hd, if_pos hm, Nat.add_zero]
  | cons l c ih =>
      obtain ⟨_, hc⟩ := List.forall_mem_cons.mp h
      show vPos v (c ++ m :: d) (i + 1) _ = _
      rw [ih hc, List.length_cons]
      omega

/-- The clause of `extendModel` has the literal of `v` first. -/
theorem mkElimClause_eq (hc : DistinctVars c) (hl : l ∈ c) :
    ∃ rest, mkElimClause l.natAbs c = l :: rest ∧ rest.Perm (dropVar l.natAbs c) := by
  obtain ⟨a, b, rfl⟩ := List.append_of_mem hl
  obtain ⟨_, hlb, hab⟩ := List.pairwise_append.mp hc
  have ha : ∀ m ∈ a, m.natAbs ≠ l.natAbs := fun m hm => hab m hm l List.mem_cons_self
  have hb : ∀ m ∈ b, m.natAbs ≠ l.natAbs := fun m hm => ((List.pairwise_cons.mp hlb).1 m hm).symm
  have hdrop : dropVar l.natAbs (a ++ l :: b) = a ++ b := by
    unfold dropVar
    rw [List.filter_append, List.filter_cons_of_neg (by simp),
      List.filter_eq_self.mpr fun m hm => decide_eq_true (ha m hm),
      List.filter_eq_self.mpr fun m hm => decide_eq_true (hb m hm)]
  rw [hdrop]
  unfold mkElimClause
  simp only [vPos_append ha rfl hb, Nat.zero_add]
  cases a with
  | nil => exact ⟨b, rfl, List.Perm.refl _⟩
  | cons x a =>
      refine ⟨a ++ x :: b, ?_, List.perm_middle⟩
      simp [List.getD_eq_getElem?_getD]

end ModelChecker.Minisat
