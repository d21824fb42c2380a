import ModelChecker.Sat.Preprocess

/-!
# The effort of the preprocessor

The signatures of clauses spare comparisons and change no answer of `subsumes`. The limits of `eliminateVar`
keep the number of clauses and their lengths bounded in every run.
-/

namespace ModelChecker.Minisat

open Logic

variable {c d : Clause} {l p : Int}

/-! ## Signatures -/

theorem getLsbD_foldl (c : Clause) (a : BitVec 32) {k : Nat} (hk : k < 32) :
    (c.foldl (fun a l => a ||| 1#32 <<< ((l.natAbs - 1) % 32)) a).getLsbD k =
      (a.getLsbD k || c.any fun l => decide ((l.natAbs - 1) % 32 = k)) := by
  induction c generalizing a with
  | nil => simp
  | cons l c ih =>
      have hbit : (1#32 <<< ((l.natAbs - 1) % 32)).getLsbD k = decide ((l.natAbs - 1) % 32 = k) := by
        rw [BitVec.getLsbD_shiftLeft, BitVec.getLsbD_one]
        rcases lt_trichotomy ((l.natAbs - 1) % 32) k with h | h | h
        · simp [hk, h.ne, h.not_gt, Nat.sub_ne_zero_of_lt h]
        · simp [hk, h]
        · simp [h.ne', h]
      rw [List.foldl_cons, ih, BitVec.getLsbD_or, hbit, List.any_cons, Bool.or_assoc]

theorem getLsbD_abstraction {k : Nat} (hk : k < 32) :
    (abstraction c).getLsbD k = true ↔ ∃ l ∈ c, (l.natAbs - 1) % 32 = k := by
  unfold abstraction
  rw [getLsbD_foldl c 0#32 hk, BitVec.getLsbD_zero, Bool.false_or, List.any_eq_true]
  simp only [decide_eq_true_eq]

/-- The variables of `c` occur in `d`. -/
def VarsIn (c d : Clause) : Prop := ∀ l ∈ c, l.natAbs ∈ d.map Int.natAbs

theorem VarsIn.abstraction (h : VarsIn c d) : abstraction c &&& ~~~abstraction d = 0#32 := by
  refine BitVec.eq_of_getLsbD_eq fun k hk => ?_
  rw [BitVec.getLsbD_and, BitVec.getLsbD_not, BitVec.getLsbD_zero, Bool.and_eq_false_iff]
  cases hc : (Minisat.abstraction c).getLsbD k with
  | false => exact .inl rfl
  | true =>
      obtain ⟨l, hl, hk'⟩ := (getLsbD_abstraction hk).mp hc
      obtain ⟨m, hm, heq⟩ := List.mem_map.mp (h l hl)
      have hd : (Minisat.abstraction d).getLsbD k = true := (getLsbD_abstraction hk).mpr ⟨m, hm, heq ▸ hk'⟩
      rw [hd]
      simp

theorem VarsIn.length_le (h : VarsIn c d) (hc : DistinctVars c) : c.length ≤ d.length := by
  have hnodup : (c.map Int.natAbs).Nodup := List.pairwise_map.mpr hc
  have hsub : c.map Int.natAbs ⊆ d.map Int.natAbs := by
    intro v hv
    obtain ⟨l, hl, rfl⟩ := List.mem_map.mp hv
    exact h l hl
  have hlen := (hnodup.subperm hsub).length_le
  rwa [List.length_map, List.length_map] at hlen

/-- The two tests in front of the loop say no only where the loop would. -/
theorem VarsIn.subsumes_eq (h : VarsIn c d) (hc : DistinctVars c) : subsumes c d = subsumesLoop d c none := by
  have hlen := h.length_le hc
  refine if_neg ?_
  rintro (hlt | hab)
  · omega
  · exact hab h.abstraction

theorem search_of_mem {ret : Option Int} (hd : DistinctVars d) (hl : l ∈ d) :
    search l ret d = some ret := by
  induction d with
  | nil => cases hl
  | cons m d ih =>
      unfold search
      split
      · rfl
      · rename_i hne
        have hld : l ∈ d := (List.mem_cons.mp hl).resolve_left hne
        obtain ⟨hm, hd⟩ := List.pairwise_cons.mp hd
        split
        · rename_i hneg
          refine absurd ?_ (hm l hld)
          rw [hneg.2, Int.natAbs_neg]
        · exact ih hd hld

theorem search_of_neg (hd : DistinctVars d) (h0 : l ≠ 0) (hl : -l ∈ d) : search l none d = some (some l) := by
  induction d with
  | nil => cases hl
  | cons m d ih =>
      obtain ⟨hm, hd⟩ := List.pairwise_cons.mp hd
      unfold search
      split
      · rename_i heq
        subst heq
        have hld : -l ∈ d := (List.mem_cons.mp hl).resolve_left (by omega)
        exact absurd (Int.natAbs_neg l).symm (hm _ hld)
      · split
        · rfl
        · rename_i hne
          refine ih hd ((List.mem_cons.mp hl).resolve_left fun heq => hne ⟨rfl, ?_⟩)
          rw [← heq, neg_neg]

theorem subsumesLoop_append (hd : DistinctVars d) {a b : Clause} (ha : ∀ l ∈ a, l ∈ d) (ret : Option Int) :
    subsumesLoop d (a ++ b) ret = subsumesLoop d b ret := by
  induction a with
  | nil => rfl
  | cons l a ih =>
      obtain ⟨hl, ha⟩ := List.forall_mem_cons.mp ha
      rw [List.cons_append, subsumesLoop, search_of_mem hd hl]
      exact ih ha

end ModelChecker.Minisat

namespace ModelChecker

open Logic Minisat

/-- `subsumes` finds out exactly whether the clause is a part of the other one, or would be with one literal
complemented. The sizes and the signatures, which are compared first, make no difference. -/
theorem subsumes_exact {c d : Clause} (hc : DistinctVars c) (hd : DistinctVars d) (h0 : NonZero c) :
    (subsumes c d = .undef ↔ ∀ l ∈ c, l ∈ d) ∧
    ∀ p, subsumes c d = .lit p ↔ p ∈ c ∧ -p ∈ d ∧ ∀ l ∈ c, l ≠ p → l ∈ d := by
  have hmem : ∀ l ∈ d, l.natAbs ∈ d.map Int.natAbs := fun l hl => List.mem_map_of_mem hl
  constructor
  · constructor
    · exact subsumes_undef
    · intro hsub
      have hloop := subsumesLoop_append hd (b := []) hsub none
      rw [List.append_nil] at hloop
      rw [VarsIn.subsumes_eq (fun l hl => hmem l (hsub l hl)) hc, hloop]
      rfl
  · intro p
    constructor
    · intro h
      obtain ⟨hp, hn, hrest⟩ := subsumes_lit h
      exact ⟨hp, hn, fun l hl hne => (hrest l hl).resolve_left hne⟩
    · rintro ⟨hp, hn, hrest⟩
      have hvars : VarsIn c d := by
        intro l hl
        by_cases hlp : l = p
        · rw [hlp, ← Int.natAbs_neg]
          exact hmem _ hn
        · exact hmem l (hrest l hl hlp)
      obtain ⟨a, b, rfl⟩ := List.append_of_mem hp
      obtain ⟨_, hpb, hab⟩ := List.pairwise_append.mp hc
      have ha : ∀ l ∈ a, l ∈ d := fun l hl =>
        hrest l (List.mem_append_left _ hl) fun heq => hab l hl p List.mem_cons_self (heq ▸ rfl)
      have hb : ∀ l ∈ b, l ∈ d := fun l hl =>
        hrest l (List.mem_append_right _ (List.mem_cons_of_mem _ hl))
          fun heq => (List.pairwise_cons.mp hpb).1 l hl (heq ▸ rfl)
      have hloop := subsumesLoop_append hd (b := []) hb (some p)
      rw [List.append_nil] at hloop
      rw [hvars.subsumes_eq hc, subsumesLoop_append hd ha, subsumesLoop, search_of_neg hd (h0 p hp) hn]
      exact hloop

/-- `2 ∨ 1` strengthens `¬ 1 ∨ 3 ∨ 2`. -/
theorem subsumes_exact_lit : subsumes [2, 1] [-1, 3, 2] = .lit 1 := by
  have h := (subsumes_exact (c := [2, 1]) (d := [-1, 3, 2]) (by decide) (by decide)
    (by unfold NonZero; decide)).2 1
  exact h.mpr (by decide)

/-! ## Limits -/

namespace Minisat.SimpSolver

variable {s s' s1 s2 : SimpSolver} {c d ps : Clause} {F : Cnf} {i k k1 n v L : Nat} {l : Int}
  {frozen : List Nat}

/-- At most `k` more clauses, and none with more than `L` literals. -/
structure Limited (k L : Nat) (s s' : SimpSolver) : Prop where
  count : s'.kept.length ≤ s.kept.length + k
  sizes : (∀ c ∈ s.kept, c.length ≤ L) → ∀ c ∈ s'.kept, c.length ≤ L

namespace Limited

theorem refl : Limited 0 L s s := ⟨le_rfl, id⟩

/-- Only the clauses matter. -/
theorem congr (h : Limited k L s s') (h1 : s1.clauses = s.clauses) (h2 : s2.clauses = s'.clauses) :
    Limited k L s1 s2 := by
  have hkept1 : s1.kept = s.kept := by
    unfold kept
    rw [h1]
  have hkept2 : s2.kept = s'.kept := by
    unfold kept
    rw [h2]
  constructor
  · rw [hkept1, hkept2]
    exact h.count
  · rw [hkept1, hkept2]
    exact h.sizes

theorem weaken (h : Limited 0 L s s') : Limited 1 L s s' := ⟨h.count.trans (Nat.le_succ _), h.sizes⟩

theorem trans (h : Limited k L s s1) (h' : Limited k1 L s1 s2) : Limited (k + k1) L s s2 :=
  ⟨by have := h.count; have := h'.count; omega, fun hs => h'.sizes (h.sizes hs)⟩

end Limited

theorem length_kept : s.kept.length = s.clauses.countP fun c => !c.removed := by
  unfold kept
  rw [List.length_map, List.countP_eq_length_filter]

/-- A clause is replaced by a shorter one, or removed. -/
theorem limited_setClause (hc : s.clauses[i]? = some ⟨c, false⟩) (hd : d.length ≤ c.length) {b : Bool} :
    Limited 0 L s { s with clauses := s.clauses.set i ⟨d, b⟩ } := by
  obtain ⟨hi, hget⟩ := List.getElem?_eq_some_iff.mp hc
  constructor
  · rw [length_kept, length_kept]
    show (s.clauses.set i _).countP _ ≤ _
    have hpos : 0 < s.clauses.countP fun c => !c.removed :=
      List.countP_pos_iff.mpr ⟨_, List.mem_of_getElem? hc, rfl⟩
    rw [List.countP_set hi, hget]
    cases b
    · simp only [Bool.not_false, ↓reduceIte]
      omega
    · simp
  · intro hs e he
    rcases List.mem_or_eq_of_mem_set (mem_kept.mp he) with he | heq
    · exact hs e (mem_kept.mpr he)
    · cases heq
      exact hd.trans (hs c (mem_kept.mpr (List.mem_of_getElem? hc)))

theorem Propagate.limited (h : Propagate s s') : Limited 0 L s s' := by
  induction h with
  | done => exact .refl
  | watch hc hperm _ ih => exact (limited_setClause hc hperm.length_eq.le).trans ih
  | unit _ _ _ _ _ ih => exact ih.congr rfl rfl
  | conflict _ _ => exact Limited.refl.congr rfl rfl

theorem length_reduced {trail : List Int} {r : Clause} (h : reduce trail none (sort ps) = some r) :
    r.length ≤ ps.length := by
  have hr := reduce_some (sort_sorted ps) (fun q hq => by cases hq) h
  have hlen := hr.sublist.length_le
  rwa [sort, List.length_insertionSort] at hlen

theorem AddClause.limited (h : AddClause ps s s') (hps : ps.length ≤ L) : Limited 1 L s s' := by
  cases h with
  | notOk _ => exact Limited.refl.weaken
  | satisfied _ _ => exact Limited.refl.weaken
  | empty _ _ => exact Limited.refl.weaken.congr rfl rfl
  | unit _ _ hp => exact hp.limited.weaken.congr rfl rfl
  | @stored a b rest _ hr =>
      constructor
      · rw [length_kept, length_kept]
        show (s.clauses ++ [_]).countP _ ≤ _
        rw [List.countP_append]
        exact Nat.add_le_add_left (List.countP_le_length) _
      · intro hs e he
        rcases List.mem_append.mp (mem_kept.mp he) with he | he
        · exact hs e (mem_kept.mpr he)
        · cases List.mem_singleton.mp he
          exact (length_reduced hr).trans hps

theorem Load.limited (h : Load F s s') (hF : ∀ c ∈ F, c.length ≤ L) : Limited F.length L s s' := by
  induction h with
  | nil => exact .refl
  | @cons s s1 s' c cs h _ ih =>
      obtain ⟨hc, hcs⟩ := List.forall_mem_cons.mp hF
      have hall := (h.limited hc).trans (ih hcs)
      rwa [Nat.add_comm] at hall

theorem AddAll.limited (h : AddAll F s s') (hF : ∀ c ∈ F, c.length ≤ L) : Limited F.length L s s' := by
  induction h with
  | nil => exact .refl
  | @cons s s1 s' c cs h _ _ ih =>
      obtain ⟨hc, hcs⟩ := List.forall_mem_cons.mp hF
      have hall := (h.limited hc).trans (ih hcs)
      rwa [Nat.add_comm] at hall
  | @fail s s1 c cs h _ =>
      have h1 := h.limited (hF c List.mem_cons_self)
      exact ⟨h1.count.trans (by rw [List.length_cons]; omega), h1.sizes⟩

theorem StrengthenClause.limited (h : StrengthenClause i l s s') : Limited 0 L s s' := by
  have hlen : ∀ c m : Clause, c.erase l = m → m.length ≤ c.length := fun c m he => he ▸ List.length_erase_le
  cases h with
  | long hc _ => exact limited_setClause hc List.length_erase_le
  | enqueue hc herase _ hp =>
      exact (limited_setClause hc (hlen _ _ herase)).trans (hp.limited.congr rfl rfl)
  | holds hc herase _ hp => exact (limited_setClause hc (hlen _ _ herase)).trans hp.limited
  | fails hc herase _ => exact (limited_setClause hc (hlen _ _ herase)).congr rfl rfl

theorem Subsume.limited (h : Subsume s s') : Limited 0 L s s' := by
  cases h with
  | remove _ hd _ _ _ => exact limited_setClause hd le_rfl
  | strengthen _ _ _ _ _ hs => exact hs.limited

/-- The clauses of `v` go. -/
theorem kept_dropOccurs : (s.dropOccurs v).kept = s.kept.filter fun c => !decide (HasVar v c) := by
  unfold kept dropOccurs
  simp only
  induction s.clauses with
  | nil => rfl
  | cons x xs ih =>
      obtain ⟨c, removed⟩ := x
      cases removed with
      | true => simpa using ih
      | false =>
          by_cases hv : HasVar v c
          · simpa [hv] using ih
          · simpa [hv] using ih

theorem length_kept_dropOccurs : (s.dropOccurs v).kept.length + (s.occurs v).length = s.kept.length := by
  rw [kept_dropOccurs, occurs, Nat.add_comm]
  exact (List.length_eq_length_filter_add _).symm

/-- The counted sizes are those of the resolvents. -/
theorem WellFormed.sizes_eq (h : s.WellFormed n) :
    ((s.pos v).flatMap fun c => (s.neg v).filterMap fun d => mergeSize c d v) =
      (s.resolvents v).map List.length := by
  unfold resolvents
  rw [List.map_flatMap]
  refine List.flatMap_congr fun p hp => ?_
  rw [List.map_filterMap]
  refine List.filterMap_congr fun q hq => ?_
  exact mergeSize_eq (h.distinct_pos hp) (h.distinct_neg hq) (mem_pos.mp hp).2 (mem_neg.mp hq).2.1
    (Int.natAbs_natCast v) (by rw [Int.natAbs_neg, Int.natAbs_natCast])

theorem WellFormed.limited_eliminateVar (h : s.WellFormed n) (hw : s.Worthwhile v) (hL : 20 ≤ L)
    (ha : AddAll (s.resolvents v) (s.dropOccurs v) s') : Limited 0 L s s' := by
  unfold Worthwhile at hw
  simp only [h.sizes_eq] at hw
  obtain ⟨hcount, hsizes⟩ := hw
  rw [List.length_map] at hcount
  have hall : Limited (s.resolvents v).length L (s.dropOccurs v) s' :=
    ha.limited fun c hc => (hsizes _ (List.mem_map_of_mem hc)).trans hL
  have hdrop := length_kept_dropOccurs (s := s) (v := v)
  constructor
  · have := hall.count
    omega
  · intro hs
    refine hall.sizes fun c hc => hs c ?_
    rw [kept_dropOccurs] at hc
    exact List.mem_of_mem_filter hc

theorem Step.limited (h : Step n frozen s s') (hwf : s.WellFormed n) (hL : 20 ≤ L) : Limited 0 L s s' := by
  cases h with
  | propagate _ hp => exact hp.limited
  | subsume _ hp => exact hp.limited
  | eliminateVar _ _ _ _ _ hw ha => exact hwf.limited_eliminateVar hw hL ha
  | garbageCollect =>
      have hkept : kept { s with clauses := s.clauses.filter fun c => !c.removed } = s.kept := by
        unfold kept
        rw [List.filter_filter]
        simp
      constructor
      · rw [hkept]
        exact le_rfl
      · rw [hkept]
        exact id

end Minisat.SimpSolver

/-- In every run of `eliminate`, there are never more clauses than were added, and none has more literals
than the longest of these, or 20. The merges that count the resolvents of a variable find as many as are
built, with the lengths they then have. -/
theorem eliminate_limited {n : Nat} {frozen : List Nat} {F : Cnf} {s : SimpSolver}
    (hF : ∀ c ∈ F, NonZero c ∧ VarsLe n c) (h : SimpSolver.Run n frozen F s) :
    s.kept.length ≤ F.length ∧ (∀ L, (∀ c ∈ F, c.length ≤ L) → ∀ c ∈ s.kept, c.length ≤ max L 20) ∧
    ∀ v, ((s.pos v).flatMap fun c => (s.neg v).filterMap fun d => mergeSize c d v) =
      (s.resolvents v).map List.length := by
  have hrun : ∀ L, (∀ c ∈ F, c.length ≤ L) → SimpSolver.Limited F.length (max L 20) {} s := by
    intro L hL
    obtain ⟨s0, hload, hsteps⟩ := h
    have hstart : SimpSolver.Limited F.length (max L 20) {} s0 :=
      hload.limited fun c hc => (hL c hc).trans (le_max_left L 20)
    induction hsteps with
    | refl => exact hstart
    | tail hs hstep ih =>
        have hinv := SimpSolver.Run.inv ⟨s0, hload, hs⟩ hF
        exact ih.trans (hstep.limited hinv.wf (le_max_right L 20))
  refine ⟨?_, fun L hL => (hrun L hL).sizes (by rintro c ⟨⟩), fun v => (h.inv hF).wf.sizes_eq⟩
  obtain ⟨L, hL⟩ : ∃ L, ∀ c ∈ F, c.length ≤ L :=
    ⟨(F.map List.length).sum, fun c hc => List.le_sum_of_mem (List.mem_map_of_mem hc)⟩
  have hcount := (hrun L hL).count
  rwa [show SimpSolver.kept {} = [] from rfl, List.length_nil, Nat.zero_add] at hcount

/-- One resolvent with two literals is counted for `1`, and after its elimination there is this clause
only. -/
theorem eliminate_limited_resolved :
    ((Sample.loaded.pos 1).flatMap fun c => (Sample.loaded.neg 1).filterMap fun d => mergeSize c d 1) = [2] ∧
    (Sample.loaded.resolvents 1).map List.length = [2] ∧
    Sample.resolved.kept = [[2, 3]] ∧ Sample.resolved.kept.length ≤ 2 := by
  have hF : ∀ c ∈ [[1, 2], [-1, 3]], NonZero c ∧ VarsLe 3 c := by
    unfold NonZero VarsLe
    decide
  obtain ⟨_, _, hmerge⟩ := eliminate_limited hF Sample.loaded_run
  have hsizes : ((Sample.loaded.pos 1).flatMap fun c =>
      (Sample.loaded.neg 1).filterMap fun d => mergeSize c d 1) = [2] := by decide
  exact ⟨hsizes, (hmerge 1).symm.trans hsizes, rfl, (eliminate_limited hF Sample.resolved_run).1⟩

end ModelChecker
