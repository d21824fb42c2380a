import ModelChecker.Bmc.Unfold

/-!
# `unfold` simulates the circuit

`Aig_And` is right whenever the values of the smaller variables are. From this each call of `unfold`
adds one step of the simulation, for all valuations of the leaves at once.
-/

namespace ModelChecker

open Logic

variable {A : Circuit} {B : BmcConfig}

/-! ## `Aig_And` -/

/-- `values` gives the variables below `n` literals below `N`, and every one of them is the conjunction
of its fan-ins in each of the valuations `P`. -/
structure Sound (A : Circuit) (values : Nat → Int) (n N : Nat) (P : Assignment → Prop) : Prop where
  one : values 1 = 1
  live : ∀ v, 1 ≤ v → v < n → 1 ≤ (values v).natAbs ∧ (values v).natAbs < N
  const : ∀ e, P e → e 1 = false
  gate : ∀ e, P e → ∀ a ∈ A.ands, a.o < n →
    litVal e (values a.o) = (litVal e (value values a.i1) && litVal e (value values a.i2))

variable {values : Nat → Int} {n N : Nat} {P : Assignment → Prop}

theorem natAbs_value (values : Nat → Int) (p : Int) :
    (value values p).natAbs = (values p.natAbs).natAbs := by
  unfold value; split <;> simp

theorem value_neg {p : Int} (hp : p ≠ 0) : value values (-p) = -value values p := by
  unfold value
  rw [Int.natAbs_neg]
  by_cases h : 0 < p
  · rw [if_neg (by omega), if_pos h]
  · rw [if_pos (by omega), if_neg h, neg_neg]

theorem value_natCast {v : Nat} (hv : 0 < v) : value values v = values v := by
  unfold value; rw [if_pos (by omega), Int.natAbs_natCast]

theorem litVal_value {e : Assignment} {p : Int} (hp : p ≠ 0) (hv : values p.natAbs ≠ 0) :
    litVal e (value values p) = if p < 0 then !litVal e (values p.natAbs) else
      litVal e (values p.natAbs) := by
  unfold value
  by_cases h : 0 < p
  · rw [if_pos h, if_neg (by omega)]
  · rw [if_neg h, if_pos (by omega), litVal_neg _ hv]

theorem Sound.value_ne_zero (h : Sound A values n N P) {p : Int} (hp : 1 ≤ p.natAbs ∧ p.natAbs < n) :
    value values p ≠ 0 := by
  have := (h.live _ hp.1 hp.2).1
  have := natAbs_value values p
  omega

theorem Sound.value_lt (h : Sound A values n N P) {p : Int} (hp : 1 ≤ p.natAbs ∧ p.natAbs < n) :
    (value values p).natAbs < N := by
  rw [natAbs_value]
  exact (h.live _ hp.1 hp.2).2

theorem Sound.value_neg_one (h : Sound A values n N P) : value values (-1) = -1 := by
  rw [value_neg (by decide)]
  exact congrArg _ h.one

/-- The literals of the constant node. -/
theorem Sound.litVal_const (h : Sound A values n N P) {e : Assignment} (he : P e) {l : Int}
    (hl : l.natAbs = 1) : litVal e l = decide (l = -1) := by
  have he1 : litVal e 1 = false := h.const e he
  rcases Int.natAbs_eq l with hl' | hl' <;> rw [hl] at hl' <;> subst hl'
  · exact he1
  · rw [show (-((1 : Nat) : Int)) = -1 from rfl, litVal_neg _ (by decide), he1]; rfl

/-- What `fanins` returns for a literal below `n`. -/
structure FaninsOf (A : Circuit) (values : Nat → Int) (n : Nat) (P : Assignment → Prop) (p fa fb : Int) :
    Prop where
  range : 1 ≤ fa.natAbs ∧ fa.natAbs < n ∧ 1 ≤ fb.natAbs ∧ fb.natAbs < n
  value : ∀ e, P e → litVal e (values p.natAbs) =
    (litVal e (value values fa) && litVal e (value values fb))
  gate : A.first_and ≤ p.natAbs → fa.natAbs < p.natAbs ∧ fb.natAbs < p.natAbs
  leaf : p.natAbs < A.first_and → fa = p.natAbs ∧ fb = -1

theorem fanins_spec (h : Sound A values n N P) (hn : n ≤ A.max_var + 1) {p : Int}
    (hp : 1 ≤ p.natAbs ∧ p.natAbs < n) :
    ∃ fa fb, A.fanins p = some (fa, fb) ∧ FaninsOf A values n P p fa fb := by
  unfold Aiger.fanins
  by_cases hg : A.first_and ≤ p.natAbs
  · rw [if_pos hg]
    have hi : p.natAbs - A.first_and < A.ands.length := by
      have := A.wf.ands_length
      unfold Aiger.max_var Aiger.first_and at *; omega
    rw [List.getElem?_eq_getElem hi]
    have ho := A.ands_get hi
    rw [List.get_eq_getElem] at ho
    have hmem : A.ands[p.natAbs - A.first_and] ∈ A.ands := List.getElem_mem hi
    generalize A.ands[p.natAbs - A.first_and] = a at ho hmem
    have hop : a.o = p.natAbs := by omega
    obtain ⟨h1, h1'⟩ := A.wf.fanin1 a hmem
    obtain ⟨h2, h2'⟩ := A.wf.fanin2 a hmem
    refine ⟨a.i1, a.i2, rfl, by omega, fun e he => ?_, by omega, by omega⟩
    rw [← hop]
    exact h.gate e he a hmem (by omega)
  · rw [if_neg hg]
    have h0 : 0 < p.natAbs := hp.1
    refine ⟨_, _, rfl, ?_, fun e he => ?_, by omega, fun _ => ⟨rfl, rfl⟩⟩
    · rw [Int.natAbs_natCast, show (-1 : Int).natAbs = 1 from rfl]; omega
    rw [value_natCast h0, h.value_neg_one, h.litVal_const (l := -1) he rfl]
    simp

/-- A result of `Aig_And` is `0` or a literal with the value of the conjunction. -/
structure Folded (N : Nat) (P : Assignment → Prop) (v0 v1 r : Int) : Prop where
  range : r ≠ 0 → r.natAbs < N
  value : r ≠ 0 → ∀ e, P e → litVal e r = (litVal e v0 && litVal e v1)

theorem Folded.swap {v0 v1 r : Int} (h : Folded N P v0 v1 r) : Folded N P v1 v0 r :=
  ⟨h.range, fun h0 e he => by rw [h.value h0 e he, Bool.and_comm]⟩

theorem Folded.zero {v0 v1 : Int} : Folded N P v0 v1 0 := ⟨absurd rfl, absurd rfl⟩

/-- The rules for a constant. -/
theorem Sound.fold_const (h : Sound A values n N P) (hN : 1 < N) {v0 v1 : Int} (h0 : v0.natAbs = 1)
    (h1 : v1.natAbs < N) : Folded N P v0 v1 (if v0 = -1 then v1 else 1) := by
  by_cases d : v0 = -1
  · rw [if_pos d]
    refine ⟨fun _ => h1, fun _ e he => ?_⟩
    rw [h.litVal_const he h0]; simp [d]
  · rw [if_neg d]
    refine ⟨fun _ => hN, fun _ e he => ?_⟩
    rw [h.litVal_const he h0, h.litVal_const he rfl]; simp [d]

/-- The two-level rules for `p` and a literal of value `w` are right: so is a returned literal, and a call,
whose arguments are smaller. -/
def Strash.Right (values : Nat → Int) (N : Nat) (P : Assignment → Prop) (p w : Int) : Strash → Prop
  | .ret v => Folded N P (value values p) w v
  | .call q0 q1 => (1 ≤ q0.natAbs ∧ q0.natAbs < p.natAbs) ∧ (1 ≤ q1.natAbs ∧ q1.natAbs < p.natAbs) ∧
      ∀ e, P e → (litVal e (value values q0) && litVal e (value values q1)) =
        (litVal e (value values p) && litVal e w)
  | .skip => True

theorem litVal_and_of_neg {e : Assignment} {va vb w : Int} (hw : w ≠ 0) (h : va = -w ∨ vb = -w) :
    (litVal e va && litVal e vb && litVal e w) = false := by
  rcases h with rfl | rfl
  · rw [litVal_neg _ hw]; cases litVal e w <;> simp
  · rw [litVal_neg _ hw]; cases litVal e w <;> simp

section Rules

variable {p fa fb w : Int}

/-- The rules for a positive literal. -/
theorem strash_pos (h : Sound A values n N P) (hf : FaninsOf A values n P p fa fb)
    (hp : 1 ≤ p.natAbs ∧ p.natAbs < n) (hpos : 0 < p) (hw : w ≠ 0) (hN : 1 < N) :
    (strash values p fa fb w).Right values N P p w := by
  have hpv : ∀ e, P e → litVal e (value values p) =
      (litVal e (value values fa) && litVal e (value values fb)) := fun e he => by
    rw [litVal_value (by omega) (by have := (h.live _ hp.1 hp.2).1; omega), if_neg (by omega),
      hf.value e he]
  unfold strash
  simp only [if_neg (not_lt.mpr hpos.le), if_pos hpos]
  by_cases hc : value values fa = -w ∨ value values fb = -w
  · rw [if_pos hc]
    refine ⟨fun _ => hN, fun _ e he => ?_⟩
    rw [h.litVal_const he rfl, hpv e he, litVal_and_of_neg hw hc]
    rfl
  rw [if_neg hc]
  by_cases hd : value values fa = w ∨ value values fb = w
  · rw [if_pos hd]
    refine ⟨fun _ => h.value_lt hp, fun _ e he => ?_⟩
    rw [hpv e he]
    rcases hd with hd | hd
    · rw [hd]; cases litVal e w <;> simp
    · rw [hd]; cases litVal e w <;> simp
  · rw [if_neg hd]
    trivial

/-- The rules for a negative literal. -/
theorem strash_neg (h : Sound A values n N P) (hf : FaninsOf A values n P p fa fb)
    (hp : 1 ≤ p.natAbs ∧ p.natAbs < n) (hneg : p < 0) (hw : w ≠ 0) (hwN : w.natAbs < N)
    (hw1 : w.natAbs ≠ 1) (hne' : value values p ≠ -w) :
    (strash values p fa fb w).Right values N P p w := by
  have hpv : ∀ e, P e → litVal e (value values p) =
      !(litVal e (value values fa) && litVal e (value values fb)) := fun e he => by
    rw [litVal_value (by omega) (by have := (h.live _ hp.1 hp.2).1; omega), if_pos hneg, hf.value e he]
  have hra : 1 ≤ fa.natAbs ∧ fa.natAbs < n := ⟨hf.range.1, hf.range.2.1⟩
  have hrb : 1 ≤ fb.natAbs ∧ fb.natAbs < n := hf.range.2.2
  unfold strash
  simp only [if_pos hneg]
  by_cases hc : value values fa = -w ∨ value values fb = -w
  · rw [if_pos hc]
    refine ⟨fun _ => hwN, fun _ e he => ?_⟩
    have hand := litVal_and_of_neg (e := e) hw hc
    rw [hpv e he]
    cases hv : litVal e w with
    | false => simp
    | true => rw [hv, Bool.and_true] at hand; rw [hand]; rfl
  rw [if_neg hc]
  by_cases hb : value values fb = w
  · have hg : A.first_and ≤ p.natAbs := by
      by_contra hl
      rw [(hf.leaf (by omega)).2, h.value_neg_one] at hb
      exact hw1 (hb ▸ rfl)
    have hlt := hf.gate hg
    rw [if_pos hb]
    refine ⟨by omega, by omega, fun e he => ?_⟩
    rw [hpv e he, value_neg (by omega), litVal_neg _ (h.value_ne_zero hra), hb]
    cases litVal e (value values fa) <;> cases litVal e w <;> rfl
  rw [if_neg hb]
  by_cases ha : value values fa = w
  · have hg : A.first_and ≤ p.natAbs := by
      by_contra hl
      rw [(hf.leaf (by omega)).1, show ((p.natAbs : Nat) : Int) = -p by omega, value_neg (by omega)] at ha
      exact hne' (by rw [← ha, neg_neg])
    have hlt := hf.gate hg
    rw [if_pos ha]
    refine ⟨by omega, by omega, fun e he => ?_⟩
    rw [hpv e he, value_neg (by omega), litVal_neg _ (h.value_ne_zero hrb), ha]
    cases litVal e (value values fb) <;> cases litVal e w <;> rfl
  · rw [if_neg ha]
    trivial

theorem strash_spec (h : Sound A values n N P) (hf : FaninsOf A values n P p fa fb)
    (hp : 1 ≤ p.natAbs ∧ p.natAbs < n) (hw : w ≠ 0) (hwN : w.natAbs < N) (hw1 : w.natAbs ≠ 1)
    (hne' : value values p ≠ -w) (hN : 1 < N) : (strash values p fa fb w).Right values N P p w := by
  rcases lt_or_gt_of_ne (by omega : p ≠ 0) with hneg | hpos
  · exact strash_neg h hf hp hneg hw hwN hw1 hne'
  · exact strash_pos h hf hp hpos hw hN

end Rules

/-- `Aig_And` returns, with a literal of the right value or with `0`. -/
theorem aigAnd_spec (h : Sound A values n N P) (hn : n ≤ A.max_var + 1) (hN : 1 < N) {fuel : Nat} :
    ∀ {p0 p1 : Int}, 1 ≤ p0.natAbs ∧ p0.natAbs < n → 1 ≤ p1.natAbs ∧ p1.natAbs < n →
      p0.natAbs < fuel → p1.natAbs < fuel → ∃ r, Aig_And A.toAiger values fuel p0 p1 = some r ∧
        Folded N P (value values p0) (value values p1) r := by
  induction fuel with
  | zero => intro p0 p1 _ _ hf _; omega
  | succ fuel ih =>
      intro p0 p1 hp0 hp1 hf0 hf1
      have h0N := h.value_lt hp0
      have h1N := h.value_lt hp1
      have h10 := h.value_ne_zero hp1
      -- the arguments of a call are below `p`, so there is fuel left
      have hcall : ∀ {p w q0 q1 : Int}, p.natAbs < n → p.natAbs < fuel + 1 →
          (Strash.call q0 q1).Right values N P p w →
          ∃ r, Aig_And A.toAiger values fuel q0 q1 = some r ∧ Folded N P (value values p) w r := by
        rintro p w q0 q1 hpn hpf ⟨hq0, hq1, hv⟩
        obtain ⟨r, hr, hfold⟩ := ih ⟨hq0.1, by omega⟩ ⟨hq1.1, by omega⟩ (by omega) (by omega)
        exact ⟨r, hr, hfold.range, fun h0 e he => by rw [hfold.value h0 e he, hv e he]⟩
      unfold Aig_And
      simp only
      by_cases c1 : value values p0 = value values p1
      · rw [if_pos c1]
        exact ⟨_, rfl, fun _ => h0N, fun _ e _ => by rw [← c1]; simp⟩
      rw [if_neg c1]
      by_cases c2 : value values p0 = -value values p1
      · rw [if_pos c2]
        refine ⟨_, rfl, fun _ => hN, fun _ e he => ?_⟩
        rw [c2, litVal_neg _ h10, h.litVal_const he rfl]
        cases litVal e (value values p1) <;> rfl
      rw [if_neg c2]
      by_cases c3 : (value values p0).natAbs = 1
      · rw [if_pos c3]
        exact ⟨_, rfl, h.fold_const hN c3 h1N⟩
      rw [if_neg c3]
      by_cases c4 : (value values p1).natAbs = 1
      · rw [if_pos c4]
        exact ⟨_, rfl, (h.fold_const hN c4 h0N).swap⟩
      rw [if_neg c4]
      obtain ⟨fa, fb, e0, hfan0⟩ := fanins_spec h hn hp0
      obtain ⟨fc, fd, e1, hfan1⟩ := fanins_spec h hn hp1
      rw [e0, e1]
      simp only [Option.bind_some]
      split
      · have s0 := strash_spec h hfan0 hp0 h10 h1N c4 c2 hN
        cases hs0 : strash values p0 fa fb (value values p1) with
        | ret v => rw [hs0] at s0; exact ⟨v, rfl, s0⟩
        | call q0 q1 => rw [hs0] at s0; exact hcall hp0.2 hf0 s0
        | skip =>
            have s1 := strash_spec h hfan1 hp1 (h.value_ne_zero hp0) h0N c3 (by omega) hN
            simp only
            cases hs1 : strash values p1 fc fd (value values p0) with
            | ret v => rw [hs1] at s1; exact ⟨v, rfl, s1.swap⟩
            | call q0 q1 =>
                rw [hs1] at s1
                obtain ⟨r, hr, hfold⟩ := hcall hp1.2 hf1 s1
                exact ⟨r, hr, hfold.swap⟩
            | skip => exact ⟨0, rfl, Folded.zero⟩
      · exact ⟨0, rfl, Folded.zero⟩

/-! ## The node table -/

/-- A literal of a node other than the null node. -/
def UnfoldAiger.LitIn (U : UnfoldAiger) (l : Int) : Prop := 1 ≤ l.natAbs ∧ l.natAbs < U.nodes.length

/-- The gates of `uaiger` are its AND nodes, in topological order and above the leaves of the latches;
the hash table holds no other gates; `inputs` are distinct leaves. -/
structure Table (A : Circuit) (U : UnfoldAiger) : Prop where
  nodes : A.num_latches + 2 ≤ U.nodes.length
  ands : U.nodeAnds = U.ands
  topo : Topo U.ands
  range : ∀ a ∈ U.ands, A.num_latches + 2 ≤ a.o ∧ a.o < U.nodes.length
  bucket : ∀ v, ∀ g ∈ U.hash_table v, g ∈ U.ands
  inputs : ∀ v ∈ U.inputs, A.num_latches + 2 ≤ v ∧ v < U.nodes.length ∧ ∀ a ∈ U.ands, a.o ≠ v
  nodup : U.inputs.Nodup

variable {U U' : UnfoldAiger} {leaf : Assignment}

theorem nodeAnds_push {x : Node} (h : U'.nodes = U.nodes ++ [x]) : U'.nodeAnds =
    U.nodeAnds ++ if x.type = .and then [⟨U.nodes.length, x.child1, x.child2⟩] else [] := by
  unfold UnfoldAiger.nodeAnds
  rw [h, List.zipIdx_append, List.filterMap_append]
  by_cases h : x.type = .and <;> simp [h]

theorem Table.eval_eq (h : Table A U) :
    U.eval leaf = evalAnds (Function.update leaf 1 false) U.ands := by
  unfold UnfoldAiger.eval; rw [h.ands]

theorem Table.eval_leaf (h : Table A U) {v : Nat} (hv : ∀ a ∈ U.ands, a.o ≠ v) (h1 : v ≠ 1) :
    U.eval leaf v = leaf v := by
  rw [h.eval_eq, evalAnds_of_not_output hv, Function.update_of_ne h1]

theorem Table.eval_one (h : Table A U) : U.eval leaf 1 = false := by
  rw [h.eval_eq, evalAnds_of_not_output, Function.update_self]
  exact fun a ha => by have := (h.range a ha).1; omega

theorem Table.eval_gate (h : Table A U) {a : AndGate} (ha : a ∈ U.ands) :
    GateHolds (U.eval leaf) a := by
  rw [h.eval_eq]; exact evalAnds_holds h.topo ha

/-- `U'` has all nodes of `U`, with the same values. -/
structure Ext (U U' : UnfoldAiger) : Prop where
  nodes : U.nodes.length ≤ U'.nodes.length
  ands : U.ands <+: U'.ands
  fresh : ∀ a ∈ U'.ands, a ∈ U.ands ∨ U.nodes.length ≤ a.o
  eval : ∀ leaf v, v < U.nodes.length → U'.eval leaf v = U.eval leaf v

theorem Ext.refl (U : UnfoldAiger) : Ext U U :=
  ⟨le_rfl, List.prefix_rfl, fun _ ha => Or.inl ha, fun _ _ _ => rfl⟩

theorem Ext.trans {U'' : UnfoldAiger} (h : Ext U U') (h' : Ext U' U'') : Ext U U'' :=
  ⟨h.nodes.trans h'.nodes, h.ands.trans h'.ands,
    fun a ha => (h'.fresh a ha).elim (h.fresh a) fun hge => Or.inr (h.nodes.trans hge),
    fun leaf v hv => by rw [h'.eval leaf v (lt_of_lt_of_le hv h.nodes), h.eval leaf v hv]⟩

theorem Ext.litIn (h : Ext U U') {l : Int} (hl : U.LitIn l) : U'.LitIn l :=
  ⟨hl.1, lt_of_lt_of_le hl.2 h.nodes⟩

theorem Ext.litVal (h : Ext U U') {l : Int} (hl : U.LitIn l) :
    litVal (U'.eval leaf) l = litVal (U.eval leaf) l :=
  litVal_congr (h.eval leaf _ hl.2)

/-! ## Steps of `unfold` -/

variable {s s' : Unfolding}

theorem mem_lookup {bucket : List AndGate} {i1 i2 : Int} (h : Unfolding.lookup bucket i1 i2 ≠ 0) :
    ∃ g ∈ bucket, g.o = Unfolding.lookup bucket i1 i2 ∧
      ((g.i1 = i1 ∧ g.i2 = i2) ∨ (g.i2 = i1 ∧ g.i1 = i2)) := by
  unfold Unfolding.lookup at *
  induction bucket using List.reverseRecOn with
  | nil => exact absurd rfl h
  | append_singleton gs g ih =>
      rw [List.foldl_append] at h ⊢
      simp only [List.foldl_cons, List.foldl_nil] at h ⊢
      split
      · rename_i hg
        exact ⟨g, by simp, rfl, hg⟩
      · rename_i hg
        rw [if_neg hg] at h
        obtain ⟨g', hg', ho⟩ := ih h
        exact ⟨g', List.mem_append_left _ hg', ho⟩

/-- A leaf changes no value. -/
theorem Table.pushLeaf (h : Table A U) (is : List Nat)
    (his : is = [] ∨ is = [U.nodes.length]) :
    let U' : UnfoldAiger := { U with nodes := U.nodes ++ [⟨.input, 0, 0⟩], inputs := U.inputs ++ is }
    Table A U' ∧ Ext U U' := by
  have hands : ∀ is, ({ U with nodes := U.nodes ++ [⟨.input, 0, 0⟩], inputs := U.inputs ++ is } :
      UnfoldAiger).nodeAnds = U.ands := by
    intro is
    rw [nodeAnds_push (U := U) rfl, h.ands]
    exact List.append_nil _
  refine ⟨⟨?_, hands is, h.topo, fun a ha => ?_, h.bucket, fun v hv => ?_, ?_⟩, ?_,
    List.prefix_rfl, fun _ ha => Or.inl ha, fun leaf v _ => ?_⟩
  · have := h.nodes; simp; omega
  · have := h.range a ha; simp; omega
  · rcases List.mem_append.mp hv with hv | hv
    · obtain ⟨h1, h2, h3⟩ := h.inputs v hv
      exact ⟨h1, by simp; omega, h3⟩
    · rcases his with rfl | rfl
      · cases hv
      · rw [List.mem_singleton.mp hv]
        exact ⟨h.nodes, by simp, fun a ha => by have := (h.range a ha).2; omega⟩
  · rcases his with rfl | rfl
    · simpa using h.nodup
    · refine List.nodup_append.mpr ⟨h.nodup, List.nodup_singleton _, fun a ha b hb => ?_⟩
      rw [List.mem_singleton.mp hb]
      have := (h.inputs a ha).2.1
      omega
  · simp
  · unfold UnfoldAiger.eval
    rw [hands is, h.ands]

/-- A new gate has the value of the conjunction of its children and changes no other value. -/
theorem Table.newAnd (h : Table A s.uaiger) {o : Nat} {i1 i2 : Int} (h1 : s.uaiger.LitIn i1)
    (h2 : s.uaiger.LitIn i2) : Table A (s.newAnd o i1 i2).uaiger ∧
      Ext s.uaiger (s.newAnd o i1 i2).uaiger ∧ ∀ leaf,
        (s.newAnd o i1 i2).uaiger.eval leaf s.uaiger.nsize =
          (litVal (s.uaiger.eval leaf) i1 && litVal (s.uaiger.eval leaf) i2) := by
  have hands : (s.newAnd o i1 i2).uaiger.nodeAnds = s.uaiger.ands ++ [⟨s.uaiger.nsize, i1, i2⟩] := by
    rw [nodeAnds_push (U := s.uaiger) rfl, h.ands]
    rfl
  have heval : ∀ leaf, (s.newAnd o i1 i2).uaiger.eval leaf =
      evalGate (s.uaiger.eval leaf) ⟨s.uaiger.nsize, i1, i2⟩ := by
    intro leaf
    unfold UnfoldAiger.eval
    rw [hands, evalAnds_append, h.ands]
    rfl
  have hlen : (s.newAnd o i1 i2).uaiger.nodes.length = s.uaiger.nodes.length + 1 := by
    simp [Unfolding.newAnd]
  have hmem : ∀ a ∈ (s.newAnd o i1 i2).uaiger.ands, a ∈ s.uaiger.ands ∨ a = ⟨s.uaiger.nsize, i1, i2⟩ := by
    intro a ha
    simpa [Unfolding.newAnd] using ha
  have hnodes := h.nodes
  refine ⟨⟨by omega, hands, ⟨?_, fun a ha => ?_, fun a ha => ?_⟩, fun a ha => ?_, fun v g hg => ?_,
    fun v hv => ?_, h.nodup⟩, ⟨by omega, List.prefix_append _ _,
    fun a ha => (hmem a ha).imp id fun he => by rw [he]; exact le_rfl, fun leaf v hv => ?_⟩, fun leaf => ?_⟩
  · refine List.pairwise_append.mpr ⟨h.topo.sorted, List.pairwise_singleton _ _, fun a ha b hb => ?_⟩
    rw [List.mem_singleton.mp hb]
    exact (h.range a ha).2
  · rcases hmem a ha with ha | rfl
    · exact h.topo.fanin1 a ha
    · exact h1
  · rcases hmem a ha with ha | rfl
    · exact h.topo.fanin2 a ha
    · exact h2
  · rcases hmem a ha with ha | rfl
    · have := h.range a ha; omega
    · exact ⟨h.nodes, by rw [hlen]; exact Nat.lt_succ_self _⟩
  · -- a bucket is an old one, possibly with the new gate at its end
    have hold : ∀ g, g ∈ s.uaiger.ands ∨ g = ⟨s.uaiger.nsize, i1, i2⟩ →
        g ∈ (s.newAnd o i1 i2).uaiger.ands := by
      intro g hg; simpa [Unfolding.newAnd] using hg
    apply hold
    simp only [Unfolding.newAnd, Function.update_apply] at hg
    split at hg
    · rcases List.mem_append.mp hg with hg | hg
      · split at hg
        · rcases List.mem_append.mp hg with hg | hg
          · exact Or.inl (h.bucket _ g hg)
          · exact Or.inr (List.mem_singleton.mp hg)
        · exact Or.inl (h.bucket _ g hg)
      · exact Or.inr (List.mem_singleton.mp hg)
    · split at hg
      · rcases List.mem_append.mp hg with hg | hg
        · exact Or.inl (h.bucket _ g hg)
        · exact Or.inr (List.mem_singleton.mp hg)
      · exact Or.inl (h.bucket _ g hg)
  · obtain ⟨hv1, hv2, hv3⟩ := h.inputs v hv
    refine ⟨hv1, by omega, fun a ha => ?_⟩
    rcases hmem a ha with ha | rfl
    · exact hv3 a ha
    · exact fun he => absurd hv2 (by rw [← he]; exact lt_irrefl _)
  · rw [heval, evalGate, Function.update_of_ne]
    exact fun he => absurd hv (by rw [he]; exact lt_irrefl _)
  · rw [heval, evalGate, Function.update_self]

/-! ## The gates of one step -/

/-- The variables below `n` have the values of the circuit at the point `w leaf`. -/
structure StepFrame (A : Circuit) (n : Nat) (w : Assignment → Assignment) (s : Unfolding) : Prop where
  table : Table A s.uaiger
  one : s.values 1 = 1
  live : ∀ v, 1 ≤ v → v < n → s.uaiger.LitIn (s.values v)
  eval : ∀ leaf v, 1 ≤ v → v < n → litVal (s.uaiger.eval leaf) (s.values v) = A.eval (w leaf) v

variable {w : Assignment → Assignment}

theorem StepFrame.litIn (h : StepFrame A n w s) {l : Int} (hl : 1 ≤ l.natAbs ∧ l.natAbs < n) :
    s.uaiger.LitIn (value s.values l) := by
  unfold UnfoldAiger.LitIn
  rw [natAbs_value]
  exact h.live _ hl.1 hl.2

theorem StepFrame.litVal (h : StepFrame A n w s) {l : Int} (hl : 1 ≤ l.natAbs ∧ l.natAbs < n) :
    litVal (s.uaiger.eval leaf) (value s.values l) = A.val (w leaf) l := by
  have hv : s.values l.natAbs ≠ 0 := by have := (h.live _ hl.1 hl.2).1; omega
  rw [litVal_value (by omega) hv, h.eval leaf _ hl.1 hl.2]
  rfl

theorem StepFrame.sound (h : StepFrame A n w s) :
    Sound A s.values n s.uaiger.nodes.length fun e => ∃ leaf, e = s.uaiger.eval leaf := by
  refine ⟨h.one, fun v h1 h2 => h.live v h1 h2, ?_, ?_⟩
  · rintro e ⟨leaf, rfl⟩
    exact h.table.eval_one
  · rintro e ⟨leaf, rfl⟩ a ha hlt
    have h1 := A.wf.fanin1 a ha
    have h2 := A.wf.fanin2 a ha
    rw [h.eval leaf a.o (by omega) hlt, h.litVal (by omega), h.litVal (by omega)]
    exact Circuit.eval_gate (w leaf) ha

theorem StepFrame.setValue (h : StepFrame A n w s) (hn : 2 ≤ n) {l : Int} (hl : s.uaiger.LitIn l)
    (hv : ∀ leaf, Logic.litVal (s.uaiger.eval leaf) l = A.eval (w leaf) n) :
    StepFrame A (n + 1) w (s.setValue n l) := by
  refine ⟨h.table, ?_, fun v h1 h2 => ?_, fun leaf v h1 h2 => ?_⟩
  · exact (Function.update_of_ne (by omega) _ _).trans h.one
  · by_cases he : v = n
    · subst he; simpa [Unfolding.setValue] using hl
    · simpa [Unfolding.setValue, he] using h.live v h1 (by omega)
  · by_cases he : v = n
    · subst he; simpa [Unfolding.setValue] using hv leaf
    · simpa [Unfolding.setValue, he] using h.eval leaf v h1 (by omega)

/-- Overwriting a variable that is not live. -/
theorem StepFrame.clear (h : StepFrame A n w s) (hn : 2 ≤ n) {l : Int} : StepFrame A n w (s.setValue n l) := by
  have hne : ∀ v, v < n → (s.setValue n l).values v = s.values v := fun v hv =>
    Function.update_of_ne (by omega) _ _
  refine ⟨h.table, ?_, fun v h1 h2 => ?_, fun leaf v h1 h2 => ?_⟩
  · rw [hne 1 (by omega)]; exact h.one
  · rw [hne v h2]; exact h.live v h1 h2
  · rw [hne v h2]; exact h.eval leaf v h1 h2

/-- `s'` has at most `m` nodes more than `s`; apart from gates nothing else is added. -/
structure Grown (s s' : Unfolding) (m : Nat) : Prop where
  ext : Ext s.uaiger s'.uaiger
  inputs : s'.uaiger.inputs = s.uaiger.inputs
  outputs : s'.uaiger.outputs = s.uaiger.outputs
  constraints : s'.uaiger.constraints = s.uaiger.constraints
  hash_size : s'.uaiger.hash_size = s.uaiger.hash_size
  nodes : s'.uaiger.nodes.length ≤ s.uaiger.nodes.length + m

theorem Grown.of_eq {m : Nat} (h : s'.uaiger = s.uaiger) : Grown s s' m := by
  constructor <;> rw [h]
  · exact Ext.refl _
  · omega

theorem Grown.trans {s'' : Unfolding} {m n : Nat} (h : Grown s s' m) (h' : Grown s' s'' n) :
    Grown s s'' (m + n) :=
  ⟨h.ext.trans h'.ext, h'.inputs.trans h.inputs, h'.outputs.trans h.outputs,
    h'.constraints.trans h.constraints, h'.hash_size.trans h.hash_size, by
      have := h.nodes; have := h'.nodes; omega⟩

theorem StepFrame.newAnd (h : StepFrame A n w s) (hn : 2 ≤ n) {i1 i2 : Int} (h1 : s.uaiger.LitIn i1)
    (h2 : s.uaiger.LitIn i2)
    (hv : ∀ leaf, A.eval (w leaf) n = (Logic.litVal (s.uaiger.eval leaf) i1 &&
      Logic.litVal (s.uaiger.eval leaf) i2)) :
    StepFrame A (n + 1) w (s.newAnd n i1 i2) ∧ Grown s (s.newAnd n i1 i2) 1 := by
  obtain ⟨ht, hext, hnew⟩ := h.table.newAnd (o := n) h1 h2
  have hlen : (s.newAnd n i1 i2).uaiger.nodes.length = s.uaiger.nodes.length + 1 := by
    simp [Unfolding.newAnd]
  refine ⟨⟨ht, ?_, fun v hv1 hv2 => ?_, fun leaf v hv1 hv2 => ?_⟩, hext, rfl, rfl, rfl, rfl, hlen.le⟩
  · exact (Function.update_of_ne (by omega) _ _).trans h.one
  · by_cases he : v = n
    · subst he
      have : (s.newAnd v i1 i2).values v = s.uaiger.nsize := Function.update_self _ _ _
      have hnodes := h.table.nodes
      unfold UnfoldAiger.LitIn
      rw [this, hlen, Int.natAbs_natCast]
      unfold UnfoldAiger.nsize
      omega
    · have : (s.newAnd n i1 i2).values v = s.values v := Function.update_of_ne he _ _
      rw [this]
      exact hext.litIn (h.live v hv1 (by omega))
  · by_cases he : v = n
    · subst he
      have : (s.newAnd v i1 i2).values v = s.uaiger.nsize := Function.update_self _ _ _
      rw [this, litVal_natCast, hnew, hv]
    · have : (s.newAnd n i1 i2).values v = s.values v := Function.update_of_ne he _ _
      rw [this, hext.litVal (h.live v hv1 (by omega))]
      exact h.eval leaf v hv1 (by omega)

/-- One gate of the circuit. -/
theorem unfoldAnd_spec {a : AndGate} (ha : a ∈ A.ands) (h : StepFrame A a.o w s)
    (hsize : s.uaiger.nodes.length ≤ s.uaiger.hash_size) :
    ∃ s', s.unfoldAnd A.toAiger a = some s' ∧ StepFrame A (a.o + 1) w s' ∧ Grown s s' 1 := by
  have h1 := A.wf.fanin1 a ha
  have h2 := A.wf.fanin2 a ha
  have hmax := (Circuit.o_range ha).2
  have hgate : ∀ leaf, A.eval (w leaf) a.o = (A.val (w leaf) a.i1 && A.val (w leaf) a.i2) :=
    fun leaf => Circuit.eval_gate (w leaf) ha
  have h0 : StepFrame A a.o w (s.setValue a.o 0) := h.clear (by omega)
  have hg0 : Grown s (s.setValue a.o 0) 0 := .of_eq rfl
  have hu0 : (s.setValue a.o 0).uaiger = s.uaiger := rfl
  unfold Unfolding.unfoldAnd
  simp only
  generalize s.setValue a.o 0 = s0 at h0 hg0 hu0 ⊢
  obtain ⟨r, hr, hfold⟩ := aigAnd_spec h0.sound (by omega)
    (by have := h0.table.nodes; omega) h1 h2 h1.2 h2.2
  rw [hr, Option.bind_some]
  by_cases hr0 : r ≠ 0
  · rw [if_pos hr0]
    refine ⟨_, rfl, h0.setValue (by omega) ⟨by omega, hfold.range hr0⟩ fun leaf => ?_,
      hg0.trans (n := 1) (.of_eq rfl)⟩
    rw [hfold.value hr0 _ ⟨leaf, rfl⟩, h0.litVal h1, h0.litVal h2, hgate]
  rw [if_neg hr0]
  have hl1 := h0.litIn h1
  have hl2 := h0.litIn h2
  rw [if_neg (by have := hl1.2; rw [hu0] at *; omega)]
  by_cases hout : Unfolding.lookup (s0.uaiger.hash_table (value s0.values a.i1).natAbs)
      (value s0.values a.i1) (value s0.values a.i2) ≠ 0
  · rw [if_pos hout]
    obtain ⟨g, hg, ho, hch⟩ := mem_lookup hout
    have hmem := h0.table.bucket _ g hg
    have hr := h0.table.range g hmem
    rw [← ho]
    refine ⟨_, rfl, h0.setValue (by omega) ⟨by simp; omega, by simp; omega⟩ fun leaf => ?_,
      hg0.trans (n := 1) (.of_eq rfl)⟩
    rw [litVal_natCast, h0.table.eval_gate hmem, hgate, ← h0.litVal h1, ← h0.litVal h2]
    rcases hch with ⟨e1, e2⟩ | ⟨e1, e2⟩
    · rw [e1, e2]
    · rw [e1, e2, Bool.and_comm]
  · rw [if_neg hout, if_neg (by have := hl2.2; rw [hu0] at *; omega)]
    obtain ⟨hf, hg⟩ := h0.newAnd (by omega) hl1 hl2 fun leaf => by
      rw [hgate, h0.litVal h1, h0.litVal h2]
    exact ⟨_, rfl, hf, hg0.trans hg⟩

/-- The gates one after the other. -/
theorem unfoldAnds_spec {gs : List AndGate} (hgs : ∀ a ∈ gs, a ∈ A.ands) :
    ∀ {n : Nat} {s : Unfolding}, (∀ i, (h : i < gs.length) → (gs.get ⟨i, h⟩).o = n + i) →
      StepFrame A n w s → (gs = [] ∨ s.uaiger.nodes.length + gs.length ≤ s.uaiger.hash_size + 1) →
      ∃ s', gs.foldlM (Unfolding.unfoldAnd A.toAiger) s = some s' ∧ StepFrame A (n + gs.length) w s' ∧
        Grown s s' gs.length := by
  induction gs with
  | nil => exact fun _ h _ => ⟨_, rfl, h, .of_eq rfl⟩
  | cons a gs ih =>
      intro n s hn h hroom
      have ho : a.o = n := hn 0 (by simp)
      have hsize := hroom.resolve_left (List.cons_ne_nil a gs)
      rw [List.length_cons] at hsize
      obtain ⟨s1, hs1, hf1, hg1⟩ := unfoldAnd_spec (hgs a List.mem_cons_self) (ho ▸ h) (by omega)
      obtain ⟨s2, hs2, hf2, hg2⟩ := ih (fun b hb => hgs b (List.mem_cons_of_mem _ hb)) (n := n + 1)
        (fun i hi => by
          have := hn (i + 1) (by rw [List.length_cons]; omega)
          simp only [List.get_eq_getElem, List.getElem_cons_succ] at this ⊢
          omega)
        (ho ▸ hf1) (.inr (by have := hg1.nodes; have := hg1.hash_size; omega))
      refine ⟨s2, ?_, ?_, ?_⟩
      · rw [List.foldlM_cons, hs1]; exact hs2
      · rw [List.length_cons, Nat.add_comm gs.length 1, ← Nat.add_assoc]; exact hf2
      · rw [List.length_cons, Nat.add_comm gs.length 1]; exact hg1.trans hg2

end ModelChecker
