import ModelChecker.Pdr.Lemmas.Lift

/-!
# Learning lemmas

`add_cube` keeps the lemma clauses of all levels in step with the stored cubes; `mic` and `CTG_down`
only replace a cube by one that may be stored at the same level.
-/

namespace ModelChecker

open Logic

variable {A : Circuit} {E : Eliminator} {p : PDR} {n k : Nat} {c : Cube} {r : Run} {env : PdrEnv}

/-! ## Storing a cube -/

theorem negCube_injective {c d : Cube} (h : negCube c = negCube d) : c = d :=
  List.map_injective_iff.mpr neg_injective h

theorem frameExtra_addClause {i : Nat} {s : CaDiCaL} (h : FrameSolver A E i s) (hc : A.LatchCube c) :
    frameExtra A E i (s.addClause (negCube c)) = frameExtra A E i s ++ [negCube c] :=
  (h.addClause (Or.inl ⟨c, hc, rfl⟩)).2.1

section Insert

variable {b : Bool}

/-- The engine after the cube was stored. -/
def PDR.insert (p : PDR) (c : Cube) (k : Nat) (b : Bool) : PDR :=
  p.setFrames (insertCube p.frames c k b)

theorem length_insert : (p.insert c k b).frames.length = p.frames.length := PDR.length_insertCube

theorem insert_cubes (hk : k < p.frames.length) {j : Nat} {d : Cube} :
    d ∈ ((p.insert c k b).frame j).cubes ↔ (j = k ∧ d = c) ∨ d ∈ (p.frame j).cubes := by
  unfold PDR.insert
  rw [PDR.frame_insertCube hk]
  by_cases hj : j = k
  · subst hj
    rw [if_pos rfl, mem_setInsert cube_CMP_separates]
    simp
  · rw [if_neg hj]
    split <;> simp [hj]

theorem insert_extra (hk : k < p.frames.length) (hc : A.LatchCube c)
    (hs : ∀ j, j < p.frames.length → FrameSolver A E j (p.frame j).solver) {j : Nat} {e : Clause} :
    e ∈ frameExtra A E j ((p.insert c k b).frame j).solver ↔
      ((j = k ∨ (b = true ∧ 1 ≤ j ∧ j < k)) ∧ e = negCube c) ∨
        e ∈ frameExtra A E j (p.frame j).solver := by
  unfold PDR.insert
  rw [PDR.frame_insertCube hk]
  by_cases hj : j = k
  · subst hj
    rw [if_pos rfl, frameExtra_addClause (hs j hk) hc, List.mem_append, List.mem_singleton]
    tauto
  · rw [if_neg hj]
    by_cases hb : b = true ∧ 1 ≤ j ∧ j < k
    · rw [if_pos hb, frameExtra_addClause (hs j (by omega)) hc, List.mem_append, List.mem_singleton]
      tauto
    · rw [if_neg hb]
      tauto

theorem Shape.insertCube (h : Shape A E p) (hk : k < p.frames.length) (hc : A.LatchCube c)
    (hsort : sortLits c = c) (hnew : c ∉ (p.frame k).cubes) : Shape A E (p.insert c k b) := by
  have hfr := fun j => PDR.frame_insertCube (p := p) (c := c) (b := b) (j := j) hk
  refine { h with frames := fun j hj => ?_, cubes := fun j d hd => ?_, nodup := fun j => ?_ }
  · rw [length_insert] at hj
    have hadd := ((h.frames j hj).addClause (Or.inl ⟨c, hc, rfl⟩)).1
    unfold PDR.insert
    rw [hfr]
    split
    · rename_i hjk; subst hjk; exact hadd
    · split
      · exact hadd
      · exact h.frames j hj
  · rcases (insert_cubes hk).mp hd with ⟨_, rfl⟩ | hd
    · exact ⟨hc, hsort⟩
    · exact h.cubes j d hd
  · unfold PDR.insert
    rw [hfr]
    split
    · exact nodup_setInsert cube_CMP_separates hnew (h.nodup k)
    · split <;> exact h.nodup j

theorem Stored.insertCube (h : Stored A E p) (hsh : Shape A E p) (hk1 : 1 ≤ k)
    (hk : k < p.frames.length) (hc : A.LatchCube c)
    (hall : b = true ∨ ∀ i, 1 ≤ i → i < k → negCube c ∈ frameExtra A E i (p.frame i).solver) :
    Stored A E (p.insert c k b) := by
  refine ⟨fun i j d hi hij hd => ?_, fun i d hi hd hm => ?_, ?_⟩
  · rw [insert_extra hk hc hsh.frames]
    rcases (insert_cubes hk).mp hd with ⟨rfl, rfl⟩ | hd
    · rcases lt_or_eq_of_le hij with hlt | rfl
      · rcases hall with hb | hb
        · exact Or.inl ⟨Or.inr ⟨hb, hi, hlt⟩, rfl⟩
        · exact Or.inr (hb i hi hlt)
      · exact Or.inl ⟨Or.inl rfl, rfl⟩
    · exact Or.inr (h.stored i j d hi hij hd)
  · rw [length_insert] at hi
    rcases (insert_extra hk hc hsh.frames).mp hm with ⟨hik, he⟩ | hm
    · obtain rfl := negCube_injective he
      exact ⟨by omega, k, by omega, d, (insert_cubes hk).mpr (Or.inl ⟨rfl, rfl⟩), fun _ h => h⟩
    · obtain ⟨h1, j, hj, e, he, hed⟩ := h.lemmas i d hi hd hm
      exact ⟨h1, j, hj, e, (insert_cubes hk).mpr (Or.inr he), hed⟩
  · unfold PDR.insert
    rw [PDR.frame_insertCube hk, if_neg (by omega), if_neg (by omega)]
    exact h.level0

end Insert

/-- A learnable cube may be stored. -/
theorem Inv.insertCube (hI : Inv A E n r) (hk1 : 1 ≤ k) (hk : k < r.pdr.frames.length)
    (hl : Learnable A r (k - 1) c) (hsort : sortLits c = c) (hnew : c ∉ (r.pdr.frame k).cubes) (b : Bool)
    (hall : b = true ∨ ∀ i, 1 ≤ i → i < k →
      negCube c ∈ frameExtra A E i (r.pdr.frame i).solver) :
    Inv A E n (r.setP (r.pdr.insert c k b)) ∧ Evolves n r (r.setP (r.pdr.insert c k b)) := by
  have hcubes : (r.pdr.insert c k b).cubes =
      Function.update r.pdr.cubes k (insert c (r.pdr.cubes k)) := by
    funext j
    ext d
    rw [show d ∈ (r.pdr.insert c k b).cubes j ↔ d ∈ ((r.pdr.insert c k b).frame j).cubes from Iff.rfl,
      insert_cubes hk]
    by_cases hj : j = k
    · subst hj; simp [PDR.cubes]
    · simp [hj, PDR.cubes]
  have hreach := Ic3.Reachable.learn hI.reach hk1 hk hl.relInd hl.init
  constructor
  · refine ⟨hI.shape.insertCube hk hl.latches hsort hnew,
      hI.stored.insertCube hI.shape hk1 hk hl.latches hall, ?_, fun o ho => ?_,
      fun hc o ho => ?_, hI.size, hI.hist⟩
    · have habs : (r.pdr.insert c k b).abs r.blocked = { r.pdr.abs r.blocked with
          frames := Function.update r.pdr.cubes k (insert c (r.pdr.cubes k)) } := by
        unfold PDR.abs
        rw [hcubes, length_insert]
        rfl
      simp only [setP_pdr, setP_blocked, habs]
      exact hreach
    · have := hI.queue o ho
      simp only [setP_pdr, PDR.depth, length_insert]
      exact this
    · exact .of_states (p := r.pdr) (by rfl) (hI.chains hc o ho)
  · refine ⟨length_insert, fun i w hw => ?_, rfl, rfl, fun _ _ => ⟨rfl, rfl, rfl⟩, le_rfl, id, rfl⟩
    simp only [setP_pdr, hcubes] at hw
    exact (Ic3.excluded_insert.mp hw).1

/-- The cube variable holds a cube with the same literals. -/
theorem Inv.setCube (hI : Inv A E n r) (v : CubeVar) (hc : A.LatchCube c) :
    Inv A E n (r.setP (r.pdr.setCube v c)) ∧ Evolves n r (r.setP (r.pdr.setCube v c)) := by
  have hquiet : Quiet n r (r.setP (r.pdr.setCube v c)) := by
    cases v <;> exact .of_fields rfl rfl rfl rfl
  refine ⟨hI.quiet hquiet ?_ (hI.stored.of_frames (by cases v <;> rfl)) hI.hist,
    hquiet.evolves (by cases v <;> rfl) (by cases v <;> rfl)⟩
  cases v with
  | tmp_core => exact { hI.shape with tmp_core := hc }
  | core => exact { hI.shape with core := hc }

theorem cube_setCube (v : CubeVar) : (p.setCube v c).cube v = c := by cases v <;> rfl

theorem Inv.setEarliest (hI : Inv A E n r) (e : Nat) :
    Inv A E n (r.setP { r.pdr with earliest_strengthened_frame := e }) :=
  hI.quiet (.of_fields rfl rfl rfl rfl)
    { hI.shape with } (hI.stored.of_frames rfl) hI.hist

/-- What `add_cube` guarantees. -/
theorem Inv.add_cube (hI : Inv A E n r) (v : CubeVar) (hk1 : 1 ≤ k) (hk : k < r.pdr.frames.length)
    (hl : Learnable A r (k - 1) (r.pdr.cube v)) (b isp : Bool)
    (hall : b = true ∨ ∀ i, 1 ≤ i → i < k →
      negCube (sortLits (r.pdr.cube v)) ∈ frameExtra A E i (r.pdr.frame i).solver) :
    Inv A E n (r.setP (r.pdr.add_cube v k b isp)) ∧
      Evolves n r (r.setP (r.pdr.add_cube v k b isp)) ∧
      sortLits (r.pdr.cube v) ∈ ((r.pdr.add_cube v k b isp).frame k).cubes ∧
      (∀ j, j ≠ k → ((r.pdr.add_cube v k b isp).frame j).cubes = (r.pdr.frame j).cubes) ∧
      (v = .core → (r.pdr.add_cube v k b isp).tmp_core = r.pdr.tmp_core) ∧
      (r.pdr.add_cube v k b isp).states = r.pdr.states := by
  -- the frames are touched last, after the bookkeeping on `p1` and the sorted cube in `p2`
  set p1 : PDR := if isp then r.pdr else
    { r.pdr with earliest_strengthened_frame := min r.pdr.earliest_strengthened_frame k } with hp1
  have hI1 : Inv A E n (r.setP p1) ∧ Evolves n r (r.setP p1) := by
    rw [hp1]
    cases isp with
    | true => exact ⟨hI, .refl _ _⟩
    | false =>
        refine ⟨hI.setEarliest _, ⟨rfl, fun _ _ h => h, rfl, rfl, fun _ _ => ⟨rfl, rfl, rfl⟩, le_rfl,
          fun he => ?_, rfl⟩⟩
        exact le_min he hk1
  have hcube : p1.cube v = r.pdr.cube v := by rw [hp1]; cases isp <;> cases v <;> rfl
  have hframes1 : p1.frames = r.pdr.frames := by rw [hp1]; cases isp <;> rfl
  have hstates1 : p1.states = r.pdr.states := by rw [hp1]; cases isp <;> rfl
  have htmp1 : p1.tmp_core = r.pdr.tmp_core := by rw [hp1]; cases isp <;> rfl
  set c := sortLits (r.pdr.cube v) with hc
  have hlc : Learnable A r (k - 1) c := hl.congr fun l => mem_sortLits
  have hI2 : Inv A E n (r.setP (p1.setCube v c)) := (hI1.1.setCube v hlc.latches).1
  have hev : Evolves n r (r.setP (p1.setCube v c)) := hI1.2.trans (hI1.1.setCube v hlc.latches).2
  set p2 := p1.setCube v c with hp2
  have hframes2 : p2.frames = r.pdr.frames := by rw [hp2, ← hframes1]; cases v <;> rfl
  have hfr2 : ∀ j, p2.frame j = r.pdr.frame j := by intro j; unfold PDR.frame; rw [hframes2]
  have hstates2 : p2.states = r.pdr.states := by rw [hp2, ← hstates1]; cases v <;> rfl
  have htmp2 : v = .core → p2.tmp_core = r.pdr.tmp_core := by
    rintro rfl; rw [hp2, ← htmp1]; rfl
  have hadd : r.pdr.add_cube v k b isp =
      if c ∈ (p2.frame k).cubes then p2 else p2.insert c k b := by
    rw [hp2, hc, ← hcube]; rfl
  rw [hadd]
  by_cases hmem : c ∈ (p2.frame k).cubes
  · rw [if_pos hmem]
    exact ⟨hI2, hev, hmem, fun j _ => by rw [hfr2], htmp2, hstates2⟩
  · rw [if_neg hmem]
    have hk2 : k < p2.frames.length := by rw [hframes2]; exact hk
    have hl2 : Learnable A (r.setP p2) (k - 1) c := hlc.evolves hev
    obtain ⟨hI3, hev3⟩ := hI2.insertCube hk1 hk2 hl2 (sortLits_sortLits _) hmem b
      (hall.imp id fun h i h1 h2 => by
        rw [show ((r.setP p2).pdr.frame i).solver = (r.pdr.frame i).solver from
          congrArg Frame.solver (hfr2 i)]
        exact h i h1 h2)
    refine ⟨hI3, hev.trans hev3, ?_, fun j hj => ?_, htmp2, hstates2⟩
    · exact (insert_cubes hk2).mpr (Or.inl ⟨rfl, rfl⟩)
    · unfold PDR.insert
      rw [PDR.frame_insertCube hk2, if_neg hj, hfr2]
      split <;> rfl

theorem add_cube_spec (hI : Inv A E n r) (v : CubeVar) (hk1 : 1 ≤ k) (hk : k < r.pdr.frames.length)
    (hl : Learnable A r (k - 1) (r.pdr.cube v)) (isp : Bool) :
    (add_cube v k true isp).Wp (fun _ r' => Inv A E n r' ∧ Evolves n r r' ∧
      sortLits (r.pdr.cube v) ∈ (r'.pdr.frame k).cubes ∧
      (v = .core → r'.pdr.tmp_core = r.pdr.tmp_core) ∧ r'.pdr.states = r.pdr.states)
      (HistGood A E) r := by
  obtain ⟨h1, h2, h3, _, h5, h6⟩ := hI.add_cube v hk1 hk hl true isp (Or.inl rfl)
  exact ⟨h1.record, h2.same_pdr rfl rfl, h3, h5, h6⟩

/-! ## Pushing -/

theorem pushLevel_spec (hI : Inv A E n r) (hc : A.LatchCube c) {m : Nat} (hk1 : 1 ≤ k)
    (hm : k + m ≤ r.pdr.frames.length)
    (hr : Ic3.RelInd A.system InCube r.pdr.cubes (k - 1) c) :
    (pushLevel env c m k).Wp (fun k' r' => Inv A E n r' ∧ Evolves n r r' ∧
      r'.pdr.core = r.pdr.core ∧ r'.pdr.tmp_core = r.pdr.tmp_core ∧ r'.pdr.states = r.pdr.states ∧
      k ≤ k' ∧ k' ≤ k + m ∧ Ic3.RelInd A.system InCube r'.pdr.cubes (k' - 1) c) (HistGood A E) r := by
  induction m generalizing r k with
  | zero => exact ⟨hI, .refl _ _, rfl, rfl, rfl, le_rfl, le_rfl, hr⟩
  | succ m ih =>
      unfold pushLevel
      refine (is_inductive_spec hI hc (by omega) false).bind ?_
      rintro b r1 ⟨hI1, hev1, htmp, hst, hcub, hrel, _, hcore, _⟩
      have hcore := hcore (Or.inr rfl)
      rw [Exec.wp_ite]
      constructor
      · intro hb
        refine (ih hI1 (by omega) (by rw [hev1.len]; omega) ?_).mono ?_ fun _ h => h
        · rw [Nat.add_sub_cancel]; exact hrel hb
        · rintro k' r2 ⟨hI2, hev2, hco2, htm2, hst2, hle, hle', hrel2⟩
          exact ⟨hI2, hev1.trans hev2, hco2.trans hcore, htm2.trans htmp, hst2.trans hst, by omega,
            by omega, hrel2⟩
      · intro _
        exact ⟨hI1, hev1, hcore, htmp, hst, le_rfl, by omega, hcub ▸ hr⟩

/-! ## Counterexamples to generalisation -/

theorem CoreOf.learnable (h : CoreOf A r.pdr k c p.core) (hc : A.LatchCube c)
    (hi : Ic3.MeetsInit A.system InCube c → ∃ b ∈ r.blocked, Ic3.MeetsInit A.system InCube b) :
    Learnable A r k p.core where
  latches := hc.mono h.sublist.subset
  relInd := h.relInd
  init hm := hi (h.init hm ▸ hm)

theorem ctgBlocked_spec (hI : Inv A E n r) (hc : A.LatchCube c) (hk : k < r.pdr.frames.length)
    (ct : Nat) :
    (ctgBlocked env ct k c).Wp (fun b r' => Inv A E n r' ∧ Evolves n r r' ∧
      r'.pdr.tmp_core = r.pdr.tmp_core ∧
      (b = true → 1 < k ∧ Learnable A r' (k - 1) r'.pdr.core)) (HistGood A E) r := by
  unfold ctgBlocked
  rw [Exec.wp_ite]
  constructor
  · rintro ⟨_, hk1⟩
    refine (is_init_spec hI hc).bind ?_
    rintro b r1 ⟨hI1, hev1, _, htmp1, _, _, hb⟩
    rw [Exec.wp_ite]
    constructor
    · exact fun _ => ⟨hI1, hev1, htmp1, (by rintro ⟨⟩)⟩
    · intro hnb
      refine (is_inductive_spec hI1 hc (by rw [hev1.len]; omega) true).mono ?_ fun _ h => h
      rintro b' r2 ⟨hI2, hev2, htmp2, _, _, _, hcore, _⟩
      refine ⟨hI2, hev1.trans hev2, htmp2.trans htmp1, fun hb' => ⟨hk1, ?_⟩⟩
      exact (hcore hb' rfl).learnable hc fun hm => absurd (hb.mpr hm) hnb
  · exact fun _ => ⟨hI, .refl _ _, rfl, (by rintro ⟨⟩)⟩

theorem joinCube_sublist (s_cti required c : Cube) : ((joinCube s_cti required c).1).Sublist c := by
  induction c with
  | nil => simp [joinCube]
  | cons i rest ih =>
      unfold joinCube
      split
      · exact ih.cons_cons i
      · split
        · exact List.nil_sublist _
        · exact ih.cons i

/-! ## `mic` -/

theorem Inv.pushState (hI : Inv A E n r) (st : State) (hst : A.LatchCube st.latches) :
    Inv A E n (r.setP (r.pdr.pushState st)) ∧ Evolves n r (r.setP (r.pdr.pushState st)) := by
  have hsz := hI.size
  have hquiet : Quiet n r (r.setP (r.pdr.pushState st)) := by
    refine ⟨rfl, fun _ => rfl, rfl, rfl, fun s hs => ?_, by simp [PDR.pushState]⟩
    unfold SameState
    rw [setP_pdr, PDR.state_pushState, if_neg (by omega)]
    exact ⟨rfl, rfl, rfl⟩
  refine ⟨hI.quiet hquiet { hI.shape with states := fun s => ?_ } (hI.stored.of_frames rfl) hI.hist,
    hquiet.evolves rfl rfl⟩
  rw [setP_pdr, PDR.state_pushState]
  split
  · exact hst
  · exact hI.shape.states s

/-- What generalisation guarantees of the cube held in `v`. -/
def MicPost (A : Circuit) (E : Eliminator) (n : Nat) (r : Run) (v : CubeVar) (k : Nat) (r' : Run) : Prop :=
  Inv A E n r' ∧ Evolves n r r' ∧ Learnable A r' k (r'.pdr.cube v) ∧
    r'.pdr.cube v ⊆ r.pdr.cube v ∧ (v = .core → r'.pdr.tmp_core = r.pdr.tmp_core) ∧
    (Ic3.MeetsInit A.system InCube (r'.pdr.cube v) → Ic3.MeetsInit A.system InCube (r.pdr.cube v))

def DownPost (A : Circuit) (E : Eliminator) (n : Nat) (r : Run) (k rec_depth : Nat) (c : Cube)
    (x : Bool × Cube) (r' : Run) : Prop :=
  Inv A E n r' ∧ Evolves n r r' ∧ r'.pdr.tmp_core = r.pdr.tmp_core ∧
    (x.1 = true → Learnable A r' k x.2 ∧ x.2 ⊆ c ∧ ¬ Ic3.MeetsInit A.system InCube x.2) ∧
    (x.1 = false → rec_depth > option_ctg_max_depth → r'.pdr.core = r.pdr.core)

theorem MicPost.trans {v : CubeVar} {r' r'' : Run} (hev : Evolves n r r')
    (hsub : r'.pdr.cube v ⊆ r.pdr.cube v)
    (htmp : v = .core → r'.pdr.tmp_core = r.pdr.tmp_core)
    (hini : Ic3.MeetsInit A.system InCube (r'.pdr.cube v) → Ic3.MeetsInit A.system InCube (r.pdr.cube v))
    (h : MicPost A E n r' v k r'') : MicPost A E n r v k r'' :=
  ⟨h.1, hev.trans h.2.1, h.2.2.1, List.Subset.trans h.2.2.2.1 hsub,
    fun hv => (h.2.2.2.2.1 hv).trans (htmp hv), fun hm => hini (h.2.2.2.2.2 hm)⟩

theorem DownPost.trans {r' r'' : Run} {d : Nat} {c' : Cube} {x : Bool × Cube} (hev : Evolves n r r')
    (htmp : r'.pdr.tmp_core = r.pdr.tmp_core) (hd : ¬ d > option_ctg_max_depth) (hsub : c' ⊆ c)
    (h : DownPost A E n r' k d c' x r'') : DownPost A E n r k d c x r'' :=
  ⟨h.1, hev.trans h.2.1, h.2.2.1.trans htmp,
    fun hx => ⟨(h.2.2.2.1 hx).1, List.Subset.trans (h.2.2.2.1 hx).2.1 hsub, (h.2.2.2.1 hx).2.2⟩,
    fun _ hd' => absurd hd' hd⟩

/-- The cube in `v` before it is minimised. Inside a counterexample to generalisation the cube in `core` is
minimised, and then no deeper level may overwrite it. -/
structure MicPre (A : Circuit) (E : Eliminator) (n : Nat) (r : Run) (v : CubeVar) (k depth : Nat) : Prop where
  inv : Inv A E n r
  level : k < r.pdr.frames.length
  pos : 1 ≤ depth
  deep : v = .core → depth > option_ctg_max_depth
  learnable : Learnable A r k (r.pdr.cube v)

structure DownPre (A : Circuit) (E : Eliminator) (n : Nat) (r : Run) (k depth : Nat) (c : Cube) : Prop where
  inv : Inv A E n r
  level : k < r.pdr.frames.length
  pos : 1 ≤ depth
  latches : A.LatchCube c

section Steps

variable {v : CubeVar} {depth : Nat} {r1 : Run}

theorem MicPre.reorder (h : MicPre A E n r v k depth) (env : PdrEnv) :
    let c := env.order r.clock (sortLits (r.pdr.cube v))
    MicPre A E n (r.tick.setP (r.pdr.setCube v c)) v k depth ∧ Evolves n r (r.tick.setP (r.pdr.setCube v c)) ∧
      ∀ l, l ∈ c ↔ l ∈ r.pdr.cube v := by
  intro c
  have hmem : ∀ l, l ∈ c ↔ l ∈ r.pdr.cube v := fun l =>
    (env.order_perm r.clock (sortLits (r.pdr.cube v))).mem_iff.trans mem_sortLits
  have hl := h.learnable.congr hmem
  obtain ⟨hI, hev⟩ := h.inv.tick.setCube v hl.latches
  have hev := (Evolves.tick n r).trans hev
  refine ⟨⟨hI, hev.len ▸ h.level, h.pos, h.deep, ?_⟩, hev, hmem⟩
  rw [setP_pdr, cube_setCube]
  exact hl.evolves hev

theorem MicPre.setCube (h : MicPre A E n r v k depth) (hI : Inv A E n r1) (hev : Evolves n r r1)
    (hc : Learnable A r1 k c) : MicPre A E n (r1.setP (r1.pdr.setCube v c)) v k depth ∧
      Evolves n r (r1.setP (r1.pdr.setCube v c)) := by
  obtain ⟨hI2, hev2⟩ := hI.setCube v hc.latches
  refine ⟨⟨hI2, (hev.trans hev2).len ▸ h.level, h.pos, h.deep, ?_⟩, hev.trans hev2⟩
  rw [setP_pdr, cube_setCube]
  exact hc.evolves hev2

theorem MicPre.down (h : MicPre A E n r v k depth) (l : Int) :
    DownPre A E n r k depth ((r.pdr.cube v).filter (· ≠ l)) :=
  ⟨h.inv, h.level, h.pos, h.learnable.latches.mono List.filter_sublist.subset⟩

/-- A literal that could not be dropped leaves the cube as it was. -/
theorem MicPre.kept (h : MicPre A E n r v k depth) {x : Bool × Cube}
    (hd : DownPost A E n r k depth c x r1) (hx : x.1 = false) :
    MicPre A E n r1 v k depth ∧ r1.pdr.cube v = r.pdr.cube v := by
  have hcube : r1.pdr.cube v = r.pdr.cube v := by
    cases v with
    | tmp_core => exact hd.2.2.1
    | core => exact hd.2.2.2.2 hx (h.deep rfl)
  exact ⟨⟨hd.1, hd.2.1.len ▸ h.level, h.pos, h.deep, hcube ▸ h.learnable.evolves hd.2.1⟩, hcube⟩

theorem DownPre.mono (h : DownPre A E n r k depth c) {c' : Cube} (hI : Inv A E n r1) (hev : Evolves n r r1)
    (hc : c' ⊆ c) : DownPre A E n r1 k depth c' :=
  ⟨hI, hev.len ▸ h.level, h.pos, h.latches.mono hc⟩

/-- The core of a blocked counterexample, pushed to level `i`. -/
theorem DownPre.core (h : DownPre A E n r k depth c) (hk : 1 < k) (hl : Learnable A r (k - 1) r.pdr.core)
    (hI : Inv A E n r1) (hev : Evolves n r r1) (hcore : r1.pdr.core = r.pdr.core) {i : Nat}
    (hi : i ≤ k + (r.pdr.depth + 1 - k)) (hrel : Ic3.RelInd A.system InCube r1.pdr.cubes (i - 1) r.pdr.core) :
    MicPre A E n r1 .core (i - 1) (depth + 1) ∧ i < r1.pdr.frames.length := by
  have hlevel := h.level
  have hlt : i < r.pdr.frames.length := by unfold PDR.depth at hi; omega
  have hpos := h.pos
  have hlearn : Learnable A r1 (i - 1) r1.pdr.core :=
    ⟨hcore ▸ hl.latches, hcore ▸ hrel, hcore ▸ (hl.evolves hev).init⟩
  refine ⟨⟨hI, ?_, by omega, fun _ => ?_, hlearn⟩, ?_⟩
  · rw [hev.len]; omega
  · unfold option_ctg_max_depth; omega
  · rw [hev.len]; exact hlt

end Steps

section Mic

variable (A : Circuit) (env : PdrEnv) (fuel : Nat)

/-- With `fuel`, `mic` keeps its contract; and so do its loop and `CTG_down`. -/
def MicSpec : Prop := ∀ ⦃n k depth : Nat⦄ ⦃r : Run⦄ ⦃v : CubeVar⦄, MicPre A env.minisat n r v k depth →
  (mic env fuel v k depth).Wp (fun _ => MicPost A env.minisat n r v k) (HistGood A env.minisat) r

def LoopSpec : Prop := ∀ ⦃n k depth : Nat⦄ ⦃r : Run⦄ ⦃v : CubeVar⦄, MicPre A env.minisat n r v k depth →
  ∀ tmp required failed, (micLoop env fuel v k depth tmp required failed).Wp
    (fun _ => MicPost A env.minisat n r v k) (HistGood A env.minisat) r

def DownSpec : Prop := ∀ ⦃n k depth : Nat⦄ ⦃r : Run⦄ ⦃c : Cube⦄, DownPre A env.minisat n r k depth c →
  ∀ required ctg join, (CTG_down env fuel c k depth required ctg join).Wp
    (DownPost A env.minisat n r k depth c) (HistGood A env.minisat) r

variable {A env fuel}

/-- The cube is reordered, then the loop runs. -/
theorem LoopSpec.mic (hloop : LoopSpec A env fuel) : MicSpec A env (fuel + 1) := by
  intro n k depth r v h
  unfold ModelChecker.mic
  simp only [Exec.wp_bind, wp_getP, wp_reorder, wp_modifyP, tick_pdr]
  obtain ⟨h1, hev, hmem⟩ := h.reorder env
  refine (hloop h1 _ _ _).mono (fun _ r' hpost => hpost.trans hev ?_ ?_ ?_) fun _ hg => hg
  · rw [setP_pdr, cube_setCube]; exact fun l => (hmem l).mp
  · rintro rfl; rfl
  · rw [setP_pdr, cube_setCube]
    rintro ⟨w, hi, hc, hw⟩
    exact ⟨w, hi, hc, CubeSat.mono (fun l => (hmem l).mpr) hw⟩

/-- One literal of the loop. -/
theorem LoopSpec.next (hloop : LoopSpec A env fuel) (hdown : DownSpec A env fuel) :
    LoopSpec A env (fuel + 1) := by
  intro n k depth r v h tmp required failed
  unfold micLoop
  cases tmp with
  | nil => exact ⟨h.inv, .refl _ _, h.learnable, fun _ hl => hl, fun _ => rfl, id⟩
  | cons l rest =>
      simp only [Exec.wp_bind, wp_getP]
      rw [Exec.wp_ite]
      refine ⟨fun _ => hloop h _ _ _, fun _ => ?_⟩
      refine (hdown (h.down l) _ _ _).bind ?_
      rintro ⟨b, cand⟩ r1 hpost
      have hdowned := hpost
      obtain ⟨hI1, hev1, htmp1, hyes, _⟩ := hpost
      simp only
      rw [Exec.wp_ite]
      constructor
      · intro hb
        obtain ⟨hlc, hsub, hini⟩ := hyes hb
        obtain ⟨h2, hev2⟩ := h.setCube hI1 hev1 hlc
        refine (hloop h2 _ _ _).mono (fun _ r' hpost => hpost.trans hev2 ?_ ?_ ?_) fun _ hg => hg
        · rw [setP_pdr, cube_setCube]; exact List.Subset.trans hsub List.filter_sublist.subset
        · rintro rfl; exact htmp1
        · rw [setP_pdr, cube_setCube]; exact fun hm => absurd hm hini
      · intro hb
        obtain ⟨h1, hcube⟩ := h.kept hdowned (by simpa using hb)
        have hsub : r1.pdr.cube v ⊆ r.pdr.cube v := hcube ▸ fun _ hl => hl
        rw [Exec.wp_ite]
        constructor
        · exact fun _ => ⟨hI1, hev1, h1.learnable, hsub, fun _ => htmp1, hcube ▸ id⟩
        · exact fun _ => (hloop h1 _ _ _).mono
            (fun _ r' hpost => hpost.trans hev1 hsub (fun _ => htmp1) (hcube ▸ id)) fun _ hg => hg

/-- A counterexample to generalisation is blocked at the highest level that allows it. -/
theorem blockCtg_spec (hmic : MicSpec A env fuel) (hdown : DownSpec A env fuel) {depth ctg join : Nat}
    {required : Cube} (h : DownPre A env.minisat n r k depth c) (hshallow : ¬ depth > option_ctg_max_depth)
    (hk : 1 < k) (hl : Learnable A r (k - 1) r.pdr.core) :
    Exec.Wp (do
      let p ← getP
      let i ← pushLevel env p.core (p.depth + 1 - k) k
      mic env fuel .core (i - 1) (depth + 1)
      add_cube .core i true false
      CTG_down env fuel c k depth required (ctg + 1) join) (DownPost A env.minisat n r k depth c)
      (HistGood A env.minisat) r := by
  have hlevel := h.level
  simp only [Exec.wp_bind, wp_getP]
  refine (pushLevel_spec h.inv hl.latches (by omega) ?_ hl.relInd).mono ?_ fun _ hg => hg
  · unfold PDR.depth; omega
  rintro i r1 ⟨hI1, hev1, hco1, htm1, _, hki, hik, hrel1⟩
  obtain ⟨h1, hi⟩ := h.core hk hl hI1 hev1 hco1 hik hrel1
  refine (hmic h1).bind ?_
  rintro _ r2 ⟨hI2, hev2, hl2, _, htm2, _⟩
  refine (add_cube_spec hI2 .core (by omega) (by rw [hev2.len]; exact hi) hl2 false).bind ?_
  rintro _ r3 ⟨hI3, hev3, _, htm3, _⟩
  have hev := hev1.trans (hev2.trans hev3)
  have hself : c ⊆ c := fun _ hl => hl
  refine (hdown (h.mono hI3 hev hself) _ _ _).mono (fun _ r' hpost => ?_) fun _ hg => hg
  exact hpost.trans hev ((htm3 rfl).trans ((htm2 rfl).trans htm1)) hshallow hself

/-- One round of `CTG_down`. -/
theorem DownSpec.next (hmic : MicSpec A env fuel) (hdown : DownSpec A env fuel) :
    DownSpec A env (fuel + 1) := by
  intro n k depth r c h required ctg join
  unfold CTG_down
  refine (is_init_spec h.inv h.latches).bind ?_
  rintro b r1 ⟨hI1, hev1, hco1, htm1, _, _, hb⟩
  rw [Exec.wp_ite]
  refine ⟨fun _ => ⟨hI1, hev1, htm1, (by rintro ⟨⟩), fun _ _ => hco1⟩, fun hnb => ?_⟩
  have hninit : ¬ Ic3.MeetsInit A.system InCube c := fun hm => hnb (hb.mpr hm)
  refine (is_inductive_spec hI1 h.latches (by rw [hev1.len]; exact h.level) true).bind ?_
  rintro b2 r2 ⟨hI2, hev2, htm2, _, _, hrel2, hcore2, hsame2, _⟩
  have hev := hev1.trans hev2
  have htm := htm2.trans htm1
  rw [Exec.wp_ite]
  constructor
  · intro hb2
    simp only [Exec.wp_bind, wp_getP, Exec.wp_pure]
    refine ⟨hI2, hev, htm, fun _ => ?_, (by rintro ⟨⟩)⟩
    dsimp only
    split
    · exact ⟨(hcore2 hb2 rfl).learnable h.latches fun hm => absurd hm hninit,
        (hcore2 hb2 rfl).sublist.subset, fun hm => hninit ((hcore2 hb2 rfl).init hm ▸ hm)⟩
    · exact ⟨⟨h.latches, hrel2 hb2, fun hm => absurd hm hninit⟩, fun _ hl => hl, hninit⟩
  · intro hb2
    have hco2 : r2.pdr.core = r.pdr.core := (hsame2 (Or.inl (by simpa using hb2))).trans hco1
    rw [Exec.wp_ite]
    refine ⟨fun _ => ⟨hI2, hev, htm, (by rintro ⟨⟩), fun _ _ => hco2⟩, fun hshallow => ?_⟩
    simp only [Exec.wp_bind, wp_newState]
    obtain ⟨hI3, hev3⟩ := hI2.pushState {} (by rintro _ ⟨⟩)
    obtain ⟨hI4, hev4⟩ := hI3.pushState { latches := c } h.latches
    have hlen2 := hI2.size
    refine (extract_spec hI4 (s := r2.pdr.states.length) ?_ hlen2 _ _).mono ?_ fun _ hg => hg
    · simp [PDR.pushState]
    rintro _ r5 ⟨hI5, hev5, _, htm5, _, _, _, _⟩
    have hev5' := hev.trans (hev3.trans (hev4.trans hev5))
    simp only [Exec.wp_bind, wp_getP]
    refine (ctgBlocked_spec hI5 (hI5.shape.states _) (by rw [hev5'.len]; exact h.level) ctg).mono ?_
      fun _ hg => hg
    rintro b6 r6 ⟨hI6, hev6, htm6, hblock⟩
    have hev6' := hev5'.trans hev6
    have htm6' : r6.pdr.tmp_core = r.pdr.tmp_core := htm6.trans (htm5.trans htm)
    rw [Exec.wp_ite]
    constructor
    · intro hb6
      obtain ⟨hk1, hl6⟩ := hblock hb6
      have hself : c ⊆ c := fun _ hl => hl
      refine (blockCtg_spec hmic hdown (h.mono hI6 hev6' hself) hshallow hk1 hl6).mono
        (fun _ r' hpost => ?_) fun _ hg => hg
      exact hpost.trans hev6' htm6' hshallow hself
    · intro _
      have hout : ∀ d, DownPost A env.minisat n r k depth c (false, d) r6 := fun d =>
        ⟨hI6, hev6', htm6', (by rintro ⟨⟩), fun _ hd => absurd hd hshallow⟩
      rw [Exec.wp_ite]
      refine ⟨fun _ => ?_, fun _ => hout c⟩
      have hsub := (joinCube_sublist (r5.pdr.state r2.pdr.states.length).latches required c).subset
      rw [Exec.wp_ite]
      refine ⟨fun _ => hout _, fun _ => ?_⟩
      refine (hdown (h.mono hI6 hev6' hsub) _ _ _).mono (fun _ r' hpost => ?_) fun _ hg => hg
      exact hpost.trans hev6' htm6' hshallow hsub

/-- `mic` and `CTG_down` together, by induction on the fuel. -/
theorem mic_spec (fuel : Nat) : MicSpec A env fuel ∧ LoopSpec A env fuel ∧ DownSpec A env fuel := by
  induction fuel with
  | zero =>
      refine ⟨fun n k depth r v h => ?_, fun n k depth r v h _ _ _ => ?_, fun n k depth r c h _ _ _ => ?_⟩
      · unfold mic; exact h.inv.hist
      · unfold micLoop; exact h.inv.hist
      · unfold CTG_down; exact h.inv.hist
  | succ fuel ih =>
      obtain ⟨hmic, hloop, hdown⟩ := ih
      exact ⟨hloop.mic, hloop.next hdown, hdown.next hmic⟩

end Mic

theorem generalize_spec (hI : Inv A env.minisat n r) (hk : k < r.pdr.frames.length)
    (hl : Learnable A r k r.pdr.tmp_core) (fuel : Nat) :
    (generalize env fuel k).Wp (fun _ r' => Inv A env.minisat n r' ∧ Evolves n r r' ∧
      Learnable A r' k r'.pdr.tmp_core ∧ r'.pdr.tmp_core ⊆ r.pdr.tmp_core ∧
      (Ic3.MeetsInit A.system InCube r'.pdr.tmp_core → Ic3.MeetsInit A.system InCube r.pdr.tmp_core))
      (HistGood A env.minisat) r :=
  ((mic_spec fuel).1 (v := .tmp_core) ⟨hI, hk, le_rfl, (by rintro ⟨⟩), hl⟩).mono
    (fun _ _ h => ⟨h.1, h.2.1, h.2.2.1, h.2.2.2.1, h.2.2.2.2.2⟩) fun _ h => h

end ModelChecker
