import ModelChecker.Pdr.Lemmas.Check

/-!
# The order of cubes

The cubes of a frame are sorted by variable, with one literal for each variable, and smaller cubes come
first. The latches of an obligation are sorted as well: they come from a loop over the latches.
-/

namespace ModelChecker

open Logic

variable {α β : Type} {env : PdrEnv}

/-! ## Cubes -/

/-- At most one literal for each variable. -/
def Distinct (c : Cube) : Prop := c.Pairwise fun a b => a.natAbs ≠ b.natAbs

/-- Sorted by variable, with at most one literal for each. -/
def Ordered (c : Cube) : Prop := c.Pairwise fun a b => a.natAbs < b.natAbs

theorem Ordered.distinct {c : Cube} (h : Ordered c) : Distinct c := h.imp fun h => Nat.ne_of_lt h

theorem Distinct.filter {c : Cube} (h : Distinct c) (f : Int → Bool) : Distinct (c.filter f) :=
  h.sublist List.filter_sublist

theorem Distinct.perm {c d : Cube} (h : Distinct c) (hp : d.Perm c) : Distinct d :=
  hp.symm.pairwise h fun h => Ne.symm h

theorem Distinct.sortLits {c : Cube} (h : Distinct c) : Ordered (sortLits c) := by
  have : Std.Total fun a b => Lit_CMP b a = false := ⟨lit_CMP_total⟩
  have : IsTrans Int fun a b => Lit_CMP b a = false := ⟨lit_CMP_trans⟩
  have hsort : (ModelChecker.sortLits c).Pairwise fun a b => Lit_CMP b a = false :=
    List.pairwise_insertionSort _ c
  have hd : Distinct (ModelChecker.sortLits c) := h.perm (perm_sortLits c)
  refine (hsort.and hd).imp ?_
  intro a b hab
  obtain ⟨h1, h2⟩ := hab
  unfold Lit_CMP at h1
  rw [if_neg (Ne.symm h2), decide_eq_false_iff_not] at h1
  omega

/-- The values of consecutive variables. -/
theorem modelLits_ordered (s : CaDiCaL) (first n : Nat) : Ordered (modelLits s first n) := by
  have hval : ∀ v : Nat, s.val v ≠ 0 → (s.val v).natAbs = v := by
    intro v
    unfold CaDiCaL.val
    cases s.answer with
    | none => simp
    | some a =>
        cases a with
        | unsat core => simp
        | sat m =>
            simp only [Int.natAbs_natCast]
            cases m v with
            | none => simp
            | some b => simp only; split <;> simp
  unfold modelLits Ordered
  rw [List.pairwise_filter, List.pairwise_map]
  refine List.pairwise_lt_range.imp ?_
  intro i j hij hi hj
  simp only [ne_eq, decide_not, Bool.not_eq_true', decide_eq_false_iff_not] at hi hj
  rw [hval _ hi, hval _ hj]
  omega

/-- Insertion keeps smaller cubes in front. -/
theorem sizes_setInsert {c : Cube} {cs : List Cube} (h : cs.Pairwise fun c d => c.length ≤ d.length) :
    (setInsert Cube_CMP c cs).Pairwise fun c d => c.length ≤ d.length := by
  have hle : ∀ {a b : Cube}, Cube_CMP a b = true → a.length ≤ b.length := by
    intro a b hab
    unfold Cube_CMP at hab
    split at hab
    · exact Nat.le_of_lt (of_decide_eq_true hab)
    · omega
  induction cs with
  | nil => simp [setInsert]
  | cons d cs ih =>
      obtain ⟨hd, hcs⟩ := List.pairwise_cons.mp h
      unfold setInsert
      split
      next hlt =>
        apply List.pairwise_cons.mpr
        refine ⟨fun e he => ?_, h⟩
        cases he with
        | head => exact hle hlt
        | tail _ he => exact (hle hlt).trans (hd e he)
      next =>
        split
        next hgt =>
          apply List.pairwise_cons.mpr
          refine ⟨fun e he => ?_, ih hcs⟩
          rcases (mem_setInsert cube_CMP_separates).mp he with rfl | he
          · exact hle hgt
          · exact hd e he
        next => exact h

/-! ## The invariant -/

/-- `G` are the state objects that may be obligations. -/
structure Tidy (G : Set Nat) (p : PDR) : Prop where
  cubes : ∀ k, ∀ c ∈ (p.frame k).cubes, Ordered c
  sizes : ∀ k, (p.frame k).cubes.Pairwise fun c d => c.length ≤ d.length
  states : ∀ s ∈ G, s < p.states.length ∧ Ordered (p.state s).latches
  queue : ∀ o ∈ p.obligation_queue, o.state ∈ G
  core : Distinct p.core
  tmp_core : Distinct p.tmp_core

def TidyHist (r : Run) : Prop := ∀ p ∈ r.hist, ∃ G, Tidy G p

structure Kept (G : Set Nat) (r : Run) : Prop where
  pdr : Tidy G r.pdr
  hist : TidyHist r

variable {G : Set Nat} {p p' : PDR} {r r' : Run}

theorem Kept.set (h : Kept G r) (ht : Tidy G p) : Kept G (r.setP p) := ⟨ht, h.hist⟩

theorem Kept.record (h : Kept G r) : Kept G r.record :=
  ⟨h.pdr, List.forall_mem_cons.mpr ⟨⟨G, h.pdr⟩, h.hist⟩⟩

theorem Tidy.cube (h : Tidy G p) (v : CubeVar) : Distinct (p.cube v) := by
  cases v with
  | tmp_core => exact h.tmp_core
  | core => exact h.core

theorem Tidy.setCube (h : Tidy G p) (v : CubeVar) {c : Cube} (hc : Distinct c) : Tidy G (p.setCube v c) := by
  cases v with
  | tmp_core => exact ⟨h.cubes, h.sizes, h.states, h.queue, h.core, hc⟩
  | core => exact ⟨h.cubes, h.sizes, h.states, h.queue, hc, h.tmp_core⟩

/-- Other solvers for the same cubes. -/
theorem Tidy.of_cubes (h : Tidy G p) (hc : ∀ k, (p'.frame k).cubes = (p.frame k).cubes)
    (hs : p'.states = p.states) (hq : p'.obligation_queue = p.obligation_queue) (hcore : p'.core = p.core)
    (htmp : p'.tmp_core = p.tmp_core) : Tidy G p' where
  cubes k := by rw [hc]; exact h.cubes k
  sizes k := by rw [hc]; exact h.sizes k
  states s hG := by
    unfold PDR.state
    rw [hs]
    exact h.states s hG
  queue := by rw [hq]; exact h.queue
  core := by rw [hcore]; exact h.core
  tmp_core := by rw [htmp]; exact h.tmp_core

theorem Tidy.setSolver (h : Tidy G p) (k : Nat) (s : CaDiCaL) : Tidy G (p.setSolver k s) := by
  refine h.of_cubes (fun j => ?_) rfl rfl rfl rfl
  by_cases hk : k < p.frames.length
  · rw [PDR.frame_setSolver hk]
    split <;> rfl
  · rw [PDR.setSolver, List.modify_eq_self (not_lt.mp hk)]

theorem Tidy.pushState (h : Tidy G p) (st : State) : Tidy G (p.pushState st) where
  cubes := h.cubes
  sizes := h.sizes
  states s hG := by
    obtain ⟨hs, ho⟩ := h.states s hG
    refine ⟨?_, ?_⟩
    · simp only [PDR.pushState, List.length_append, List.length_singleton]
      omega
    · rw [PDR.state_pushState, if_neg (Nat.ne_of_lt hs)]
      exact ho
  queue := h.queue
  core := h.core
  tmp_core := h.tmp_core

/-- A state object is changed to one with sorted latches. -/
theorem Tidy.setState (h : Tidy G p) (s : Nat) {f : State → State}
    (hf : ∀ st, Ordered st.latches → Ordered (f st).latches) : Tidy G (p.setState s f) where
  cubes := h.cubes
  sizes := h.sizes
  states t hG := by
    obtain ⟨ht, ho⟩ := h.states t hG
    refine ⟨by rw [PDR.length_setState]; exact ht, ?_⟩
    by_cases hs : s < p.states.length
    · rw [PDR.state_setState hs]
      split
      · exact hf _ ho
      · exact ho
    · rw [PDR.setState_of_ge (not_lt.mp hs)]
      exact ho
  queue := h.queue
  core := h.core
  tmp_core := h.tmp_core

theorem Tidy.insertCube (h : Tidy G p) {c : Cube} (hc : Ordered c) (k : Nat) (b : Bool) :
    Tidy G (p.setFrames (insertCube p.frames c k b)) := by
  refine ⟨fun j d hd => ?_, fun j => ?_, h.states, h.queue, h.core, h.tmp_core⟩
  · rw [PDR.insertCube_cubes] at hd
    split at hd
    · rcases (mem_setInsert cube_CMP_separates).mp hd with rfl | hd
      · exact hc
      · exact h.cubes j d hd
    · exact h.cubes j d hd
  · rw [PDR.insertCube_cubes]
    split
    · exact sizes_setInsert (h.sizes j)
    · exact h.sizes j

/-! ## Programs -/

/-- The program keeps the invariant, and its result satisfies `Q`. -/
def Tidies (x : PdrM α) (Q : α → Prop) : Prop :=
  ∀ G r, Kept G r → x.Wp (fun a r' => Kept G r' ∧ Q a) TidyHist r

section Rules

variable {x y : PdrM α} {P Q : α → Prop} {f : α → PdrM β} {R : β → Prop}

theorem Tidies.bind (hx : Tidies x P) (hf : ∀ a, P a → Tidies (f a) R) : Tidies (x >>= f) R :=
  fun G r h => (hx G r h).bind fun a r' ha => hf a ha.2 G r' ha.1

theorem Tidies.mono (hx : Tidies x P) (h : ∀ a, P a → Q a) : Tidies x Q :=
  fun G r hr => (hx G r hr).mono (fun a _ ha => ⟨ha.1, h a ha.2⟩) fun _ h => h

theorem Tidies.pure {a : α} (h : Q a) : Tidies (Pure.pure a) Q := fun _ _ hr => ⟨hr, h⟩

theorem Tidies.throw (e : Stop) : Tidies (Exec.throw e : PdrM α) Q := fun _ _ hr => hr.hist

theorem Tidies.ite {c : Prop} [Decidable c] (hx : Tidies x Q) (hy : Tidies y Q) :
    Tidies (if c then x else y) Q := by
  split
  · exact hx
  · exact hy

theorem Tidies.modifyP {f : PDR → PDR} (hf : ∀ G p, Tidy G p → Tidy G (f p)) :
    Tidies (ModelChecker.modifyP f) fun _ => True := fun G r hr => ⟨hr.set (hf G r.pdr hr.pdr), trivial⟩

end Rules

/-- A state of the engine that is tidy for some obligations. -/
def Neat (p : PDR) : Prop := ∃ G, Tidy G p

theorem tidies_getP : Tidies getP Neat := fun G _ hr => ⟨hr, G, hr.pdr⟩

theorem tidies_record : Tidies record fun _ => True := fun _ _ hr => ⟨hr.record, trivial⟩

theorem tidies_ask (q : Query) : Tidies (ask env q) fun _ => True := fun _ _ hr => ⟨⟨hr.pdr, hr.hist⟩, trivial⟩

theorem tidies_reorder (c : Cube) : Tidies (reorder env c) fun d => d.Perm c :=
  fun _ r hr => ⟨⟨hr.pdr, hr.hist⟩, env.order_perm r.clock c⟩

theorem tidies_readRESULT : Tidies (readRESULT env) fun _ => True := fun _ _ hr => ⟨⟨hr.pdr, hr.hist⟩, trivial⟩

theorem tidies_newState (st : State) : Tidies (newState st) fun _ => True :=
  fun _ _ hr => ⟨hr.set (hr.pdr.pushState st), trivial⟩

/-! ## Queries -/

variable {c : Cube}

theorem tidies_is_init (c : Cube) : Tidies (is_init env c) fun _ => True := by
  unfold is_init
  refine .bind tidies_getP fun p _ => .bind (tidies_ask _) fun a _ => .bind (.modifyP ?_) fun _ _ => .pure trivial
  exact fun G p h => h.of_cubes (fun _ => rfl) rfl rfl rfl rfl

theorem tidies_askInductive (k : Nat) (c : Cube) : Tidies (askInductive env k c) fun _ => True := by
  unfold askInductive
  refine .bind (tidies_reorder c) fun _ _ => .bind tidies_getP fun _ _ => .bind (tidies_ask _) fun _ _ => ?_
  exact .bind (.modifyP fun G p h => h.setSolver k _) fun _ _ => .bind tidies_record fun _ _ => .pure trivial

theorem tidies_takeCore (s : CaDiCaL) (hc : Distinct c) : Tidies (takeCore env s c) fun _ => True := by
  have hset : ∀ f : PDR → Cube, (∀ p, Distinct (f p)) →
      Tidies (modifyP fun p => { p with core := f p }) fun _ => True :=
    fun f hf => .modifyP fun G p h => h.setCube .core (hf p)
  unfold takeCore
  refine .bind (hset _ fun p => hc.filter _) fun _ _ => .bind tidies_getP fun _ _ => ?_
  exact .bind (tidies_is_init _) fun _ _ => .ite (hset _ fun _ => hc) (.pure trivial)

theorem tidies_is_inductive (k : Nat) (hc : Distinct c) (g : Bool) :
    Tidies (is_inductive env k c g) fun _ => True := by
  unfold is_inductive
  refine .bind (tidies_askInductive k c) fun s _ => .ite (.pure trivial) ?_
  cases g with
  | true => exact .bind (tidies_takeCore s hc) fun _ _ => .pure trivial
  | false => exact .pure trivial

theorem tidies_pushLevel (hc : Distinct c) (n k : Nat) : Tidies (pushLevel env c n k) fun _ => True := by
  induction n generalizing k with
  | zero => exact .pure trivial
  | succ n ih => exact .bind (tidies_is_inductive k hc false) fun _ _ => .ite (ih (k + 1)) (.pure trivial)

theorem tidies_ctgBlocked (ct k : Nat) (hc : Distinct c) : Tidies (ctgBlocked env ct k c) fun _ => True := by
  unfold ctgBlocked
  refine .ite (.bind (tidies_is_init c) fun _ _ => .ite (.pure trivial) ?_) (.pure trivial)
  exact tidies_is_inductive _ hc true

theorem Tidy.add_cube (h : Tidy G p) (v : CubeVar) (k : Nat) (b isp : Bool) : Tidy G (p.add_cube v k b isp) := by
  have hstore : ∀ q, Tidy G q → Tidy G (if sortLits (q.cube v) ∈ ((q.setCube v (sortLits (q.cube v))).frame k).cubes
      then q.setCube v (sortLits (q.cube v)) else (q.setCube v (sortLits (q.cube v))).setFrames
        (ModelChecker.insertCube (q.setCube v (sortLits (q.cube v))).frames (sortLits (q.cube v)) k b)) := by
    intro q hq
    have hcube := (hq.cube v).sortLits
    split
    · exact hq.setCube v hcube.distinct
    · exact (hq.setCube v hcube.distinct).insertCube hcube k b
  cases isp with
  | true => exact hstore p h
  | false => exact hstore _ (h.of_cubes (fun _ => rfl) rfl rfl rfl rfl)

theorem tidies_add_cube (v : CubeVar) (k : Nat) (b isp : Bool) : Tidies (add_cube v k b isp) fun _ => True :=
  .bind (.modifyP fun _ _ h => h.add_cube v k b isp) fun _ _ => tidies_record

/-! ## Lifting -/

theorem tidies_askLift (k : Nat) (succ : Option Nat) :
    Tidies (askLift env k succ) fun a => Ordered a.2.latches := by
  have hfill : ∀ G p, Tidy G p → Tidy G (p.fillSatelite2 env.minisat) := by
    intro G p h
    unfold PDR.fillSatelite2
    split
    · exact h
    · exact h.of_cubes (fun _ => rfl) rfl rfl rfl rfl
  have hload : Tidies (loadLift env) fun _ => True := by
    unfold loadLift
    refine .bind tidies_getP fun p _ => ?_
    cases p.lift with
    | some l => exact .pure trivial
    | none =>
        unfold encode_lift
        refine .bind (P := fun _ => True) ?_ fun _ _ => .pure trivial
        exact .bind (.modifyP hfill) fun _ _ => .bind tidies_getP fun _ _ => .pure trivial
  unfold askLift
  refine .bind hload fun _ _ => .bind tidies_getP fun p _ => .bind (tidies_reorder _) fun _ _ => ?_
  refine .bind (tidies_ask _) fun _ _ => .ite (.throw _) (.pure ?_)
  exact (modelLits_ordered _ _ _).sublist List.filter_sublist

/-- The state object is filled with sorted latches. -/
theorem kept_extract (hr : Kept G r) (k s : Nat) (succ : Option Nat) (findex : Nat) :
    (extract_state_from_sat env k s succ findex).Wp
      (fun _ r' => Kept G r' ∧ Ordered (r'.pdr.state s).latches) TidyHist r := by
  unfold extract_state_from_sat
  refine (tidies_askLift k succ G r hr).bind fun a r1 h1 => ?_
  obtain ⟨h1, ha⟩ := h1
  simp only [Exec.wp_bind, wp_modifyP, wp_record]
  have hset := h1.pdr.setState s (f := fun t => { t with latches := a.2.latches, inputs := a.2.inputs, next := succ })
    fun _ _ => ha
  have hfill : Tidy G (r1.pdr.fillState s a.2 succ a.1 findex) := hset.of_cubes (fun _ => rfl) rfl rfl rfl rfl
  refine ⟨(h1.set hfill).record, ?_⟩
  show Ordered ((r1.pdr.setState s _).state s).latches
  by_cases hs : s < r1.pdr.states.length
  · rw [PDR.state_setState hs, if_pos rfl]
    exact ha
  · rw [PDR.setState_of_ge (not_lt.mp hs), PDR.state, List.getD_eq_getElem?_getD,
      List.getElem?_eq_none (not_lt.mp hs)]
    exact List.Pairwise.nil

theorem tidies_extract (k s : Nat) (succ : Option Nat) (findex : Nat) :
    Tidies (extract_state_from_sat env k s succ findex) fun _ => True :=
  fun _ _ hr => (kept_extract hr k s succ findex).mono (fun _ _ h => ⟨h.1, trivial⟩) fun _ h => h

/-! ## Generalisation -/

theorem tidies_setCube (v : CubeVar) (hc : Distinct c) : Tidies (modifyP fun p => p.setCube v c) fun _ => True :=
  .modifyP fun _ _ h => h.setCube v hc

theorem tidies_mic (fuel : Nat) :
    (∀ v k depth, Tidies (mic env fuel v k depth) fun _ => True) ∧
    (∀ v k depth tmp required failed, Tidies (micLoop env fuel v k depth tmp required failed) fun _ => True) ∧
    (∀ c k depth required ctg join, Distinct c →
      Tidies (CTG_down env fuel c k depth required ctg join) fun x => Distinct x.2) := by
  induction fuel with
  | zero =>
      refine ⟨fun v k depth => ?_, fun v k depth tmp required failed => ?_,
        fun c k depth required ctg join _ => ?_⟩
      · unfold mic; exact .throw _
      · unfold micLoop; exact .throw _
      · unfold CTG_down; exact .throw _
  | succ fuel ih =>
      obtain ⟨ihmic, ihloop, ihdown⟩ := ih
      refine ⟨fun v k depth => ?_, fun v k depth tmp required failed => ?_,
        fun c k depth required ctg join hc => ?_⟩
      · unfold mic
        refine .bind tidies_getP fun p hp => .bind (tidies_reorder _) fun d hd => ?_
        obtain ⟨G, hp⟩ := hp
        exact .bind (tidies_setCube v ((hp.cube v).sortLits.distinct.perm hd)) fun _ _ => ihloop _ _ _ _ _ _
      · unfold micLoop
        cases tmp with
        | nil => exact .pure trivial
        | cons l rest =>
            refine .bind tidies_getP fun p hp => .ite (ihloop _ _ _ _ _ _) ?_
            obtain ⟨G, hp⟩ := hp
            refine .bind (ihdown _ _ _ _ _ _ ((hp.cube v).filter _)) fun x hx => .ite ?_ ?_
            · exact .bind (tidies_setCube v hx) fun _ _ => ihloop _ _ _ _ _ _
            · exact .ite (.pure trivial) (ihloop _ _ _ _ _ _)
      · unfold CTG_down
        refine .bind (tidies_is_init c) fun _ _ => .ite (.pure hc) ?_
        refine .bind (tidies_is_inductive k hc true) fun _ _ => .ite ?_ (.ite (.pure hc) fun G r hr => ?_)
        · refine .bind tidies_getP fun p hp => .pure ?_
          obtain ⟨G, hp⟩ := hp
          dsimp only
          split
          · exact hp.core
          · exact hc
        · -- two new state objects; the first is filled with the counterexample to generalisation
          rw [Exec.wp_bind, wp_newState, Exec.wp_bind, wp_newState]
          have h2 := (hr.set (hr.pdr.pushState {}))
          refine (kept_extract (h2.set (h2.pdr.pushState { latches := c })) _ _ _ _).bind fun _ r3 h3 => ?_
          obtain ⟨h3, hcti⟩ := h3
          rw [Exec.wp_bind, wp_getP]
          refine Tidies.bind (tidies_ctgBlocked ctg k hcti.distinct) (fun b _ => .ite ?_ ?_) G r3 h3
          · refine .bind tidies_getP fun p hp => ?_
            obtain ⟨G, hp⟩ := hp
            refine .bind (tidies_pushLevel hp.core _ _) fun i _ => .bind (ihmic _ _ _) fun _ _ => ?_
            exact .bind (tidies_add_cube _ _ _ _) fun _ _ => ihdown _ _ _ _ _ _ hc
          · have hjoin := hc.sublist (joinCube_sublist (r3.pdr.state r.pdr.states.length).latches required c)
            exact .ite (.ite (.pure hjoin) (ihdown _ _ _ _ _ _ hjoin)) (.pure hc)

/-! ## Blocking -/

theorem Tidy.setQueue (h : Tidy G p) {q : List Obligation} (hq : ∀ o ∈ q, o.state ∈ G) : Tidy G (p.setQueue q) :=
  ⟨h.cubes, h.sizes, h.states, hq, h.core, h.tmp_core⟩

theorem tidies_eraseObligation : Tidies eraseObligation fun _ => True :=
  .bind (.modifyP fun _ _ h => h.setQueue fun o ho => h.queue o (List.mem_of_mem_tail ho)) fun _ _ => tidies_record

theorem kept_insertObligation (hr : Kept G r) {o : Obligation} (ho : o.state ∈ G) :
    (insertObligation o).Wp (fun _ r' => Kept G r') TidyHist r := by
  have hq : Tidy G (r.pdr.setQueue (setInsert Obligation.lt o r.pdr.obligation_queue)) := by
    refine hr.pdr.setQueue fun x hx => ?_
    rcases (mem_setInsert obligation_separates).mp hx with rfl | hx
    · exact ho
    · exact hr.pdr.queue x hx
  exact (hr.set hq).record

theorem Tidy.onNext (h : Tidy G p) (s : Nat) {f : State → State}
    (hf : ∀ st, Ordered st.latches → Ordered (f st).latches) : Tidy G (p.onNext s f) := by
  unfold PDR.onNext
  split
  · exact h.setState _ hf
  · exact h

theorem tidies_pushObligation (o : Obligation) (k : Nat) : Tidies (pushObligation env o k) fun _ => True :=
  .bind tidies_getP fun _ _ => .bind (.modifyP fun _ _ h => h.of_cubes (fun _ => rfl) rfl rfl rfl rfl)
    fun _ _ => .pure trivial

theorem kept_blockObligation (hr : Kept G r) {o : Obligation} (ho : o.state ∈ G) (fuel : Nat) :
    (blockObligation env fuel o).Wp (fun _ r' => Kept G r') TidyHist r := by
  unfold blockObligation
  rw [Exec.wp_bind, Exec.wp_modify]
  have h0 : Kept G (r.block (r.pdr.state o.state).latches) := ⟨hr.pdr, hr.hist⟩
  refine (tidies_eraseObligation G _ h0).bind fun _ r1 h1 => ?_
  rw [Exec.wp_bind, wp_modifyP]
  have h2 := h1.1.set (h1.1.pdr.setCube .tmp_core h1.1.pdr.core)
  refine ((tidies_mic fuel).1 .tmp_core o.frame_k 1 G _ h2).bind fun _ r3 h3 => ?_
  rw [Exec.wp_bind, wp_modifyP, Exec.wp_bind, wp_getP]
  have h4 := h3.1.set (h3.1.pdr.onNext o.state (f := punish r3.pdr.tmp_core) fun _ h => h)
  refine (tidies_pushLevel h4.pdr.tmp_core _ _ G _ h4).bind fun k r5 h5 => ?_
  refine (tidies_pushObligation o k G r5 h5.1).bind fun b r6 h6 => ?_
  refine (tidies_add_cube .tmp_core k true false G r6 h6.1).bind fun _ r7 h7 => ?_
  split
  · exact kept_insertObligation h7.1 ho
  · exact h7.1

theorem tidies_log_witness (fuel : Nat) (s : Option Nat) : Tidies (log_witness fuel s) fun _ => True := by
  induction fuel generalizing s with
  | zero => exact .throw _
  | succ fuel ih =>
      cases s with
      | none => exact .pure trivial
      | some s =>
          refine .bind tidies_getP fun p _ => .bind (.modifyP ?_) fun _ _ => ih _
          exact fun _ _ h => h.of_cubes (fun _ => rfl) rfl rfl rfl rfl

/-- A new state object may become an obligation. -/
theorem Kept.pushState (h : Kept G r) : Kept (insert r.pdr.states.length G) (r.setP (r.pdr.pushState {})) := by
  have hp := h.pdr.pushState {}
  refine ⟨⟨hp.cubes, hp.sizes, fun s hs => ?_, fun o ho => .inr (hp.queue o ho), hp.core, hp.tmp_core⟩, h.hist⟩
  cases hs with
  | inl hs =>
      subst hs
      refine ⟨by simp [PDR.pushState], ?_⟩
      rw [setP_pdr, PDR.state_pushState, if_pos rfl]
      exact List.Pairwise.nil
  | inr hs => exact hp.states s hs

theorem kept_expandObligation (hr : Kept G r) (o : Obligation) (fuel : Nat) :
    (expandObligation env fuel o).Wp (fun _ r' => ∃ G, Kept G r') TidyHist r := by
  have hsame : ∀ n : Nat, ∀ st : State, Ordered st.latches → Ordered ({ st with failed_depth := n }).latches :=
    fun _ _ h => h
  have hold : ∀ {x : PdrM Bool}, Tidies x (fun _ => True) → x.Wp (fun _ r' => ∃ G, Kept G r') TidyHist r :=
    fun hx => (hx G r hr).mono (fun _ _ h => ⟨G, h.1⟩) fun _ h => h
  unfold expandObligation
  rw [Exec.wp_bind, wp_getP]
  dsimp only
  split
  · refine hold (.bind tidies_eraseObligation fun _ _ => .bind (.modifyP ?_) fun _ _ => .pure trivial)
    exact fun _ _ h => h.onNext _ (hsame _)
  · split
    · refine hold (.bind tidies_eraseObligation fun _ _ => .bind (.modifyP ?_) fun _ _ => ?_)
      · exact fun _ _ h => h.setState _ (hsame _)
      · exact .bind (.modifyP fun _ _ h => h.onNext _ (hsame _)) fun _ _ => .pure trivial
    · split
      · refine hold (.bind (tidies_newState _) fun s _ => .bind (.modifyP ?_) fun _ _ => ?_)
        · exact fun _ _ h => h.of_cubes (fun _ => rfl) rfl rfl rfl rfl
        · exact .bind (tidies_log_witness _ _) fun _ _ => .pure trivial
      · rw [Exec.wp_bind, wp_newState]
        refine (kept_extract hr.pushState _ _ _ _).bind fun _ r2 h2 => ?_
        refine (kept_insertObligation h2.1 (.inl rfl)).bind fun _ r3 h3 => ?_
        exact ⟨_, h3⟩

theorem kept_rec_block_cube (hr : Kept G r) (fuel : Nat) :
    (rec_block_cube env fuel).Wp (fun _ r' => ∃ G, Kept G r') TidyHist r := by
  induction fuel generalizing G r with
  | zero => exact hr.hist
  | succ fuel ih =>
      rw [rec_block_cube, Exec.wp_bind, wp_getP]
      cases hq : r.pdr.obligation_queue with
      | nil => exact ⟨G, hr⟩
      | cons o rest =>
          have ho : o.state ∈ G := hr.pdr.queue o (hq ▸ List.mem_cons_self)
          dsimp only
          rw [Exec.wp_bind, wp_readRESULT]
          have h1 : Kept G r.tick := ⟨hr.pdr, hr.hist⟩
          split
          · exact ⟨G, h1⟩
          · refine (tidies_is_inductive _ (hr.pdr.states _ ho).2.distinct true G _ h1).bind fun b r2 h2 => ?_
            cases b with
            | true => exact (kept_blockObligation h2.1 ho fuel).bind fun _ r3 h3 => ih h3
            | false =>
                refine (kept_expandObligation h2.1 o fuel).bind fun go r3 h3 => ?_
                obtain ⟨G', h3⟩ := h3
                cases go with
                | true => exact ih h3
                | false => exact ⟨G', h3⟩

/-! ## Propagation -/

theorem tidies_propagateCube (i : Nat) (hc : Distinct c) : Tidies (propagateCube env i c) fun _ => True := by
  unfold propagateCube
  refine .bind (tidies_is_inductive i hc true) fun _ _ => .ite ?_ (.pure trivial)
  refine .bind tidies_getP fun _ _ => .bind (tidies_add_cube _ _ _ _) fun _ _ => .bind (.modifyP ?_) fun _ _ =>
    tidies_record
  intro G p h
  by_cases hi : i < p.frames.length
  · refine ⟨fun j d hd => ?_, fun j => ?_, h.states, h.queue, h.core, h.tmp_core⟩
    · rw [PDR.frame_setCubes hi] at hd
      split at hd
      · exact h.cubes i d (List.mem_of_mem_erase hd)
      · exact h.cubes j d hd
    · rw [PDR.frame_setCubes hi]
      split
      · exact (h.sizes i).sublist List.erase_sublist
      · exact h.sizes j
  · rw [PDR.setCubes, List.modify_eq_self (not_lt.mp hi)]
    exact h

theorem tidies_forEach {xs : List Cube} {f : Cube → PdrM Unit} (h : ∀ c ∈ xs, Tidies (f c) fun _ => True) :
    Tidies (Exec.forEach xs f) fun _ => True := by
  induction xs with
  | nil => exact .pure trivial
  | cons c xs ih =>
      obtain ⟨h1, h2⟩ := List.forall_mem_cons.mp h
      exact .bind h1 fun _ _ => ih h2

theorem tidies_propagateLevels (n i : Nat) : Tidies (propagateLevels env n i) fun _ => True := by
  induction n generalizing i with
  | zero => exact .pure trivial
  | succ n ih =>
      refine .bind tidies_getP fun p hp => ?_
      obtain ⟨G, hp⟩ := hp
      refine .bind (tidies_forEach fun c hc => tidies_propagateCube i (hp.cubes i c hc).distinct) fun _ _ => ?_
      refine .bind tidies_getP fun _ _ => .ite (.bind (P := fun _ => True) ?_ fun _ _ => .pure trivial) (ih (i + 1))
      exact .bind tidies_readRESULT fun _ _ => fun G r hr => ⟨⟨hr.pdr, hr.hist⟩, trivial⟩

theorem tidies_propagate : Tidies (propagate env) fun _ => True :=
  .bind tidies_getP fun _ _ => tidies_propagateLevels _ _

/-! ## Check -/

theorem tidies_encode_translation (s : CaDiCaL) : Tidies (encode_translation env s) fun _ => True := by
  refine .bind (.modifyP fun G p h => ?_) fun _ _ => .bind tidies_getP fun _ _ => .pure trivial
  unfold PDR.fillSatelite
  split
  · exact h
  · exact h.of_cubes (fun _ => rfl) rfl rfl rfl rfl

theorem tidies_new_frame : Tidies (new_frame env) fun _ => True :=
  .bind (tidies_encode_translation {}) fun _ _ => .modifyP fun _ _ h => h.of_cubes extend_cubes rfl rfl rfl rfl

theorem tidies_check_BMC0 : Tidies (check_BMC0 env) fun _ => True := by
  refine .bind tidies_getP fun _ _ => .bind (tidies_ask _) fun _ _ => .ite ?_ ?_
  · refine .bind (.modifyP ?_) fun _ _ => .pure trivial
    exact fun _ _ h => h.of_cubes (fun _ => rfl) rfl rfl rfl rfl
  · refine .bind (P := fun _ => True) ?_ fun _ _ => .pure trivial
    refine .bind tidies_new_frame fun _ _ => .bind (.modifyP ?_) fun _ _ => tidies_record
    exact fun _ _ h => h.setSolver 0 _

theorem tidies_check_BMC1 : Tidies (check_BMC1 env) fun _ => True := by
  refine .bind tidies_getP fun _ _ => .bind (tidies_encode_translation _) fun _ _ => ?_
  refine .bind tidies_getP fun _ _ => .bind (tidies_ask _) fun _ _ => .ite ?_ ?_
  · refine .bind (.modifyP ?_) fun _ _ => .pure trivial
    exact fun _ _ h => h.of_cubes (fun _ => rfl) rfl rfl rfl rfl
  · exact .bind tidies_new_frame fun _ _ => .bind tidies_record fun _ _ => .pure trivial

theorem tidies_pushFrame : Tidies (pushFrame env) fun _ => True := by
  refine .bind tidies_new_frame fun _ _ => .bind (.modifyP ?_) fun _ _ => tidies_record
  exact fun _ _ h => h.of_cubes (fun _ => rfl) rfl rfl rfl rfl

theorem tidies_reportCex : Tidies (reportCex env >>= fun _ => pure (10 : Int)) fun _ => True := by
  refine .bind (P := fun _ => True) ?_ fun _ _ => .pure trivial
  exact .bind tidies_readRESULT fun _ _ => fun G r hr => ⟨⟨hr.pdr, hr.hist⟩, trivial⟩

theorem tidies_get_pre_of_bad (s : Nat) : Tidies (get_pre_of_bad env s) fun _ => True := by
  have hsolver : Tidies (askBad env) fun _ => True := by
    refine .bind tidies_getP fun _ _ => .bind (tidies_ask _) fun _ _ => .bind (.modifyP ?_) fun _ _ => ?_
    · exact fun _ _ h => h.setSolver _ _
    · exact .bind tidies_record fun _ _ => .pure trivial
  refine .bind (.modifyP ?_) fun _ _ => .bind hsolver fun _ _ => .ite ?_ (.pure trivial)
  · exact fun _ _ h => h.setState s fun _ _ => List.Pairwise.nil
  · refine .bind tidies_getP fun _ _ => .bind (tidies_newState _) fun _ _ => ?_
    refine .bind (tidies_extract _ _ _ _) fun _ _ => .bind (.modifyP ?_) fun _ _ => .pure trivial
    exact fun _ _ h => h.setState s fun _ ho => ho

theorem kept_findCti (hr : Kept G r) :
    (findCti env).Wp (fun o r' => ∃ G, Kept G r' ∧ ∀ s, o = some s → s ∈ G) TidyHist r := by
  unfold findCti
  rw [Exec.wp_bind, wp_newState]
  refine (tidies_get_pre_of_bad _ _ _ hr.pushState).bind fun flag r1 h1 => ⟨_, h1.1, fun s hs => ?_⟩
  cases flag with
  | true =>
      cases hs
      exact .inl rfl
  | false => cases hs

theorem Kept.startBlocking (h : Kept G r) {s : Nat} (hs : s ∈ G) : Kept G (r.startBlocking s) := by
  have hq : Tidy G (r.pdr.setQueue [⟨s, r.pdr.depth - 1, 1⟩]) :=
    h.pdr.setQueue fun o ho => by rw [List.mem_singleton.mp ho]; exact hs
  have hp : Tidy G { r.pdr.setQueue [⟨s, r.pdr.depth - 1, 1⟩] with top_frame_cannot_reach_bad := false } :=
    hq.of_cubes (fun _ => rfl) rfl rfl rfl rfl
  exact (h.set hp).record

theorem kept_mainLoop (hr : Kept G r) (fuel : Nat) :
    (mainLoop env fuel).Wp (fun _ r' => TidyHist r') TidyHist r := by
  induction fuel generalizing G r with
  | zero => exact hr.hist
  | succ fuel ih =>
      rw [mainLoop_succ, Exec.wp_bind, wp_readRESULT]
      split
      · exact hr.hist
      · have h1 : Kept G r.tick := ⟨hr.pdr, hr.hist⟩
        refine (kept_findCti h1).bind fun o r2 h2 => ?_
        obtain ⟨G2, h2, ho⟩ := h2
        cases o with
        | some s =>
            dsimp only
            rw [Exec.wp_bind, Exec.wp_modify]
            refine (kept_rec_block_cube (h2.startBlocking (ho s rfl)) fuel).bind fun b r3 h3 => ?_
            obtain ⟨G3, h3⟩ := h3
            cases b with
            | true => exact ih h3
            | false => exact (tidies_reportCex G3 r3 h3).mono (fun _ _ h => h.1.hist) fun _ h => h
        | none =>
            have hstr : Tidies (strengthen env) fun _ => True :=
              .bind tidies_getP fun _ _ => .ite (.throw _) tidies_propagate
            refine (hstr G2 r2 h2).bind fun b r3 h3 => ?_
            cases b with
            | true => exact h3.1.hist
            | false => exact (tidies_pushFrame G2 r3 h3.1).bind fun _ r4 h4 => ih h4.1

/-- Every recorded state of a run is tidy. -/
theorem check_tidy (A : Circuit) (env : PdrEnv) (fuel : Nat) : TidyHist (runCheck env A fuel).2 := by
  have h0 : Kept ∅ { pdr := { circuit := A.toAiger } } := by
    refine ⟨⟨?_, fun k => ?_, ?_, ?_, List.Pairwise.nil, List.Pairwise.nil⟩, by rintro p ⟨⟩⟩
    · rintro k c ⟨⟩
    · exact List.Pairwise.nil
    · rintro s ⟨⟩
    · rintro o ⟨⟩
  have hpro : Tidies (prologue env) fun _ => True := by
    refine .bind (.modifyP ?_) fun _ _ => .bind tidies_check_BMC0 fun _ _ => .ite (.pure trivial) ?_
    · exact fun _ _ h => h.of_cubes (fun _ => rfl) rfl rfl rfl rfl
    · refine .bind tidies_check_BMC1 fun _ _ => .ite (.pure trivial) ?_
      exact .bind tidies_pushFrame fun _ _ => .pure trivial
  refine Exec.Wp.final ?_
  rw [check_eq]
  refine (hpro ∅ _ h0).bind fun b r h => ?_
  cases b with
  | true => exact kept_mainLoop h.1 fuel
  | false => exact (tidies_reportCex ∅ r h.1).mono (fun _ _ h => h.1.hist) fun _ h => h

end ModelChecker
