import ModelChecker.Main.Program
import ModelChecker.Pdr.Reload

/-!
# Certificates of a session

A PDR thread that finds a fixpoint writes `certificate.aag` if `RESULT` is not set at that moment. In every
order of the steps the file is written at most once, exactly if the verdict is 20, and what is written
proves the property of the input file.
-/

namespace ModelChecker

open Logic

/-! ## Proofs by certificate -/

/-- The file `G` shows that `F` never violates `p`: it has the latches of `F`, and its bad literal is true
where `p` is, false in the initial states, and stays false in each transition. -/
structure AigerFile.Proves (G F : AigerFile) (p : Nat) : Prop where
  wf : G.WellFormed
  inputs : G.Aiger_inputs = F.Aiger_inputs
  latches : G.Aiger_latches = F.Aiger_latches
  constraints : G.Aiger_constraints = F.Aiger_constraints
  next : ∀ v, ∀ a ∈ F.Aiger_latches, G.val v a.next = F.val v a.next
  bad : ∃ b, G.properties = [b] ∧ (∀ v, F.val v p = true → G.val v b = true) ∧
    (∀ v, (∀ a ∈ F.Aiger_latches, (a.default_val = 0 → v (a.l / 2) = false) ∧
      (a.default_val = 1 → v (a.l / 2) = true)) → G.val v b = false) ∧
    ∀ v v', G.val v b = false → (∀ a ∈ F.Aiger_latches, v' (a.l / 2) = F.val v a.next) → G.val v' b = false

/-- The bad literal of the certificate is false along every trace. -/
theorem AigerFile.Proves.not_violates {G F : AigerFile} {p : Nat} (h : G.Proves F p) (n : Nat) :
    ¬ F.Violates p n := by
  obtain ⟨b, _, hcovers, hinit, hstep⟩ := h.bad
  rintro ⟨v, ht, hp⟩
  have hinv : ∀ i, i ≤ n → G.val (v i) b = false := by
    intro i
    induction i with
    | zero => exact fun _ => hinit _ ht.reset
    | succ i ih => exact fun hi => hstep _ _ (ih (by omega)) (ht.next i (by omega))
  have htrue := hcovers _ hp
  rw [hinv n le_rfl] at htrue
  cases htrue

section Written

variable {F : AigerFile} {h : F.WellFormed} {hlit : 2 * F.max_var + 1 < 2 ^ 31}
  {hprop : 0 < F.num_outputs ∨ 0 < F.num_bads} {i : Nat} {B : Aiger}

theorem dimacs_literalOf {l : Nat} (hl : F.LitOk l) (hlit : 2 * F.max_var + 1 < 2 ^ 31) :
    dimacs_to_aiger (literalOf l) = l := by
  rw [AigerFile.literalOf_eq (Nat.lt_of_le_of_lt hl hlit)]
  unfold aiger_to_dimacs dimacs_to_aiger
  split <;> split <;> omega

theorem Extends.toFile_latches (hext : Extends (F.circuit h hlit hprop i) B) :
    B.toFile.Aiger_latches = F.Aiger_latches := by
  have hni : B.num_inputs = F.num_inputs := hext.num_inputs
  have hnl : B.num_latches = F.num_latches := hext.num_latches
  have hvals : B.default_vals = F.Aiger_latches.map (·.default_val) := hext.default_vals
  refine List.ext_getElem? fun j => ?_
  by_cases hj : j < F.num_latches
  · obtain ⟨a, hmem, ha, _⟩ := h.latch_at hj
    have hj' : j < F.Aiger_latches.length := by rw [h.latches_length]; exact hj
    have hal : a.l = 2 * (F.num_inputs + j + 1) := by
      rw [List.getElem?_eq_getElem hj', Option.some.injEq] at ha
      rw [← ha]
      exact h.latches_l j hj'
    have hget : ∀ {α : Type} (f : Aiger_latch → α) (d : α), (F.Aiger_latches.map f).getD j d = f a := by
      intro α f d
      rw [List.getD_eq_getElem?_getD, List.getElem?_map, ha, Option.map_some, Option.getD_some]
    rw [toFile_latch (by omega), hext.nexts, AigerFile.circuit_nexts, hvals, hni, ha, hget, hget,
      dimacs_literalOf (h.latches_next a hmem) hlit, ← hal]
  · have hlen : B.toFile.Aiger_latches.length = B.num_latches := by
      simp only [Aiger.toFile, List.length_map, List.length_range]
    have hlenF := h.latches_length
    rw [List.getElem?_eq_none (by omega), List.getElem?_eq_none (by omega)]

theorem Extends.toFile_val_file (hext : Extends (F.circuit h hlit hprop i) B) (v : Nat → Bool) {l : Nat}
    (hl : F.LitOk l) : B.toFile.val v l = F.val v l := by
  have hag : AigerFile.Agree v (AigerFile.toDimacs v) := fun _ => rfl
  have hok : (F.circuit h hlit hprop i).LitOk (literalOf l) := AigerFile.litOk_literalOf h hlit i hl
  have hne : literalOf l ≠ 0 := by
    have := hok.1
    omega
  have hval := hext.toFile_val v hne
  rw [dimacs_literalOf hl hlit] at hval
  rw [hval, ← hag.val hl]
  exact hext.grows.val _ _ hok

/-- What the file stands for is the invariant of the fixpoint. -/
theorem FixpointOf.proves {env : PdrEnv} {blocked : List Cube} {x : Fixpoint}
    (hf : FixpointOf (F.circuit h hlit hprop i) env blocked x) (hA : F.Aiger_constraints = [])
    (hsafe : (F.circuit h hlit hprop i).system.Safe) :
    ((F.circuit h hlit hprop i).certify (x.engine.certCubes x.level)).toFile.Proves F
      (F.properties.getD (F.chosen i) 0) := by
  have hcons : (F.circuit h hlit hprop i).constraints = [] := by
    show F.Aiger_constraints.map literalOf = []
    rw [hA]
    rfl
  have hne : x.engine.certCubes x.level ≠ [] :=
    List.ne_nil_of_mem ((mem_certCubes hf.le_depth).mpr (Or.inl rfl))
  obtain ⟨hext, hbad, hval⟩ := certify_spec hne hf.certCubes_ok
  have hp : F.LitOk (F.properties.getD (F.chosen i) 0) := by
    have hlt := AigerFile.chosen_lt (h.properties_pos hprop) i
    rw [List.getD_eq_getElem?_getD, List.getElem?_eq_getElem hlt, Option.getD_some]
    exact h.properties_ok (List.getElem_mem hlt)
  have hag : ∀ v, AigerFile.Agree v (AigerFile.toDimacs v) := fun v _ => rfl
  generalize (F.circuit h hlit hprop i).certify (x.engine.certCubes x.level) = B at *
  have hinv : ∀ v, B.toFile.val v (dimacs_to_aiger B.bad) = false ↔
      CertInv (F.circuit h hlit hprop i) x (AigerFile.toDimacs v) := by
    intro v
    have hb1 := hbad.1
    have hfile := hext.toFile_val v (l := B.bad) (by omega)
    have hiff := hf.certInv_iff (AigerFile.toDimacs v)
    rw [← hval] at hiff
    rw [hfile, ← Bool.not_eq_true]
    exact (not_congr hiff).trans not_not
  refine ⟨hext.toFile_wf hbad, ?_, hext.toFile_latches, ?_, fun v a ha => ?_, _, rfl, fun v hv => ?_,
    fun v hv => ?_, fun v v' hv hn => ?_⟩
  · rw [h.inputs]
    simp only [Aiger.toFile, hext.num_inputs]
    rfl
  · show B.constraints.map dimacs_to_aiger = _
    rw [hext.constraints, hcons, hA]
    rfl
  · exact hext.toFile_val_file v (h.latches_next a ha)
  · by_contra hno
    have hbadA : (F.circuit h hlit hprop i).system.Bad (AigerFile.toDimacs v) := by
      show (F.circuit h hlit hprop i).val _ (F.circuit h hlit hprop i).bad = true
      rw [AigerFile.circuit_bad, (hag v).val hp]
      exact hv
    exact ((hinv v).mp (by simpa using hno)).1 hbadA
  · exact (hinv v).mpr (hf.certInv_init hcons hsafe ((hag v).init.mpr hv))
  · exact (hinv v').mpr (hf.certInv_closed ((hinv v).mp hv) (((hag v).next (hag v')).mpr hn)
      (cons_of_nil hcons _))

end Written

/-! ## The last read of `RESULT` -/

section Last

variable {env : PdrEnv}

/-- There is a certificate exactly if one is wanted and `RESULT` was not set when it was last read. -/
def Published (env : PdrEnv) (r : Run) : Prop :=
  ∀ x, r.fixpoint = some x →
    (x.certificate.isSome = true ↔ env.RESULT (r.clock - 1) = 0 ∧ env.output_certificate = true)

theorem published_fixpointFound (i : Nat) (r : Run) :
    (fixpointFound env i).Wp (fun _ => Published env) (fun _ => True) r := by
  unfold fixpointFound
  simp only [Exec.wp_bind, wp_readRESULT, Exec.wp_modify]
  intro x hx
  obtain rfl := Option.some.inj hx
  show (ite _ _ _ : Option (List String)).isSome = true ↔ env.RESULT r.clock = 0 ∧ _
  split_ifs with hR
  · exact iff_of_true rfl hR
  · exact iff_of_false Bool.false_ne_true hR

theorem published_propagateLevels (n i : Nat) (r : Run) :
    (propagateLevels env n i).Wp (fun b r' => b = true → Published env r') (fun _ => True) r := by
  induction n generalizing i r with
  | zero => exact fun hb => absurd hb Bool.false_ne_true
  | succ n ih =>
      unfold propagateLevels
      refine Exec.wp_skip fun _ _ => Exec.wp_skip fun _ _ => Exec.wp_skip fun p r' => ?_
      refine Exec.wp_ite.mpr ⟨fun _ => ?_, fun _ => ih _ _⟩
      exact (published_fixpointFound i r').bind fun _ r'' h _ => h

theorem published_mainLoop (fuel : Nat) (r : Run) :
    (mainLoop env fuel).Wp (fun v r' => v = 20 → Published env r') (fun _ => True) r := by
  induction fuel generalizing r with
  | zero => trivial
  | succ fuel ih =>
      unfold mainLoop
      refine Exec.wp_skip fun R _ => Exec.wp_ite.mpr ⟨fun _ h => absurd h (by decide), fun _ => ?_⟩
      refine Exec.wp_skip fun s _ => Exec.wp_skip fun flag _ => Exec.wp_ite.mpr ⟨fun _ => ?_, fun _ => ?_⟩
      · refine Exec.wp_skip fun _ _ => Exec.wp_skip fun _ _ => Exec.wp_skip fun b _ =>
          Exec.wp_ite.mpr ⟨fun _ => ih _, fun _ => ?_⟩
        exact Exec.wp_skip fun _ _ h => absurd h (by decide)
      · refine Exec.wp_skip fun p _ => Exec.wp_ite.mpr ⟨fun _ => trivial, fun _ => ?_⟩
        have hprop : ∀ r', (propagate env).Wp (fun b r' => b = true → Published env r') (fun _ => True) r' :=
          fun r' => Exec.wp_skip fun _ _ => published_propagateLevels _ _ _
        refine (hprop _).bind fun b r' hb => Exec.wp_ite.mpr ⟨fun h _ => hb h, fun _ => ?_⟩
        exact Exec.wp_skip fun _ _ => ih _

theorem published_check {A : Circuit} {fuel : Nat} {r : Run} (h : runCheck env A fuel = (.ok 20, r)) :
    Published env r := by
  have hspec : (check env fuel).Wp (fun v r' => v = 20 → Published env r') (fun _ => True)
      { pdr := { circuit := A.toAiger } } := by
    unfold check
    refine Exec.wp_skip fun _ _ => Exec.wp_skip fun b _ => Exec.wp_ite.mpr ⟨fun _ => ?_, fun _ => ?_⟩
    · exact Exec.wp_skip fun _ _ h => absurd h (by decide)
    · refine Exec.wp_skip fun b _ => Exec.wp_ite.mpr ⟨fun _ => ?_, fun _ => ?_⟩
      · exact Exec.wp_skip fun _ _ h => absurd h (by decide)
      · exact Exec.wp_skip fun _ _ => published_mainLoop _ _
  exact hspec.run_ok h rfl

end Last

/-! ## Sessions -/

theorem readValue_last {reads : List Int} {R : Int} {n : Nat} (hn : n = (reads ++ [R]).length) :
    readValue (reads ++ [R]) (n - 1) = R := by
  rw [hn, List.length_append, List.length_singleton, Nat.add_sub_cancel]
  unfold readValue
  simp

theorem CheckEnds.unique {env : PdrEnv} {A : Circuit} {reads : List Int} {res res' : Except Stop Int}
    (h : CheckEnds env A reads res) (h' : CheckEnds env A reads res') : res = res' := by
  obtain ⟨hne, fuel, r, hrun, _⟩ := h
  obtain ⟨hne', fuel', r', hrun', _⟩ := h'
  exact (runCheck_unique hrun hne hrun' hne').1

namespace Session

variable {S : Session} {s s' : Shared} {e : ThreadId} {text : List String}

/-- What the next step of a thread writes: the certificate of a run of `check` that returns 20. -/
inductive Writes (S : Session) : ThreadId → Shared → List String → Prop
  | pdr {s : Shared} {i fuel : Nat} {reads : List Int} {r : Run} {x : Fixpoint} {text : List String}
      (hi : i < S.pdr_thread) (hx : s.pdr i = ⟨.running, reads⟩)
      (hrun : runCheck ((S.env i).reading (readValue (reads ++ [s.RESULT]))) S.circuit fuel = (.ok 20, r))
      (hclock : r.clock = (reads ++ [s.RESULT]).length) (hfix : r.fixpoint = some x)
      (htext : x.certificate = some text) : Writes S (.pdr i) s text

/-- The states of a session whose steps have room, with the certificates written so far. -/
inductive Written (S : Session) : Shared → List (List String) → Prop
  | start : Written S S.start []
  | step {s s' : Shared} {e : ThreadId} {log : List (List String)} (h : Written S s log) (hs : S.StepIn S.Room e s s')
      (hno : ∀ text, ¬ S.Writes e s text) : Written S s' log
  | write {s s' : Shared} {e : ThreadId} {log : List (List String)} {text : List String} (h : Written S s log)
      (hs : S.StepIn S.Room e s s') (hw : S.Writes e s text) : Written S s' (log ++ [text])

/-- Every session has such a log. -/
theorem Steps.written (h : S.Steps S.Room S.start s) : ∃ log, S.Written s log := by
  induction h with
  | refl => exact ⟨[], .start⟩
  | @tail b _ _ hstep ih =>
      obtain ⟨log, hlog⟩ := ih
      obtain ⟨e, hs⟩ := hstep
      by_cases hw : ∃ text, S.Writes e b text
      · obtain ⟨text, hw⟩ := hw
        exact ⟨log ++ [text], .write hlog hs hw⟩
      · exact ⟨log, .step hlog hs (not_exists.mp hw)⟩

theorem Writes.unset (h : S.Writes e s text) :
    s.RESULT = 0 ∧ ∃ i, (S.env i).output_certificate = true := by
  cases h with
  | @pdr _ i fuel reads r x _ hi hx hrun hclock hfix htext =>
      have hpub := (published_check hrun x hfix).mp (by rw [htext]; rfl)
      exact ⟨(readValue_last hclock).symm.trans hpub.1, i, hpub.2⟩

theorem Writes.publishes (h : S.Writes e s text) (hs : S.Step e s s') : s'.RESULT = 20 := by
  have h0 := h.unset.1
  cases h with
  | @pdr _ i fuel reads r x _ hi hx hrun hclock hfix htext =>
      have hend : CheckEnds (S.env i) S.circuit (reads ++ [s.RESULT]) (.ok 20) :=
        ⟨by simp, fuel, r, hrun, hclock⟩
      cases hs with
      | @pdr _ _ y o _ ht =>
          show o.1 = 20
          rw [hx] at ht
          cases ht with
          | work hno => exact absurd hend (hno _)
          | stop hend' => cases hend.unique hend'
          | cex hend' => cases hend.unique hend'
          | fixpoint _ => exact if_neg (not_not.mpr h0)
          | abort hend' => cases hend.unique hend'

theorem StepIn.writes (hok : S.Ok s) (hs : S.StepIn S.Room e s s') (hcert : ∀ i, (S.env i).output_certificate = true)
    (h0 : s.RESULT = 0) (h20 : s'.RESULT = 20) : ∃ text, S.Writes e s text := by
  obtain ⟨hroom, hs⟩ := hs
  cases hs with
  | @pdr _ i y o hi ht =>
      have ho : o.1 = 20 := h20
      generalize hx : s.pdr i = x at ht
      cases ht with
      | @fixpoint reads hend =>
          obtain ⟨_, fuel, r, hrun, hclock⟩ := hend
          obtain ⟨x, hfix, _⟩ := (run_result S.circuit _ fuel hrun).fixpoint rfl
          have hsome := (published_check hrun x hfix).mpr ⟨(readValue_last hclock).trans h0, hcert i⟩
          obtain ⟨text, htext⟩ := Option.isSome_iff_exists.mp hsome
          exact ⟨text, .pdr hi hx hrun hclock hfix htext⟩
      | work _ => exact absurd (h0.symm.trans ho) (by decide)
      | stop _ => exact absurd (h0.symm.trans ho) (by decide)
      | abort _ => exact absurd (h0.symm.trans ho) (by decide)
      | cex _ =>
          unfold publishCex at ho
          split_ifs at ho
          cases ho
      | finish => exact absurd h0 ((hok.pdr i hi).proved (by rw [hx])).2
  | load _ _ => exact absurd (h0.symm.trans h20) (by decide)
  | store _ _ => exact absurd (h0.symm.trans h20) (by decide)
  | @bmc _ i index t terminated hi hdraw hterm =>
      obtain ⟨_, heq | ⟨_, h10, _⟩, _⟩ :=
        ((hok.bmc i hi).thread index hdraw).step (S.solver i) t hterm (hroom _ hdraw).1
      · exact absurd ((h0.symm.trans heq.symm).trans h20) (by decide)
      · exact absurd (h10.symm.trans h20) (by decide)

theorem Written.steps {log : List (List String)} (h : S.Written s log) : S.Steps S.Room S.start s := by
  induction h with
  | start => exact .refl
  | step _ hs _ ih => exact ih.tail ⟨_, hs⟩
  | write _ hs _ ih => exact ih.tail ⟨_, hs⟩

/-- A certificate has been written exactly if one is wanted and the verdict is 20, and there is no second
one. -/
theorem Written.spec (hA : 0 < S.pdr_thread → S.circuit.constraints = []) {c : Bool}
    (hcert : ∀ i, (S.env i).output_certificate = c) {log : List (List String)} (h : S.Written s log) :
    log = [] ∧ ¬ (s.RESULT = 20 ∧ c = true) ∨
      (s.RESULT = 20 ∧ c = true) ∧ ∃ text e t, log = [text] ∧ S.Writes e t text := by
  induction h with
  | start => exact .inl ⟨rfl, fun h20 => absurd h20.1 (show (0 : Int) ≠ 20 by decide)⟩
  | @step s s' e log h hs hno ih =>
      have hok := (S.ok_start.steps hA h.steps).1
      have hkeep := (hok.step hA hs).2
      rcases ih with ⟨rfl, hn⟩ | ⟨⟨h20, hc⟩, hlog⟩
      · refine .inl ⟨rfl, fun ⟨h20, hc⟩ => ?_⟩
        by_cases h0 : s.RESULT = 0
        · obtain ⟨text, hw⟩ := hs.writes hok (fun i => (hcert i).trans hc) h0 h20
          exact hno text hw
        · exact hn ⟨(hkeep h0).symm.trans h20, hc⟩
      · exact .inr ⟨⟨(hkeep (by rw [h20]; decide)).trans h20, hc⟩, hlog⟩
  | @write s s' e log text h hs hw ih =>
      obtain ⟨h0, i, hi⟩ := hw.unset
      rcases ih with ⟨rfl, _⟩ | ⟨⟨h20, _⟩, _⟩
      · exact .inr ⟨⟨hw.publishes hs.2, (hcert i).symm.trans hi⟩, text, e, s, rfl, hw⟩
      · exact absurd (h0.symm.trans h20) (by decide)

theorem alone_fixpoint (hp : 0 < S.pdr_thread) {fuel : Nat} {r : Run}
    (hrun : runCheck ((S.env 0).reading fun _ => 0) S.circuit fuel = (.ok 20, r)) :
    ∃ s, S.Steps S.Room S.start s ∧ s.RESULT = 20 := by
  obtain ⟨n, hn⟩ : ∃ n, r.clock = n + 1 := ⟨r.clock - 1, by have := runCheck_clock hrun; omega⟩
  have hsteps := steps_start (S := S) hp hrun (n := n) (by omega) fun _ _ => rfl
  have htick : PdrTick (S.env 0) S.circuit S.start.RESULT (along (fun _ => 0) n)
      ⟨.proved, (List.range (n + 1)).map fun _ => 0⟩ (20, false) := by
    have hend := (ends_along (n := n + 1) hrun).mpr ⟨rfl, hn.symm⟩
    unfold along
    rw [← range_map_succ] at hend ⊢
    exact .fixpoint hend
  exact ⟨_, hsteps.tail ⟨_, stepIn_pdr hp htick⟩, rfl⟩

end Session

/-- What a session on a file writes is a proof about the file. -/
theorem Session.Writes.proves {o : Options} {hb : o.Bounded} {I : InputFile} {env : Nat → PdrEnv}
    {solver : Nat → Ipasir}
    (hcons : o.UsesPdr → I.file.Aiger_constraints = []) {e : ThreadId} {s : Shared} {text : List String}
    (h : (o.sessionOn hb I env solver).Writes e s text) :
    ∃ G : AigerFile, (text.flatMap fun line => stringBytes line ++ [10]) = G.ascii {} ∧
      G.Proves I.file (I.property o.property_index.toNat) := by
  cases h with
  | @pdr _ i fuel reads r x _ hi hx hrun hclock hfix htext =>
      have hA : (o.sessionOn hb I env solver).circuit.constraints = [] :=
        Options.session_constraints hcons (by omega)
      have hfile : I.file.Aiger_constraints = [] := List.map_eq_nil_iff.mp hA
      have hres := run_result _ _ fuel hrun
      obtain ⟨y, hy, hf⟩ := hres.fixpoint rfl
      obtain rfl : y = x := Option.some.inj (hy.symm.trans hfix)
      obtain ⟨_, hsome⟩ := hf.certificate.resolve_left fun hnone => by rw [htext] at hnone; cases hnone.1
      obtain rfl : text = _ := Option.some.inj (htext.symm.trans hsome)
      have hproves := @FixpointOf.proves I.file I.wf I.max_var I.properties _ _ _ _ hf hfile (hres.safe hA)
      exact ⟨_, show_aag_bytes _, hproves⟩

/-! ## The theorem -/

/-- In every order of the steps of a session, which have room, with constraints only if no PDR engine runs, one
certificate has been written if certificates are wanted and the verdict is 20, and none otherwise. What is
written is an AIGER file that proves the checked property of the input file. -/
theorem session_certificate {o : Options} (hb : o.Bounded) (I : InputFile)
    (hcons : o.UsesPdr → I.file.Aiger_constraints = []) (env : Nat → PdrEnv) (solver : Nat → Ipasir)
    {S : Session} (hS : S = o.sessionOn hb I env solver) :
    (∀ s, S.Steps S.Room S.start s → ∃ log, S.Written s log) ∧
    ∀ s log, S.Written s log →
      (¬ (s.RESULT = 20 ∧ o.certificate = true) → log = []) ∧
      (s.RESULT = 20 ∧ o.certificate = true → ∃ text G, log = [text] ∧
        (text.flatMap fun line => stringBytes line ++ [10]) = AigerFile.ascii G {} ∧
        G.Proves I.file (I.property o.property_index.toNat)) := by
  subst hS
  refine ⟨fun s hs => hs.written, fun s log hlog => ?_⟩
  have hcert : ∀ i, ((o.sessionOn hb I env solver).env i).output_certificate = o.certificate := fun _ => rfl
  rcases hlog.spec (Options.session_constraints hcons) hcert with ⟨rfl, hn⟩ | ⟨h20, text, e, t, rfl, hw⟩
  · exact ⟨fun _ => rfl, fun h20 => absurd h20 hn⟩
  · obtain ⟨G, hbytes, hG⟩ := hw.proves hcons
    exact ⟨fun hn => absurd h20 hn, fun _ => ⟨text, G, rfl, hbytes, hG⟩⟩

namespace Sample

/-- `stuck` as a file. -/
def stuckFile : AigerFile where
  max_var := 2
  num_inputs := 0
  num_latches := 2
  num_outputs := 0
  num_ands := 0
  num_bads := 1
  num_constraints := 0
  Aiger_inputs := []
  Aiger_latches := [⟨2, 2, 0⟩, ⟨4, 2, 0⟩]
  Aiger_outputs := []
  Aiger_bads := [4]
  Aiger_constraints := []
  Aiger_ands := []

def stuckInput : InputFile where
  file := stuckFile
  wf := by constructor <;> first | rfl | decide | (unfold AigerFile.LitOk; decide)
  max_var := by decide
  properties := by decide
  layout := {}
  binary := true
  descending _ := by unfold AigerFile.Descending; decide
  short := by decide +kernel

theorem stuckOptions_bounded : (parseOptions ["-certificate", "stuck.aig"]).Bounded :=
  Options.bounded_parseOptions _

/-- One PDR engine on the file. -/
noncomputable def stuckMain : Session :=
  Options.sessionOn _ stuckOptions_bounded stuckInput (fun _ => envOf stuckAnswers) fun _ => solver

end Sample

/-- The session on `stuck` writes a certificate. -/
theorem session_certificate_stuck : ∃ s text, s.RESULT = 20 ∧ Sample.stuckMain.Written s [text] ∧
    ∀ n, ¬ Sample.stuckFile.Violates 4 n := by
  have hrun : runCheck ((Sample.stuckMain.env 0).reading fun _ => 0) (Sample.stuckInput.circuit 0) 10 =
      (.ok 20, (runCheck ((Sample.stuckMain.env 0).reading fun _ => 0) (Sample.stuckInput.circuit 0) 10).2) :=
    Sample.eq_of_verdict (by decide +kernel)
  obtain ⟨s, hs, h20⟩ := Session.alone_fixpoint (S := Sample.stuckMain) Nat.one_pos hrun
  obtain ⟨hall, hlog⟩ := session_certificate Sample.stuckOptions_bounded Sample.stuckInput (fun _ => rfl)
    (fun _ => Sample.envOf Sample.stuckAnswers) (fun _ => Sample.solver) (S := Sample.stuckMain) rfl
  obtain ⟨log, hw⟩ := hall s hs
  obtain ⟨text, G, rfl, _, hG⟩ := (hlog s log hw).2 ⟨h20, rfl⟩
  exact ⟨s, text, h20, hw, hG.not_violates⟩

end ModelChecker
