import ModelChecker.Aig.Traces
import ModelChecker.Main.FindBug
import ModelChecker.Main.Options

/-!
# The program

`main` from its arguments to the line it prints: the options, the circuit in the file, the threads, and
`RESULT` when all of them have returned.
-/

namespace ModelChecker

open Logic

/-! ## Files -/

/-- A circuit with a property in one of the two formats, with a trailing section that the loader skips, short
enough to be loaded. -/
structure InputFile where
  file : AigerFile
  wf : file.WellFormed
  max_var : 2 * file.max_var + 1 < 2 ^ 31
  properties : 0 < file.num_outputs ∨ 0 < file.num_bads
  layout : Layout
  binary : Bool
  descending : binary = true → file.Descending
  trailer : Trailer := ⟨[], none⟩
  skippable : Skippable trailer.entries := by decide
  short : (file.serialise layout binary ++ trailer.text).length < 2 ^ 31 - 1

namespace InputFile

variable (I : InputFile)

def bytes : List Nat := I.file.serialise I.layout I.binary ++ I.trailer.text

/-- The circuit that the engines get. -/
def circuit (propertyIndex : Nat) : Circuit := I.file.circuit I.wf I.max_var I.properties propertyIndex

/-- The checked property. -/
def property (propertyIndex : Nat) : Nat := I.file.properties.getD (I.file.chosen propertyIndex) 0

variable {I} {i : Nat}

theorem length_allbad : (I.circuit i).allbad.length = I.file.properties.length := by
  unfold circuit
  rw [AigerFile.circuit_allbad, List.length_map]

theorem chosen_lt : I.file.chosen i < (I.circuit i).allbad.length := by
  rw [length_allbad]
  exact AigerFile.chosen_lt (I.wf.properties_pos I.properties) i

theorem circuit_bad : (I.circuit i).bad = (I.circuit i).allbad.get ⟨I.file.chosen i, chosen_lt⟩ := by
  have hcheck : (I.circuit i).bad = (I.circuit i).allbad.getD (I.file.chosen i) 0 :=
    AigerFile.circuit_checked _ _ _ _
  rw [hcheck, List.getD_eq_getElem?_getD, List.getElem?_eq_getElem chosen_lt]
  rfl

theorem property_ok : I.file.LitOk (I.property i) := by
  have hlt := AigerFile.chosen_lt (I.wf.properties_pos I.properties) i
  unfold property
  rw [List.getD_eq_getElem?_getD, List.getElem?_eq_getElem hlt, Option.getD_some]
  exact I.wf.properties_ok (List.getElem_mem hlt)

/-- The traces of the circuit that violate the checked property are those of the file. -/
theorem violates_iff {n : Nat} : I.file.Violates (I.property i) n ↔
    ∃ w, (I.circuit i).system.Trace n w ∧ (I.circuit i).system.Bad (w n) := by
  have hbad : (I.circuit i).bad = literalOf (I.property i) := AigerFile.circuit_bad _ _ _ _
  unfold Circuit.system
  rw [hbad]
  exact AigerFile.violates_iff property_ok

end InputFile

/-! ## Engines -/

namespace Options

variable (o : Options)

/-- `load_aiger_from_file` and `translate_to_dimacs`. -/
def load (bytes : List Nat) : Except LoadStop Aiger :=
  load_aiger_from_file bytes >>= fun D => D.translate_to_dimacs o.property_index.toNat

/-- Both thread counts are 0, so `main` runs PDR itself. -/
def Alone : Prop := o.pdr_thread = 0 ∧ o.bmc_thread = 0

instance : Decidable o.Alone := inferInstanceAs (Decidable (_ ∧ _))

/-- Some PDR engine runs. -/
def UsesPdr : Prop := o.Alone ∨ 0 < o.pdr_thread

/-- The engines for the circuit, whose checked property has the index `i`. -/
def session (h : o.Bounded) (A : Circuit) (i : Nat) (hi : i < A.allbad.length) (hbad : A.bad = A.allbad.get ⟨i, hi⟩)
    (env : Nat → PdrEnv) (solver : Nat → Ipasir) : Session where
  circuit := A
  nframes := (o.nframes + 1).toNat
  nframes_le := by
    obtain ⟨hn0, hn⟩ := h.nframes
    unfold intMax at hn
    unfold BmcConfig.maxFrame
    omega
  propertyIndex := i
  property_lt := hi
  bad_eq := hbad
  pdr_thread := if o.Alone then 1 else o.pdr_thread.toNat
  bmc_thread := o.bmc_thread.toNat
  env j := { env j with
    use_pr := if o.Alone then o.pr else true
    output_witness := o.witness
    output_certificate := o.certificate }
  solver := solver
  output_witness := o.witness

/-- The engines in find-bug mode. -/
def hunt (A : Circuit) (i : Nat) (solver : Fin A.allbad.length → Ipasir) (room : A.allbad.length ≤ 64) :
    BugHunt where
  circuit := A
  nframes := (o.nframes + 1).toNat
  propertyIndex := i
  solver := solver
  room := room

/-- The line that `main` prints at the end. -/
def report (RESULT : Int) : String :=
  if o.find_bug_only then
    if RESULT ≠ 10 then "2" else if RESULT = 10 then "1" else if RESULT = 20 then "0" else ""
  else if RESULT ≠ 10 then "No output asserted in " ++ toString o.nframes ++ " frames."
  else if RESULT = 10 then "result: unsafe"
  else if RESULT = 20 then "result: safe"
  else ""

/-- The file has a counterexample of a length that the engines look at: any one, if a PDR engine runs. -/
def Finds (I : InputFile) : Prop := ∃ n : Nat, (o.pdr_thread = 0 → 0 < o.bmc_thread → (n : Int) ≤ o.nframes) ∧
  I.file.Violates (I.property o.property_index.toNat) n

/-- The session for a file. -/
def sessionOn (h : o.Bounded) (I : InputFile) (env : Nat → PdrEnv) (solver : Nat → Ipasir) : Session :=
  o.session h (I.circuit o.property_index.toNat) (I.file.chosen o.property_index.toNat) InputFile.chosen_lt
    InputFile.circuit_bad env solver

variable {o} {I : InputFile}

theorem load_bytes : o.load I.bytes = .ok (I.circuit o.property_index.toNat).toAiger :=
  AigerFile.load_circuit _ _ _ _ _ _ I.descending I.trailer I.skippable I.short

variable {h : o.Bounded} {env : Nat → PdrEnv} {solver : Nat → Ipasir}

theorem hasCex_iff {k : Nat} : (o.sessionOn h I env solver).HasCex k ↔
    1 ≤ k ∧ I.file.Violates (I.property o.property_index.toNat) (k - 1) := by
  rw [Session.hasCex_iff, InputFile.violates_iff]
  rfl

theorem constraints_nil (hcons : I.file.Aiger_constraints = []) {i : Nat} : (I.circuit i).constraints = [] := by
  show I.file.Aiger_constraints.map literalOf = []
  rw [hcons]
  rfl

theorem session_constraints (hcons : o.UsesPdr → I.file.Aiger_constraints = [])
    (hp : 0 < (o.sessionOn h I env solver).pdr_thread) : (o.sessionOn h I env solver).circuit.constraints = [] := by
  have hpdr : (o.sessionOn h I env solver).pdr_thread = if o.Alone then 1 else o.pdr_thread.toNat := rfl
  refine constraints_nil (hcons ?_)
  by_cases ha : o.Alone
  · exact .inl ha
  · rw [hpdr, if_neg ha] at hp
    exact .inr (by omega)

theorem session_pdr_pos (hu : o.UsesPdr) : 0 < (o.sessionOn h I env solver).pdr_thread := by
  have hpdr : (o.sessionOn h I env solver).pdr_thread = if o.Alone then 1 else o.pdr_thread.toNat := rfl
  rw [hpdr]
  split_ifs with ha
  · exact Nat.one_pos
  · have := hu.resolve_left ha
    omega

/-- Without a PDR engine there are BMC threads only. -/
theorem session_bmc (hu : ¬ o.UsesPdr) :
    (o.sessionOn h I env solver).pdr_thread = 0 ∧ 0 < (o.sessionOn h I env solver).bmc_thread ∧
      o.pdr_thread = 0 ∧ 0 < o.bmc_thread := by
  obtain ⟨hpdr0, _⟩ := h.pdr
  obtain ⟨hbmc0, _⟩ := h.bmc
  have hpdr : (o.sessionOn h I env solver).pdr_thread = if o.Alone then 1 else o.pdr_thread.toNat := rfl
  have hbmc : (o.sessionOn h I env solver).bmc_thread = o.bmc_thread.toNat := rfl
  have hna : ¬ o.Alone := fun ha => hu (.inl ha)
  have h0 : o.pdr_thread = 0 := by
    have hnot : ¬ 0 < o.pdr_thread := fun hp => hu (.inr hp)
    omega
  have hb : 0 < o.bmc_thread := by
    have hne : o.bmc_thread ≠ 0 := fun hb => hna ⟨h0, hb⟩
    omega
  rw [if_neg hna] at hpdr
  exact ⟨by omega, by omega, h0, hb⟩

/-- What the session finds is what the options ask for, if all frames are looked at. -/
theorem finds_iff (hcons : o.UsesPdr → I.file.Aiger_constraints = []) {s : Shared}
    (hs : (o.sessionOn h I env solver).Steps (o.sessionOn h I env solver).Room (o.sessionOn h I env solver).start s)
    (hj : (o.sessionOn h I env solver).Joined s) :
    (s.RESULT = 10 → o.Finds I) ∧
      (o.UsesPdr ∨ s.draw.counter = (o.sessionOn h I env solver).bmc_thread → o.Finds I → s.RESULT = 10) := by
  have hok := ((o.sessionOn h I env solver).ok_start.steps (session_constraints hcons) hs).1
  obtain ⟨hn0, _⟩ := h.nframes
  have hnframes : (o.sessionOn h I env solver).nframes = (o.nframes + 1).toNat := rfl
  by_cases hu : o.UsesPdr
  · rw [(hok.decided hj (session_pdr_pos hu)).1, Session.not_safe_iff]
    constructor
    · rintro ⟨k, hc⟩
      refine ⟨k - 1, fun h0 hb => ?_, (hasCex_iff.mp hc).2⟩
      rcases hu with ha | hp
      · exact absurd ha.2 (by omega)
      · exact absurd h0 (by omega)
    · rintro _ ⟨n, _, hv⟩
      exact ⟨n + 1, hasCex_iff.mpr ⟨by omega, hv⟩⟩
  · -- only BMC threads
    have hbmc : (o.sessionOn h I env solver).pdr_thread = 0 ∧ 0 < (o.sessionOn h I env solver).bmc_thread ∧
        o.pdr_thread = 0 ∧ 0 < o.bmc_thread := session_bmc hu
    obtain ⟨hp, hm, h0, hb⟩ := hbmc
    rw [(hok.decided_bmc hj hp).1]
    constructor
    · intro hf
      obtain ⟨k, hk, hc⟩ := hf.hasCex
      obtain ⟨hk1, hv⟩ := hasCex_iff.mp hc
      exact ⟨k - 1, fun _ _ => by omega, hv⟩
    · rintro hc ⟨n, hn, hv⟩
      have hle := hn h0 hb
      exact hok.finds hm (hc.resolve_left hu) (k := n + 1) (by omega) (hasCex_iff.mpr ⟨by omega, hv⟩)

/-! ## Find-bug mode -/

/-- The engines in find-bug mode for a file. -/
def huntOn (o : Options) (I : InputFile) (room : I.file.properties.length ≤ 64)
    (solver : Fin (I.circuit o.property_index.toNat).allbad.length → Ipasir) : BugHunt :=
  o.hunt (I.circuit o.property_index.toNat) (I.file.chosen o.property_index.toNat) solver
    (by rw [InputFile.length_allbad]; exact room)

/-- Some property of the file has a counterexample within `nframes` transitions. -/
def FindsBug (o : Options) (I : InputFile) : Prop :=
  ∃ p ∈ I.file.properties, ∃ n : Nat, (n : Int) ≤ o.nframes ∧ I.file.Violates p n

variable {room : I.file.properties.length ≤ 64}
  {hunter : Fin (I.circuit o.property_index.toNat).allbad.length → Ipasir}

theorem hasBug_iff (h : o.Bounded) : (o.huntOn I room hunter).HasBug ↔ o.FindsBug I := by
  obtain ⟨hn0, _⟩ := h.nframes
  have hnframes : (o.huntOn I room hunter).nframes = (o.nframes + 1).toNat := rfl
  have hcex : ∀ (t : Fin (o.huntOn I room hunter).num_property) (p : Nat),
      I.file.properties[t.val]? = some p → ∀ k, ((o.huntOn I room hunter).config t).HasCex k ↔
        1 ≤ k ∧ I.file.Violates p (k - 1) := by
    intro t p hp k
    have hchecked : ((o.huntOn I room hunter).config t).checked = literalOf p := by
      have hget := AigerFile.circuit_getD I.wf I.max_var I.properties o.property_index.toNat hp
      rw [← hget, List.getD_eq_getElem?_getD]
      exact (congrArg (Option.getD · 0) (List.getElem?_eq_getElem t.isLt)).symm
    have hok : I.file.LitOk p := I.wf.properties_ok (List.mem_of_getElem? hp)
    unfold BmcConfig.HasCex
    have hiff : I.file.Violates p (k - 1) ↔
        ∃ w, ((I.circuit o.property_index.toNat).systemFor (literalOf p)).Trace (k - 1) w ∧
          ((I.circuit o.property_index.toNat).systemFor (literalOf p)).Bad (w (k - 1)) :=
      AigerFile.violates_iff hok
    rw [hchecked, hiff]
    rfl
  have hlen : (o.huntOn I room hunter).num_property = I.file.properties.length := InputFile.length_allbad
  constructor
  · rintro ⟨t, k, hk, hc⟩
    have hlt : t.val < I.file.properties.length := by
      rw [← hlen]
      exact t.isLt
    have hget := List.getElem?_eq_getElem hlt
    obtain ⟨hk1, hv⟩ := (hcex t _ hget k).mp hc
    exact ⟨_, List.getElem_mem hlt, k - 1, by omega, hv⟩
  · rintro ⟨p, hp, n, hn, hv⟩
    obtain ⟨j, hj, rfl⟩ := List.getElem_of_mem hp
    refine ⟨⟨j, by rw [hlen]; exact hj⟩, n + 1, by omega, ?_⟩
    exact (hcex ⟨j, by rw [hlen]; exact hj⟩ _ (List.getElem?_eq_getElem hj) (n + 1)).mpr ⟨by omega, hv⟩

end Options

/-! ## The theorems -/

/-- Outside find-bug mode, when all threads have returned `main` prints one of two lines. It reports a
counterexample only if the file has one: of any length, if a PDR engine runs and there are no constraints, and
within `nframes` transitions, if there are BMC threads only. If it has one, that is reported, with BMC threads
only if no increment of `current_bmc_execution` was lost. All threads return, if they are treated fairly and a
PDR engine does not have to prove the property. Steps have room. -/
theorem main_reports {args : List String} {o : Options} (ho : startOptions args = some o)
    (hmode : o.find_bug_only = false) (I : InputFile) (hcons : o.UsesPdr → I.file.Aiger_constraints = [])
    (env : Nat → PdrEnv) (solver : Nat → Ipasir) {S : Session}
    (hS : S = o.sessionOn (Options.bounded_startOptions ho) I env solver) :
    o.load I.bytes = .ok (I.circuit o.property_index.toNat).toAiger ∧
    (∀ s, S.Steps S.Room S.start s → S.Joined s →
      o.report s.RESULT = "result: unsafe" ∧ o.Finds I ∨
      o.report s.RESULT = "No output asserted in 2147483646 frames." ∧
        (o.UsesPdr ∨ s.draw.counter = S.bmc_thread → ¬ o.Finds I)) ∧
    ∀ f, S.Runs f → (∀ i, i < S.pdr_thread → Fair (S.StepIn S.Room) (.pdr i) (Session.PdrDone i) f) →
      (∀ i, i < S.bmc_thread → Fair (S.StepIn S.Room) (.bmc i) (Session.BmcDone i) f) →
      (¬ o.UsesPdr ∨ o.Finds I ∨ ∃ n, (f n).RESULT ≠ 0) → ∃ N, ∀ n, N ≤ n → S.Joined (f n) := by
  subst hS
  have hbound : o.Bounded := Options.bounded_startOptions ho
  refine ⟨Options.load_bytes, fun s hs hj => ?_, fun f hf hpdr hbmc hx => ?_⟩
  · obtain ⟨hsound, hcomplete⟩ := Options.finds_iff hcons hs hj
    by_cases h10 : s.RESULT = 10
    · refine .inl ⟨?_, hsound h10⟩
      rw [h10, Options.report, hmode]
      rfl
    · refine .inr ⟨?_, fun hc hf => h10 (hcomplete hc hf)⟩
      rw [Options.report, hmode, hbound.frames hmode]
      simp only [Bool.false_eq_true, ↓reduceIte, ne_eq, h10, not_false_eq_true]
      decide +kernel
  · refine hf.joined (Options.session_constraints hcons) hpdr hbmc ?_
    rcases hx with hu | ⟨n, _, hv⟩ | hset
    · exact .inl (Options.session_bmc hu).1
    · exact .inr (.inl (Session.not_safe_iff.mpr ⟨n + 1, Options.hasCex_iff.mpr ⟨by omega, hv⟩⟩))
    · exact .inr (.inr hset)

namespace Sample

/-- `pulse` as a file with a comment. -/
def pulseFile : AigerFile where
  max_var := 6
  num_inputs := 1
  num_latches := 1
  num_outputs := 0
  num_ands := 4
  num_bads := 2
  num_constraints := 0
  Aiger_inputs := [2]
  Aiger_latches := [⟨4, 6, 0⟩]
  Aiger_outputs := []
  Aiger_bads := [12, 0]
  Aiger_constraints := []
  Aiger_ands := [⟨6, 2, 5⟩, ⟨8, 2, 4⟩, ⟨10, 4, 2⟩, ⟨12, 10, 2⟩]

def pulseInput : InputFile where
  file := pulseFile
  wf := by constructor <;> first | rfl | decide | (unfold AigerFile.LitOk; decide)
  max_var := by decide
  properties := by decide
  layout := {}
  binary := false
  descending h := by cases h
  trailer := names
  short := by decide +kernel

def pulseOptions : Options := { pdr_thread := 1, bmc_thread := 2, witness := true }

theorem pulseOptions_read :
    startOptions ["-pdr", "1", "-bmc", "2", "-witness", "pulse.aag"] = some pulseOptions := by
  decide +kernel

/-- One PDR thread and two BMC threads on the file. -/
noncomputable def pulseMain : Session :=
  pulseOptions.sessionOn (Options.bounded_startOptions pulseOptions_read) pulseInput
    (fun _ => envOf pulseAnswers) fun _ => pulseSolver

/-- They take the steps of `pulseSession`. -/
noncomputable def pulseMainMoved : Shared :=
  moved pulseMain.bmcMove pulseMoves (Session.withPdr pulseMain.start (Session.along pulseReads 2))

theorem pulseMain_allowed : Allowed pulseMain.MoveOk pulseMain.bmcMove pulseMoves
    (Session.withPdr pulseMain.start (Session.along pulseReads 2)) := by
  decide +kernel

theorem pulseMainMoved_end : pulseMainMoved.RESULT = 10 ∧
    ∀ i, i < 2 → (pulseMainMoved.bmc i).phase = if i = 0 then .returned 0 else .returned 10 := by
  decide +kernel

theorem pulseMainRun : ∃ r, runCheck ((pulseMain.env 0).reading pulseReads) (pulseInput.circuit 0) 10 = (.ok 10, r) ∧
    r.clock = 3 :=
  ⟨_, eq_of_verdict (by decide +kernel), by decide +kernel⟩

theorem pulseMain_ends : ∃ s, pulseMain.Steps pulseMain.Room pulseMain.start s ∧ s.RESULT = 10 ∧
    pulseMain.Joined s := by
  obtain ⟨r, hrun, hclock⟩ := pulseMainRun
  refine Session.ends_race (S := pulseMain) rfl hrun hclock (fun t ht => if_pos ht) rfl pulseMain_allowed
    pulseMainMoved_end.1 fun i hi => ?_
  have hph : (pulseMainMoved.bmc i).phase = _ := pulseMainMoved_end.2 i hi
  split at hph
  · exact ⟨0, hph⟩
  · exact ⟨10, hph⟩

end Sample

/-- `main` reports the counterexample of `pulse` in such a run. -/
theorem main_reports_pulse : ∃ f N, Sample.pulseMain.Runs f ∧ ∀ n, N ≤ n → Sample.pulseMain.Joined (f n) ∧
    Sample.pulseOptions.report (f n).RESULT = "result: unsafe" ∧ Sample.pulseOptions.Finds Sample.pulseInput := by
  obtain ⟨s, hs, h10, hj⟩ := Sample.pulseMain_ends
  obtain ⟨f, h0, hrun, M, hM⟩ := exists_isRun hs
  obtain ⟨_, hprint, hend⟩ := main_reports Sample.pulseOptions_read rfl Sample.pulseInput (fun _ => rfl)
    (fun _ => Sample.envOf Sample.pulseAnswers) (fun _ => Sample.pulseSolver) (S := Sample.pulseMain) rfl
  obtain ⟨N, hN⟩ := hend f ⟨h0, hrun⟩ (fun i hi => fair_of_done hM (hj.1 i hi))
    (fun i hi => fair_of_done hM (hj.2 i hi)) (.inr (.inr ⟨M, by rw [hM M le_rfl, h10]; decide⟩))
  refine ⟨f, max N M, ⟨h0, hrun⟩, fun n hn => ⟨hN n (le_of_max_le_left hn), ?_⟩⟩
  rw [hM n (le_of_max_le_right hn)]
  rcases hprint s hs hj with hyes | ⟨hno, _⟩
  · exact hyes
  · rw [h10] at hno
    exact absurd hno (by decide +kernel)

/-- In find-bug mode all threads return in every run that treats them fairly and whose steps have room. `main`
then prints 1 and one witness, if some property has a counterexample within `nframes` transitions, or 2 and none;
also that is right, if no increment of `current_bmc_execution` was lost. With one property none is. Constraints
are taken into account. -/
theorem main_finds_bugs {args : List String} {o : Options} (ho : startOptions args = some o)
    (hmode : o.find_bug_only = true) (I : InputFile) (room : I.file.properties.length ≤ 64)
    (solver : Fin (I.circuit o.property_index.toNat).allbad.length → Ipasir) {H : BugHunt}
    (hH : H = o.huntOn I room solver) :
    o.load I.bytes = .ok (I.circuit o.property_index.toNat).toAiger ∧
    ∀ f, f 0 = H.start → IsRun H.StepIn f → (∀ i, Fair H.StepIn i (BugHunt.Done i) f) →
      ∃ N, ∀ n, N ≤ n → H.Joined (f n) ∧
        (o.report (f n).RESULT = "1" ∧ (f n).witnesses = 1 ∧ o.FindsBug I ∨
          o.report (f n).RESULT = "2" ∧ (f n).witnesses = 0 ∧
            ((f n).draw.counter = H.num_property → ¬ o.FindsBug I)) ∧
        (H.num_property = 1 → (f n).draw.counter = H.num_property) := by
  subst hH
  refine ⟨Options.load_bytes, fun f h0 hrun hfair => ?_⟩
  have hbound : o.Bounded := Options.bounded_startOptions ho
  obtain ⟨N, hN⟩ := BugHunt.runs_joined h0 hrun hfair
  refine ⟨N, fun n hn => ⟨hN n hn, ?_, fun hm => ?_⟩⟩
  · have hok := BugHunt.runs_ok h0 hrun n
    have hbug : (o.huntOn I room solver).HasBug ↔ o.FindsBug I := Options.hasBug_iff hbound
    rcases hok.values with ⟨hR, hw⟩ | ⟨hR, hw, hf⟩
    · refine .inr ⟨?_, hw, fun hc hf => ?_⟩
      · rw [Options.report, hmode, hR]
        rfl
      · have h10 := (hok.joined (hN n hn)).mpr (hok.finds hc (hbug.mpr hf))
        rw [hR] at h10
        cases h10
    · refine .inl ⟨?_, hw, hbug.mp hf.hasBug⟩
      rw [Options.report, hmode, hR]
      rfl
  · exact (BugHunt.runs_ok h0 hrun n).counter_single (hN n hn) hm

namespace Sample

def bugOptions : Options := { find_bug_only := true, nframes := 3 }

theorem bugOptions_read : startOptions ["-findbug", "3", "pulse.aag"] = some bugOptions := by decide +kernel

/-- One thread for each of the two properties. -/
noncomputable def bugMain : BugHunt := bugOptions.huntOn pulseInput (by decide) fun _ => pulseSolver

/-- Again thread 1 draws the index 0. It finds the bug in its second frame. -/
def bugMoves : List (Fin bugMain.num_property × Nat) :=
  pulseMoves.map fun m => (if m.1 = 0 then ⟨0, by decide⟩ else ⟨1, by decide⟩, m.2)

theorem bugMoves_allowed : Allowed bugMain.MoveOk bugMain.move bugMoves bugMain.start := by decide +kernel

theorem bugMoved_end : (moved bugMain.move bugMoves bugMain.start).RESULT = 10 ∧
    ∀ i, ((moved bugMain.move bugMoves bugMain.start).threads i).phase =
      if i = ⟨0, by decide⟩ then .returned 0 else .returned 10 := by
  decide +kernel

theorem bugMain_ends : ∃ f s M, f 0 = bugMain.start ∧ IsRun bugMain.StepIn f ∧ (∀ n, M ≤ n → f n = s) ∧
    s.RESULT = 10 ∧ bugMain.Joined s := by
  have hs := bugMoves_allowed.steps BugHunt.stepIn_move
  obtain ⟨f, h0, hrun, M, hM⟩ := exists_isRun hs
  refine ⟨f, _, M, h0, hrun, hM, bugMoved_end.1, fun i => ?_⟩
  have hph := bugMoved_end.2 i
  split at hph
  · exact ⟨0, hph⟩
  · exact ⟨10, hph⟩

end Sample

/-- `main` finds the bug of the first property. -/
theorem main_finds_bugs_pulse : ∃ f N, f 0 = Sample.bugMain.start ∧ IsRun Sample.bugMain.StepIn f ∧
    ∀ n, N ≤ n → Sample.bugMain.Joined (f n) ∧ Sample.bugOptions.report (f n).RESULT = "1" ∧
      Sample.bugOptions.FindsBug Sample.pulseInput := by
  obtain ⟨f, s, M, h0, hrun, hM, h10, hj⟩ := Sample.bugMain_ends
  obtain ⟨_, hmain⟩ := main_finds_bugs Sample.bugOptions_read rfl Sample.pulseInput (by decide)
    (fun _ => Sample.pulseSolver) (H := Sample.bugMain) rfl
  obtain ⟨N, hN⟩ := hmain f h0 hrun fun i => fair_of_done hM (hj i)
  refine ⟨f, max N M, h0, hrun, fun n hn => ?_⟩
  obtain ⟨hjoin, ⟨h1, _, hf⟩ | ⟨h2, _⟩, _⟩ := hN n (le_of_max_le_left hn)
  · exact ⟨hjoin, h1, hf⟩
  · rw [hM n (le_of_max_le_right hn), h10] at h2
    exact absurd h2 (by decide +kernel)

end ModelChecker
