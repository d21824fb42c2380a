import ModelChecker.Bmc.Witness
import ModelChecker.Main.Program

/-!
# Printed witnesses

Whatever thread prints a witness, its lines are a counterexample of the file: there is a run along them, and
every run along them violates the property.
-/

namespace ModelChecker

open Logic

/-! ## Lines -/

/-- The text with these lines. -/
def witnessOf (latches : List Char) (lines : List (List Char)) : List Char :=
  "1\nb0\n".toList ++ (latches ++ ('\n' :: (lines.flatMap (fun l => l ++ ['\n']) ++ ".\n".toList)))

theorem flatMap_lines_inj {n : Nat} {a b : List (List Char)} (hlen : a.length = b.length)
    (ha : ∀ l ∈ a, l.length = n) (hb : ∀ l ∈ b, l.length = n) {x y : List Char}
    (h : a.flatMap (fun l => l ++ ['\n']) ++ x = b.flatMap (fun l => l ++ ['\n']) ++ y) : a = b := by
  induction a generalizing b with
  | nil => exact (List.length_eq_zero_iff.mp hlen.symm).symm
  | cons l a ih =>
      cases b with
      | nil => cases hlen
      | cons m b =>
          obtain ⟨hl, hrestA⟩ := List.forall_mem_cons.mp ha
          obtain ⟨hm, hrestB⟩ := List.forall_mem_cons.mp hb
          simp only [List.flatMap_cons, List.append_assoc] at h
          obtain ⟨rfl, hrest⟩ := List.append_inj h (hl.trans hm.symm)
          rw [ih (Nat.succ.inj hlen) hrestA hrestB (List.append_cancel_left hrest)]

theorem witnessOf_inj {n : Nat} {a b : List Char} {L M : List (List Char)} (h : witnessOf a L = witnessOf b M)
    (hab : a.length = b.length) (hLM : L.length = M.length) (hL : ∀ l ∈ L, l.length = n)
    (hM : ∀ l ∈ M, l.length = n) : a = b ∧ L = M := by
  obtain ⟨rfl, hrest⟩ := List.append_inj (List.append_cancel_left h) hab
  exact ⟨rfl, flatMap_lines_inj hLM hL hM (List.cons.inj hrest).2⟩

/-- The characters of a witness. -/
def Known (c : Char) : Prop := c = '0' ∨ c = '1' ∨ c = 'x'

theorem Known.shows {c : Char} (h : Known c) : Shows c (decide (c = '1')) := by
  rcases h with rfl | rfl | rfl
  · exact .inr rfl
  · exact .inr rfl
  · exact .inl rfl

theorem Shows.bit {c : Char} {b : Bool} (h : Shows c b) : (c = '1' → b = true) ∧ (c = '0' → b = false) := by
  cases b with
  | false =>
      refine ⟨fun hc => ?_, fun _ => rfl⟩
      subst hc
      rcases h with h | h <;> cases h
  | true =>
      refine ⟨fun _ => rfl, fun hc => ?_⟩
      subst hc
      rcases h with h | h <;> cases h

/-- The lines are a counterexample of the circuit for the literal `b`. -/
structure Witnessed (A : Circuit) (b : Int) (latches : List Char) (lines : List (List Char)) : Prop where
  latches_length : latches.length = A.num_latches
  line_length : ∀ line ∈ lines, line.length = A.num_inputs
  latches_known : ∀ c ∈ latches, Known c
  lines_known : ∀ line ∈ lines, ∀ c ∈ line, Known c
  violates : ∀ w, Follows A lines.length latches lines w →
    ∃ t, t < lines.length ∧ (A.systemFor b).Trace t w ∧ (A.systemFor b).Bad (w t)

theorem known_foldl {f : Char → Int → Char} (hf : ∀ c l, Known c → Known (f c l)) (ls : List Int) {c : Char}
    (hc : Known c) : Known (ls.foldl f c) := by
  induction ls generalizing c with
  | nil => exact hc
  | cons l ls ih => exact ih (hf c l hc)

theorem known_getD {cs : List Char} (h : ∀ c ∈ cs, Known c) (i : Nat) : Known (cs.getD i 'x') := by
  rw [List.getD_eq_getElem?_getD]
  cases hi : cs[i]? with
  | none => exact .inr (.inr rfl)
  | some c => exact h c (List.mem_of_getElem? hi)

section Runs

variable {A : Circuit} {latches : List Char} {lines : List (List Char)} {w : Nat → Assignment}

/-- The run that puts false for unknown values. -/
def replayRun (A : Circuit) (latches : List Char) (lines : List (List Char)) : Nat → Assignment
  | 0 => fun v => if v < A.num_inputs + 2 then decide ((lines.getD 0 []).getD (v - 2) 'x' = '1')
      else decide (latches.getD (v - (A.num_inputs + 2)) 'x' = '1')
  | j + 1 => fun v => if v < A.num_inputs + 2 then decide ((lines.getD (j + 1) []).getD (v - 2) 'x' = '1')
      else A.val (replayRun A latches lines j) (A.nexts.getD (v - (A.num_inputs + 2)) 1)

theorem replayRun_input (j : Nat) {i : Nat} (hi : i < A.num_inputs) :
    replayRun A latches lines j (i + 2) = decide ((lines.getD j []).getD i 'x' = '1') := by
  have hlt : i + 2 < A.num_inputs + 2 := by omega
  cases j with
  | zero => exact if_pos hlt
  | succ j => exact if_pos hlt

theorem replayRun_follows {k : Nat} (hlatch : ∀ c ∈ latches, Known c)
    (hline : ∀ line ∈ lines, ∀ c ∈ line, Known c) : Follows A k latches lines (replayRun A latches lines) := by
  have hl : ∀ i, ¬ A.latch i < A.num_inputs + 2 ∧ A.latch i - (A.num_inputs + 2) = i := by
    intro i
    unfold Aiger.latch
    omega
  refine ⟨fun i _ => ?_, fun j _ i hi => ?_, fun j _ i _ => ?_⟩
  · have hv : replayRun A latches lines 0 (A.latch i) = decide (latches.getD i 'x' = '1') := by
      show (if _ then _ else _) = _
      rw [if_neg (hl i).1, (hl i).2]
    rw [hv]
    exact (known_getD hlatch i).shows
  · rw [replayRun_input j hi]
    refine Known.shows (known_getD (fun c hc => ?_) i)
    rw [List.getD_eq_getElem?_getD] at hc
    cases hj : lines[j]? with
    | none =>
        rw [hj] at hc
        cases hc
    | some line =>
        rw [hj] at hc
        exact hline line (List.mem_of_getElem? hj) c hc
  · show (if _ then _ else _) = _
    rw [if_neg (hl i).1, (hl i).2]

theorem init_of_shows (hreset : ∀ l ∈ A.init_state, latches.getD (l.natAbs - (A.num_inputs + 2)) 'x' =
    if 0 < l then '1' else '0') {u : Assignment}
    (h : ∀ i, i < A.num_latches → Shows (latches.getD i 'x') (u (A.latch i))) : CubeSat u A.init_state := by
  intro l hl
  have hlatch := A.wf.init_latch l hl
  obtain ⟨hlt, heq⟩ := Circuit.IsLatch.eq_latch hlatch
  have hbit := (h _ hlt).bit
  rw [hreset l hl, heq] at hbit
  have h0 : l ≠ 0 := by
    rintro rfl
    have hpos := hlatch.1
    simp at hpos
  refine litVal_of_char (fun hc => hbit.1 ?_) fun hc => hbit.2 ?_
  · unfold litChar at hc
    split at hc
    · cases hc
    · exact if_pos (by omega)
  · unfold litChar at hc
    split at hc
    · exact if_neg (by omega)
    · cases hc

end Runs

/-! ## PDR -/

theorem State.char_known (s : State) (v : Nat) : Known (s.char v) := by
  refine known_foldl (fun c l hc => ?_) _ (.inr (.inr rfl))
  split_ifs
  · exact .inl rfl
  · exact .inr (.inl rfl)
  · exact hc

theorem Fits.of_shows {line : String} {first : Nat} {u : Assignment}
    (h : ∀ i, i < line.toList.length → Shows (line.toList.getD i 'x') (u (first + i))) : Fits line first u := by
  intro i c hc
  have hlt := (List.getElem?_eq_some_iff.mp hc).1
  have hbit := (h i hlt).bit
  rwa [List.getD_eq_getElem?_getD, hc, Option.getD_some] at hbit

section Pdr

variable {A : Circuit} {L : List State}

theorem length_return_latch (st : State) : (A.return_latch st).toList.length = A.num_latches := by
  simp [Aiger.return_latch]

theorem length_return_input (st : State) : (A.return_input st).toList.length = A.num_inputs := by
  simp [Aiger.return_input]

theorem show_witness_text {first : State} {rest : List State} :
    ((A.show_witness (first :: rest)).flatMap fun line => line.toList ++ ['\n']) =
      witnessOf (A.return_latch first).toList ((first :: rest).map fun st => (A.return_input st).toList) := by
  unfold Aiger.show_witness witnessOf
  simp only [List.take_succ_cons, List.take_zero, List.map_cons, List.map_nil, List.flatMap_append,
    List.flatMap_cons, List.flatMap_nil, List.flatMap_map, List.append_nil, List.append_assoc]
  rfl

theorem Counterexample.witnessed (hA : A.constraints = []) {first : State} {rest : List State}
    (h : Counterexample A (first :: rest)) : Witnessed A A.bad (A.return_latch first).toList
      ((first :: rest).map fun st => (A.return_input st).toList) := by
  have hfirst : first ∈ first :: rest := List.mem_cons_self
  refine ⟨length_return_latch first, ?_, ?_, ?_, fun w hw => ?_⟩
  · intro line hline
    obtain ⟨st, _, rfl⟩ := List.mem_map.mp hline
    exact length_return_input st
  · intro c hc
    simp only [Aiger.return_latch, String.toList_ofList, List.mem_map] at hc
    obtain ⟨i, _, rfl⟩ := hc
    exact State.char_known _ _
  · intro line hline c hc
    obtain ⟨st, _, rfl⟩ := List.mem_map.mp hline
    simp only [Aiger.return_input, String.toList_ofList, List.mem_map] at hc
    obtain ⟨i, _, rfl⟩ := hc
    exact State.char_known _ _
  · have hlen : ((first :: rest).map fun st => (A.return_input st).toList).length = (first :: rest).length :=
      List.length_map _
    rw [hlen] at hw ⊢
    have h0 : Fits (A.return_latch first) (A.num_inputs + 2) (w 0) := by
      refine Fits.of_shows fun i hi => hw.latch i ?_
      rwa [length_return_latch] at hi
    have hin : ∀ t st, (first :: rest)[t]? = some st → Fits (A.return_input st) 2 (w t) := by
      intro t st hst
      refine Fits.of_shows fun i hi => ?_
      rw [length_return_input] at hi
      have hshow := hw.input t (List.getElem?_eq_some_iff.mp hst).1 i hi
      rw [List.getD_eq_getElem?_getD (l := List.map _ _), List.getElem?_map, hst, Option.map_some,
        Option.getD_some, Nat.add_comm] at hshow
      exact hshow
    have hsat := cubeSat_of_fits_latch (h.inputs _ hfirst) (h.latches _ hfirst) (h.consistent _ rfl) h0
    have hinputs : ∀ t I, ((first :: rest).map State.inputs)[t]? = some I → CubeSat (w t) I := by
      intro t I hI
      rw [List.getElem?_map, Option.map_eq_some_iff] at hI
      obtain ⟨st, hst, rfl⟩ := hI
      have hmem := List.mem_of_getElem? hst
      exact cubeSat_of_fits_input (h.inputs _ hmem) (h.latches _ hmem) (hin t st hst)
    obtain ⟨t, ht, hb⟩ := (h.forced _ rfl _ hsat).simulate hinputs (by rw [List.length_map]; exact hw.next)
    rw [List.length_map] at ht
    refine ⟨t, ht, ⟨fun l hl => hsat l (h.init _ rfl hl), fun i hi => ?_, fun _ _ => cons_of_nil hA _⟩, hb⟩
    exact hw.next i (by omega)

end Pdr

/-! ## BMC -/

section Bmc

variable {B : BmcConfig} {k : Nat} {b : BMC}

theorem valueChar_known (assignment : Int) : Known (valueChar assignment) := by
  unfold valueChar
  split_ifs
  · exact .inl rfl
  · exact .inr (.inl rfl)
  · exact .inr (.inr rfl)

theorem initChar_known (A : Aiger) (v : Nat) : Known (A.initChar v) := by
  refine known_foldl (fun c l hc => ?_) _ (.inr (.inr rfl))
  split_ifs
  · exact .inr (.inl rfl)
  · exact .inl rfl
  · exact hc

theorem latchChar_known (A : Aiger) (solver : CaDiCaL) (i : Nat) : Known (A.latchChar solver i) := by
  unfold Aiger.latchChar
  split_ifs
  · exact valueChar_known _
  · exact initChar_known A _

/-- The state in which a thread has found a counterexample. -/
theorem Found.witnessed (h : Found B k b) (hI : 0 < B.circuit.num_inputs) :
    B.witnessText b = witnessOf (B.latchLine b) (B.inputLines b (k + 1)) ∧
      Witnessed B.circuit B.checked (B.latchLine b) (B.inputLines b (k + 1)) := by
  obtain ⟨m, ha, hm⟩ := h.model
  obtain ⟨latches, lines, htext, hlat, hlen, hline, hreset, hviol⟩ := replays_text h.unrolled ha hm hI
  have hown : B.witnessText b = witnessOf (B.latchLine b) (B.inputLines b (k + 1)) := by
    unfold BmcConfig.witnessText BmcConfig.inputLines witnessOf
    rw [inputsText_lines hI (k + 1) 0 (Nat.zero_mod _) _ (by rw [List.length_map, h.unrolled.inputs_length])]
    rfl
  have hlen' : (B.inputLines b (k + 1)).length = k + 1 := by
    rw [BmcConfig.inputLines, List.length_map, List.length_range]
  have hlat' : (B.latchLine b).length = B.circuit.num_latches := by
    rw [BmcConfig.latchLine, List.length_map, List.length_range]
  have hline' : ∀ line ∈ B.inputLines b (k + 1), line.length = B.circuit.num_inputs := by
    intro line hl
    obtain ⟨j, hj, rfl⟩ := List.mem_map.mp hl
    have hmul := Nat.mul_le_mul_right B.circuit.num_inputs (List.mem_range.mp hj)
    rw [Nat.succ_mul] at hmul
    rw [List.length_take, List.length_drop, List.length_map, h.unrolled.inputs_length]
    omega
  obtain ⟨rfl, rfl⟩ := witnessOf_inj (htext.symm.trans hown) (hlat.trans hlat'.symm) (hlen.trans hlen'.symm)
    hline hline'
  refine ⟨hown, hlat, hline, ?_, ?_, fun w hw => ?_⟩
  · intro c hc
    obtain ⟨i, _, rfl⟩ := List.mem_map.mp hc
    exact latchChar_known _ _ i
  · intro line hl c hc
    obtain ⟨j, _, rfl⟩ := List.mem_map.mp hl
    obtain ⟨i, _, rfl⟩ := List.mem_map.mp (List.mem_of_mem_drop (List.mem_of_mem_take hc))
    exact valueChar_known _
  · rw [hlen] at hw ⊢
    obtain ⟨hcons, hbad⟩ := hviol w hw
    refine ⟨k, Nat.lt_succ_self k, ⟨init_of_shows hreset hw.latch, fun i hi => ?_, fun i hi => ?_⟩, hbad⟩
    · exact hw.next i (by omega)
    · exact hcons i (by omega)

end Bmc

/-! ## Files -/

namespace AigerFile

/-- A run of the file along the lines; the values of the first one are those of the latches. -/
structure Follows (F : AigerFile) (latches : List Char) (lines : List (List Char)) (v : Nat → Nat → Bool) :
    Prop where
  latch : ∀ i, i < F.num_latches → Shows (latches.getD i 'x') (v 0 (F.num_inputs + i + 1))
  input : ∀ j, j < lines.length → ∀ i, i < F.num_inputs → Shows ((lines.getD j []).getD i 'x') (v j (i + 1))
  next : ∀ j, j + 1 < lines.length → ∀ a ∈ F.Aiger_latches, v (j + 1) (a.l / 2) = F.val (v j) a.next

/-- The text is a witness for the property `p`: the file has a run along its lines, and each such run is a
trace that violates the property. -/
def Replays (F : AigerFile) (p : Nat) (text : List Char) : Prop :=
  ∃ latches lines, text = witnessOf latches lines ∧ latches.length = F.num_latches ∧
    (∀ line ∈ lines, line.length = F.num_inputs) ∧ (∃ v, F.Follows latches lines v) ∧
    ∀ v, F.Follows latches lines v → ∃ t, t < lines.length ∧ F.Trace t v ∧ F.val (v t) p = true

variable {F : AigerFile} {h : F.WellFormed} {hlit : 2 * F.max_var + 1 < 2 ^ 31}
  {hprop : 0 < F.num_outputs ∨ 0 < F.num_bads} {i : Nat} {latches : List Char} {lines : List (List Char)}

/-- The file and the circuit have the same runs along the lines. -/
theorem follows_iff {v : Nat → Nat → Bool} {w : Nat → Assignment} (ha : ∀ t, Agree (v t) (w t)) :
    ModelChecker.Follows (F.circuit h hlit hprop i) lines.length latches lines w ↔
      F.Follows latches lines v := by
  have hlatch : ∀ j, w 0 ((F.circuit h hlit hprop i).latch j) = v 0 (F.num_inputs + j + 1) := by
    intro j
    rw [← ha 0]
    show w 0 (F.num_inputs + 2 + j) = _
    congr 1
    omega
  have hnext : ∀ j, (∀ k, k < (F.circuit h hlit hprop i).num_latches →
      w (j + 1) ((F.circuit h hlit hprop i).latch k) =
        (F.circuit h hlit hprop i).val (w j) ((F.circuit h hlit hprop i).nexts.getD k 1)) ↔
      ∀ a ∈ F.Aiger_latches, v (j + 1) (a.l / 2) = F.val (v j) a.next :=
    fun j => Agree.next (b := 0) (ha j) (ha (j + 1))
  constructor
  · intro hw
    refine ⟨fun j hj => ?_, fun j hj k hk => ?_, fun j hj => (hnext j).mp (hw.next j hj)⟩
    · rw [← hlatch]
      exact hw.latch j hj
    · rw [← ha j]
      exact hw.input j hj k hk
  · intro hv
    refine ⟨fun j hj => ?_, fun j hj k hk => ?_, fun j hj => (hnext j).mpr (hv.next j hj)⟩
    · rw [hlatch]
      exact hv.latch j hj
    · rw [ha j]
      exact hv.input j hj k hk

theorem replays_of_witnessed {p : Nat} (hp : F.LitOk p)
    (hw : Witnessed (F.circuit h hlit hprop i) (literalOf p) latches lines) :
    F.Replays p (witnessOf latches lines) := by
  refine ⟨latches, lines, rfl, hw.latches_length, hw.line_length, ?_, fun v hv => ?_⟩
  · exact ⟨fun t k => replayRun (F.circuit h hlit hprop i) latches lines t (k + 1),
      (follows_iff fun _ _ => rfl).mp (replayRun_follows hw.latches_known hw.lines_known)⟩
  · have ha : ∀ t, Agree (v t) (toDimacs (v t)) := fun t k => rfl
    obtain ⟨t, ht, htrace, hbad⟩ := hw.violates (fun t => toDimacs (v t)) ((follows_iff ha).mpr hv)
    exact ⟨t, ht, (trace_iff ha).mp htrace, ((ha t).val hp).symm.trans hbad⟩

end AigerFile

/-! ## Sessions -/

namespace Session

variable {S : Session} {s s' : Shared}

/-- What the next step of a thread prints: the lines of `show_witness` when `check` returns 10, and the text
of a BMC thread that has found a counterexample. -/
inductive Prints (S : Session) : ThreadId → Shared → List Char → Prop
  | pdr {s : Shared} {i fuel : Nat} {reads : List Int} {r : Run} {lines : List String} (hi : i < S.pdr_thread)
      (hx : s.pdr i = ⟨.running, reads⟩)
      (hrun : runCheck ((S.env i).reading (readValue (reads ++ [s.RESULT]))) S.circuit fuel = (.ok 10, r))
      (hclock : r.clock = (reads ++ [s.RESULT]).length) (hw : r.witness = some lines) :
      Prints S (.pdr i) s (lines.flatMap fun line => line.toList ++ ['\n'])
  | bmc {s : Shared} {i index : Nat} (hi : i < S.bmc_thread) (hdraw : s.draw.slot i = .drawn index)
      (h : S.bmcPrints s i = true) : Prints S (.bmc i) s ((S.config S.bmc_thread index).witnessText (s.bmc i).bmc)

/-- Each BMC thread of a session that has its index is in a run of its `check`. -/
theorem Steps.checkRun (h : S.Steps S.Room S.start s) {i index : Nat} (hd : s.draw.slot i = .drawn index) :
    CheckRun (S.config S.bmc_thread index) (S.solver i) BmcConfig.Fits (s.bmc i) := by
  induction h with
  | refl => cases hd
  | tail _ hstep ih =>
      obtain ⟨e, hroom, he⟩ := hstep
      cases he with
      | pdr _ _ => exact ih hd
      | load hj hw => exact ih ((Tickets.load_keeps hw i index).mp hd)
      | @store _ j index' hj hl =>
          by_cases hij : i = j
          · subst hij
            obtain rfl : index' = index := by simpa [Tickets.store] using hd
            simp only [Function.update_self]
            exact .start
          · simp only [Tickets.store, Function.update_of_ne hij] at hd
            simp only [Function.update_of_ne hij]
            exact ih hd
      | @bmc _ j index' time terminated hj hdraw hterm =>
          by_cases hij : i = j
          · subst hij
            obtain rfl : index' = index := by simpa [hdraw] using hd
            simp only [Function.update_self]
            exact (ih hd).step hterm (hroom _ hdraw).1
          · simp only [Function.update_of_ne hij]
            exact ih hd

theorem Prints.witnessed (hA : 0 < S.pdr_thread → S.circuit.constraints = [])
    (hI : 0 < S.circuit.num_inputs ∨ S.bmc_thread = 0) (h : S.Steps S.Room S.start s) {e : ThreadId} {text : List Char}
    (hp : S.Prints e s text) :
    ∃ latches lines, text = witnessOf latches lines ∧ Witnessed S.circuit S.circuit.bad latches lines := by
  cases hp with
  | @pdr _ i fuel reads r lines hi _ hrun _ hw =>
      have hres := run_result S.circuit _ fuel hrun
      have hA := hA (by omega)
      have hcex := hres.cex rfl hA
      obtain ⟨first, rest, hL⟩ := List.exists_cons_of_ne_nil hcex.nonempty
      obtain rfl : lines = S.circuit.show_witness r.pdr.cex_states := by
        rcases hres.witness rfl with ⟨hnone, _⟩ | ⟨_, hsome⟩
        · rw [hw] at hnone
          cases hnone
        · exact Option.some.inj (hw.symm.trans hsome)
      rw [hL] at hcex ⊢
      exact ⟨_, _, show_witness_text, hcex.witnessed hA⟩
  | @bmc _ i index hi hdraw hprint =>
      have hpos : 0 < S.circuit.num_inputs := hI.resolve_right (by omega)
      have hphase : (s.bmc i).phase = .found := by
        unfold bmcPrints at hprint
        simp only [Bool.and_eq_true, decide_eq_true_eq] at hprint
        exact hprint.1.1
      obtain ⟨k, hk⟩ := (h.checkRun hdraw).found.2 hphase
      obtain ⟨htext, hwit⟩ := hk.witnessed hpos
      refine ⟨_, _, htext, ?_⟩
      rw [S.bad_eq]
      exact hwit

theorem Step.prints (hok : S.Ok s) {e : ThreadId} (hs : S.Step e s s') (hne : s'.witnesses ≠ s.witnesses) :
    ∃ text, S.Prints e s text := by
  cases hs with
  | @pdr _ i x o hi ht =>
      have hprint : o.2 = true := by
        by_contra hno
        exact hne (if_neg hno)
      generalize hx : s.pdr i = y at ht
      cases ht with
      | @cex reads hend =>
          obtain ⟨_, fuel, r, hrun, hclock⟩ := hend
          have hR : s.RESULT = 0 ∧ (S.env i).output_witness = true := by
            unfold publishCex at hprint
            split_ifs at hprint with h0
            exact ⟨h0, hprint⟩
          rcases (run_result S.circuit _ fuel hrun).witness rfl with ⟨_, hset⟩ | ⟨_, hsome⟩
          · -- `RESULT` was not set whenever it was read
            obtain ⟨t, ht⟩ := hset hR.2
            obtain ⟨v, hv, hv0⟩ := exists_mem_of_readValue ht
            rcases List.mem_append.mp hv with hv | hv
            · have hreads := (hok.pdr i hi).set v (by rw [hx]; exact hv) hv0
              exact absurd hR.1 hreads
            · rw [List.mem_singleton.mp hv] at hv0
              exact absurd hR.1 hv0
          · exact ⟨_, .pdr hi hx hrun hclock hsome⟩
      | work _ => cases hprint
      | stop _ => cases hprint
      | fixpoint _ => cases hprint
      | abort _ => cases hprint
      | finish => cases hprint
  | load _ _ => exact absurd rfl hne
  | store _ _ => exact absurd rfl hne
  | @bmc _ i index time terminated hi hdraw _ =>
      have hprint : S.bmcPrints s i = true := by
        by_contra hno
        exact hne (if_neg hno)
      exact ⟨_, .bmc hi hdraw hprint⟩

end Session

namespace BugHunt

variable {H : BugHunt} {f : Nat → BugState H.num_property} {i t : Fin H.num_property}

/-- What the next step of a thread prints, which has drawn the index of property `t`. -/
def Prints (H : BugHunt) (i t : Fin H.num_property) (s : BugState H.num_property) (text : List Char) : Prop :=
  s.draw.slot i = .drawn t ∧ (s.threads i).phase = .found ∧ s.RESULT = 0 ∧
    text = (H.config t).witnessText (s.threads i).bmc

theorem Ok.checkRun {s s' : BugState H.num_property} (h : H.Ok s) {e : Fin H.num_property}
    (hs : H.StepIn e s s') (ih : s.draw.slot i = .drawn t →
      CheckRun (H.config t) (H.solver i) BmcConfig.Fits (s.threads i)) (hd : s'.draw.slot i = .drawn t) :
    CheckRun (H.config t) (H.solver i) BmcConfig.Fits (s'.threads i) := by
  obtain ⟨hroom, hs⟩ := hs
  by_cases he : e = i
  · subst he
    obtain ⟨hterm⟩ := hs
    unfold stepOf at hd ⊢
    cases hslot : s.draw.slot e with
    | waiting => simp [hslot, Tickets.load] at hd
    | loaded index =>
        -- the thread has done nothing yet
        simp only
        rw [(h.threads e).waiting (by rw [hslot]; rfl)]
        exact .start
    | drawn index =>
        have hlt := h.index_lt hslot
        simp only [hslot, dif_pos hlt] at hd ⊢
        obtain rfl : index = t := by simpa using hd
        simp only [Function.update_self]
        exact (ih hslot).step hterm (hroom t hslot).1
  · obtain ⟨h1, h2⟩ := h.step_same hs (.inl he)
    rw [h1]
    exact ih (h2 ▸ hd)

theorem runs_checkRun (h0 : f 0 = H.start) (hrun : IsRun H.StepIn f) (n : Nat)
    (hd : (f n).draw.slot i = .drawn t) : CheckRun (H.config t) (H.solver i) BmcConfig.Fits ((f n).threads i) := by
  induction n with
  | zero =>
      rw [h0] at hd
      cases hd
  | succ n ih =>
      rcases hrun n with heq | ⟨e, hs⟩
      · rw [heq] at hd ⊢
        exact ih hd
      · exact (runs_ok h0 hrun n).checkRun hs ih hd

theorem Ok.prints {s s' : BugState H.num_property} (h : H.Ok s) (hs : H.Step i s s')
    (hne : s'.witnesses ≠ s.witnesses) : ∃ t text, H.Prints i t s text := by
  obtain ⟨hterm⟩ := hs
  unfold stepOf at hne
  cases hslot : s.draw.slot i with
  | waiting => simp [hslot] at hne
  | loaded index => simp [hslot] at hne
  | drawn index =>
      have hlt := h.index_lt hslot
      simp only [hslot, dif_pos hlt] at hne
      have hprint : (s.threads i).phase = .found ∧ s.RESULT = 0 := by
        by_contra hno
        exact hne (if_neg hno)
      exact ⟨⟨index, hlt⟩, _, hslot, hprint.1, hprint.2, rfl⟩

end BugHunt

/-! ## The theorems -/

/-- In every session whose steps have room, with constraints only if no PDR engine runs, each step that counts a
witness prints a text, and what is printed is a witness of the file for the checked property. BMC threads need
an input for that. -/
theorem session_witness {o : Options} (h : o.Bounded) (I : InputFile)
    (hcons : o.UsesPdr → I.file.Aiger_constraints = []) (hI : 0 < I.file.num_inputs ∨ o.bmc_thread = 0)
    (env : Nat → PdrEnv) (solver : Nat → Ipasir) {S : Session} (hS : S = o.sessionOn h I env solver) {s : Shared}
    (hs : S.Steps S.Room S.start s) :
    (∀ e s', S.Step e s s' → s'.witnesses ≠ s.witnesses → ∃ text, S.Prints e s text) ∧
    ∀ e text, S.Prints e s text → I.file.Replays (I.property o.property_index.toNat) text := by
  subst hS
  have hnil : 0 < (o.sessionOn h I env solver).pdr_thread → (o.sessionOn h I env solver).circuit.constraints = [] :=
    Options.session_constraints hcons
  constructor
  · intro e s' hstep hne
    exact hstep.prints ((o.sessionOn h I env solver).ok_start.steps hnil hs).1 hne
  · intro e text hp
    have hI' : 0 < (o.sessionOn h I env solver).circuit.num_inputs ∨ (o.sessionOn h I env solver).bmc_thread = 0 :=
      hI.imp id fun h0 => by
        show o.bmc_thread.toNat = 0
        omega
    obtain ⟨latches, lines, rfl, hw⟩ := hp.witnessed hnil hI' hs
    have hbad : (I.circuit o.property_index.toNat).bad = literalOf (I.property o.property_index.toNat) :=
      AigerFile.circuit_bad _ _ _ _
    have hwit : Witnessed (I.circuit o.property_index.toNat)
        (literalOf (I.property o.property_index.toNat)) latches lines := by
      rw [← hbad]
      exact hw
    exact AigerFile.replays_of_witnessed InputFile.property_ok hwit

namespace Sample

theorem pulseMain_found : Allowed pulseMain.MoveOk pulseMain.bmcMove (pulseMoves.take 10)
    (Session.withPdr pulseMain.start (Session.along pulseReads 2)) ∧
    (moved pulseMain.bmcMove (pulseMoves.take 10) (Session.withPdr pulseMain.start (Session.along pulseReads 2))).draw.slot 1 =
      .drawn 0 ∧
    pulseMain.bmcPrints (moved pulseMain.bmcMove (pulseMoves.take 10)
      (Session.withPdr pulseMain.start (Session.along pulseReads 2))) 1 = true := by
  decide +kernel

end Sample

/-- Thread 1 of the session on `pulse` prints a witness. -/
theorem session_witness_pulse : ∃ s text, Sample.pulseMain.Steps Sample.pulseMain.Room Sample.pulseMain.start s ∧
    Sample.pulseMain.Prints (.bmc 1) s text ∧ Sample.pulseFile.Replays 12 text := by
  obtain ⟨r, hrun, hclock⟩ := Sample.pulseMainRun
  obtain ⟨hallow, hdraw, hprint⟩ := Sample.pulseMain_found
  have h1 := Session.steps_start (S := Sample.pulseMain) Nat.one_pos hrun (n := 2) (by omega) fun t ht => if_pos ht
  have h2 : Sample.pulseMain.Steps Sample.pulseMain.Room _ _ := hallow.steps Session.stepIn_bmcMove
  have hprints := Session.Prints.bmc (S := Sample.pulseMain) Nat.one_lt_two hdraw hprint
  exact ⟨_, _, h1.trans h2, hprints, (session_witness _ Sample.pulseInput (fun _ => rfl) (.inl Nat.one_pos)
    (fun _ => Sample.envOf Sample.pulseAnswers) (fun _ => Sample.pulseSolver) (S := Sample.pulseMain) rfl
    (h1.trans h2)).2 _ _ hprints⟩

/-- In find-bug mode on a file with inputs, each step that counts a witness prints a text, and what a thread
prints is a witness of the file, also of its constraints, for the property of the thread. Steps have room. -/
theorem bug_witness (o : Options) (I : InputFile) (room : I.file.properties.length ≤ 64)
    (solver : Fin (I.circuit o.property_index.toNat).allbad.length → Ipasir) (hI : 0 < I.file.num_inputs)
    {H : BugHunt} (hH : H = o.huntOn I room solver) {f : Nat → BugState H.num_property} (h0 : f 0 = H.start)
    (hrun : IsRun H.StepIn f) (n : Nat) :
    ((f (n + 1)).witnesses ≠ (f n).witnesses → ∃ i t text, H.Prints i t (f n) text) ∧
    ∀ i t text, H.Prints i t (f n) text → ∃ p, I.file.properties[t.val]? = some p ∧ I.file.Replays p text := by
  subst hH
  constructor
  · intro hne
    rcases hrun n with heq | ⟨i, _, hstep⟩
    · rw [heq] at hne
      exact absurd rfl hne
    · exact ⟨i, (BugHunt.runs_ok h0 hrun n).prints hstep hne⟩
  · rintro i t text ⟨hd, hfound, _, rfl⟩
    obtain ⟨k, hk⟩ := (BugHunt.runs_checkRun h0 hrun n hd).found.2 hfound
    obtain ⟨htext, hw⟩ := hk.witnessed hI
    have hlt : t.val < I.file.properties.length := by
      rw [← InputFile.length_allbad (i := o.property_index.toNat)]
      exact t.isLt
    have hget := List.getElem?_eq_getElem hlt
    have hchecked : ((o.huntOn I room solver).config t).checked = literalOf I.file.properties[t.val] := by
      rw [← AigerFile.circuit_getD I.wf I.max_var I.properties o.property_index.toNat hget,
        List.getD_eq_getElem?_getD]
      exact (congrArg (Option.getD · 0) (List.getElem?_eq_getElem t.isLt)).symm
    have hwit : Witnessed (I.circuit o.property_index.toNat) (literalOf I.file.properties[t.val])
        (((o.huntOn I room solver).config t).latchLine ((f n).threads i).bmc)
        (((o.huntOn I room solver).config t).inputLines ((f n).threads i).bmc (k + 1)) := by
      rw [← hchecked]
      exact hw
    rw [htext]
    exact ⟨_, hget, AigerFile.replays_of_witnessed (I.wf.properties_ok (List.getElem_mem hlt)) hwit⟩

namespace Sample

/-- The moves until the bug is found by thread 1, whose property is the first one. -/
theorem bugMain_found : Allowed bugMain.MoveOk bugMain.move (bugMoves.take 10) bugMain.start ∧
    (moved bugMain.move (bugMoves.take 10) bugMain.start).draw.slot ⟨1, by decide⟩ = .drawn 0 ∧
    ((moved bugMain.move (bugMoves.take 10) bugMain.start).threads ⟨1, by decide⟩).phase = .found ∧
    (moved bugMain.move (bugMoves.take 10) bugMain.start).RESULT = 0 := by
  decide +kernel

end Sample

/-- The witness of the first property is printed. -/
theorem bug_witness_pulse : ∃ f n text, f 0 = Sample.bugMain.start ∧ IsRun Sample.bugMain.StepIn f ∧
    Sample.bugMain.Prints ⟨1, by decide⟩ ⟨0, by decide⟩ (f n) text ∧ Sample.pulseFile.Replays 12 text := by
  obtain ⟨hallow, hdraw, hfound, h0⟩ := Sample.bugMain_found
  obtain ⟨f, hstart, hrun, M, hM⟩ := exists_isRun (hallow.steps BugHunt.stepIn_move)
  rw [← hM M le_rfl] at hdraw hfound h0
  obtain ⟨text, hprint⟩ : ∃ text, Sample.bugMain.Prints ⟨1, by decide⟩ ⟨0, by decide⟩ (f M) text :=
    ⟨_, hdraw, hfound, h0, rfl⟩
  obtain ⟨p, hp, hrep⟩ := (bug_witness Sample.bugOptions Sample.pulseInput (by decide)
    (fun _ => Sample.pulseSolver) Nat.one_pos (H := Sample.bugMain) rfl hstart hrun M).2 _ _ _ hprint
  obtain rfl : p = 12 := (Option.some.inj hp).symm
  exact ⟨f, M, text, hstart, hrun, hprint, hrep⟩

end ModelChecker
