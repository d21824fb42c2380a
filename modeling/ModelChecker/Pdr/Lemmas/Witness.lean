import ModelChecker.Pdr.Lemmas.Check

/-!
# Printed counterexamples

A valuation that agrees with the printed lines satisfies the literals of the state objects, so a
simulation that follows them meets a bad point.
-/

namespace ModelChecker

open Logic

variable {A : Circuit}

/-- The valuation agrees with a printed line from variable `first` on; `x` leaves a variable open. -/
def Fits (line : String) (first : Nat) (w : Assignment) : Prop :=
  ∀ i c, line.toList[i]? = some c → (c = '1' → w (first + i) = true) ∧ (c = '0' → w (first + i) = false)

/-- The character of a literal's variable. -/
def litChar (l : Int) : Char := if l < 0 then '0' else '1'

theorem foldl_char {ls : List Int} {l : Int} {c : Char} (hc : c = litChar l ∨ l ∈ ls)
    (h : ∀ m ∈ ls, m.natAbs = l.natAbs → m = l) :
    ls.foldl (fun c m => if m.natAbs = l.natAbs then if m < 0 then '0' else '1' else c) c =
      litChar l := by
  induction ls generalizing c with
  | nil =>
      rcases hc with rfl | hc
      · rfl
      · cases hc
  | cons m ls ih =>
      have hls : ∀ x ∈ ls, x.natAbs = l.natAbs → x = l := fun x hx => h x (List.mem_cons_of_mem _ hx)
      rw [List.foldl_cons]
      by_cases hm : m.natAbs = l.natAbs
      · rw [h m List.mem_cons_self hm] at *
        exact ih (Or.inl (by simp [litChar])) hls
      · rw [if_neg hm]
        refine ih (hc.imp id fun hmem => ?_) hls
        rcases List.mem_cons.mp hmem with rfl | hmem
        · exact absurd rfl hm
        · exact hmem

/-- A literal of the state object decides the character of its variable, if its negation is not
there. -/
theorem State.char_eq {st : State} {l : Int} (hl : l ∈ st.inputs ++ st.latches)
    (hn : -l ∉ st.inputs ++ st.latches) : st.char l.natAbs = litChar l := by
  refine foldl_char (Or.inr hl) fun m hm hab => ?_
  rcases Int.natAbs_eq_natAbs_iff.mp hab with rfl | rfl
  · rfl
  · exact absurd hm hn

theorem litVal_of_char {l : Int} {w : Assignment} (h1 : litChar l = '1' → w l.natAbs = true)
    (h0 : litChar l = '0' → w l.natAbs = false) : litVal w l = true := by
  unfold litChar at *
  unfold litVal
  by_cases hl : l < 0
  · simp only [hl, ↓reduceIte, forall_const] at h0 ⊢
    simp [h0]
  · simp only [hl, ↓reduceIte, forall_const] at h1 ⊢
    exact h1

theorem return_input_get (st : State) {i : Nat} (hi : i < A.num_inputs) :
    (A.return_input st).toList[i]? = some (st.char (2 + i)) := by
  simp [Aiger.return_input, hi]

theorem return_latch_get {st : State} {i : Nat} (hi : i < A.num_latches) :
    (A.return_latch st).toList[i]? = some (st.char (A.latch i)) := by
  simp [Aiger.return_latch, hi]

theorem input_not_latch {v : Nat} (h : A.IsInput v) : ¬ A.IsLatch v := by
  have := h.2
  unfold Aiger.IsLatch
  omega

theorem cubeSat_of_fits_input {st : State} (hin : InputLine A st.inputs) (hla : A.LatchCube st.latches)
    {w : Assignment} (hw : Fits (A.return_input st) 2 w) : CubeSat w st.inputs := by
  intro l hl
  obtain ⟨⟨h2, hlt⟩, hn⟩ := hin l hl
  have hchar : st.char l.natAbs = litChar l := by
    refine State.char_eq (List.mem_append_left _ hl) fun hmem => ?_
    rcases List.mem_append.mp hmem with hmem | hmem
    · exact hn hmem
    · have := hla _ hmem
      rw [Int.natAbs_neg] at this
      exact input_not_latch ⟨h2, hlt⟩ this
  have hget := return_input_get (A := A) st (i := l.natAbs - 2) (by omega)
  have hidx : 2 + (l.natAbs - 2) = l.natAbs := by omega
  rw [hidx, hchar] at hget
  obtain ⟨h1, h0⟩ := hw _ _ hget
  rw [hidx] at h1 h0
  exact litVal_of_char h1 h0

/-- The character printed for a latch of the state object. -/
theorem return_latch_char {st : State} (hin : InputLine A st.inputs) (hla : A.LatchCube st.latches)
    (hcons : ∀ l ∈ st.latches, -l ∉ st.latches) {l : Int} (hl : l ∈ st.latches) :
    (A.return_latch st).toList[l.natAbs - (A.num_inputs + 2)]? = some (litChar l) := by
  have hlatch := hla l hl
  obtain ⟨hi, heq⟩ := Circuit.IsLatch.eq_latch hlatch
  rw [return_latch_get hi, heq, State.char_eq (List.mem_append_right _ hl)]
  intro hmem
  rcases List.mem_append.mp hmem with hmem | hmem
  · have := (hin _ hmem).1
    rw [Int.natAbs_neg] at this
    exact input_not_latch this hlatch
  · exact hcons l hl hmem

theorem cubeSat_of_fits_latch {st : State} (hin : InputLine A st.inputs) (hla : A.LatchCube st.latches)
    (hcons : ∀ l ∈ st.latches, -l ∉ st.latches) {w : Assignment}
    (hw : Fits (A.return_latch st) (A.num_inputs + 2) w) : CubeSat w st.latches := by
  intro l hl
  have h1 := (hla l hl).1
  obtain ⟨h1, h0⟩ := hw _ _ (return_latch_char hin hla hcons hl)
  rw [show A.num_inputs + 2 + (l.natAbs - (A.num_inputs + 2)) = l.natAbs by omega] at h1 h0
  exact litVal_of_char h1 h0

/-- A simulation that reads the inputs one after the other meets a bad point. -/
theorem Forced.simulate {L : List (List Int)} {w : Nat → Assignment} (h : Forced A L (w 0))
    (hin : ∀ t I, L[t]? = some I → CubeSat (w t) I)
    (hn : ∀ t, t + 1 < L.length → A.system.Next (w t) (w (t + 1))) :
    ∃ t, t < L.length ∧ A.system.Bad (w t) := by
  induction L generalizing w with
  | nil => cases h
  | cons I L ih =>
      rcases h (w 0) (A.system.same_refl _) (hin 0 I rfl) with hb | hnext
      · exact ⟨0, by simp, hb⟩
      · cases L with
        | nil =>
            obtain ⟨w', hw'⟩ := A.system.total (w 0)
            cases hnext w' hw'
        | cons J L =>
            have hf := hnext (w 1) (hn 0 (by simp))
            obtain ⟨t, ht, hb⟩ := ih (w := fun t => w (t + 1)) hf (fun t I hI => hin (t + 1) I hI)
              fun t ht => hn (t + 1) (by simpa using ht)
            exact ⟨t + 1, by simpa using ht, hb⟩

/-! ## Traces -/

/-- A cube without complementary literals has a point. -/
theorem cubeSat_mem {c : List Int} (h : ∀ l ∈ c, -l ∉ c) : CubeSat (fun v => decide ((v : Int) ∈ c)) c := by
  intro l hl
  unfold litVal
  split
  next hneg =>
    have heq : (l.natAbs : Int) = -l := by omega
    simpa [heq] using h l hl
  next hpos =>
    have heq : (l.natAbs : Int) = l := by omega
    simpa [heq] using hl

theorem InputLine.exists_point {I : List Int} (h : InputLine A I) (w : Assignment) :
    ∃ v, A.system.same w v ∧ CubeSat v I :=
  ⟨withInputs A w _, same_withInputs w _,
    cubeSat_withInputs (fun l hl => (h l hl).1) (cubeSat_mem fun l hl => (h l hl).2)⟩

/-- Reading the lines leads to a bad point. -/
theorem Forced.reachIn {L : List (List Int)} {n : Nat} {w : Assignment} (h : Forced A L w)
    (hin : ∀ I ∈ L, InputLine A I) (hr : A.system.ReachIn n w) :
    ∃ m v, m < n + L.length ∧ A.system.ReachIn m v ∧ A.system.Bad v := by
  induction L generalizing n w with
  | nil => cases h
  | cons I L ih =>
      obtain ⟨u, hsame, hu⟩ := (hin I List.mem_cons_self).exists_point w
      rcases h u hsame hu with hb | hnext
      · exact ⟨n, u, by simp, hr.same hsame, hb⟩
      · obtain ⟨w', hw'⟩ := A.system.total u
        have hr' : A.system.ReachIn (n + 1) w' := ⟨u, hr.same hsame, hw'⟩
        obtain ⟨m, v, hm, hv⟩ := ih (hnext w' hw') (fun J hJ => hin J (List.mem_cons_of_mem _ hJ)) hr'
        exact ⟨m, v, by rw [List.length_cons]; omega, hv⟩

/-- A circuit with a counterexample is not safe. -/
theorem Counterexample.not_safe (hA : A.constraints = []) {L : List State} (h : Counterexample A L) :
    ¬ A.system.Safe := by
  obtain ⟨first, rest, rfl⟩ := List.exists_cons_of_ne_nil h.nonempty
  have hsat := cubeSat_mem (h.consistent first rfl)
  have hinit : A.system.ReachIn 0 fun v => decide ((v : Int) ∈ first.latches) :=
    fun l hl => hsat l (h.init first rfl hl)
  have hlines : ∀ I ∈ (first :: rest).map State.inputs, InputLine A I := by
    intro I hI
    obtain ⟨st, hst, rfl⟩ := List.mem_map.mp hI
    exact h.inputs st hst
  obtain ⟨m, v, _, hr, hb⟩ := (h.forced first rfl _ hsat).reachIn hlines hinit
  obtain ⟨tr, ht, rfl⟩ := hr.exists_trace fun w l hl => by
    rw [hA] at hl
    cases hl
  exact fun hsafe => hsafe m tr ht hb

end ModelChecker
