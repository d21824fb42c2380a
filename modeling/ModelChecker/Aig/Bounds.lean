import ModelChecker.Aig.Lemmas.Contents

/-!
# The loader and the end of its buffer

None of the loops of the loader looks at the end of the buffer. They stay inside exactly when the file is
rejected by an assertion first, or holds what its header announces.
-/

namespace ModelChecker

open Logic

variable {s t : List Nat}

/-! ## The closing zero -/

/-- The last byte is the closing zero. -/
def Ends (s : List Nat) : Prop := s.getLast? = some 0

theorem Ends.suffix (h : Ends s) (ht : t <:+ s) (hne : t ≠ []) : Ends t := by
  obtain ⟨p, rfl⟩ := ht
  unfold Ends at *
  rwa [List.getLast?_append_of_ne_nil _ hne] at h

theorem Ends.ne_nil (h : Ends s) : s ≠ [] := by
  rintro rfl
  cases h

/-- A byte that is not zero is not the last one. -/
theorem Ends.tail {c : Nat} (h : Ends (c :: s)) (hc : c ≠ 0) : Ends s := by
  refine h.suffix (List.suffix_cons c s) ?_
  rintro rfl
  unfold Ends at h
  simp at h
  exact hc h

theorem Ends.zero_mem (h : Ends s) : 0 ∈ s := List.mem_of_getLast? h

theorem ends_bufferOf {bytes buf : List Nat} (h : bufferOf bytes = some buf) : Ends buf := by
  unfold bufferOf at h
  simp only at h
  split at h
  · cases h
  · rw [← Option.some.inj h]
    exact List.getLast?_concat

theorem Symbols.ends (h : Symbols true s t) (hs : Ends s) : Ends t := by
  generalize hb : true = b at h
  induction h with
  | comment => exact hs.tail (by decide)
  | other _ _ => cases hb
  | @entry _ c b' _ _ m name r _ _ hf hm _ _ ih =>
      have h1 : Ends m := (hs.suffix hf.suffix (List.cons_ne_nil _ _)).suffix (List.suffix_cons b' m)
        (by rw [hm]; simp)
      have h2 : Ends (10 :: r) := h1.suffix ⟨name, by rw [hm]⟩ (List.cons_ne_nil _ _)
      exact ih (h2.tail (by decide)) hb

/-! ## The parts -/

/-- The only error that is not one of the pointer's. -/
abbrev Asserting (e : LoadStop) : Prop := e = .assertion

theorem stops_readFormat (hs : Ends s) : readFormat.Stops Asserting s := by
  obtain ⟨a, s, rfl⟩ := List.exists_cons_of_ne_nil hs.ne_nil
  unfold readFormat
  rw [Exec.stops_bind_iff]
  refine ⟨by rintro e ⟨⟩, ?_⟩
  rintro _ _ ⟨⟩
  refine Exec.stops_ite (fun _ => Exec.stops_throw rfl) fun ha => ?_
  have h1 := hs.tail (by rw [not_not.mp ha]; decide)
  obtain ⟨b, s, rfl⟩ := List.exists_cons_of_ne_nil h1.ne_nil
  rw [Exec.stops_bind_iff]
  refine ⟨Exec.stops_modify, ?_⟩
  rintro _ _ ⟨⟩
  rw [Exec.stops_bind_iff]
  refine ⟨by rintro e ⟨⟩, ?_⟩
  rintro _ _ ⟨⟩
  refine Exec.stops_ite (fun _ => Exec.stops_throw rfl) fun hb => ?_
  have h2 := h1.tail (by rintro rfl; exact hb (by decide))
  obtain ⟨g, s, rfl⟩ := List.exists_cons_of_ne_nil h2.ne_nil
  rw [Exec.stops_bind_iff]
  refine ⟨Exec.stops_modify, ?_⟩
  rintro _ _ ⟨⟩
  rw [Exec.stops_bind_iff]
  refine ⟨by rintro e ⟨⟩, ?_⟩
  rintro _ _ ⟨⟩
  exact Exec.stops_ite (fun _ => Exec.stops_throw rfl) fun _ => Exec.stops_pure

theorem bounded_readHeader : Bounded readHeader := by
  unfold readHeader
  repeat refine bounded_read_literal.bind fun _ => ?_
  exact .pure _

theorem bounded_readSections (binary : Bool) (h : Header) : Bounded (readSections binary h) := by
  have hin : Bounded (readInputs binary h) := by
    unfold readInputs
    cases binary with
    | true => exact .pure _
    | false => exact bounded_readRows _ _
  have hands : Bounded (readAnds binary h) := by
    unfold readAnds
    cases binary with
    | true =>
        exact bounded_read_literal.bind fun _ => bounded_advance.bind fun _ =>
          (bounded_readDeltas _).bind fun _ => .pure _
    | false => exact (bounded_readRows _ _).bind fun _ => .pure _
  exact hin.bind fun _ => (bounded_readRows _ _).bind fun _ => (bounded_readRows _ _).bind fun _ =>
    (bounded_readRows _ _).bind fun _ => (bounded_readRows _ _).bind fun _ => hands.bind fun _ => .pure _

theorem bounded_readSymbols (n : Nat) : Bounded (readSymbols n) := by
  induction n with
  | zero => exact fun _ => Exec.stops_throw rfl
  | succ n ih =>
      unfold readSymbols
      refine bounded_peek.bind fun c s => Exec.stops_ite (fun _ => ?_) fun _ => Exec.stops_ite (fun _ => ?_)
        fun _ => Exec.stops_pure
      · exact (bounded_read_literal.bind fun _ => bounded_advance.bind fun _ =>
          (bounded_skipTo 10).bind fun _ => bounded_advance.bind fun _ => ih) s
      · exact (bounded_advance.bind fun _ => .pure _) s

theorem bounded_finishLine (binary : Bool) : Bounded (finishLine binary) := by
  unfold finishLine
  cases binary with
  | true => exact .pure _
  | false => exact bounded_skipTo 10

theorem bounded_readTable (binary : Bool) (m : List Nat) : Bounded (readTable binary m) := by
  intro s
  unfold readTable
  refine Exec.stops_ite (fun _ => ?_) fun _ => Exec.stops_pure
  exact Exec.stops_ite (fun _ => bounded_readSymbols _ s)
    fun _ => (bounded_advance.bind fun _ => bounded_readSymbols _) s

/-- A comment never leaves the buffer, since that ends with a zero. -/
theorem stops_readComments {comments : Bool} (hs : comments = true → Ends s) :
    (readComments comments).Stops Asserting s := by
  unfold readComments
  refine Exec.stops_ite (fun hc => ?_) fun _ => Exec.stops_pure
  have hs := hs hc
  obtain ⟨c, s, rfl⟩ := List.exists_cons_of_ne_nil hs.ne_nil
  rw [Exec.stops_bind_iff]
  refine ⟨by rintro e ⟨⟩, ?_⟩
  rintro _ _ ⟨⟩
  refine Exec.stops_ite (fun _ => Exec.stops_throw rfl) fun h10 => ?_
  rw [Exec.stops_bind_iff]
  refine ⟨Exec.stops_modify, ?_⟩
  rintro _ _ ⟨⟩
  have h1 := hs.tail (by rw [not_not.mp h10]; decide)
  obtain ⟨text, r, hr, hnot⟩ := List.eq_append_cons_of_mem h1.zero_mem
  refine ((bounded_skipTo 0).stops_iff (by decide)).mpr ⟨(), 0 :: r, ?_⟩
  exact skipTo_iff.mpr ⟨text, r, hr, hnot, rfl⟩

theorem stops_readTrailer {binary : Bool} (hs : s = [] ∨ Ends s) :
    (readTrailer binary).Stops Asserting s ↔ ClosedTrailer binary s := by
  unfold readTrailer ClosedTrailer
  simp only [Exec.stops_bind_iff]
  constructor
  · rintro ⟨hline, hrest⟩
    obtain ⟨u, m, hm⟩ := ((bounded_finishLine binary).stops_iff (by decide)).mp hline
    refine ⟨m, finishLine_iff.mp hm, ?_⟩
    by_cases hlen : m.length ≤ 2
    · exact .inl hlen
    · obtain ⟨comments, r, hr⟩ := ((bounded_readTable binary m).stops_iff (by decide)).mp
        ((hrest u m hm).2 m m rfl).1
      exact .inr ⟨comments, r, (readTable_iff (by omega)).mp hr⟩
  · rintro ⟨m, hend, hm⟩
    have hline := finishLine_iff (u := ()).mpr hend
    refine ⟨((bounded_finishLine binary).stops_iff (by decide)).mpr ⟨(), m, hline⟩, ?_⟩
    intro u m' hm'
    rw [hline] at hm'
    cases hm'
    refine ⟨Exec.stops_lift, ?_⟩
    rintro _ _ ⟨⟩
    by_cases hlen : m.length ≤ 2
    · have htable : readTable binary m m = (.ok false, m) := readTable_short hlen
      refine ⟨((bounded_readTable binary m).stops_iff (by decide)).mpr ⟨_, _, htable⟩, ?_⟩
      intro comments r hr
      rw [htable] at hr
      cases hr
      exact stops_readComments (by rintro ⟨⟩)
    · obtain ⟨comments, r, hsym⟩ := hm.resolve_left hlen
      have htable := (readTable_iff (by omega)).mpr hsym
      refine ⟨((bounded_readTable binary m).stops_iff (by decide)).mpr ⟨_, _, htable⟩, ?_⟩
      intro comments' r' hr
      rw [htable] at hr
      cases hr
      refine stops_readComments fun hc => ?_
      subst hc
      have hne : s ≠ [] := by
        rintro rfl
        rw [List.suffix_nil.mp hend.suffix] at hlen
        exact hlen (by simp)
      have hstart : (if binary then m else m.tail) <:+ m := by
        cases binary with
        | true => exact List.suffix_rfl
        | false => exact List.tail_suffix m
      refine Symbols.ends hsym ((hs.resolve_left hne).suffix (hstart.trans hend.suffix) ?_)
      intro h0
      have hl : (if binary then m else m.tail).length = 0 := by rw [h0]; rfl
      split at hl
      · omega
      · rw [List.length_tail] at hl; omega

/-! ## The loader -/

/-- The file can be loaded inside of its buffer: the buffer is allocated, and the letters at the beginning
are wrong, or the counts of the header do not add up, or the file holds the sections that the header
announces and every symbol entry behind them is closed. -/
def Readable (bytes : List Nat) : Prop :=
  ∃ buf, bufferOf bytes = some buf ∧ ((∀ binary m, ¬ Letters binary buf m) ∨
    ∃ binary h m1 m2, Letters binary buf m1 ∧ HeaderText h m1 m2 ∧
      (h.max_var ≠ wrap (h.num_inputs + h.num_latches + h.num_ands) ∨
        ¬ (binary = true ∧ h.num_inputs = 2 ^ 31 - 1) ∧
          ∃ D m3, Sections binary h D m2 m3 ∧ ClosedTrailer binary m3))

theorem Field.ends {v : Int} (h : Field v s t) (hs : Ends s) : Ends t := hs.suffix h.suffix h.ne_nil

theorem Fields.ends {vs : List Int} (h : Fields vs s t) (hs : Ends s) : Ends t := by
  induction vs generalizing s with
  | nil => rwa [← show s = t from h]
  | cons v vs ih =>
      obtain ⟨m, hf, hr⟩ := h
      exact ih hr (hf.ends hs)

theorem ends_header {binary : Bool} {h : Header} {m1 m2 : List Nat} (hs : Ends s)
    (hl : Letters binary s m1) (hh : HeaderText h m1 m2) : Ends m2 := by
  obtain ⟨r, rfl, rfl⟩ := hl
  obtain ⟨_, _, _, _, hf, _⟩ := hh
  exact hf.ends (hs.suffix ⟨[_, _], rfl⟩ (List.cons_ne_nil _ _))

/-- The loader behind the header. -/
theorem stops_body {binary : Bool} {h : Header} (hs : Ends s) :
    (do
      let D ← readSections binary h
      readTrailer binary
      pure D : Reader AigerInput).Stops Asserting s ↔
      ∃ D t, Sections binary h D s t ∧ ClosedTrailer binary t := by
  have htrail : ∀ {D t}, Sections binary h D s t → t = [] ∨ Ends t := by
    intro D t hsec
    by_cases ht : t = []
    · exact .inl ht
    · exact .inr (hs.suffix hsec.suffix ht)
  simp only [Exec.stops_bind_iff]
  constructor
  · rintro ⟨h1, h2⟩
    obtain ⟨D, t, hD⟩ := ((bounded_readSections binary h).stops_iff (by decide)).mp h1
    have hsec := readSections_iff.mp hD
    exact ⟨D, t, hsec, (stops_readTrailer (htrail hsec)).mp (h2 D t hD).1⟩
  · rintro ⟨D, t, hsec, hcl⟩
    have hD := readSections_iff.mpr hsec
    refine ⟨((bounded_readSections binary h).stops_iff (by decide)).mpr ⟨D, t, hD⟩, ?_⟩
    intro D' t' hD'
    rw [hD] at hD'
    cases hD'
    exact ⟨(stops_readTrailer (htrail hsec)).mpr hcl, fun _ _ _ => Exec.stops_pure⟩

theorem stops_readBuffer (hs : Ends s) : readBuffer.Stops Asserting s ↔
    (∀ binary m, ¬ Letters binary s m) ∨ ∃ binary h m1 m2, Letters binary s m1 ∧ HeaderText h m1 m2 ∧
      (h.max_var ≠ wrap (h.num_inputs + h.num_latches + h.num_ands) ∨
        ¬ (binary = true ∧ h.num_inputs = 2 ^ 31 - 1) ∧
          ∃ D m3, Sections binary h D m2 m3 ∧ ClosedTrailer binary m3) := by
  unfold readBuffer
  rw [Exec.stops_bind_iff]
  constructor
  · rintro ⟨-, hrest⟩
    by_cases hl : ∀ binary m, ¬ Letters binary s m
    · exact .inl hl
    · push Not at hl
      obtain ⟨binary, m1, hl⟩ := hl
      have h1 := hrest binary m1 (readFormat_iff.mpr hl)
      rw [Exec.stops_bind_iff] at h1
      obtain ⟨h, m2, hh⟩ := (bounded_readHeader.stops_iff (by decide)).mp h1.1
      have hends := ends_header hs hl (readHeader_iff.mp hh)
      refine .inr ⟨binary, h, m1, m2, hl, readHeader_iff.mp hh, ?_⟩
      have h2 := h1.2 h m2 hh
      by_cases hsum : h.max_var ≠ wrap (h.num_inputs + h.num_latches + h.num_ands)
      · exact .inl hsum
      · rw [if_neg hsum] at h2
        by_cases hb : binary = true ∧ h.num_inputs = 2 ^ 31 - 1
        · rw [if_pos hb] at h2
          cases h2 _ rfl
        · rw [if_neg hb] at h2
          exact .inr ⟨hb, (stops_body hends).mp h2⟩
  · intro hcond
    refine ⟨stops_readFormat hs, fun binary m1 hf => ?_⟩
    have hl := readFormat_iff.mp hf
    rcases hcond with hno | ⟨binary', h, m1', m2, hl', hh, hcond⟩
    · exact absurd hl (hno binary m1)
    · have hf' := readFormat_iff.mpr hl'
      rw [hf] at hf'
      cases hf'
      have hhead := readHeader_iff.mpr hh
      have hends := ends_header hs hl hh
      rw [Exec.stops_bind_iff]
      refine ⟨(bounded_readHeader.stops_iff (by decide)).mpr ⟨h, m2, hhead⟩, fun h' m2' hhead' => ?_⟩
      rw [hhead] at hhead'
      cases hhead'
      refine Exec.stops_ite (fun _ => Exec.stops_throw rfl) fun hsum => ?_
      obtain ⟨hb, hbody⟩ := hcond.resolve_left hsum
      exact Exec.stops_ite (fun hb' => absurd hb' hb) fun _ => (stops_body hends).mpr hbody

/-- The loader on any file: it returns a circuit or fails an assertion, and reads only its buffer on the
way, exactly if the file is readable. -/
theorem load_in_bounds (bytes : List Nat) :
    (∀ e, load_aiger_from_file bytes = .error e → e = .assertion) ↔ Readable bytes := by
  unfold Readable
  cases hb : bufferOf bytes with
  | none =>
      rw [load_of_none hb]
      constructor
      · intro h
        cases h _ rfl
      · rintro ⟨_, ⟨⟩, _⟩
  | some buf =>
      rw [load_of_buffer hb]
      constructor
      · intro h
        exact ⟨buf, rfl, (stops_readBuffer (ends_bufferOf hb)).mp h⟩
      · rintro ⟨_, heq, h⟩
        cases heq
        exact (stops_readBuffer (ends_bufferOf hb)).mpr h

/-- The letters of a binary file and nothing else: the loader looks for the first number behind the end of
the buffer. -/
theorem load_truncated : load_aiger_from_file [97, 105, 103] = .error .outOfBounds := by decide +kernel

end ModelChecker
