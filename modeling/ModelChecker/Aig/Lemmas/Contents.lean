import ModelChecker.Aig.Lemmas.Scan

/-!
# The contents of a file

The parts of a file in the order of the format: the letters that name it, the header, the sections, the
symbol entries and the comment. `Contents` puts them together, and the loader returns a circuit exactly
when the file has it as its contents.
-/

namespace ModelChecker

open Logic

variable {s t : List Nat}

/-! ## Parts -/

/-- `aig` or `aag`; the pointer stays at the last letter. -/
def Letters (binary : Bool) (s t : List Nat) : Prop :=
  ∃ r, s = 97 :: (if binary then 105 else 97) :: 103 :: r ∧ t = 103 :: r

/-- The nine fields of the header, of which the last four count as `0` when they are missing. -/
def HeaderText (h : Header) (s t : List Nat) : Prop :=
  ∃ b c j f, Fields [h.max_var, h.num_inputs, h.num_latches, h.num_outputs, h.num_ands, b, c, j, f] s t ∧
    h.num_bads = max b 0 ∧ h.num_constraints = max c 0 ∧ h.num_justice = max j 0 ∧
    h.num_fairness = max f 0

/-- A section of `n` rows with `k` fields each. -/
def RowTable (k : Nat) (n : Int) (rows : List (List Int)) (s t : List Nat) : Prop :=
  (rows.length = n.toNat ∧ ∀ row ∈ rows, row.length = k) ∧ Rows rows s t

/-- The gates: rows of three fields, or the deltas behind the end of the last line. -/
def Gates (binary : Bool) (h : Header) (ands : List Aiger_and) (s t : List Nat) : Prop :=
  if binary then ∃ v c m ds, Field v s (c :: m) ∧ ds.length = h.num_ands.toNat ∧ Deltas ds m t ∧
    ands = ds.mapIdx (deltaAnd h)
  else ∃ rows, RowTable 3 h.num_ands rows s t ∧ ands = rows.map andOf

/-- The sections that the header announces. -/
def Sections (binary : Bool) (h : Header) (D : AigerInput) (s t : List Nat) : Prop :=
  ∃ inputs latches outputs bads constraints m1 m2 m3 m4 m5,
    (if binary then inputs = [] ∧ m1 = s else RowTable 1 h.num_inputs inputs s m1) ∧
    RowTable (if binary then 2 else 3) h.num_latches latches m1 m2 ∧
    RowTable 1 h.num_outputs outputs m2 m3 ∧ RowTable 1 h.num_bads bads m3 m4 ∧
    RowTable 1 h.num_constraints constraints m4 m5 ∧ Gates binary h D.Aiger_ands m5 t ∧
    D.binaryMode = binary ∧ D.header = h ∧ D.Aiger_inputs = inputsOf binary h inputs ∧
    D.Aiger_latches = latches.mapIdx (latchOf binary h) ∧ D.Aiger_outputs = firsts outputs ∧
    D.Aiger_bads = firsts bads ∧ D.Aiger_constraints = firsts constraints

/-- Symbol entries of inputs, latches and outputs, each closed by a newline; the flag says whether a `c`
follows, and `t` is what lies behind it. -/
inductive Symbols : Bool → List Nat → List Nat → Prop
  | comment {s : List Nat} : Symbols true (99 :: s) s
  | other {c : Nat} {s : List Nat} (he : isEntry c = false) (hc : c ≠ 99) : Symbols false (c :: s) (c :: s)
  | entry {comments : Bool} {c b : Nat} {v : Int} {s m name r t : List Nat} (he : isEntry c = true)
      (hf : Field v (c :: s) (b :: m)) (hm : m = name ++ 10 :: r) (hn : 10 ∉ name)
      (hr : Symbols comments r t) : Symbols comments (c :: s) t

/-- The pointer at the end of the last line of an ASCII file. -/
def AtEnd (binary : Bool) (s t : List Nat) : Prop :=
  if binary then t = s else ∃ text r, s = text ++ 10 :: r ∧ 10 ∉ text ∧ t = 10 :: r

/-- What the symbol loop sees: the entries start behind the end of the last line. -/
def SymbolsAt (binary comments : Bool) (s t : List Nat) : Prop :=
  Symbols comments (if binary then s else s.tail) t

/-- A trailing section that the loader accepts: a `c` is followed by a newline. -/
def Trailing (binary : Bool) (s : List Nat) : Prop :=
  ∃ m, AtEnd binary s m ∧ (m.length ≤ 2 ∨
    ∃ comments r, SymbolsAt binary comments m r ∧ (comments = true → ∃ r', r = 10 :: r' ∧ 0 ∈ r'))

/-- A trailing section whose entries are all closed. -/
def ClosedTrailer (binary : Bool) (s : List Nat) : Prop :=
  ∃ m, AtEnd binary s m ∧ (m.length ≤ 2 ∨ ∃ comments r, SymbolsAt binary comments m r)

/-! ## Readers -/

theorem readFormat_iff {binary : Bool} : readFormat s = (.ok binary, t) ↔ Letters binary s t := by
  simp only [readFormat, Exec.bind_eq_ok, peek_eq_ok, Exec.guard_eq_ok, advance_eq_ok, Exec.pure_eq_ok]
  constructor
  · rintro ⟨a, _, ⟨s1, rfl, rfl⟩, ha, _, m, rfl, b, _, ⟨s2, hs2, rfl⟩, hb, _, m', rfl, g, _, ⟨s3, hs3, rfl⟩,
      hg, rfl, rfl⟩
    simp only [List.tail_cons] at hs2 hs3 ⊢
    subst hs2
    simp only [List.tail_cons] at hs3 ⊢
    subst hs3
    refine ⟨s3, ?_, ?_⟩
    · by_cases h : b = 105
      · simp_all
      · simp_all
    · simp_all
  · rintro ⟨r, rfl, rfl⟩
    refine ⟨97, _, ⟨_, rfl, rfl⟩, by decide, (), _, rfl, _, _, ⟨_, rfl, rfl⟩, ?_, (), _, rfl, 103, _,
      ⟨r, rfl, rfl⟩, by decide, ?_, rfl⟩
    · cases binary <;> decide
    · cases binary <;> decide

theorem readHeader_iff {h : Header} : readHeader s = (.ok h, t) ↔ HeaderText h s t := by
  simp only [readHeader, HeaderText, Exec.bind_eq_ok, Exec.pure_eq_ok, read_literal_iff, Fields]
  constructor
  · rintro ⟨_, m1, h1, _, m2, h2, _, m3, h3, _, m4, h4, _, m5, h5, b, m6, h6, c, m7, h7, j, m8, h8,
      f, m9, h9, rfl, rfl⟩
    exact ⟨b, c, j, f, ⟨m1, h1, m2, h2, m3, h3, m4, h4, m5, h5, m6, h6, m7, h7, m8, h8, m9, h9, rfl⟩,
      rfl, rfl, rfl, rfl⟩
  · rintro ⟨b, c, j, f, ⟨m1, h1, m2, h2, m3, h3, m4, h4, m5, h5, m6, h6, m7, h7, m8, h8, m9, h9, rfl⟩,
      hb, hc, hj, hf⟩
    refine ⟨_, m1, h1, _, m2, h2, _, m3, h3, _, m4, h4, _, m5, h5, b, m6, h6, c, m7, h7, j, m8, h8,
      f, m9, h9, ?_, rfl⟩
    rw [← hb, ← hc, ← hj, ← hf]

theorem readAnds_iff {binary : Bool} {h : Header} {ands : List Aiger_and} :
    readAnds binary h s = (.ok ands, t) ↔ Gates binary h ands s t := by
  unfold readAnds Gates
  cases binary with
  | true =>
      simp only [if_true, Exec.bind_eq_ok, Exec.pure_eq_ok, read_literal_iff, advance_eq_ok, readDeltas_iff]
      constructor
      · rintro ⟨v, m, hv, _, m', rfl, ds, m'', ⟨hlen, hds⟩, rfl, rfl⟩
        obtain ⟨c, m, rfl⟩ := List.exists_cons_of_ne_nil hv.ne_nil
        exact ⟨v, c, m, ds, hv, hlen, hds, rfl⟩
      · rintro ⟨v, c, m, ds, hv, hlen, hds, rfl⟩
        exact ⟨v, c :: m, hv, (), m, rfl, ds, t, ⟨hlen, hds⟩, rfl, rfl⟩
  | false =>
      simp only [Bool.false_eq_true, if_false, Exec.bind_eq_ok, Exec.pure_eq_ok, readRows_iff, RowTable]
      constructor
      · rintro ⟨rows, m, h, rfl, rfl⟩
        exact ⟨rows, h, rfl⟩
      · rintro ⟨rows, h, rfl⟩
        exact ⟨rows, t, h, rfl, rfl⟩

theorem readInputs_iff {binary : Bool} {h : Header} {rows : List (List Int)} :
    readInputs binary h s = (.ok rows, t) ↔
      if binary then rows = [] ∧ t = s else RowTable 1 h.num_inputs rows s t := by
  unfold readInputs
  cases binary with
  | true =>
      simp only [if_true, Exec.pure_eq_ok]
      constructor
      · rintro ⟨rfl, rfl⟩; exact ⟨rfl, rfl⟩
      · rintro ⟨rfl, rfl⟩; exact ⟨rfl, rfl⟩
  | false => simp only [Bool.false_eq_true, if_false, readRows_iff, RowTable]

theorem readSections_iff {binary : Bool} {h : Header} {D : AigerInput} :
    readSections binary h s = (.ok D, t) ↔ Sections binary h D s t := by
  simp only [readSections, Sections, Exec.bind_eq_ok, Exec.pure_eq_ok, readInputs_iff, readRows_iff,
    readAnds_iff, RowTable]
  constructor
  · rintro ⟨inputs, m1, h1, latches, m2, h2, outputs, m3, h3, bads, m4, h4, constraints, m5, h5, ands, m6,
      h6, rfl, rfl⟩
    exact ⟨inputs, latches, outputs, bads, constraints, m1, m2, m3, m4, m5, h1, h2, h3, h4, h5, h6, rfl,
      rfl, rfl, rfl, rfl, rfl, rfl⟩
  · rintro ⟨inputs, latches, outputs, bads, constraints, m1, m2, m3, m4, m5, h1, h2, h3, h4, h5, h6, rfl,
      rfl, hi, hl, ho, hb, hc⟩
    refine ⟨inputs, m1, h1, latches, m2, h2, outputs, m3, h3, bads, m4, h4, constraints, m5, h5, _, t,
      h6, ?_, rfl⟩
    rw [← hi, ← hl, ← ho, ← hb, ← hc]

/-! ## Progress -/

theorem Field.suffix {v : Int} (h : Field v s t) : t <:+ s := by
  cases h with
  | @number junk ds _ _ _ _ _ _ => exact ⟨junk ++ ds, by simp⟩
  | @missing junk _ _ => exact ⟨junk, rfl⟩

theorem Fields.suffix {vs : List Int} (h : Fields vs s t) : t <:+ s := by
  induction vs generalizing s with
  | nil => rw [show s = t from h]
  | cons v vs ih =>
      obtain ⟨m, hf, hr⟩ := h
      exact (ih hr).trans hf.suffix

theorem Rows.suffix {rows : List (List Int)} (h : Rows rows s t) : t <:+ s := by
  induction rows generalizing s with
  | nil => rw [show s = t from h]
  | cons row rows ih =>
      obtain ⟨m, ⟨v, c, m', hf, hfs⟩, hr⟩ := h
      exact (ih hr).trans (hfs.suffix.trans ((List.suffix_cons c m').trans hf.suffix))

theorem Code.suffix {x : Nat} (h : Code x s t) : t <:+ s := by
  obtain ⟨bs, ch, rfl, _⟩ := h
  exact ⟨bs ++ [ch], by simp⟩

theorem Deltas.suffix {ds : List (Nat × Nat)} (h : Deltas ds s t) : t <:+ s := by
  induction ds generalizing s with
  | nil => rw [show s = t from h]
  | cons d ds ih =>
      obtain ⟨m, m', h1, h2, hr⟩ := h
      exact (ih hr).trans (h2.suffix.trans h1.suffix)

theorem Symbols.suffix {comments : Bool} (h : Symbols comments s t) : t <:+ s := by
  induction h with
  | comment => exact List.suffix_cons _ _
  | other _ _ => exact List.suffix_rfl
  | @entry _ c b _ _ m name r _ _ hf hm _ _ ih =>
      have h1 : r <:+ m := ⟨name ++ [10], by simp [hm]⟩
      exact ih.trans (h1.trans ((List.suffix_cons b m).trans hf.suffix))

theorem RowTable.suffix {k : Nat} {n : Int} {rows : List (List Int)} (h : RowTable k n rows s t) : t <:+ s :=
  Rows.suffix h.2

theorem Gates.suffix {binary : Bool} {h : Header} {ands : List Aiger_and} (hg : Gates binary h ands s t) :
    t <:+ s := by
  unfold Gates at hg
  cases binary with
  | true =>
      simp only [if_true] at hg
      obtain ⟨v, c, m, ds, hf, _, hd, _⟩ := hg
      exact hd.suffix.trans ((List.suffix_cons c m).trans hf.suffix)
  | false =>
      simp only [Bool.false_eq_true, if_false] at hg
      obtain ⟨rows, htab, _⟩ := hg
      exact htab.suffix

theorem Sections.suffix {binary : Bool} {h : Header} {D : AigerInput} (hs : Sections binary h D s t) :
    t <:+ s := by
  obtain ⟨_, _, _, _, _, m1, m2, m3, m4, m5, hin, hl, ho, hb, hc, hg, _⟩ := hs
  have h1 : m1 <:+ s := by
    cases binary with
    | true =>
        simp only [if_true] at hin
        rw [hin.2]
    | false =>
        simp only [Bool.false_eq_true, if_false] at hin
        exact hin.suffix
  exact hg.suffix.trans (hc.suffix.trans (hb.suffix.trans (ho.suffix.trans (hl.suffix.trans h1))))

/-! ## Trailing sections -/

/-- An entry takes at least two bytes. -/
theorem entry_length {c b : Nat} {v : Int} {m name r : List Nat} (hf : Field v (c :: s) (b :: m))
    (hm : m = name ++ 10 :: r) : r.length < s.length := by
  have := hf.suffix.length_le
  subst hm
  simp only [List.length_cons, List.length_append] at this
  omega

theorem readSymbols_iff {comments : Bool} {n : Nat} (hn : s.length ≤ n) :
    readSymbols n s = (.ok comments, t) ↔ Symbols comments s t := by
  induction n generalizing s with
  | zero =>
      have hs : s = [] := List.length_eq_zero_iff.mp (by omega)
      subst hs
      constructor
      · rintro ⟨⟩
      · rintro ⟨⟩
  | succ n ih =>
      cases s with
      | nil =>
          constructor
          · rintro ⟨⟩
          · rintro ⟨⟩
      | cons c s =>
          have hpeek : peek (c :: s) = (.ok c, c :: s) := rfl
          unfold readSymbols
          rw [Exec.run_bind_ok hpeek]
          simp only [List.length_cons] at hn
          by_cases he : isEntry c = true
          · rw [if_pos he]
            simp only [Exec.bind_eq_ok, read_literal_iff, advance_eq_ok, skipTo_iff]
            constructor
            · rintro ⟨v, m, hf, _, m', rfl, _, m'', ⟨name, r, hm, hname, rfl⟩, _, m3, rfl, h⟩
              obtain ⟨b, m, rfl⟩ := List.exists_cons_of_ne_nil hf.ne_nil
              rw [List.tail_cons] at hm h
              have hlen := entry_length hf hm
              exact .entry he hf hm hname ((ih (by omega)).mp h)
            · intro h
              cases h with
              | comment => cases he
              | other he' _ => rw [he'] at he; cases he
              | @entry _ _ b v _ m name r _ _ hf hm hname hr =>
                  have hlen := entry_length hf hm
                  exact ⟨v, b :: m, hf, (), m, rfl, (), 10 :: r, ⟨name, r, hm, hname, rfl⟩, (), r, rfl,
                    (ih (by omega)).mpr hr⟩
          · rw [if_neg he]
            by_cases hc : c = 99
            · subst hc
              rw [if_pos rfl]
              simp only [Exec.bind_eq_ok, advance_eq_ok, Exec.pure_eq_ok]
              constructor
              · rintro ⟨_, m, rfl, rfl, rfl⟩
                exact .comment
              · intro h
                cases h with
                | comment => exact ⟨(), _, rfl, rfl, rfl⟩
                | other _ hc => exact absurd rfl hc
                | entry he' _ _ _ _ => exact absurd he' he
            · rw [if_neg hc, Exec.pure_eq_ok]
              constructor
              · rintro ⟨rfl, rfl⟩
                exact .other (by simpa using he) hc
              · intro h
                cases h with
                | comment => exact absurd rfl hc
                | other _ _ => exact ⟨rfl, rfl⟩
                | entry he' _ _ _ _ => exact absurd he' he

theorem finishLine_iff {binary : Bool} {u : Unit} : finishLine binary s = (.ok u, t) ↔ AtEnd binary s t := by
  unfold finishLine AtEnd
  cases binary with
  | true =>
      simp only [if_true, Exec.pure_eq_ok]
      constructor
      · rintro ⟨-, rfl⟩; rfl
      · rintro rfl; exact ⟨trivial, rfl⟩
  | false => simp only [Bool.false_eq_true, if_false, skipTo_iff]

theorem AtEnd.suffix {binary : Bool} (h : AtEnd binary s t) : t <:+ s := by
  unfold AtEnd at h
  cases binary with
  | true =>
      simp only [if_true] at h
      rw [h]
  | false =>
      simp only [Bool.false_eq_true, if_false] at h
      obtain ⟨text, r, rfl, _, rfl⟩ := h
      exact ⟨text, rfl⟩

/-- The symbol table, when it is looked at. -/
theorem readTable_iff {binary comments : Bool} (h : 2 < s.length) :
    readTable binary s s = (.ok comments, t) ↔ SymbolsAt binary comments s t := by
  unfold readTable SymbolsAt
  rw [if_pos h]
  cases binary with
  | true => simp only [if_true, readSymbols_iff le_rfl]
  | false =>
      simp only [Bool.false_eq_true, if_false, Exec.bind_eq_ok, advance_eq_ok]
      have hlen : s.tail.length ≤ s.length := by rw [List.length_tail]; omega
      constructor
      · rintro ⟨_, m, rfl, h⟩
        exact (readSymbols_iff hlen).mp h
      · intro h
        exact ⟨(), _, rfl, (readSymbols_iff hlen).mpr h⟩

theorem readTable_short {binary : Bool} {m : List Nat} (h : m.length ≤ 2) :
    readTable binary m s = (.ok false, s) := by
  unfold readTable
  rw [if_neg (by omega)]
  rfl

theorem readComments_iff {comments : Bool} : (∃ u t, readComments comments s = (.ok u, t)) ↔
    (comments = true → ∃ r, s = 10 :: r ∧ 0 ∈ r) := by
  cases comments with
  | false =>
      simp only [Bool.false_eq_true, false_imp_iff, iff_true]
      exact ⟨(), s, rfl⟩
  | true =>
      simp only [readComments, if_true, Exec.bind_eq_ok, peek_eq_ok, Exec.guard_eq_ok, advance_eq_ok,
        skipTo_iff, true_imp_iff]
      constructor
      · rintro ⟨u, t, c, _, ⟨s', rfl, rfl⟩, hc, _, m, rfl, text, r, hr, _, rfl⟩
        refine ⟨s', by rw [not_not.mp hc], ?_⟩
        rw [List.tail_cons] at hr
        rw [hr]
        exact List.mem_append_right _ List.mem_cons_self
      · rintro ⟨r, rfl, h0⟩
        obtain ⟨text, r', rfl, hnot⟩ := List.eq_append_cons_of_mem h0
        exact ⟨(), 0 :: r', 10, _, ⟨_, rfl, rfl⟩, by simp, (), _, rfl, text, r', rfl, hnot, rfl⟩

theorem readTrailer_iff {binary : Bool} :
    (∃ u t, readTrailer binary s = (.ok u, t)) ↔ Trailing binary s := by
  have hrem : ∀ {m a m'}, remaining m = (.ok a, m') ↔ a = m ∧ m' = m := by
    intro m a m'
    show (Except.ok m, m) = (Except.ok a, m') ↔ _
    simp [eq_comm]
  simp only [readTrailer, Trailing, Exec.bind_eq_ok, finishLine_iff, hrem]
  constructor
  · rintro ⟨u, t, _, m, hend, a, m', ⟨ha, hm'⟩, comments, r, htable, hcom⟩
    subst hm'
    rw [ha] at htable
    refine ⟨_, hend, ?_⟩
    by_cases hm : 2 < m'.length
    · exact .inr ⟨comments, r, (readTable_iff hm).mp htable, readComments_iff.mp ⟨u, t, hcom⟩⟩
    · exact .inl (by omega)
  · rintro ⟨m, hend, hm | ⟨comments, r, hsym, hcom⟩⟩
    · exact ⟨(), m, (), m, hend, m, m, ⟨rfl, rfl⟩, false, m, readTable_short hm, rfl⟩
    · by_cases hm : 2 < m.length
      · obtain ⟨u, t, hc⟩ := readComments_iff.mpr hcom
        exact ⟨u, t, (), m, hend, m, m, ⟨rfl, rfl⟩, comments, r, (readTable_iff hm).mpr hsym, hc⟩
      · exact ⟨(), m, (), m, hend, m, m, ⟨rfl, rfl⟩, false, m, readTable_short (by omega), rfl⟩

/-! ## Files -/

/-- The counts of the header that the loader compares and loops over. -/
structure Header.Accepted (h : Header) (binary : Bool) : Prop where
  sum : h.max_var = wrap (h.num_inputs + h.num_latches + h.num_ands)
  bounded : ¬ (binary = true ∧ h.num_inputs = 2 ^ 31 - 1)

/-- `bytes` is a file with the contents `D`. -/
def Contents (bytes : List Nat) (D : AigerInput) : Prop :=
  ∃ buf binary h m1 m2 m3, bufferOf bytes = some buf ∧ Letters binary buf m1 ∧ HeaderText h m1 m2 ∧
    h.Accepted binary ∧ Sections binary h D m2 m3 ∧ Trailing binary m3

theorem readBuffer_iff {D : AigerInput} : (∃ t, readBuffer s = (.ok D, t)) ↔
    ∃ binary h m1 m2 m3, Letters binary s m1 ∧ HeaderText h m1 m2 ∧ h.Accepted binary ∧
      Sections binary h D m2 m3 ∧ Trailing binary m3 := by
  simp only [readBuffer, Exec.bind_eq_ok, readFormat_iff, readHeader_iff, Exec.guard_eq_ok, readSections_iff,
    Exec.pure_eq_ok, not_not]
  constructor
  · rintro ⟨t, binary, m1, hl, h, m2, hh, hsum, hb, D', m3, hs, u, m4, ht, rfl, rfl⟩
    exact ⟨binary, h, m1, m2, m3, hl, hh, ⟨hsum, hb⟩, hs, readTrailer_iff.mp ⟨u, m4, ht⟩⟩
  · rintro ⟨binary, h, m1, m2, m3, hl, hh, ⟨hsum, hb⟩, hs, ht⟩
    obtain ⟨u, m4, ht⟩ := readTrailer_iff.mpr ht
    exact ⟨m4, binary, m1, hl, h, m2, hh, hsum, hb, D, m3, hs, u, m4, ht, rfl, rfl⟩

theorem load_of_buffer {bytes buf : List Nat} (hb : bufferOf bytes = some buf) :
    load_aiger_from_file bytes = (readBuffer buf).1 := by
  rw [load_aiger_from_file, hb, Option.elim_some]

theorem load_of_none {bytes : List Nat} (hb : bufferOf bytes = none) :
    load_aiger_from_file bytes = .error .allocation := by
  rw [load_aiger_from_file, hb, Option.elim_none]

/-- The loader returns the contents of the file, if it has contents. -/
theorem load_iff {bytes : List Nat} {D : AigerInput} :
    load_aiger_from_file bytes = .ok D ↔ Contents bytes D := by
  unfold Contents
  cases hb : bufferOf bytes with
  | none => simp [load_of_none hb]
  | some buf =>
      rw [load_of_buffer hb]
      constructor
      · intro h
        obtain ⟨binary, h', m1, m2, m3, hrest⟩ :=
          readBuffer_iff.mp ⟨(readBuffer buf).2, by rw [← h]⟩
        exact ⟨buf, binary, h', m1, m2, m3, rfl, hrest⟩
      · rintro ⟨_, binary, h', m1, m2, m3, heq, hrest⟩
        cases heq
        obtain ⟨t, ht⟩ := readBuffer_iff.mpr ⟨binary, h', m1, m2, m3, hrest⟩
        rw [ht]

end ModelChecker
