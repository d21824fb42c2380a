import ModelChecker.Aig.Lemmas.Contents

/-!
# Writing and reading

The parts of a serialised circuit, each followed by anything, begin with the fields, rows and codes that
they were written from.
-/

namespace ModelChecker

open Logic

variable {s t : List Nat}

/-! ## Numbers -/

theorem digitBytes_ne_nil (n : Nat) : digitBytes n ≠ [] := by
  unfold digitBytes
  simp [Nat.toDigits_ne_nil]

theorem isDigit_of_mem {n b : Nat} (h : b ∈ digitBytes n) : isDigit b = true := by
  obtain ⟨c, hc, rfl⟩ := List.mem_map.mp h
  have hd := Nat.isDigit_of_mem_toDigits (by decide) (by decide) hc
  simp only [Char.isDigit, Bool.and_eq_true, decide_eq_true_eq, ge_iff_le, UInt32.le_iff_toNat_le] at hd
  exact decide_eq_true hd

/-- One more digit, without a bound. -/
def shiftExact (r : Int) (c : Nat) : Int := r * 10 + (c - 48)

/-- Wrapping around can wait until the last digit. -/
theorem foldl_shiftDigit (ds : List Nat) (r : Int) :
    ds.foldl shiftDigit (wrap r) = wrap (ds.foldl shiftExact r) := by
  induction ds generalizing r with
  | nil => rfl
  | cons d ds ih =>
      have hstep : shiftDigit (wrap r) d = wrap (shiftExact r d) := by
        unfold shiftDigit shiftExact wrap
        rw [← Int.bmod_add_bmod, Int.bmod_mul_bmod, Int.bmod_add_bmod]
      rw [List.foldl_cons, List.foldl_cons, hstep, ih]

theorem foldl_shiftExact (cs : List Char) (h : ∀ c ∈ cs, 48 ≤ c.toNat) (r : Nat) :
    (cs.map Char.toNat).foldl shiftExact r = (Nat.ofDigitChars 10 cs r : Nat) := by
  induction cs generalizing r with
  | nil => rfl
  | cons c cs ih =>
      obtain ⟨hc, hcs⟩ := List.forall_mem_cons.mp h
      have hstep : shiftExact r c.toNat = ((10 * r + (c.toNat - 48) : Nat) : Int) := by
        unfold shiftExact
        omega
      rw [List.map_cons, List.foldl_cons, hstep, ih hcs, Nat.ofDigitChars_cons]
      rfl

theorem literal_digitBytes {n : Nat} (h : n < 2 ^ 31) : literal (digitBytes n) = n := by
  have hd : ∀ c ∈ Nat.toDigits 10 n, 48 ≤ c.toNat := by
    intro c hc
    have := of_decide_eq_true (isDigit_of_mem (List.mem_map_of_mem (f := Char.toNat) hc))
    exact this.1
  have hfold := foldl_shiftExact _ hd 0
  rw [Nat.ofDigitChars_ten_toDigits] at hfold
  have hzero : (0 : Int) = wrap 0 := by decide
  unfold literal
  rw [hzero, foldl_shiftDigit]
  show wrap ((digitBytes n).foldl shiftExact ((0 : Nat) : Int)) = n
  unfold digitBytes
  rw [hfold, wrap_of_lt (by omega) (by omega)]

/-! ## Lines -/

/-- `s` starts with the end of a line. -/
def LineEnd (s : List Nat) : Prop := ∃ r, s = 10 :: r

/-- The fields of a line with fewer than `k` numbers are `-1` behind the last one. -/
def padded (k : Nat) (ns : List Nat) : List Int :=
  ns.map Int.ofNat ++ List.replicate (k - ns.length) (-1)

theorem fields_missing (k : Nat) : Fields (List.replicate k (-1)) (10 :: t) (10 :: t) := by
  induction k with
  | zero => rfl
  | succ k ih => exact ⟨10 :: t, @Field.missing [] _ (by simp), ih⟩

theorem field_number {n : Nat} (hn : n < 2 ^ 31) {junk : List Nat} (hj : ∀ b ∈ junk, Blank b) {c : Nat}
    (hc : isDigit c = false) : Field n (junk ++ (digitBytes n ++ c :: t)) (c :: t) := by
  have h := Field.number (t := t) hj (digitBytes_ne_nil n) (fun b hb => isDigit_of_mem hb) hc
  rwa [literal_digitBytes hn] at h

theorem fields_numberLine {ns : List Nat} (hne : ns ≠ []) (hns : ∀ n ∈ ns, n < 2 ^ 31) {junk : List Nat}
    (hj : ∀ b ∈ junk, Blank b) (k : Nat) :
    Fields (ns.map Int.ofNat ++ List.replicate k (-1)) (junk ++ (numberLine ns ++ 10 :: t)) (10 :: t) := by
  induction ns generalizing junk with
  | nil => exact absurd rfl hne
  | cons n ns ih =>
      obtain ⟨hn, hns⟩ := List.forall_mem_cons.mp hns
      cases ns with
      | nil => exact ⟨10 :: t, field_number hn hj (by decide), fields_missing k⟩
      | cons m ns =>
          have hrest := @ih (by simp) hns [32] (by simp [Blank, isDigit])
          refine ⟨32 :: (numberLine (m :: ns) ++ 10 :: t), ?_, hrest⟩
          have heq : numberLine (n :: m :: ns) ++ 10 :: t =
              digitBytes n ++ 32 :: (numberLine (m :: ns) ++ 10 :: t) := by
            simp [numberLine]
          rw [heq]
          exact field_number hn hj (by decide)

theorem fields_padded {ns : List Nat} (hne : ns ≠ []) (hns : ∀ n ∈ ns, n < 2 ^ 31) (k : Nat)
    (ht : LineEnd t) : Fields (padded k ns) (numberLine ns ++ t) t := by
  obtain ⟨r, rfl⟩ := ht
  exact @fields_numberLine _ _ hne hns [] (by simp) _

/-! ## Sections -/

/-- The lines of a section, each behind the end of the line before. -/
def linesText (lines : List (List Nat)) : List Nat := lines.flatMap fun ns => 10 :: numberLine ns

theorem lineEnd_linesText (lines : List (List Nat)) (ht : LineEnd t) : LineEnd (linesText lines ++ t) := by
  cases lines with
  | nil => exact ht
  | cons ns lines => exact ⟨_, rfl⟩

theorem rows_linesText {k : Nat} {lines : List (List Nat)} (hne : ∀ ns ∈ lines, ns ≠ [])
    (hns : ∀ ns ∈ lines, ∀ n ∈ ns, n < 2 ^ 31) (ht : LineEnd t) :
    Rows (lines.map (padded k)) (linesText lines ++ t) t := by
  induction lines with
  | nil => rfl
  | cons ns lines ih =>
      obtain ⟨hne1, hne⟩ := List.forall_mem_cons.mp hne
      obtain ⟨hns1, hns⟩ := List.forall_mem_cons.mp hns
      refine ⟨linesText lines ++ t, ⟨-1, 10, numberLine ns ++ (linesText lines ++ t), ?_, ?_⟩, ih hne hns⟩
      · have heq : linesText (ns :: lines) ++ t = 10 :: (numberLine ns ++ (linesText lines ++ t)) := by
          simp [linesText]
        rw [heq]
        exact @Field.missing [] _ (by simp)
      · exact fields_padded hne1 hns1 k (lineEnd_linesText lines ht)

theorem rowTable_linesText {k : Nat} {n : Int} {lines : List (List Nat)} (hn : (lines.length : Int) = n)
    (hne : ∀ ns ∈ lines, ns ≠ []) (hk : ∀ ns ∈ lines, ns.length ≤ k)
    (hns : ∀ ns ∈ lines, ∀ n ∈ ns, n < 2 ^ 31) (ht : LineEnd t) :
    RowTable k n (lines.map (padded k)) (linesText lines ++ t) t := by
  refine ⟨⟨by rw [List.length_map]; omega, ?_⟩, rows_linesText hne hns ht⟩
  intro row hrow
  obtain ⟨ns, hm, rfl⟩ := List.mem_map.mp hrow
  have := hk ns hm
  simp only [padded, List.length_append, List.length_map, List.length_replicate]
  omega

/-! ## Codes -/

theorem or_shift {x y k : Nat} (h : x < 2 ^ k) : x ||| y * 2 ^ k = x + y * 2 ^ k := by
  have := Nat.shiftLeft_add_eq_or_of_lt h y
  rw [Nat.shiftLeft_eq] at this
  rw [Nat.or_comm, ← this, Nat.add_comm]

/-- The bytes of a number; `x` is the value of the `i` bytes before. -/
theorem encode_spec (y : Nat) : ∀ (x i : Nat), x < 2 ^ (7 * i) → y * 2 ^ (7 * i) < 2 ^ 32 → 7 * i < 32 →
    ∃ bs ch, encode y = bs ++ [ch] ∧ (∀ b ∈ bs, Continues b) ∧ ¬ Continues ch ∧
      codeValue x i bs ch = x + y * 2 ^ (7 * i) := by
  induction y using Nat.strong_induction_on with
  | h y ih =>
      intro x i hx hy hi
      unfold encode
      by_cases hlt : y < 128
      · rw [if_pos hlt]
        refine ⟨[], y, rfl, by simp, by unfold Continues; omega, ?_⟩
        unfold codeValue
        rw [Nat.mod_eq_of_lt hi, Nat.mod_eq_of_lt hy, or_shift hx]
      · rw [if_neg hlt]
        have hpow : 2 ^ (7 * (i + 1)) = 128 * 2 ^ (7 * i) := by
          rw [show 7 * (i + 1) = 7 * i + 7 by ring, pow_add]; ring
        have hsplit : y % 128 * 2 ^ (7 * i) + y / 128 * (128 * 2 ^ (7 * i)) = y * 2 ^ (7 * i) := by
          conv_rhs => rw [← Nat.mod_add_div y 128]
          ring
        have hlow : y % 128 * 2 ^ (7 * i) ≤ 127 * 2 ^ (7 * i) :=
          Nat.mul_le_mul_right _ (by omega)
        have hge : 128 * 2 ^ (7 * i) ≤ y * 2 ^ (7 * i) := Nat.mul_le_mul_right _ (by omega)
        have hi' : 7 * (i + 1) < 32 := by
          refine (Nat.pow_lt_pow_iff_right (a := 2) (by decide)).mp ?_
          rw [hpow]
          omega
        obtain ⟨bs, ch, he, hbs, hch, hv⟩ := ih (y / 128) (by omega) (x + y % 128 * 2 ^ (7 * i)) (i + 1)
          (by rw [hpow]; omega) (by rw [hpow]; omega) hi'
        refine ⟨(y % 128 + 128) :: bs, ch, by rw [he]; rfl, ?_, hch, ?_⟩
        · exact List.forall_mem_cons.mpr ⟨by unfold Continues; omega, hbs⟩
        · unfold codeValue
          rw [Nat.mod_eq_of_lt hi, show (y % 128 + 128) % 128 = y % 128 by omega,
            Nat.mod_eq_of_lt (by omega), or_shift hx, hv, hpow]
          omega

theorem code_encode {x : Nat} (h : x < 2 ^ 32) : Code x (encode x ++ t) t := by
  obtain ⟨bs, ch, he, hbs, hch, hv⟩ := encode_spec x 0 0 (by simp) (by simpa using h) (by omega)
  exact ⟨bs, ch, by rw [he]; simp, hbs, hch, by simpa using hv.symm⟩

end ModelChecker
