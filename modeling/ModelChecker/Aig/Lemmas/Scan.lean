import ModelChecker.Aig.Load
import ModelChecker.Logic.Fuel

/-!
# The fields of a file

What the loader takes from a text, said without it: a field of a line, the rows of a section and the
codes of the binary gates. Each reader succeeds exactly on the texts that begin with what it reads.
-/

namespace ModelChecker

open Logic

variable {s t : List Nat} {v : Int}

/-! ## Machine integers -/

theorem wrap_of_lt {x : Int} (h0 : 0 ≤ x) (h : x < 2 ^ 31) : wrap x = x := by
  unfold wrap Int.bmod
  norm_num
  omega

theorem wrap_of_ge {x : Int} (h0 : 2 ^ 31 ≤ x) (h : x < 2 ^ 32) : wrap x = x - 2 ^ 32 := by
  unfold wrap Int.bmod
  norm_num at *
  omega

theorem toUnsigned_lt (x : Int) : toUnsigned x < 2 ^ 32 := by
  unfold toUnsigned
  omega

theorem toUnsigned_natCast {n : Nat} (h : n < 2 ^ 32) : toUnsigned n = n := by
  unfold toUnsigned
  omega

/-! ## Numbers -/

/-- One more digit of a number. -/
def shiftDigit (result : Int) (c : Nat) : Int := wrap (result * 10 + (c - 48))

/-- The value of a string of digits as an `int`. -/
def literal (ds : List Nat) : Int := ds.foldl shiftDigit 0

/-- Neither a digit nor the end of a line. -/
def Blank (c : Nat) : Prop := isDigit c = false ∧ c ≠ 10

/-- A field `v` at the beginning of `s`, followed by `t`: blanks and a number, or blanks up to the end of
the line. -/
inductive Field : Int → List Nat → List Nat → Prop
  | number {junk ds t : List Nat} {c : Nat} (hj : ∀ b ∈ junk, Blank b) (hne : ds ≠ [])
      (hd : ∀ b ∈ ds, isDigit b = true) (hc : isDigit c = false) :
      Field (literal ds) (junk ++ (ds ++ c :: t)) (c :: t)
  | missing {junk t : List Nat} (hj : ∀ b ∈ junk, Blank b) : Field (-1) (junk ++ 10 :: t) (10 :: t)

theorem readDigits_append {r : Int} {ds : List Nat} (hd : ∀ b ∈ ds, isDigit b = true) {c : Nat}
    (hc : isDigit c = false) : readDigits r (ds ++ c :: t) = (.ok (ds.foldl shiftDigit r), c :: t) := by
  induction ds generalizing r with
  | nil => simp [readDigits, hc]
  | cons d ds ih =>
      have h1 := hd d List.mem_cons_self
      simp only [List.cons_append, readDigits, h1, if_true]
      exact ih fun b hb => hd b (List.mem_cons_of_mem _ hb)

theorem readDigits_inv {r : Int} (h : readDigits r s = (.ok v, t)) :
    ∃ ds c t', s = ds ++ c :: t' ∧ t = c :: t' ∧ (∀ b ∈ ds, isDigit b = true) ∧ isDigit c = false ∧
      v = ds.foldl shiftDigit r := by
  induction s generalizing r with
  | nil => simp [readDigits] at h
  | cons c s ih =>
      unfold readDigits at h
      by_cases hc : isDigit c = true
      · rw [if_pos hc] at h
        obtain ⟨ds, c', t', rfl, rfl, hd, hc', rfl⟩ := ih h
        refine ⟨c :: ds, c', t', rfl, rfl, ?_, hc', rfl⟩
        intro b hb
        rcases List.mem_cons.mp hb with rfl | hb
        · exact hc
        · exact hd b hb
      · rw [if_neg hc] at h
        cases h
        exact ⟨[], c, s, rfl, rfl, by simp, by simpa using hc, rfl⟩

theorem scanLiteral_blanks {junk : List Nat} (hj : ∀ b ∈ junk, Blank b) :
    scanLiteral (junk ++ s) = scanLiteral s := by
  induction junk with
  | nil => rfl
  | cons b junk ih =>
      obtain ⟨h1, h2⟩ := hj b List.mem_cons_self
      rw [List.cons_append, scanLiteral, if_neg (by simp [h1]), if_neg h2]
      exact ih fun b hb => hj b (List.mem_cons_of_mem _ hb)

theorem read_literal_iff : read_literal s = (.ok v, t) ↔ Field v s t := by
  constructor
  · intro h
    unfold read_literal at h
    induction s with
    | nil => simp [scanLiteral] at h
    | cons c s ih =>
        unfold scanLiteral at h
        by_cases hc : isDigit c = true
        · rw [if_pos hc] at h
          obtain ⟨ds, c', t', heq, rfl, hd, hc', rfl⟩ := readDigits_inv h
          rw [heq]
          refine @Field.number [] _ _ _ (by simp) ?_ hd hc'
          rintro rfl
          simp only [List.nil_append, List.cons.injEq] at heq
          rw [heq.1, hc'] at hc
          cases hc
        · rw [if_neg hc] at h
          by_cases h10 : c = 10
          · rw [if_pos h10] at h
            cases h
            subst h10
            exact @Field.missing [] _ (by simp)
          · rw [if_neg h10] at h
            have hb : Blank c := ⟨by simpa using hc, h10⟩
            -- one more blank in front
            cases ih h with
            | @number junk _ _ _ hj hne hd hc' =>
                exact @Field.number (c :: junk) _ _ _ (List.forall_mem_cons.mpr ⟨hb, hj⟩) hne hd hc'
            | @missing junk _ hj =>
                exact @Field.missing (c :: junk) _ (List.forall_mem_cons.mpr ⟨hb, hj⟩)
  · intro h
    unfold read_literal
    cases h with
    | @number junk ds t c hj hne hd hc =>
        rw [scanLiteral_blanks hj]
        obtain ⟨d, ds, rfl⟩ := List.exists_cons_of_ne_nil hne
        rw [List.cons_append, scanLiteral, if_pos (hd d List.mem_cons_self), ← List.cons_append]
        exact readDigits_append hd hc
    | missing hj =>
        rw [scanLiteral_blanks hj, scanLiteral, if_neg (by decide), if_pos rfl]

theorem Field.ne_nil (h : Field v s t) : t ≠ [] := by
  cases h <;> exact List.cons_ne_nil _ _

/-! ## Rows -/

/-- Fields one after the other. -/
def Fields : List Int → List Nat → List Nat → Prop
  | [], s, t => s = t
  | v :: vs, s, t => ∃ m, Field v s m ∧ Fields vs m t

/-- A field that closes the line before, one byte, and the fields of the row. -/
def Row (vs : List Int) (s t : List Nat) : Prop := ∃ v c m, Field v s (c :: m) ∧ Fields vs m t

def Rows : List (List Int) → List Nat → List Nat → Prop
  | [], s, t => s = t
  | vs :: rows, s, t => ∃ m, Row vs s m ∧ Rows rows m t

theorem advance_eq_ok {u : Unit} : advance s = (.ok u, t) ↔ s.tail = t := by
  show (Except.ok (), s.tail) = (Except.ok u, t) ↔ _
  simp

theorem readFields_iff {k : Nat} {vs : List Int} :
    readFields k s = (.ok vs, t) ↔ vs.length = k ∧ Fields vs s t := by
  induction k generalizing vs s t with
  | zero =>
      unfold readFields
      rw [Exec.pure_eq_ok, List.length_eq_zero_iff]
      constructor
      · rintro ⟨rfl, rfl⟩; exact ⟨rfl, rfl⟩
      · rintro ⟨rfl, h⟩; exact ⟨rfl, h⟩
  | succ k ih =>
      simp only [readFields, Exec.bind_eq_ok, Exec.pure_eq_ok, read_literal_iff, ih]
      constructor
      · rintro ⟨v, m, hv, vs', m', ⟨rfl, hvs⟩, rfl, rfl⟩
        exact ⟨rfl, m, hv, hvs⟩
      · rintro ⟨hlen, h⟩
        cases vs with
        | nil => cases hlen
        | cons v vs =>
            obtain ⟨m, hv, hvs⟩ := h
            exact ⟨v, m, hv, vs, t, ⟨by simpa using hlen, hvs⟩, rfl, rfl⟩

theorem readRow_iff {k : Nat} {vs : List Int} :
    readRow k s = (.ok vs, t) ↔ vs.length = k ∧ Row vs s t := by
  simp only [readRow, Exec.bind_eq_ok, read_literal_iff, advance_eq_ok, readFields_iff]
  constructor
  · rintro ⟨v, m, hv, _, m', rfl, hlen, hvs⟩
    obtain ⟨c, m, rfl⟩ := List.exists_cons_of_ne_nil hv.ne_nil
    exact ⟨hlen, v, c, m, hv, hvs⟩
  · rintro ⟨hlen, v, c, m, hv, hvs⟩
    exact ⟨v, c :: m, hv, (), m, rfl, hlen, hvs⟩

theorem readRows_iff {k n : Nat} {rows : List (List Int)} :
    readRows k n s = (.ok rows, t) ↔ (rows.length = n ∧ ∀ row ∈ rows, row.length = k) ∧ Rows rows s t := by
  induction n generalizing rows s t with
  | zero =>
      unfold readRows
      rw [Exec.pure_eq_ok, List.length_eq_zero_iff]
      constructor
      · rintro ⟨rfl, rfl⟩; exact ⟨⟨rfl, by simp⟩, rfl⟩
      · rintro ⟨⟨rfl, -⟩, h⟩; exact ⟨rfl, h⟩
  | succ n ih =>
      simp only [readRows, Exec.bind_eq_ok, Exec.pure_eq_ok, readRow_iff, ih]
      constructor
      · rintro ⟨row, m, ⟨hrow, hr⟩, rows', m', ⟨⟨rfl, hall⟩, hrs⟩, rfl, rfl⟩
        exact ⟨⟨rfl, List.forall_mem_cons.mpr ⟨hrow, hall⟩⟩, m, hr, hrs⟩
      · rintro ⟨⟨hlen, hall⟩, h⟩
        cases rows with
        | nil => cases hlen
        | cons row rows =>
            obtain ⟨m, hr, hrs⟩ := h
            obtain ⟨hrow, hall⟩ := List.forall_mem_cons.mp hall
            exact ⟨row, m, ⟨hrow, hr⟩, rows, t, ⟨⟨by simpa using hlen, hall⟩, hrs⟩, rfl, rfl⟩

/-! ## Codes -/

/-- A byte with its highest bit set is not the last one of a code. -/
def Continues (ch : Nat) : Prop := ch / 128 % 2 = 1

instance (ch : Nat) : Decidable (Continues ch) := inferInstanceAs (Decidable (_ = _))

/-- The value of a code, `x` being that of the `i` bytes before. -/
def codeValue (x i : Nat) : List Nat → Nat → Nat
  | [], ch => x ||| (ch * 2 ^ (7 * i % 32)) % 2 ^ 32
  | b :: bs, ch => codeValue (x ||| (b % 128 * 2 ^ (7 * i % 32)) % 2 ^ 32) (i + 1) bs ch

/-- The code of `x` at the beginning of `s`, followed by `t`. -/
def Code (x : Nat) (s t : List Nat) : Prop :=
  ∃ bs ch, s = bs ++ ch :: t ∧ (∀ b ∈ bs, Continues b) ∧ ¬ Continues ch ∧ x = codeValue 0 0 bs ch

theorem scanCode_iff {x i y : Nat} : scanCode x i s = (.ok y, t) ↔
    ∃ bs ch, s = bs ++ ch :: t ∧ (∀ b ∈ bs, Continues b) ∧ ¬ Continues ch ∧ y = codeValue x i bs ch := by
  induction s generalizing x i with
  | nil => simp [scanCode]
  | cons b s ih =>
      unfold scanCode
      by_cases hb : Continues b
      · rw [if_pos (show b / 128 % 2 = 1 from hb), ih]
        constructor
        · rintro ⟨bs, ch, rfl, hbs, hch, rfl⟩
          exact ⟨b :: bs, ch, rfl, List.forall_mem_cons.mpr ⟨hb, hbs⟩, hch, rfl⟩
        · rintro ⟨bs, ch, heq, hbs, hch, rfl⟩
          cases bs with
          | nil =>
              cases heq
              exact absurd hb hch
          | cons b' bs =>
              cases heq
              exact ⟨bs, ch, rfl, (List.forall_mem_cons.mp hbs).2, hch, rfl⟩
      · rw [if_neg (show ¬ b / 128 % 2 = 1 from hb)]
        constructor
        · intro h
          cases h
          exact ⟨[], b, rfl, by simp, hb, rfl⟩
        · rintro ⟨bs, ch, heq, hbs, hch, rfl⟩
          cases bs with
          | nil => cases heq; rfl
          | cons b' bs =>
              cases heq
              exact absurd (hbs b List.mem_cons_self) hb

theorem decode_iff {x : Nat} : decode s = (.ok x, t) ↔ Code x s t := scanCode_iff

/-- The two codes of each gate. -/
def Deltas : List (Nat × Nat) → List Nat → List Nat → Prop
  | [], s, t => s = t
  | d :: ds, s, t => ∃ m m', Code d.1 s m ∧ Code d.2 m m' ∧ Deltas ds m' t

theorem readDeltas_iff {n : Nat} {ds : List (Nat × Nat)} :
    readDeltas n s = (.ok ds, t) ↔ ds.length = n ∧ Deltas ds s t := by
  induction n generalizing ds s t with
  | zero =>
      unfold readDeltas
      rw [Exec.pure_eq_ok, List.length_eq_zero_iff]
      constructor
      · rintro ⟨rfl, rfl⟩; exact ⟨rfl, rfl⟩
      · rintro ⟨rfl, h⟩; exact ⟨rfl, h⟩
  | succ n ih =>
      simp only [readDeltas, Exec.bind_eq_ok, Exec.pure_eq_ok, decode_iff, ih]
      constructor
      · rintro ⟨d1, m, h1, d2, m', h2, ds', m'', ⟨rfl, hds⟩, rfl, rfl⟩
        exact ⟨rfl, m, m', h1, h2, hds⟩
      · rintro ⟨hlen, h⟩
        cases ds with
        | nil => cases hlen
        | cons d ds =>
            obtain ⟨m, m', h1, h2, hds⟩ := h
            exact ⟨d.1, m, h1, d.2, m', h2, ds, t, ⟨by simpa using hlen, hds⟩, rfl, rfl⟩

/-! ## Texts -/

theorem skipTo_iff {c : Nat} {u : Unit} :
    skipTo c s = (.ok u, t) ↔ ∃ text t', s = text ++ c :: t' ∧ c ∉ text ∧ t = c :: t' := by
  unfold skipTo
  induction s with
  | nil => simp [scanTo]
  | cons b s ih =>
      unfold scanTo
      by_cases hb : b = c
      · rw [if_pos hb]
        constructor
        · intro h
          cases h
          exact ⟨[], s, by simp [hb], by simp, by simp [hb]⟩
        · rintro ⟨text, t', heq, hc, rfl⟩
          cases text with
          | nil => rw [heq]; rfl
          | cons b' text =>
              cases heq
              exact absurd (by simp [hb]) hc
      · rw [if_neg hb, ih]
        constructor
        · rintro ⟨text, t', rfl, hc, rfl⟩
          exact ⟨b :: text, t', rfl, by simp [hc, Ne.symm hb], rfl⟩
        · rintro ⟨text, t', heq, hc, rfl⟩
          cases text with
          | nil => cases heq; exact absurd rfl hb
          | cons b' text =>
              cases heq
              exact ⟨text, t', rfl, fun h => hc (List.mem_cons_of_mem _ h), rfl⟩

theorem peek_eq_ok {c : Nat} : peek s = (.ok c, t) ↔ ∃ s', s = c :: s' ∧ t = s := by
  cases s with
  | nil => simp [peek]
  | cons b s => simp [peek]; tauto

/-! ## Errors -/

/-- A reader that fails only at the end of the buffer. -/
def Bounded {α : Type} (x : Reader α) : Prop := ∀ s, x.Stops (· = .outOfBounds) s

/-- Such a reader stays in the buffer exactly when it succeeds. -/
theorem Bounded.stops_iff {α : Type} {x : Reader α} (h : Bounded x) {P : LoadStop → Prop}
    (hP : ¬ P .outOfBounds) : x.Stops P s ↔ ∃ a t, x s = (.ok a, t) := by
  constructor
  · intro hs
    rcases hx : x s with ⟨e | a, t⟩
    · have he : e = .outOfBounds := h s e (by rw [hx])
      exact absurd (he ▸ hs e (by rw [hx])) hP
    · exact ⟨a, t, rfl⟩
  · rintro ⟨a, t, hx⟩ e he
    rw [hx] at he
    cases he

theorem Bounded.pure {α : Type} (a : α) : Bounded (Pure.pure a : Reader α) := fun _ => Exec.stops_pure

theorem Bounded.bind {α β : Type} {x : Reader α} {f : α → Reader β} (hx : Bounded x)
    (hf : ∀ a, Bounded (f a)) : Bounded (x >>= f) := fun s => (hx s).then fun a t => hf a t

theorem bounded_read_literal : Bounded read_literal := by
  have hdigits : ∀ s r e, (readDigits r s).1 = .error e → e = .outOfBounds := by
    intro s
    induction s with
    | nil => rintro r e ⟨⟩; rfl
    | cons c s ih =>
        intro r e h
        unfold readDigits at h
        split at h
        · exact ih _ e h
        · cases h
  intro s
  unfold read_literal
  induction s with
  | nil => rintro e ⟨⟩; rfl
  | cons c s ih =>
      intro e h
      unfold scanLiteral at h
      split at h
      · exact hdigits _ _ e h
      · split at h
        · cases h
        · exact ih e h

theorem bounded_decode : Bounded decode := by
  have key : ∀ s x i e, (scanCode x i s).1 = .error e → e = .outOfBounds := by
    intro s
    induction s with
    | nil => rintro x i e ⟨⟩; rfl
    | cons c s ih =>
        intro x i e h
        unfold scanCode at h
        split at h
        · exact ih _ _ e h
        · cases h
  exact fun s e h => key s 0 0 e h

theorem bounded_skipTo (c : Nat) : Bounded (skipTo c) := by
  intro s
  unfold skipTo
  induction s with
  | nil => rintro e ⟨⟩; rfl
  | cons b s ih =>
      intro e h
      unfold scanTo at h
      split at h
      · cases h
      · exact ih e h

theorem bounded_advance : Bounded advance := fun _ => Exec.stops_modify

theorem bounded_peek : Bounded peek := by
  intro s e h
  cases s with
  | nil => cases h; rfl
  | cons c s => cases h

theorem bounded_readFields (k : Nat) : Bounded (readFields k) := by
  induction k with
  | zero => exact .pure _
  | succ k ih => exact bounded_read_literal.bind fun _ => ih.bind fun _ => .pure _

theorem bounded_readRows (k n : Nat) : Bounded (readRows k n) := by
  induction n with
  | zero => exact .pure _
  | succ n ih =>
      exact (bounded_read_literal.bind fun _ => bounded_advance.bind fun _ => bounded_readFields k).bind
        fun _ => ih.bind fun _ => .pure _

theorem bounded_readDeltas (n : Nat) : Bounded (readDeltas n) := by
  induction n with
  | zero => exact .pure _
  | succ n ih =>
      exact bounded_decode.bind fun _ => bounded_decode.bind fun _ => ih.bind fun _ => .pure _

end ModelChecker
