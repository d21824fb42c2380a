import ModelChecker.Aig.Lemmas.Write

/-!
# The delta codec

`decode` undoes `encode` value by value and stops behind the last byte of each code. Among all sequences
of 7-bit groups for a number, `encode` writes the shortest one.
-/

namespace ModelChecker

open Logic

/-- `n` calls of `decode`. -/
def decodes : Nat → Reader (List Nat)
  | 0 => pure []
  | n + 1 => do
      let x ← decode
      let xs ← decodes n
      pure (x :: xs)

/-- Bytes of which all but the last have the highest bit set. -/
inductive Groups : List Nat → Prop
  | last {ch : Nat} (h : ch < 128) : Groups [ch]
  | more {b : Nat} {gs : List Nat} (hlo : 128 ≤ b) (hhi : b < 256) (h : Groups gs) : Groups (b :: gs)

/-- The number that the groups stand for, the lowest group first. -/
def groupsValue : List Nat → Nat
  | [] => 0
  | b :: gs => b % 128 + 128 * groupsValue gs

/-- `bs` is the code of `x` that is shorter than any other. -/
structure ShortestCode (x : Nat) (bs : List Nat) : Prop where
  groups : Groups bs
  value : groupsValue bs = x
  length : bs.length ≤ 5
  shortest : ∀ gs, Groups gs → groupsValue gs = x → gs ≠ bs → bs.length < gs.length

/-! ## Codes -/

theorem encode_lt {x : Nat} (h : x < 128) : encode x = [x] := by
  rw [encode, if_pos h]

theorem encode_ge {x : Nat} (h : 128 ≤ x) : encode x = (x % 128 + 128) :: encode (x / 128) := by
  rw [encode, if_neg (by omega)]

theorem groups_encode (x : Nat) : Groups (encode x) ∧ groupsValue (encode x) = x := by
  induction x using Nat.strong_induction_on with
  | h x ih =>
      rcases Nat.lt_or_ge x 128 with h | h
      · rw [encode_lt h]
        refine ⟨.last h, ?_⟩
        show x % 128 + 128 * 0 = x
        omega
      · obtain ⟨hg, hv⟩ := ih (x / 128) (by omega)
        rw [encode_ge h]
        refine ⟨.more (by omega) (by omega) hg, ?_⟩
        show (x % 128 + 128) % 128 + 128 * groupsValue (encode (x / 128)) = x
        rw [hv]
        omega

theorem length_encode_le {x : Nat} (n : Nat) (h : x < 128 ^ (n + 1)) : (encode x).length ≤ n + 1 := by
  induction n generalizing x with
  | zero =>
      rw [encode_lt (by omega)]
      exact le_rfl
  | succ n ih =>
      rcases Nat.lt_or_ge x 128 with h0 | h0
      · rw [encode_lt h0]
        exact Nat.succ_pos _
      · rw [encode_ge h0, List.length_cons]
        have hdiv : x / 128 < 128 ^ (n + 1) := Nat.div_lt_of_lt_mul (by rw [pow_succ] at h; omega)
        exact Nat.succ_le_succ (ih hdiv)

/-- Any other code is longer. -/
theorem Groups.eq_or_longer {gs : List Nat} (h : Groups gs) :
    gs = encode (groupsValue gs) ∨ (encode (groupsValue gs)).length < gs.length := by
  induction h with
  | @last ch h =>
      left
      have hv : groupsValue [ch] = ch := by
        show ch % 128 + 128 * 0 = ch
        omega
      rw [hv, encode_lt h]
  | @more b gs hlo hhi h ih =>
      have hpos : 0 < gs.length := by cases h <;> simp
      have hv : groupsValue (b :: gs) = b % 128 + 128 * groupsValue gs := rfl
      rcases Nat.lt_or_ge (groupsValue (b :: gs)) 128 with hx | hx
      · -- the groups behind the first are all zero
        right
        rw [encode_lt hx]
        simpa using hpos
      · rw [encode_ge hx, show groupsValue (b :: gs) / 128 = groupsValue gs by omega,
          show groupsValue (b :: gs) % 128 + 128 = b by omega]
        rcases ih with ih | ih
        · left
          rw [← ih]
        · right
          simpa using ih

theorem encode_shortest {x : Nat} (h : x < 2 ^ 32) : ShortestCode x (encode x) := by
  obtain ⟨hg, hv⟩ := groups_encode x
  refine ⟨hg, hv, length_encode_le 4 (by omega), fun gs hgs hval hne => ?_⟩
  rcases hgs.eq_or_longer with heq | hlt
  · rw [hval] at heq
    exact absurd heq hne
  · rwa [hval] at hlt

/-! ## Round trip -/

theorem decodes_encode (xs : List Nat) (h : ∀ x ∈ xs, x < 2 ^ 32) (t : List Nat) :
    decodes xs.length (xs.flatMap encode ++ t) = (.ok xs, t) := by
  induction xs with
  | nil => rfl
  | cons x xs ih =>
      obtain ⟨hx, hxs⟩ := List.forall_mem_cons.mp h
      rw [List.flatMap_cons, List.append_assoc]
      refine Exec.bind_eq_ok.mpr ⟨x, _, decode_iff.mpr (code_encode hx), ?_⟩
      exact Exec.bind_eq_ok.mpr ⟨xs, t, ih hxs, rfl⟩

/-- Decoding gives back the values and stops behind the last code, and every code is the shortest one. -/
theorem decode_encode (xs : List UInt32) (t : List Nat) :
    decodes xs.length (xs.flatMap (fun x => encode x.toNat) ++ t) = (.ok (xs.map UInt32.toNat), t) ∧
      ∀ x ∈ xs, ShortestCode x.toNat (encode x.toNat) := by
  refine ⟨?_, fun x _ => encode_shortest x.toNat_lt⟩
  have h := decodes_encode (xs.map UInt32.toNat) (fun x hx => ?_) t
  · rwa [List.length_map, List.flatMap_map] at h
  · obtain ⟨y, _, rfl⟩ := List.mem_map.mp hx
    exact y.toNat_lt

end ModelChecker
