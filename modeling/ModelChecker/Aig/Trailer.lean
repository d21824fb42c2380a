import ModelChecker.Aig.RoundTrip

/-!
# Trailing sections

Behind the body of a file there may be symbol entries and a comment. The loader goes over the entries of
inputs, latches and outputs, stops at one of a bad property, and takes the letter of a constraint for the
beginning of the comment.
-/

namespace ModelChecker

open Logic

/-! ## The format -/

inductive SymbolKind where
  | input
  | latch
  | output
  | bad
  | constraint
deriving DecidableEq, Repr

/-- `i`, `l`, `o`, `b` and `c`. -/
def SymbolKind.letter : SymbolKind → Nat
  | .input => 105
  | .latch => 108
  | .output => 111
  | .bad => 98
  | .constraint => 99

/-- The kinds that the loader knows. -/
def SymbolKind.known (kind : SymbolKind) : Bool := isEntry kind.letter

/-- A symbol entry; its name is on one line. -/
structure SymbolEntry where
  kind : SymbolKind
  position : Nat
  name : List Nat
  line : 10 ∉ name

def SymbolEntry.text (e : SymbolEntry) : List Nat :=
  e.kind.letter :: (digitBytes e.position ++ 32 :: (e.name ++ [10]))

/-- Symbol entries, and the text of the comment section if there is one. -/
structure Trailer where
  entries : List SymbolEntry
  comment : Option (List Nat)

def commentText : Option (List Nat) → List Nat
  | none => []
  | some text => 99 :: 10 :: text

def Trailer.text (T : Trailer) : List Nat := T.entries.flatMap SymbolEntry.text ++ commentText T.comment

/-- The loader does not meet the entry of a constraint: there is none, or that of a bad property is before
it. -/
def Skippable (entries : List SymbolEntry) : Prop :=
  (entries.find? fun e => !e.kind.known).map SymbolEntry.kind ≠ some .constraint

instance (entries : List SymbolEntry) : Decidable (Skippable entries) := inferInstanceAs (Decidable (_ ≠ _))

/-! ## Entries -/

theorem Symbols.unique {b b' : Bool} {s t t' : List Nat} (h : Symbols b s t) (h' : Symbols b' s t') :
    b = b' ∧ t = t' := by
  have heq := ((readSymbols_iff le_rfl).mpr h).symm.trans ((readSymbols_iff le_rfl).mpr h')
  cases heq
  exact ⟨rfl, rfl⟩

theorem AtEnd.unique {b : Bool} {s t t' : List Nat} (h : AtEnd b s t) (h' : AtEnd b s t') : t = t' := by
  have heq := (finishLine_iff (u := ()).mpr h).symm.trans (finishLine_iff (u := ()).mpr h')
  cases heq
  rfl

theorem symbols_known {e : SymbolEntry} (he : e.kind.known = true) {b : Bool} {s t : List Nat}
    (h : Symbols b s t) : Symbols b (e.text ++ s) t := by
  have hblank : ∀ c ∈ [e.kind.letter], Blank c := by
    intro c hc
    rw [List.mem_singleton.mp hc]
    cases e.kind <;> exact ⟨rfl, by decide⟩
  have hfield := Field.number (t := e.name ++ 10 :: s) hblank (digitBytes_ne_nil e.position)
    (fun c hc => isDigit_of_mem hc) (show isDigit 32 = false by decide)
  have htext : e.text ++ s = e.kind.letter :: (digitBytes e.position ++ 32 :: (e.name ++ 10 :: s)) := by
    simp [SymbolEntry.text]
  rw [htext]
  exact .entry he hfield rfl e.line h

/-- Where the loop over the entries ends, and whether the comment that it then looks for is there. -/
theorem symbols_trailer (entries : List SymbolEntry) (comment : Option (List Nat)) :
    ∃ b t, Symbols b (entries.flatMap SymbolEntry.text ++ (commentText comment ++ [0])) t ∧
      ((b = true → ∃ r, t = 10 :: r ∧ 0 ∈ r) ↔ Skippable entries) := by
  induction entries with
  | nil =>
      have hnil : Skippable [] := by simp [Skippable]
      cases comment with
      | none => exact ⟨false, [0], .other (by decide) (by decide), by simp [hnil]⟩
      | some text => exact ⟨true, _, .comment, by simp [hnil]⟩
  | cons e entries ih =>
      by_cases hk : e.kind.known = true
      · obtain ⟨b, t, hs, hiff⟩ := ih
        refine ⟨b, t, ?_, ?_⟩
        · rw [List.flatMap_cons, List.append_assoc]
          exact symbols_known hk hs
        · rw [hiff]
          unfold Skippable
          rw [List.find?_cons_of_neg (by simp [hk])]
      · have hfind : Skippable (e :: entries) ↔ e.kind ≠ .constraint := by
          unfold Skippable
          rw [List.find?_cons_of_pos (by simpa using hk)]
          simp
        rw [hfind]
        obtain ⟨kind, position, name, line⟩ := e
        cases kind with
        | input => exact absurd rfl hk
        | latch => exact absurd rfl hk
        | output => exact absurd rfl hk
        | bad => exact ⟨false, _, .other rfl (show (98 : Nat) ≠ 99 by decide), by simp⟩
        | constraint =>
            refine ⟨true, _, .comment, ?_⟩
            obtain ⟨d, ds, hd⟩ := List.exists_cons_of_ne_nil (digitBytes_ne_nil position)
            have hdigit : isDigit d = true := isDigit_of_mem (hd ▸ List.mem_cons_self)
            have hne : d ≠ 10 := by
              rintro rfl
              cases hdigit
            simp [hd, hne]

theorem Trailer.skippable_of_short {T : Trailer} (h : T.text.length ≤ 1) : Skippable T.entries := by
  obtain ⟨entries, comment⟩ := T
  cases entries with
  | nil => simp [Skippable]
  | cons e entries =>
      simp only [text, List.flatMap_cons, SymbolEntry.text, List.length_append, List.length_cons] at h
      omega

theorem trailing_iff (binary : Bool) (T : Trailer) :
    Trailing binary (AigerFile.lastLine binary ++ (T.text ++ [0])) ↔ Skippable T.entries := by
  obtain ⟨b, t, hs, hiff⟩ := symbols_trailer T.entries T.comment
  rw [← List.append_assoc] at hs
  change Symbols b (T.text ++ [0]) t at hs
  have hend : ∃ m, AtEnd binary (AigerFile.lastLine binary ++ (T.text ++ [0])) m ∧ SymbolsAt binary b m t ∧
      T.text.length < m.length := by
    cases binary with
    | true => exact ⟨T.text ++ [0], by simp [AtEnd, AigerFile.lastLine], hs, by simp⟩
    | false => exact ⟨10 :: (T.text ++ [0]), ⟨[], _, rfl, List.not_mem_nil, rfl⟩, hs, by simp⟩
  obtain ⟨m, hm, hsym, hlen⟩ := hend
  constructor
  · rintro ⟨m', hm', hcase⟩
    obtain rfl := hm.unique hm'
    rcases hcase with hshort | ⟨b', t', hsym', hcomment⟩
    · exact T.skippable_of_short (by omega)
    · obtain ⟨rfl, rfl⟩ := Symbols.unique hsym hsym'
      exact hiff.mp hcomment
  · intro hskip
    exact ⟨m, hm, .inr ⟨b, t, hsym, hiff.mpr hskip⟩⟩

/-! ## Loading -/

/-- The loader returns a circuit for the body, and the same one for the body with the trailing section. -/
def LoadsAlike (body trailer : List Nat) : Prop :=
  ∃ D, load_aiger_from_file body = .ok D ∧ load_aiger_from_file (body ++ trailer) = .ok D

/-- A trailing section changes nothing exactly if the loader accepts the header and does not meet the entry
of a constraint. -/
theorem load_trailer {binary : Bool} {h : Header} {D : AigerInput} {body : List Nat}
    (hbody : IsBody binary h D body) (T : Trailer) (hlen : (body ++ T.text).length < 2 ^ 31 - 1) :
    LoadsAlike body T.text ↔ h.Accepted binary ∧ Skippable T.entries := by
  have hfull := load_body hbody T.text hlen
  have hlen0 : (body ++ []).length < 2 ^ 31 - 1 := by
    rw [List.append_nil]
    rw [List.length_append] at hlen
    omega
  have halone := load_body hbody [] hlen0
  rw [List.append_nil] at halone
  constructor
  · rintro ⟨D', -, hload⟩
    obtain ⟨⟨hacc, htr⟩, -⟩ := (hfull D').mp hload
    exact ⟨hacc, (trailing_iff binary T).mp htr⟩
  · rintro ⟨hacc, hskip⟩
    exact ⟨D, (halone D).mpr ⟨⟨hacc, AigerFile.trailing_nil binary⟩, rfl⟩,
      (hfull D).mpr ⟨⟨hacc, (trailing_iff binary T).mpr hskip⟩, rfl⟩⟩

namespace Sample

/-- Names for the input, the latch and the output, and a comment. -/
def names : Trailer where
  entries := [⟨.input, 0, [120], by decide⟩, ⟨.latch, 0, [121, 32, 99], by decide⟩,
    ⟨.output, 0, [122], by decide⟩]
  comment := some [99, 10]

/-- A name for the first constraint. -/
def constraintName : Trailer := ⟨[⟨.constraint, 0, [120], by decide⟩], none⟩

theorem gated_writable (binary : Bool) : gated.Writable binary :=
  ⟨gated_wellFormed.counted, gated_wellFormed.fits (by decide) (by decide),
    fun _ => gated_wellFormed.consecutive (by unfold AigerFile.Descending; decide)⟩

end Sample

/-- Symbols and a comment behind a binary file. -/
theorem load_trailer_names : LoadsAlike (Sample.gated.serialise {} true) Sample.names.text := by
  refine (load_trailer (AigerFile.isBody_serialise (Sample.gated_writable true) {}) Sample.names ?_).mpr
    ⟨AigerFile.accepted Sample.gated_wellFormed (by decide) true, ?_⟩
  · decide +kernel
  · decide

/-- The entry of a constraint: its letter is not followed by a newline, which the loader asserts. -/
theorem load_constraint_name :
    load_aiger_from_file (Sample.gated.ascii {} ++ Sample.constraintName.text) = .error .assertion ∧
      ¬ LoadsAlike (Sample.gated.ascii {}) Sample.constraintName.text := by
  have hload : load_aiger_from_file (Sample.gated.ascii {} ++ Sample.constraintName.text) =
      .error .assertion := by
    decide +kernel
  refine ⟨hload, ?_⟩
  rintro ⟨D, -, h⟩
  rw [hload] at h
  cases h

end ModelChecker
