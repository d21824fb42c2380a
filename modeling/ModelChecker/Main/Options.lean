import ModelChecker.Aig.Lemmas.Scan

/-!
# The command line

The loop of `main` over its arguments. The last argument is the file; it ends the loop, but an option in
front of it takes it as its value. Warnings go to `cerr`.
-/

namespace ModelChecker

/-- `INT_MAX` -/
def intMax : Int := 2 ^ 31 - 1

/-! ## Numbers -/

def isNumber (str : String) : Bool := !str.toList.isEmpty && str.toList.all Char.isDigit

/-- `atoi` of a string of digits: `strtol`, which stops at the largest `long`, as an `int`. -/
def atoi (value : String) : Int := wrap (min (Nat.ofDigitChars 10 value.toList 0) (2 ^ 63 - 1) : Nat)

/-- The value, and what goes to `cerr`. -/
def validateInput (arg value : String) (min max defaultValue : Int) : Int × List String :=
  if isNumber value = false then
    (defaultValue, ["Warning: " ++ arg ++ " value must be a number. Setting to " ++ toString defaultValue ++ "."])
  else
    let num := atoi value
    if num < min ∨ max < num then
      (defaultValue, ["Warning: " ++ arg ++ " value must be between " ++ toString min ++ " and " ++
        toString max ++ ". Setting to " ++ toString defaultValue ++ "."])
    else (num, [])

/-! ## Options -/

/-- The variables that the loop sets, and the warnings so far. -/
structure Options where
  property_index : Int := 0
  pr : Bool := false
  uc : Bool := false
  witness : Bool := false
  certificate : Bool := false
  find_bug_only : Bool := false
  log : Bool := false
  nframes : Int := intMax - 1
  bmc_thread : Int := 0
  pdr_thread : Int := 0
  warnings : List String := []
deriving DecidableEq, Repr

namespace Options

variable (o : Options)

/-- `isdigit(argv[i + 1][0])`; the first byte of an empty argument is the closing zero. -/
def startsWithDigit (arg : String) : Bool := (arg.toList.head?.map Char.isDigit).getD false

def setFrames (arg value : String) : Options :=
  let r := validateInput arg value 0 (intMax - 1) (intMax - 1)
  { o with nframes := r.1, warnings := o.warnings ++ r.2 }

/-- The options with a value. -/
def setValue (arg value : String) : Options :=
  if arg = "-bmc" then
    let r := validateInput arg value 0 12 0
    { o with bmc_thread := r.1, warnings := o.warnings ++ r.2 }
  else if arg = "-pdr" then
    let r := validateInput arg value 0 4 0
    { o with pdr_thread := r.1, warnings := o.warnings ++ r.2 }
  else
    let r := validateInput arg value 0 intMax 0
    { o with property_index := r.1, warnings := o.warnings ++ r.2 }

end Options

/-- One round of the loop, and whether it takes the next argument as a value. In front of the file there
always is a next argument, so the branch for a missing value is never taken. -/
def readOption (arg next : String) (o : Options) : Options × Bool :=
  if arg = "-pr" then ({ o with pr := true }, false)
  else if arg = "-uc" then ({ o with uc := true }, false)
  else if arg = "-witness" then ({ o with witness := true }, false)
  else if arg = "-certificate" then ({ o with certificate := true }, false)
  else if arg = "-v" then ({ o with log := true }, false)
  else if arg = "-findbug" then
    if Options.startsWithDigit next then
      (Options.setFrames { o with find_bug_only := true } arg next, true)
    else ({ o with find_bug_only := true }, false)
  else if arg = "-bmc" ∨ arg = "-pdr" ∨ arg = "-pindex" then (o.setValue arg next, true)
  else (o, false)

/-- The loop, from an argument up to the file. -/
def readOptions : List String → Options → Options
  | arg :: next :: rest, o =>
    let r := readOption arg next o
    if r.2 then readOptions rest r.1 else readOptions (next :: rest) r.1
  | _, o => o

/-- The options for the arguments behind the name of the program. -/
def parseOptions (args : List String) : Options := readOptions args {}

/-- What `main` goes on with; `none` if it has printed the help text and returns. -/
def startOptions (args : List String) : Option Options := if args = ["-h"] then none else some (parseOptions args)

/-! ## Bounds -/

theorem validateInput_bounds {m n d : Int} (h1 : m ≤ d) (h2 : d ≤ n) (arg value : String) :
    m ≤ (validateInput arg value m n d).1 ∧ (validateInput arg value m n d).1 ≤ n := by
  unfold validateInput
  split
  · exact ⟨h1, h2⟩
  · simp only
    split
    · exact ⟨h1, h2⟩
    · simp only
      omega

/-- The arrays `tpdr` and `tbmc` have room for the threads, the number of frames can be counted and is the
default one unless bugs are searched, and the index of the property is not negative. -/
structure Options.Bounded (o : Options) : Prop where
  pdr : 0 ≤ o.pdr_thread ∧ o.pdr_thread ≤ 4
  bmc : 0 ≤ o.bmc_thread ∧ o.bmc_thread ≤ 12
  nframes : 0 ≤ o.nframes ∧ o.nframes ≤ intMax - 1
  property_index : 0 ≤ o.property_index ∧ o.property_index ≤ intMax
  frames : o.find_bug_only = false → o.nframes = intMax - 1

namespace Options

variable {o : Options}

theorem Bounded.setFrames (h : o.Bounded) (hf : o.find_bug_only = true) (arg value : String) :
    (o.setFrames arg value).Bounded where
  pdr := h.pdr
  bmc := h.bmc
  nframes := validateInput_bounds (by decide) le_rfl arg value
  property_index := h.property_index
  frames hff := absurd (hf.symm.trans hff) (by decide)

theorem Bounded.setValue (h : o.Bounded) (arg value : String) : (o.setValue arg value).Bounded := by
  unfold Options.setValue
  split_ifs
  · exact ⟨h.pdr, validateInput_bounds (by decide) (by decide) arg value, h.nframes, h.property_index, h.frames⟩
  · exact ⟨validateInput_bounds (by decide) (by decide) arg value, h.bmc, h.nframes, h.property_index, h.frames⟩
  · exact ⟨h.pdr, h.bmc, h.nframes, validateInput_bounds (by decide) (by decide) arg value, h.frames⟩

theorem Bounded.readOption (h : o.Bounded) (arg next : String) : (readOption arg next o).1.Bounded := by
  have hflag : ∀ o' : Options, o'.pdr_thread = o.pdr_thread → o'.bmc_thread = o.bmc_thread →
      o'.nframes = o.nframes → o'.property_index = o.property_index →
      (o'.find_bug_only = false → o.find_bug_only = false) → o'.Bounded := by
    intro o' h1 h2 h3 h4 h5
    exact ⟨h1 ▸ h.pdr, h2 ▸ h.bmc, h3 ▸ h.nframes, h4 ▸ h.property_index, fun hf => h3.trans (h.frames (h5 hf))⟩
  have hbug : ({ o with find_bug_only := true } : Options).Bounded :=
    hflag _ rfl rfl rfl rfl fun hf => by cases hf
  unfold ModelChecker.readOption
  split_ifs
  · exact hflag _ rfl rfl rfl rfl id
  · exact hflag _ rfl rfl rfl rfl id
  · exact hflag _ rfl rfl rfl rfl id
  · exact hflag _ rfl rfl rfl rfl id
  · exact hflag _ rfl rfl rfl rfl id
  · exact hbug.setFrames rfl _ _
  · exact hbug
  · exact h.setValue _ _
  · exact h

theorem Bounded.readOptions (h : o.Bounded) (args : List String) : (readOptions args o).Bounded := by
  fun_induction ModelChecker.readOptions args o with
  | case1 arg next rest o r hr ih => exact ih (h.readOption arg next)
  | case2 arg next rest o r hr ih => exact ih (h.readOption arg next)
  | case3 o args hargs => exact h

theorem bounded_parseOptions (args : List String) : (parseOptions args).Bounded :=
  Bounded.readOptions ⟨by decide, by decide, by decide, by decide, fun _ => rfl⟩ args

theorem bounded_startOptions {args : List String} (h : startOptions args = some o) : o.Bounded := by
  unfold startOptions at h
  split at h
  · cases h
  · exact Option.some.inj h ▸ bounded_parseOptions args

end Options

/-! ## Command lines that are read back -/

/-- An option with a value in its range. -/
inductive Setting where
  | pr
  | uc
  | witness
  | certificate
  | v
  | findbug
  | frames (n : Nat) (h : n < 2 ^ 31 - 1)
  | bmc (n : Nat) (h : n ≤ 12)
  | pdr (n : Nat) (h : n ≤ 4)
  | pindex (n : Nat) (h : n < 2 ^ 31)

namespace Setting

/-- How the option is written. -/
def words : Setting → List String
  | .pr => ["-pr"]
  | .uc => ["-uc"]
  | .witness => ["-witness"]
  | .certificate => ["-certificate"]
  | .v => ["-v"]
  | .findbug => ["-findbug"]
  | .frames n _ => ["-findbug", n.repr]
  | .bmc n _ => ["-bmc", n.repr]
  | .pdr n _ => ["-pdr", n.repr]
  | .pindex n _ => ["-pindex", n.repr]

/-- What it stands for. -/
def apply (o : Options) : Setting → Options
  | .pr => { o with pr := true }
  | .uc => { o with uc := true }
  | .witness => { o with witness := true }
  | .certificate => { o with certificate := true }
  | .v => { o with log := true }
  | .findbug => { o with find_bug_only := true }
  | .frames n _ => { o with find_bug_only := true, nframes := n }
  | .bmc n _ => { o with bmc_thread := n }
  | .pdr n _ => { o with pdr_thread := n }
  | .pindex n _ => { o with property_index := n }

end Setting

theorem isNumber_repr (n : Nat) : isNumber n.repr = true := by
  unfold isNumber
  rw [Nat.toList_repr]
  have hne : Nat.toDigits 10 n ≠ [] := Nat.toDigits_ne_nil
  have hall : (Nat.toDigits 10 n).all Char.isDigit = true :=
    List.all_eq_true.mpr fun c hc => Nat.isDigit_of_mem_toDigits (by decide) (by decide) hc
  rw [hall, List.isEmpty_eq_false_iff.mpr hne]
  rfl

theorem startsWithDigit_repr (n : Nat) : Options.startsWithDigit n.repr = true := by
  unfold Options.startsWithDigit
  rw [Nat.toList_repr]
  have hne : Nat.toDigits 10 n ≠ [] := Nat.toDigits_ne_nil
  rw [List.head?_eq_some_head hne]
  exact Nat.isDigit_of_mem_toDigits (by decide) (by decide) (List.head_mem hne)

theorem atoi_repr {n : Nat} (h : n < 2 ^ 31) : atoi n.repr = n := by
  unfold atoi
  rw [Nat.toList_repr, Nat.ofDigitChars_toDigits (by decide) (by decide), Nat.min_eq_left (by omega)]
  exact wrap_of_lt (by omega) (by omega)

theorem validateInput_repr {n : Nat} {m : Int} (hn : n < 2 ^ 31) (hm : (n : Int) ≤ m) (arg : String)
    (d : Int) : validateInput arg n.repr 0 m d = ((n : Int), []) := by
  unfold validateInput
  rw [isNumber_repr, if_neg (by decide), atoi_repr hn]
  exact if_neg (by omega)

namespace Setting

variable {o : Options} {next : String}

/-- A written option takes its value, and no other argument. -/
theorem readOptions_words (s : Setting) (rest : List String) (o : Options)
    (hnext : s = .findbug → Options.startsWithDigit next = false) :
    readOptions (s.words ++ next :: rest) o = readOptions (next :: rest) (s.apply o) := by
  have hone : ∀ w, readOption w next o = (s.apply o, false) → s.words = [w] →
      readOptions (s.words ++ next :: rest) o = readOptions (next :: rest) (s.apply o) := by
    intro w hr hw
    rw [hw, List.singleton_append, readOptions, hr]
    rfl
  have htwo : ∀ w x, readOption w x o = (s.apply o, true) → s.words = [w, x] →
      readOptions (s.words ++ next :: rest) o = readOptions (next :: rest) (s.apply o) := by
    intro w x hr hw
    rw [hw, List.cons_append, List.singleton_append, readOptions, hr]
    rfl
  cases s with
  | pr => exact hone _ rfl rfl
  | uc => exact hone _ rfl rfl
  | witness => exact hone _ rfl rfl
  | certificate => exact hone _ rfl rfl
  | v => exact hone _ rfl rfl
  | findbug =>
      refine hone _ ?_ rfl
      simp [readOption, hnext rfl, apply]
  | frames n h =>
      refine htwo _ _ ?_ rfl
      simp [readOption, startsWithDigit_repr, Options.setFrames,
        validateInput_repr (m := intMax - 1) (show n < 2 ^ 31 by omega) (by unfold intMax; omega), apply]
  | bmc n h =>
      refine htwo _ _ ?_ rfl
      simp [readOption, Options.setValue,
        validateInput_repr (m := 12) (show n < 2 ^ 31 by omega) (by omega), apply]
  | pdr n h =>
      refine htwo _ _ ?_ rfl
      simp [readOption, Options.setValue,
        validateInput_repr (m := 4) (show n < 2 ^ 31 by omega) (by omega), apply]
  | pindex n h =>
      refine htwo _ _ ?_ rfl
      simp [readOption, Options.setValue,
        validateInput_repr (m := intMax) h (by unfold intMax; omega), apply]

/-- The first word of an option is no number. -/
theorem words_eq (s : Setting) : ∃ w ws, s.words = w :: ws ∧ Options.startsWithDigit w = false := by
  cases s <;> exact ⟨_, _, rfl, by decide⟩

end Setting

/-- Whatever the arguments are, the numbers are in their ranges. A command line of options with values in
range is read back, the last one of a kind counting; only a `-findbug` in front of a file name that starts
with a digit is not. -/
theorem parseOptions_reads : (∀ args, (parseOptions args).Bounded) ∧
    ∀ (settings : List Setting) (file : String),
      (Options.startsWithDigit file = true → settings.getLast? ≠ some .findbug) →
      parseOptions (settings.flatMap Setting.words ++ [file]) = settings.foldl Setting.apply {} := by
  refine ⟨Options.bounded_parseOptions, fun settings file => ?_⟩
  unfold parseOptions
  generalize ({} : Options) = o
  induction settings generalizing o with
  | nil => exact fun _ => rfl
  | cons s settings ih =>
      intro hfile
      rw [List.flatMap_cons, List.append_assoc, List.foldl_cons]
      cases settings with
      | nil =>
          refine s.readOptions_words [] o fun hs => ?_
          by_contra hdigit
          exact hfile (by simpa using hdigit) (by rw [hs]; rfl)
      | cons s' settings =>
          have hih := ih (s.apply o) (by rwa [List.getLast?_cons_cons] at hfile)
          obtain ⟨w, ws, hw, hdigit⟩ := s'.words_eq
          rw [List.flatMap_cons, hw, List.cons_append, List.cons_append] at hih ⊢
          rw [← hih]
          exact s.readOptions_words _ o fun _ => hdigit

/-- The example of the help text. -/
theorem parseOptions_reads_help :
    parseOptions ([.bmc 4 (by decide), .pdr 2 (by decide), .pindex 3 (by decide), .witness].flatMap
      Setting.words ++ ["example.aig"]) =
    { bmc_thread := 4, pdr_thread := 2, property_index := 3, witness := true } :=
  parseOptions_reads.2 [.bmc 4 (by decide), .pdr 2 (by decide), .pindex 3 (by decide), .witness] "example.aig"
    fun h => absurd h (by decide)

end ModelChecker
