import Mathlib.Data.List.Perm.Basic
import ExprFront.Cli.Args
/-!
# Reading the command line

The arguments are read in order, and the reading stops at the first argument that is an
unknown option or a second file. Whether it stops, and what it gives when it does not, depend
on the arguments only as a whole: a command line is accepted exactly when every argument
starting with `-` is one of the three flags and at most one argument does not start with `-`,
and then the file is that argument, and each flag is on exactly when it occurs
(`parseArgs_eq_ok_iff_accepted`). Hence reordering the arguments, or repeating a flag, changes
neither.

The reading in order carries what it has read so far; `Args.absorb` says what it ends with
from any such start, and the whole reading starts from `Args.empty`.

Main statement (`parseArgs_ok_iff`).
-/

namespace ExprFront

namespace Args

/-- An argument that starts with `-`: a flag or an unknown option. -/
def IsOption (arg : Text) : Prop := arg.units.head? = some 0x2D

instance : DecidablePred IsOption := fun arg =>
  inferInstanceAs (Decidable (arg.units.head? = some 0x2D))

/-- The three flags. -/
def flagTexts : List Text :=
  [Text.ofString "--tokens", Text.ofString "--json", Text.ofString "--verbose"]

/-- The arguments that do not start with `-`: the files named. -/
def files (argv : List Text) : List Text := argv.filter fun arg => !decide (IsOption arg)

/-- A command line is accepted when its only options are flags and it names at most one file. -/
def Accepted (argv : List Text) : Prop :=
  (∀ arg ∈ argv, IsOption arg → arg ∈ flagTexts) ∧ (files argv).length ≤ 1

/-- What reading `argv` ends with, from what was read before it: the file read before or else
the first file of `argv`, and each flag on if it was on before or occurs in `argv`. -/
def absorb (acc : Args) (argv : List Text) : Args :=
  ⟨acc.file.or (files argv).head?, acc.verbose || decide (Text.ofString "--verbose" ∈ argv),
    ⟨acc.flags.tokens || decide (Text.ofString "--tokens" ∈ argv),
      acc.flags.json || decide (Text.ofString "--json" ∈ argv)⟩⟩

/-- Read from nothing, a command line means its first file and the flags that occur in it. -/
theorem absorb_empty (argv : List Text) :
    absorb empty argv =
      ⟨(files argv).head?, decide (Text.ofString "--verbose" ∈ argv),
        ⟨decide (Text.ofString "--tokens" ∈ argv), decide (Text.ofString "--json" ∈ argv)⟩⟩ := by
  simp [absorb, empty]

theorem isOption_tokens : IsOption (Text.ofString "--tokens") := rfl

theorem isOption_json : IsOption (Text.ofString "--json") := rfl

theorem isOption_verbose : IsOption (Text.ofString "--verbose") := rfl

theorem isOption_of_mem_flagTexts {arg : Text} (h : arg ∈ flagTexts) : IsOption arg := by
  simp only [flagTexts, List.mem_cons, List.not_mem_nil, or_false] at h
  rcases h with rfl | rfl | rfl
  exacts [isOption_tokens, isOption_json, isOption_verbose]

theorem files_cons_option {arg : Text} (h : IsOption arg) (rest : List Text) :
    files (arg :: rest) = files rest := by
  simp [files, h]

theorem files_cons_file {arg : Text} (h : ¬ IsOption arg) (rest : List Text) :
    files (arg :: rest) = arg :: files rest := by
  simp [files, h]

theorem accepted_cons_flag {arg : Text} (h : arg ∈ flagTexts) (rest : List Text) :
    Accepted (arg :: rest) ↔ Accepted rest := by
  simp [Accepted, files_cons_option (isOption_of_mem_flagTexts h), h]

/-- A file is no option. -/
theorem ne_of_not_isOption {arg f : Text} (h : ¬ IsOption arg) (hf : IsOption f) : f ≠ arg :=
  fun he => h (he ▸ hf)

theorem tokens_ne_json : Text.ofString "--tokens" ≠ Text.ofString "--json" := by decide

theorem tokens_ne_verbose : Text.ofString "--tokens" ≠ Text.ofString "--verbose" := by decide

theorem json_ne_verbose : Text.ofString "--json" ≠ Text.ofString "--verbose" := by decide

/-! ## One argument read -/

variable (acc : Args) (rest : List Text)

theorem absorb_cons_tokens :
    absorb acc (Text.ofString "--tokens" :: rest) =
      absorb { acc with flags := { acc.flags with tokens := true } } rest := by
  simp [absorb, files_cons_option isOption_tokens, tokens_ne_json.symm, tokens_ne_verbose.symm]

theorem absorb_cons_json :
    absorb acc (Text.ofString "--json" :: rest) =
      absorb { acc with flags := { acc.flags with json := true } } rest := by
  simp [absorb, files_cons_option isOption_json, tokens_ne_json, json_ne_verbose.symm]

theorem absorb_cons_verbose :
    absorb acc (Text.ofString "--verbose" :: rest) = absorb { acc with verbose := true } rest := by
  simp [absorb, files_cons_option isOption_verbose, tokens_ne_verbose, json_ne_verbose]

/-- A file read first is the file; the flags do not see it. -/
theorem absorb_cons_file {arg : Text} (h : ¬ IsOption arg) (hfile : acc.file = none) :
    absorb acc (arg :: rest) = absorb { acc with file := some arg } rest := by
  simp [absorb, files_cons_file h, hfile, ne_of_not_isOption h isOption_tokens,
    ne_of_not_isOption h isOption_json, ne_of_not_isOption h isOption_verbose]

end Args

open Args

/-- Reading from what was read before accepts exactly the command lines that are accepted and
name no second file, and ends with what `absorb` says. -/
theorem parseArgsFrom_eq_ok_iff (acc : Args) (argv : List Text) (a : Args) :
    parseArgsFrom acc argv = .ok a ↔
      Accepted argv ∧ (acc.file = none ∨ files argv = []) ∧ a = acc.absorb argv := by
  induction argv generalizing acc with
  | nil =>
    obtain ⟨file, verbose, tokens, json⟩ := acc
    simp [parseArgsFrom, Accepted, files, absorb, eq_comm]
  | cons arg rest ih =>
    rw [parseArgsFrom]
    by_cases ht : arg = Text.ofString "--tokens"
    · subst ht
      rw [if_pos rfl, ih, accepted_cons_flag (by simp [flagTexts]),
        files_cons_option isOption_tokens, absorb_cons_tokens]
    by_cases hj : arg = Text.ofString "--json"
    · subst hj
      rw [if_neg tokens_ne_json.symm, if_pos rfl, ih, accepted_cons_flag (by simp [flagTexts]),
        files_cons_option isOption_json, absorb_cons_json]
    by_cases hv : arg = Text.ofString "--verbose"
    · subst hv
      rw [if_neg tokens_ne_verbose.symm, if_neg json_ne_verbose.symm, if_pos rfl, ih,
        accepted_cons_flag (by simp [flagTexts]), files_cons_option isOption_verbose,
        absorb_cons_verbose]
    rw [if_neg ht, if_neg hj, if_neg hv]
    by_cases ho : arg.units.head? = some 0x2D
    · -- an option that is no flag stops the reading, and the command line is not accepted
      rw [if_pos ho]
      simp only [reduceCtorEq, false_iff, not_and]
      intro ⟨hopt, _⟩
      have := hopt arg List.mem_cons_self ho
      simp [flagTexts, ht, hj, hv] at this
    rw [if_neg ho]
    cases hfile : acc.file with
    | some f => simp [files_cons_file ho]
    | none =>
      -- the first file read: the rest may name no other
      have hfileArg : ¬ IsOption arg := ho
      rw [if_neg (by simp), ih, absorb_cons_file acc rest ho hfile]
      simp only [Accepted, files_cons_file ho, List.length_cons, List.forall_mem_cons, hfileArg,
        false_implies, true_and, reduceCtorEq, or_false, Option.some_ne_none, false_or]
      constructor
      · rintro ⟨⟨hopt, -⟩, hnil, rfl⟩
        exact ⟨⟨hopt, by simp [hnil]⟩, rfl⟩
      · rintro ⟨⟨hopt, hlen⟩, rfl⟩
        have hnil : files rest = [] := List.eq_nil_of_length_eq_zero (by omega)
        exact ⟨⟨hopt, by simp [hnil]⟩, hnil, rfl⟩

/-- A whole command line is read exactly when it is accepted, and then means its file and the
flags that occur in it. -/
theorem parseArgs_eq_ok_iff_accepted (argv : List Text) (a : Args) :
    parseArgs argv = .ok a ↔
      Accepted argv ∧ a = ⟨(files argv).head?, decide (Text.ofString "--verbose" ∈ argv),
        ⟨decide (Text.ofString "--tokens" ∈ argv), decide (Text.ofString "--json" ∈ argv)⟩⟩ := by
  rw [parseArgs, parseArgsFrom_eq_ok_iff, absorb_empty]
  simp [empty]

/-! ## Order and repetition do not matter -/

namespace Args

variable {argv argv' : List Text}

theorem accepted_perm (h : argv.Perm argv') : Accepted argv ↔ Accepted argv' := by
  simp only [Accepted, h.mem_iff, files, (h.filter _).length_eq]

/-- A command line naming at most one file names the same one in any order. -/
theorem files_perm (h : argv.Perm argv') (hlen : (files argv).length ≤ 1) :
    files argv' = files argv := by
  have hfiles : (files argv).Perm (files argv') := h.filter _
  match hf : files argv, hfiles with
  | [], hp => exact hp.nil_eq.symm
  | [x], hp => exact List.perm_singleton.1 hp.symm
  | _ :: _ :: _, _ => simp [hf] at hlen

end Args

theorem parseArgs_perm {argv argv' : List Text} (h : argv.Perm argv') (a : Args) :
    parseArgs argv' = .ok a ↔ parseArgs argv = .ok a := by
  rw [parseArgs_eq_ok_iff_accepted, parseArgs_eq_ok_iff_accepted, ← accepted_perm h]
  refine and_congr_right fun hacc => ?_
  rw [files_perm h hacc.2]
  simp only [h.mem_iff]

/-- A flag that occurs already may occur once more. -/
theorem parseArgs_cons_flag {argv : List Text} {f : Text} (hf : f ∈ flagTexts) (hmem : f ∈ argv)
    (a : Args) : parseArgs (f :: argv) = .ok a ↔ parseArgs argv = .ok a := by
  rw [parseArgs_eq_ok_iff_accepted, parseArgs_eq_ok_iff_accepted, accepted_cons_flag hf,
    files_cons_option (isOption_of_mem_flagTexts hf)]
  -- the flag is already among the rest, so the rest has the same members
  have hcons : ∀ g, g ∈ f :: argv ↔ g ∈ argv := fun g => by
    rw [List.mem_cons]
    exact or_iff_right_of_imp fun hg => hg ▸ hmem
  simp only [hcons]

/-- A command line is read exactly when every argument starting with `-` is one of the three
flags and at most one argument does not start with `-`. It then names that argument as its
file, if there is one, and each flag is on exactly when it occurs. Hence reordering the
arguments, or repeating one of its flags anywhere, changes neither whether it is read nor what
it means. -/
theorem parseArgs_ok_iff (argv : List Text) (a : Args) :
    (parseArgs argv = .ok a ↔
      ((∀ arg ∈ argv, arg.units.head? = some 0x2D → arg ∈ flagTexts) ∧ (files argv).length ≤ 1) ∧
        a = ⟨(files argv).head?, decide (Text.ofString "--verbose" ∈ argv),
          ⟨decide (Text.ofString "--tokens" ∈ argv), decide (Text.ofString "--json" ∈ argv)⟩⟩) ∧
      (∀ argv', argv.Perm argv' → (parseArgs argv' = .ok a ↔ parseArgs argv = .ok a)) ∧
      (∀ f ∈ argv, f ∈ flagTexts → ∀ l₁ l₂, argv = l₁ ++ l₂ →
        (parseArgs (l₁ ++ f :: l₂) = .ok a ↔ parseArgs argv = .ok a)) := by
  refine ⟨parseArgs_eq_ok_iff_accepted argv a, fun argv' h => parseArgs_perm h a, ?_⟩
  rintro f hmem hf l₁ l₂ rfl
  -- the repeated flag may as well stand first
  rw [parseArgs_perm List.perm_middle.symm a]
  exact parseArgs_cons_flag hf hmem a

example : parseArgs [Text.ofString "--json", Text.ofString "in.txt", Text.ofString "--json"] =
    .ok ⟨some (Text.ofString "in.txt"), false, ⟨false, true⟩⟩ := rfl

end ExprFront
