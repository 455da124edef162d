/-
Formshift/Startup.lean

The configuration a server starts with (`cli.py`, `config.py`).

`buildConfig` picks the token from the flag, the environment or the generator
and has `validate` keep a server without an explicit token off every interface
but the loopback ones.  Which token is in force is a test of truth; whether it
is explicit is a test for `None` on the same value before the last fallback.
The two differ on one value, the empty string from the environment: there the
server counts a generated token as the operator's, and everywhere else
`KeepsGuard` holds (`keepsGuard_iff`).
-/
import Formshift.Guard
import Formshift.Lib.Except

namespace Formshift

open Py

/-! ### The configuration -/

/-- `ServerConfig` with the fields the guard does not read. -/
structure StartupConfig extends ServerConfig where
  host : String
  port : Int
  /-- The token came from a flag or the environment. -/
  tokenExplicit : Bool
  corsOrigins : List String
  /-- Threads per job; `none` is the CPU count. -/
  workers : Option Int
  extensionsDir : Option String

def loopbackHosts : List String := ["127.0.0.1", "localhost", "::1"]

structure ValueError where
  message : String
  deriving DecidableEq

/-- `validate`. -/
def StartupConfig.validate (repr : String → String) (config : StartupConfig) :
    Except ValueError Unit :=
  if config.host ∉ loopbackHosts ∧ config.tokenExplicit = false then
    .error ⟨"refusing to bind non-loopback interface " ++ repr config.host ++
      " without an explicitly configured token (--token or FORMSHIFT_TOKEN)"⟩
  else .ok ()

/-- The parsed command line, with the defaults of its options. -/
structure Arguments where
  host : String := "127.0.0.1"
  port : Int := 7457
  token : Option String := none
  corsOrigin : List String := []
  workers : Option Int := none
  extensionsDir : Option String := none

/-- `bool(value)` of a string or `None`. -/
def truthy : Option String → Bool
  | some s => s ≠ ""
  | none => false

/-- `a or b`. -/
def pyOr (a b : Option String) : Option String := if truthy a then a else b

/-- `generate_token`: 32 random bytes spelled in base64, never nothing. -/
abbrev GeneratedToken := { token : String // token ≠ "" }

section Build

variable (repr : String → String) (args : Arguments) (env : Option String)
  (generated : GeneratedToken)

/-- The configuration before it is validated. -/
def assembled : StartupConfig :=
  let token := pyOr args.token env
  { token := (pyOr token (some generated.1)).getD ""
    allowedHosts := defaultAllowedHosts
    host := args.host
    port := args.port
    tokenExplicit := token.isSome
    corsOrigins := args.corsOrigin
    workers := args.workers
    extensionsDir := args.extensionsDir }

/-- `_build_config`; `env` is `FORMSHIFT_TOKEN`, if it is set. -/
def buildConfig : Except ValueError StartupConfig := do
  let config := assembled args env generated
  config.validate repr
  return config

/-! ### What the guard is to keep -/

/-- The flag, or failing that the environment variable, if it says something. -/
def operatorToken (flag env : Option String) : Option String :=
  flag.filter (· ≠ "") <|> env.filter (· ≠ "")

/-- An interface beyond loopback is bound under the operator's token only, and
the configuration knows whose its token is. -/
structure KeepsGuard : Prop where
  refused : (∃ e, buildConfig repr args env generated = .error e) ↔
    args.host ∉ loopbackHosts ∧ operatorToken args.token env = none
  token_ne : ∀ config, buildConfig repr args env generated = .ok config → config.token ≠ ""
  explicit : ∀ config, buildConfig repr args env generated = .ok config →
    (config.tokenExplicit = true ↔ ∃ token, operatorToken args.token env = some token)
  in_force : ∀ config, buildConfig repr args env generated = .ok config →
    ∀ token, operatorToken args.token env = some token → config.token = token

end Build

section Facts

variable {repr : String → String} {args : Arguments} {env : Option String}
  {generated : GeneratedToken}

theorem validate_error_iff {config : StartupConfig} :
    (∃ e, config.validate repr = .error e) ↔
      config.host ∉ loopbackHosts ∧ config.tokenExplicit = false := by
  unfold StartupConfig.validate
  split_ifs with h
  · exact iff_of_true ⟨_, rfl⟩ h
  · exact iff_of_false (by simp) h

theorem buildConfig_error_iff : (∃ e, buildConfig repr args env generated = .error e) ↔
    args.host ∉ loopbackHosts ∧ pyOr args.token env = none := by
  have hvalidate := @validate_error_iff repr (assembled args env generated)
  rw [show (assembled args env generated).host = args.host from rfl,
    show (assembled args env generated).tokenExplicit = (pyOr args.token env).isSome from rfl,
    Option.isSome_eq_false_iff, Option.isNone_iff_eq_none] at hvalidate
  rw [← hvalidate, buildConfig]
  cases (assembled args env generated).validate repr with
  | error e => simp [bind, Except.bind]
  | ok u => simp [bind, Except.bind, pure, Except.pure]

theorem eq_assembled {config : StartupConfig}
    (h : buildConfig repr args env generated = .ok config) :
    config = assembled args env generated := by
  obtain ⟨u, -, h⟩ := bind_ok_iff.mp h
  exact (Except.ok.inj h).symm

theorem pyOr_of_truthy {a b : Option String} (h : truthy a = true) : pyOr a b = a := by
  rw [pyOr, if_pos h]

theorem pyOr_of_falsy {a b : Option String} (h : truthy a = false) : pyOr a b = b := by
  rw [pyOr, h, if_neg Bool.false_ne_true]

theorem truthy_iff {a : Option String} : truthy a = true ↔ ∃ s, a = some s ∧ s ≠ "" := by
  cases a <;> simp [truthy]

theorem operatorToken_of_truthy {flag env : Option String} (h : truthy flag = true) :
    operatorToken flag env = flag := by
  obtain ⟨s, rfl, hs⟩ := truthy_iff.mp h
  simp [operatorToken, Option.filter, hs]

theorem operatorToken_of_falsy {flag env : Option String} (h : truthy flag = false) :
    operatorToken flag env = env.filter (· ≠ "") := by
  cases flag with
  | none => rfl
  | some s =>
      have hs : s = "" := by simpa [truthy] using h
      subst hs
      rfl

/-- Whatever is chosen, the token says something. -/
theorem assembled_token_ne : (assembled args env generated).token ≠ "" := by
  show (pyOr (pyOr args.token env) (some generated.1)).getD "" ≠ ""
  cases htruthy : truthy (pyOr args.token env) with
  | true =>
      obtain ⟨token, htoken, hne⟩ := truthy_iff.mp htruthy
      rw [pyOr_of_truthy htruthy, htoken]
      exact hne
  | false =>
      rw [pyOr_of_falsy htruthy]
      exact generated.2

/-- A token the operator has chosen is what the flag and the environment give. -/
theorem pyOr_of_chosen {token : String} (h : operatorToken args.token env = some token) :
    pyOr args.token env = some token ∧ token ≠ "" := by
  cases hflag : truthy args.token with
  | true =>
      rw [operatorToken_of_truthy hflag] at h
      obtain ⟨s, hs, hne⟩ := truthy_iff.mp hflag
      obtain rfl := Option.some.inj (hs.symm.trans h)
      exact ⟨(pyOr_of_truthy hflag).trans h, hne⟩
  | false =>
      rw [operatorToken_of_falsy hflag, Option.filter_eq_some_iff] at h
      exact ⟨(pyOr_of_falsy hflag).trans h.1, by simpa using h.2⟩

/-- Where the operator has chosen none, the environment is all that is left. -/
theorem pyOr_of_unchosen (h : operatorToken args.token env = none) :
    truthy args.token = false ∧ pyOr args.token env = env ∧ (env = none ∨ env = some "") := by
  cases hflag : truthy args.token with
  | true =>
      rw [operatorToken_of_truthy hflag] at h
      rw [h] at hflag
      cases hflag
  | false =>
      rw [operatorToken_of_falsy hflag, Option.filter_eq_none_iff] at h
      refine ⟨rfl, pyOr_of_falsy hflag, ?_⟩
      rcases env with _ | token
      · exact Or.inl rfl
      · exact Or.inr (congrArg some (by simpa using h token rfl))

end Facts

/-- **The guard is kept unless the environment sets an empty token** that no
flag overrides. -/
theorem keepsGuard_iff (repr : String → String) (args : Arguments) (env : Option String)
    (generated : GeneratedToken) : KeepsGuard repr args env generated ↔
      (env = some "" → ∃ flag, args.token = some flag ∧ flag ≠ "") := by
  rcases hchosen : operatorToken args.token env with _ | token
  · obtain ⟨hflag, htoken, henv⟩ := pyOr_of_unchosen hchosen
    constructor
    · -- an empty token in the environment is taken for the operator's
      rintro h rfl
      exfalso
      rcases hbuild : buildConfig repr args (some "") generated with e | config
      · rw [(buildConfig_error_iff.mp ⟨e, hbuild⟩).2] at htoken
        cases htoken
      · have hexplicit : config.tokenExplicit = true := by
          rw [eq_assembled hbuild]
          show (pyOr args.token (some "")).isSome = true
          rw [htoken]
          rfl
        obtain ⟨token, htoken⟩ := (h.explicit config hbuild).mp hexplicit
        rw [hchosen] at htoken
        cases htoken
    · intro h
      -- an empty variable is excluded, so there is none
      have hnone : env = none := by
        refine henv.resolve_right fun hempty => ?_
        rw [truthy_iff.mpr (h hempty)] at hflag
        cases hflag
      refine ⟨?_, fun config hbuild => ?_, fun config hbuild => ?_, fun config _ token hsome => ?_⟩
      · rw [buildConfig_error_iff, htoken, hchosen, hnone]
      · rw [eq_assembled hbuild]
        exact assembled_token_ne
      · rw [eq_assembled hbuild, hchosen]
        show (pyOr args.token env).isSome = true ↔ _
        rw [htoken, hnone]
        simp
      · rw [hchosen] at hsome
        cases hsome
  · obtain ⟨htoken, hne⟩ := pyOr_of_chosen hchosen
    have htruthy : truthy (pyOr args.token env) = true := truthy_iff.mpr ⟨token, htoken, hne⟩
    refine iff_of_true ⟨?_, fun config hbuild => ?_, fun config hbuild => ?_,
      fun config hbuild token' hsome => ?_⟩ fun henv => ?_
    · rw [buildConfig_error_iff, htoken, hchosen]
    · rw [eq_assembled hbuild]
      exact assembled_token_ne
    · rw [eq_assembled hbuild, hchosen]
      show (pyOr args.token env).isSome = true ↔ _
      rw [htoken]
      simp
    · obtain rfl := Option.some.inj (hchosen.symm.trans hsome)
      rw [eq_assembled hbuild]
      show (pyOr (pyOr args.token env) (some generated.1)).getD "" = token
      rw [pyOr_of_truthy htruthy, htoken]
      rfl
    · -- the token that says something came from the flag
      cases hflag : truthy args.token with
      | true => exact truthy_iff.mp hflag
      | false =>
          rw [operatorToken_of_falsy hflag, henv] at hchosen
          cases hchosen

/-- Every interface is bound under a token nobody chose. -/
theorem keepsGuard_fails : ¬ ∀ (repr : String → String) (args : Arguments) (env : Option String)
    (generated : GeneratedToken), KeepsGuard repr args env generated := by
  intro h
  have hexposed := (h id { host := "0.0.0.0" } (some "") ⟨"drawn", by decide⟩).refused.mpr
    ⟨by decide, rfl⟩
  obtain ⟨e, he⟩ := hexposed
  cases he

end Formshift
