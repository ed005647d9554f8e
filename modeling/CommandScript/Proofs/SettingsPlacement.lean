import CommandScript.Config.Source
/-!
# Where settings stand

The settings that a run goes by are its name policy, the format and the path of the record
(`Config.effective`). Laid over themselves settings stay as they are. Laid over the defaults they
can lose a path that comes without the record turned on, but it has no effect, so a run goes by the
same. A file therefore asks for the same as the user's, as the project's and as both, and fails in
the same way (`load_wherever`). Of two files the user's comes first: if it cannot be used, the
project's does not matter.
-/

set_option autoImplicit false
set_option relaxedAutoImplicit false

namespace CommandScript

/-- What a run goes by. -/
structure EffectiveSettings where
  names : NamePolicy
  format : Format
  activePath : Option String
  deriving DecidableEq, Repr

/-- The settings as a run goes by them. -/
def Config.effective (config : Config) : EffectiveSettings where
  names := config.names
  format := config.outputFormat
  activePath := config.audit.activePath?

/-! ### Settings laid over the defaults and over themselves -/

namespace AuditSettings

theorem activePath?_default_overlay (settings : AuditSettings) :
    (overlay {} settings).activePath? = settings.activePath? := by
  unfold overlay
  split
  · next henabled => simp [activePath?, henabled]
  · next henabled => simp [activePath?, henabled]

theorem overlay_self (settings : AuditSettings) : settings.overlay settings = settings := by
  obtain ⟨enabled, path⟩ := settings
  cases enabled with
  | false => rfl
  | true => cases path <;> rfl

end AuditSettings

namespace Config

theorem effective_default_overlay (config : Config) :
    (overlay {} config).effective = config.effective := by
  unfold effective overlay outputFormat
  rw [AuditSettings.activePath?_default_overlay]
  cases config.format <;> rfl

theorem overlay_self (config : Config) : config.overlay config = config := by
  obtain ⟨names, format, audit⟩ := config
  have hformat : (format <|> format) = format := by cases format <;> rfl
  simp only [overlay, Bool.or_self, hformat, AuditSettings.overlay_self]

/-- A path without the record turned on is all that is lost where a project gives it. -/
example : overlay {} { audit := { path := some "runs.log" } } = {} := rfl

/-! ### Files in one place, in the other and in both -/

section Load

variable {explain : ConfigFile → String} {user project : ConfigFile}

/-- Without a project's file the user's settings stand alone. -/
theorem load_absent_right (explain : ConfigFile → String) (user : ConfigFile) :
    load explain user .absent = (·.getD {}) <$> ofFile explain user := by
  rw [load]
  cases ofFile explain user <;> rfl

/-- Settings cannot be used exactly if the user's file cannot, or else the project's. -/
theorem load_eq_error_iff {error : ConfigError} :
    load explain user project = .error error ↔
      ofFile explain user = .error error ∨
        (∃ settings, ofFile explain user = .ok settings) ∧
          ofFile explain project = .error error := by
  rw [load]
  cases ofFile explain user with
  | error first => simp [bind, Except.bind]
  | ok settings =>
    cases ofFile explain project with
    | error second => simp [bind, Except.bind]
    | ok overlaid => cases overlaid <;> simp [bind, Except.bind, pure, Except.pure]

theorem effective_load_absent_left (explain : ConfigFile → String) (project : ConfigFile) :
    effective <$> load explain .absent project = effective <$> load explain project .absent := by
  rw [load_absent_right, load]
  rcases ofFile explain project with error | (- | config)
  · rfl
  · rfl
  · exact congrArg Except.ok config.effective_default_overlay

theorem load_self (explain : ConfigFile → String) (file : ConfigFile) :
    load explain file file = load explain file .absent := by
  rw [load_absent_right, load]
  rcases ofFile explain file with error | (- | config)
  · rfl
  · rfl
  · exact congrArg Except.ok config.overlay_self

end Load

/-- A file asks for the same where it stands as the user's alone, as the project's alone and as
both, and if it cannot be used, the failure is the same. A user's file that cannot be used decides
the failure, whatever the project's is, and without a project's file the user's settings stand
alone. -/
theorem load_wherever (explain : ConfigFile → String) :
    (∀ file : ConfigFile,
      effective <$> load explain .absent file = effective <$> load explain file .absent ∧
        load explain file file = load explain file .absent) ∧
      (∀ (user project : ConfigFile) (error : ConfigError), ofFile explain user = .error error →
        load explain user project = .error error) ∧
      ∀ user : ConfigFile, load explain user .absent = (·.getD {}) <$> ofFile explain user :=
  ⟨fun file ↦ ⟨effective_load_absent_left explain file, load_self explain file⟩,
    fun _ _ _ huser ↦ load_eq_error_iff.mpr (.inl huser), load_absent_right explain⟩

/-- The project's file cannot even be read, but the user's is looked at first. -/
theorem load_wherever_malformedUser :
    ofFile (fun _ ↦ "no settings") (.text "=") = .error (.malformed "no settings") ∧
      load (fun _ ↦ "no settings") (.text "=") .unreadable =
        .error (.malformed "no settings") := by
  have huser : ofFile (fun _ ↦ "no settings") (.text "=") = .error (.malformed "no settings") := rfl
  exact ⟨huser, (load_wherever _).2.1 (.text "=") .unreadable (.malformed "no settings") huser⟩

end Config

end CommandScript
