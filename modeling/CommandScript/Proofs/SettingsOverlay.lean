import CommandScript.Config.Source
/-!
# Which settings take effect

A document gives a setting by a key in the table of its group (`Config.Given`); on its own it makes
the settings that it gives, with defaults for the rest (`Gives.parse?_eq`). Where two documents are
in force, one might expect each setting to be the project's where the project gives it
(`IsLayered`). The format always is. But what the user has turned on stays on, and a path of the
project counts only where the project turns the record on itself, so the settings are layered
exactly if the project takes nothing back and leaves no path unused
(`load_isLayered_iff_yieldsTo`).
-/

set_option autoImplicit false
set_option relaxedAutoImplicit false

namespace CommandScript

open Toml (Entries Value)

/-! ### What a document gives -/

/-- The value of a key in a group of settings, if the group is a table that has it. -/
def Toml.Value.underKey? (group : Option Value) (key : String) : Option Value :=
  match group with
  | some (.table _ entries) => entries.lookup key
  | _ => none

/-- Whether a group of settings is a table where it is there at all. -/
def Toml.Value.IsTabular (group : Option Value) : Prop :=
  ∀ value ∈ group, ∃ origin entries, value = table origin entries

namespace Config

/-- The settings that a document gives. -/
structure Given where
  allowSingleChar : Option Bool := none
  format : Option Format := none
  enabled : Option Bool := none
  path : Option String := none
  deriving DecidableEq, Repr

namespace Given

def ofEntries (entries : Entries) : Given where
  allowSingleChar :=
    (Value.underKey? (entries.lookup "names") "allow_single_char").bind Value.asBool?
  format := (Value.underKey? (entries.lookup "output") "format").bind Format.ofToml?
  enabled := (Value.underKey? (entries.lookup "audit") "enabled").bind Value.asBool?
  path := (Value.underKey? (entries.lookup "audit") "path").bind Value.asString?

/-- The settings of a document that stands alone. -/
def config (given : Given) : Config where
  names := { allowSingleChar := given.allowSingleChar.getD false }
  format := given.format
  audit := { enabled := given.enabled.getD false, path := given.path }

end Given

/-- A document of tables that can be used and gives these settings. -/
structure Gives (document : String) (given : Given) : Prop where
  accepted : (parse? document).isSome = true
  tabular : ∃ entries, Toml.parse? document = some entries ∧
    (∀ group ∈ ["names", "output", "audit"], Value.IsTabular (entries.lookup group)) ∧
      given = Given.ofEntries entries

end Config

/-! ### Reading what is given -/

section Decoding

variable {α : Type} {group : Option Value}

theorem eq_getD_of_optional? {default result : α} {decode : Value → Option α}
    {value : Option Value} (h : Value.optional? default decode value = some result) :
    result = (value.bind decode).getD default := by
  cases value with
  | none => exact (Option.some.inj h).symm
  | some value =>
    rw [Value.optional?] at h
    rw [Option.bind_some, h, Option.getD_some]

/-- A setting without a default of its own is what the document gives. -/
theorem eq_bind_of_optional? {decode : Value → Option α} {value : Option Value}
    {result : Option α}
    (h : Value.optional? none (fun value ↦ some <$> decode value) value = some result) :
    result = value.bind decode := by
  cases value with
  | none => exact (Option.some.inj h).symm
  | some value =>
    obtain ⟨read, hread, rfl⟩ := Option.map_eq_some_iff.mp h
    rw [Option.bind_some, hread]

theorem eq_map_lookup_of_fields? {names : List String} {origin : Toml.Origin} {entries : Entries}
    {fields : List (Option Value)}
    (h : (Value.table origin entries).fields? names = some fields) :
    fields = names.map fun name ↦ entries.lookup name := by
  rw [Value.fields?] at h
  split at h
  · exact (Option.some.inj h).symm
  · cases h

theorem NamePolicy.eq_of_optional? (hgroup : Value.IsTabular group) {policy : NamePolicy}
    (h : Value.optional? {} ofToml? group = some policy) :
    policy = { allowSingleChar :=
      ((Value.underKey? group "allow_single_char").bind Value.asBool?).getD false } := by
  cases group with
  | none => exact (Option.some.inj h).symm
  | some value =>
    obtain ⟨origin, entries, rfl⟩ := hgroup value rfl
    obtain ⟨fields, hfields, hread⟩ := Option.bind_eq_some_iff.mp h
    obtain rfl := eq_map_lookup_of_fields? hfields
    obtain ⟨allowed, hallowed, hpolicy⟩ := Option.bind_eq_some_iff.mp hread
    obtain rfl := Option.some.inj hpolicy
    rw [eq_getD_of_optional? hallowed]
    rfl

theorem Config.format_eq_of_optional? (hgroup : Value.IsTabular group) {format : Option Format}
    (h : Value.optional? none formatOfToml? group = some format) :
    format = (Value.underKey? group "format").bind Format.ofToml? := by
  cases group with
  | none => exact (Option.some.inj h).symm
  | some value =>
    obtain ⟨origin, entries, rfl⟩ := hgroup value rfl
    obtain ⟨fields, hfields, hread⟩ := Option.bind_eq_some_iff.mp h
    obtain rfl := eq_map_lookup_of_fields? hfields
    exact eq_bind_of_optional? hread

theorem AuditSettings.eq_of_optional? (hgroup : Value.IsTabular group) {settings : AuditSettings}
    (h : Value.optional? {} ofToml? group = some settings) :
    settings =
      { enabled := ((Value.underKey? group "enabled").bind Value.asBool?).getD false
        path := (Value.underKey? group "path").bind Value.asString? } := by
  cases group with
  | none => exact (Option.some.inj h).symm
  | some value =>
    obtain ⟨origin, entries, rfl⟩ := hgroup value rfl
    obtain ⟨fields, hfields, hread⟩ := Option.bind_eq_some_iff.mp h
    obtain rfl := eq_map_lookup_of_fields? hfields
    obtain ⟨enabled, henabled, hrest⟩ := Option.bind_eq_some_iff.mp hread
    obtain ⟨path, hpath, hsettings⟩ := Option.bind_eq_some_iff.mp hrest
    obtain rfl := Option.some.inj hsettings
    rw [eq_getD_of_optional? henabled, eq_bind_of_optional? hpath]
    rfl

end Decoding

namespace Config

/-- The settings of a document are those that it gives, and the defaults for the rest. -/
theorem Gives.parse?_eq {document : String} {given : Given} (h : Gives document given) :
    parse? document = some given.config := by
  obtain ⟨config, hconfig⟩ := Option.isSome_iff_exists.mp h.accepted
  obtain ⟨entries, hentries, htabular, rfl⟩ := h.tabular
  have hread : ofToml? (.table .header entries) = some config := by
    rw [parse?, hentries] at hconfig
    exact hconfig
  obtain ⟨fields, hfields, hgroups⟩ := Option.bind_eq_some_iff.mp hread
  obtain rfl := eq_map_lookup_of_fields? hfields
  obtain ⟨names, hnames, hrest⟩ := Option.bind_eq_some_iff.mp hgroups
  obtain ⟨format, hformat, hlast⟩ := Option.bind_eq_some_iff.mp hrest
  obtain ⟨audit, haudit, hsettings⟩ := Option.bind_eq_some_iff.mp hlast
  obtain rfl := Option.some.inj hsettings
  rw [hconfig, NamePolicy.eq_of_optional? (htabular "names" (by simp)) hnames,
    format_eq_of_optional? (htabular "output" (by simp)) hformat,
    AuditSettings.eq_of_optional? (htabular "audit" (by simp)) haudit]
  rfl

/-! ### Two documents -/

/-- Every setting is the project's where the project gives it, otherwise the user's where the user
gives it, and otherwise the default. -/
structure IsLayered (user project : Given) (config : Config) : Prop where
  allowSingleChar : config.names.allowSingleChar =
    (project.allowSingleChar <|> user.allowSingleChar).getD false
  format : config.format = (project.format <|> user.format)
  enabled : config.audit.enabled = (project.enabled <|> user.enabled).getD false
  path : config.audit.path = (project.path <|> user.path)

/-- The project takes back nothing that the user has turned on, and a path that it gives is the
user's too or comes with the record turned on. -/
structure Given.YieldsTo (project user : Given) : Prop where
  allowSingleChar : project.allowSingleChar = some false → user.allowSingleChar ≠ some true
  enabled : project.enabled = some false → user.enabled ≠ some true
  path : project.enabled ≠ some true → project.path = none ∨ project.path = user.path

section Overlay

variable {userText projectText : String} {user project : Given}

theorem load_of_gives (explain : ConfigFile → String) (huser : Gives userText user)
    (hproject : Gives projectText project) :
    load explain (.text userText) (.text projectText) =
      .ok (user.config.overlay project.config) := by
  rw [load, ofFile, huser.parse?_eq, ofFile, hproject.parse?_eq]
  rfl

/-- A setting that can only be turned on is layered unless it is to be turned off. -/
theorem getD_or_eq_iff (user project : Option Bool) :
    (user.getD false || project.getD false) = (project <|> user).getD false ↔
      (project = some false → user ≠ some true) := by
  rcases user with _ | _ | _ <;> rcases project with _ | _ | _ <;> decide

theorem path_overlay (user project : Given) :
    (user.config.overlay project.config).audit.path =
      if project.enabled = some true then project.path <|> user.path else user.path := by
  obtain ⟨_, _, enabled, path⟩ := project
  rcases enabled with _ | _ | _ <;> rfl

theorem enabled_overlay (user project : Given) :
    (user.config.overlay project.config).audit.enabled =
      (user.enabled.getD false || project.enabled.getD false) := by
  obtain ⟨_, _, enabled, path⟩ := project
  rcases enabled with _ | _ | _
  · exact (Bool.or_false _).symm
  · exact (Bool.or_false _).symm
  · exact (Bool.or_true _).symm

theorem isLayered_overlay_iff (user project : Given) :
    IsLayered user project (user.config.overlay project.config) ↔ project.YieldsTo user := by
  have hpath : (user.config.overlay project.config).audit.path = (project.path <|> user.path) ↔
      (project.enabled ≠ some true → project.path = none ∨ project.path = user.path) := by
    rw [path_overlay]
    split
    · next henabled => simp [henabled]
    · next henabled =>
      rcases hproject : project.path with _ | path
      · simp
      · simp [henabled, eq_comm]
  constructor
  · intro h
    have henabled := h.enabled
    rw [enabled_overlay] at henabled
    exact ⟨(getD_or_eq_iff _ _).mp h.allowSingleChar, (getD_or_eq_iff _ _).mp henabled,
      hpath.mp h.path⟩
  · intro h
    refine ⟨(getD_or_eq_iff _ _).mpr h.allowSingleChar, rfl, ?_, hpath.mpr h.path⟩
    rw [enabled_overlay]
    exact (getD_or_eq_iff _ _).mpr h.enabled

/-- Two documents that can be used make settings together, and these are layered exactly if the
project yields to the user. The format always is. -/
theorem load_isLayered_iff_yieldsTo (explain : ConfigFile → String) (huser : Gives userText user)
    (hproject : Gives projectText project) :
    ∃ config, load explain (.text userText) (.text projectText) = .ok config ∧
      (IsLayered user project config ↔ project.YieldsTo user) ∧
        config.format = (project.format <|> user.format) :=
  ⟨_, load_of_gives explain huser hproject, isLayered_overlay_iff user project, rfl⟩

end Overlay

/-! ### A project that takes something back -/

/-- A document of a user who turns single characters and the record on. -/
def turningOn : String :=
  "[names]\nallow_single_char = true\n[audit]\nenabled = true\npath = \"user.log\"\n"

/-- A document of a project that turns both off, with a path of its own for the record. -/
def turningOff : String :=
  "[names]\nallow_single_char = false\n[audit]\nenabled = false\npath = \"project.log\"\n"

theorem gives_turningOn : Gives turningOn
    { allowSingleChar := some true, enabled := some true, path := some "user.log" } where
  accepted := by decide
  tabular := by
    refine ⟨[("names", .table .header [("allow_single_char", .boolean true)]),
      ("audit", .table .header [("enabled", .boolean true), ("path", .string "user.log")])],
      rfl, ?_, rfl⟩
    simp [Value.IsTabular, List.lookup_cons]

theorem gives_turningOff : Gives turningOff
    { allowSingleChar := some false, enabled := some false, path := some "project.log" } where
  accepted := by decide
  tabular := by
    refine ⟨[("names", .table .header [("allow_single_char", .boolean false)]),
      ("audit", .table .header [("enabled", .boolean false), ("path", .string "project.log")])],
      rfl, ?_, rfl⟩
    simp [Value.IsTabular, List.lookup_cons]

/-- A project that repeats what the user says is layered over it. -/
theorem load_isLayered_turningOn :
    ∃ config, load (fun _ ↦ "no settings") (.text turningOn) (.text turningOn) = .ok config ∧
      IsLayered { allowSingleChar := some true, enabled := some true, path := some "user.log" }
        { allowSingleChar := some true, enabled := some true, path := some "user.log" } config := by
  obtain ⟨config, hload, hlayered, -⟩ :=
    load_isLayered_iff_yieldsTo (fun _ ↦ "no settings") gives_turningOn gives_turningOn
  exact ⟨config, hload, hlayered.mpr ⟨by decide, by decide, by decide⟩⟩

/-- Nothing that the project turns off is off, and its path is not used. -/
theorem load_not_isLayered_turningOff :
    ∃ config, load (fun _ ↦ "no settings") (.text turningOn) (.text turningOff) = .ok config ∧
      config.names.allowSingleChar = true ∧ config.audit.enabled = true ∧
        config.audit.path = some "user.log" ∧
          ¬ IsLayered
            { allowSingleChar := some true, enabled := some true, path := some "user.log" }
            { allowSingleChar := some false, enabled := some false, path := some "project.log" }
            config := by
  refine ⟨_, load_of_gives _ gives_turningOn gives_turningOff, rfl, rfl, rfl, fun h ↦ ?_⟩
  have hoff := h.allowSingleChar
  exact absurd hoff (by decide)

end Config

end CommandScript
