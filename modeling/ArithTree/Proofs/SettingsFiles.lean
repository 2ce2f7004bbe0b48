import ArithTree.Settings.Layers

/-!
# Settings in files

A setting is known by its place in a file, by the key of its variable, and by how either is read
(`Setting`). A file whose document has the right types gives each setting on its own
(`ofDocument?_eq_some_iff`), and any other file gives nothing at all (`ofFile_cases`).
-/

namespace ArithTree

open Toml (Document)

/-- Where one of the settings is found and how it is read there. -/
structure Setting (α : Type) where
  /-- The section of a file. -/
  table : String
  name : String
  /-- The position in a section that is a list. -/
  index : Nat
  ofValue? : Toml.Value → Option α
  ofVariable? : Reader → String → Option α
  of : Settings → α

namespace Setting

def memoize : Setting Bool :=
  ⟨"parser", "memoize", 0, readBoolean?, Reader.boolean?, Settings.memoize⟩

/-- A whole number that is not negative. -/
def length? (r : Reader) (text : String) : Option Nat := (r.integer? text).bind fun n =>
  if 0 ≤ n then some n.toNat else none

def maxInputLength : Setting Nat :=
  ⟨"parser", "max_input_len", 1, readLength?, length?, Settings.maxInputLength⟩

def format : Setting OutputFormat :=
  ⟨"output", "format", 0, readFormat?, fun _ text => (OutputFormat.parse text).toOption,
    Settings.format⟩

section

variable {α : Type} (k : Setting α)

/-- What a document has in the place of the setting. -/
def value? (d : Document) : Option Toml.Value :=
  match d.lookup k.table with
  | some (.table fields) => fields.lookup k.name
  | some (.array items) => items[k.index]?
  | _ => none

/-- What a document says about the setting. -/
def inDocument? (d : Document) : Option α := (k.value? d).bind k.ofValue?

/-- What is in the place of the setting has the right type. -/
def Typed (d : Document) : Prop := ∀ v, k.value? d = some v → (k.ofValue? v).isSome = true

/-- What a file says about the setting. -/
def inFile? (toml : Toml.Library) : FileState → Option α
  | .present _ (.ok content) => (toml.read? content).bind k.inDocument?
  | _ => none

end

end Setting

/-! ## Documents -/

/-- A section that is left out, or in one of the forms of a section. -/
def IsSection : Option Toml.Value → Prop
  | none => True
  | some (.table _) => True
  | some (.array _) => True
  | some .moment => True
  | some _ => False

/-- All that a document says about settings has the right types. Anything else may stand in it. -/
structure TypeCorrect (d : Document) : Prop where
  parser : IsSection (d.lookup "parser")
  output : IsSection (d.lookup "output")
  memoize : Setting.memoize.Typed d
  maxInputLength : Setting.maxInputLength.Typed d
  format : Setting.format.Typed d

theorem sectionFields?_eq_none_iff (names : List String) (section? : Option Toml.Value) :
    sectionFields? names section? = none ↔ ¬ IsSection section? := by
  unfold sectionFields? IsSection
  split <;> simp

theorem isSection_of_fields {names : List String} {section? : Option Toml.Value} {fields : Document}
    (h : sectionFields? names section? = some fields) : IsSection section? := by
  refine Classical.byContradiction fun hfault => ?_
  rw [(sectionFields?_eq_none_iff names section?).mpr hfault] at h
  cases h

/-- Reading a field fails only when it is there with another type. -/
theorem field?_eq_some_iff {α : Type} {read : Toml.Value → Option α} {name : String}
    {fields : Document} {result : Option α} : field? read name fields = some result ↔
      (∀ v, fields.lookup name = some v → (read v).isSome = true) ∧
        result = (fields.lookup name).bind read := by
  unfold field?
  cases fields.lookup name with
  | none => simp only [Option.bind_none, reduceCtorEq, false_implies, implies_true, true_and,
      Option.some.injEq, eq_comm]
  | some v =>
    simp only [Option.bind_some, Option.some.injEq, forall_eq']
    cases read v with
    | none => simp
    | some x => simp only [Option.map_some, Option.isSome_some, true_and,
        Option.some.injEq, eq_comm]

/-- The fields of a section by name have the setting where the section has it by name or
position. -/
theorem Setting.lookup_fields {α : Type} (k : Setting α) {names : List String} {d fields : Document}
    (hnames : ∀ items : List Toml.Value, (names.zip items).lookup k.name = items[k.index]?)
    (h : sectionFields? names (d.lookup k.table) = some fields) :
    fields.lookup k.name = k.value? d := by
  unfold sectionFields? at h
  unfold value?
  split at h
  · next hsection =>
    rw [hsection, ← Option.some.inj h]
    rfl
  · next hsection => rw [hsection, ← Option.some.inj h]
  · next hsection => rw [hsection, ← Option.some.inj h, hnames]
  · next hsection =>
    rw [hsection, ← Option.some.inj h]
    rfl
  · cases h

theorem zip_lookup_memoize (items : List Toml.Value) :
    (["memoize", "max_input_len"].zip items).lookup "memoize" = items[0]? := by
  match items with
  | [] => rfl
  | [_] => rfl
  | _ :: _ :: _ => rfl

theorem zip_lookup_maxInputLength (items : List Toml.Value) :
    (["memoize", "max_input_len"].zip items).lookup "max_input_len" = items[1]? := by
  match items with
  | [] => rfl
  | [_] => rfl
  | _ :: _ :: _ => rfl

theorem zip_lookup_format (items : List Toml.Value) :
    (["format"].zip items).lookup "format" = items[0]? := by
  match items with
  | [] => rfl
  | _ :: _ => rfl

/-- **Document lemma.** A document gives an overlay exactly when its types are right, and then every
setting is the one in its place. -/
theorem ofDocument?_eq_some_iff (d : Document) (o : Overlay) :
    Overlay.ofDocument? d = some o ↔ TypeCorrect d ∧
      o = ⟨Setting.memoize.inDocument? d, Setting.maxInputLength.inDocument? d,
        Setting.format.inDocument? d⟩ := by
  unfold Overlay.ofDocument?
  cases hparser : sectionFields? ["memoize", "max_input_len"] (d.lookup "parser") with
  | none =>
    have hfault := (sectionFields?_eq_none_iff _ _).mp hparser
    exact ⟨fun h => (by cases h), fun h => absurd h.1.parser hfault⟩
  | some parser =>
    cases houtput : sectionFields? ["format"] (d.lookup "output") with
    | none =>
      have hfault := (sectionFields?_eq_none_iff _ _).mp houtput
      exact ⟨fun h => (by cases h), fun h => absurd h.1.output hfault⟩
    | some output =>
      have hmemoize := Setting.memoize.lookup_fields zip_lookup_memoize hparser
      have hlength := Setting.maxInputLength.lookup_fields zip_lookup_maxInputLength hparser
      have hformat := Setting.format.lookup_fields zip_lookup_format houtput
      -- each field is read from the place of its setting
      change parser.lookup "memoize" = _ at hmemoize
      change parser.lookup "max_input_len" = _ at hlength
      change output.lookup "format" = _ at hformat
      simp only [Option.bind_eq_bind, Option.bind_some, Option.bind_eq_some_iff, Option.pure_def,
        Option.some.injEq, field?_eq_some_iff, hmemoize, hlength, hformat]
      constructor
      · rintro ⟨_, ⟨hm, rfl⟩, _, ⟨hl, rfl⟩, _, ⟨hf, rfl⟩, rfl⟩
        exact ⟨⟨isSection_of_fields hparser, isSection_of_fields houtput, hm, hl, hf⟩, rfl⟩
      · rintro ⟨h, rfl⟩
        exact ⟨_, ⟨h.memoize, rfl⟩, _, ⟨h.maxInputLength, rfl⟩, _, ⟨h.format, rfl⟩, rfl⟩

/-! ## Files -/

/-- Whether the failure is one of the settings, and no panic. -/
def ConfigError.IsReported (e : ConfigError) : Prop := e ≠ .panicked

namespace FileState

variable (toml : Toml.Library)

/-- A file that is there and cannot be read, or is no document, or one with wrong types. -/
def Faulty : FileState → Prop
  | .missing _ => False
  | .present _ (.error _) => True
  | .present _ (.ok content) => ∀ d, toml.read? content = some d → ¬ TypeCorrect d

/-- What a file says about all settings. -/
def overlay (state : FileState) : Overlay :=
  ⟨Setting.memoize.inFile? toml state, Setting.maxInputLength.inFile? toml state,
    Setting.format.inFile? toml state⟩

end FileState

variable (toml : Toml.Library)

/-- What a document gives is what its settings give, and a faulty one gives nothing. -/
theorem ofText?_cases (regular : Bool) (content : String) :
    let state := FileState.present regular (.ok content)
    state.Faulty toml ∧ Overlay.ofText? toml content = none ∨
      ¬ state.Faulty toml ∧ Overlay.ofText? toml content = some (state.overlay toml) := by
  intro state
  cases hread : toml.read? content with
  | none =>
    refine Or.inl ⟨fun d h => ?_, by rw [Overlay.ofText?, hread]; rfl⟩
    rw [hread] at h
    cases h
  | some d =>
    have htext : Overlay.ofText? toml content = Overlay.ofDocument? d := by
      rw [Overlay.ofText?, hread]
      rfl
    have hoverlay : state.overlay toml = ⟨Setting.memoize.inDocument? d,
        Setting.maxInputLength.inDocument? d, Setting.format.inDocument? d⟩ := by
      simp only [state, FileState.overlay, Setting.inFile?, hread, Option.bind_some]
    by_cases htyped : TypeCorrect d
    · refine Or.inr ⟨fun hfault => hfault d hread htyped, ?_⟩
      rw [htext, hoverlay]
      exact (ofDocument?_eq_some_iff d _).mpr ⟨htyped, rfl⟩
    · refine Or.inl ⟨fun d' h => ?_, ?_⟩
      · rwa [← Option.some.inj (hread.symm.trans h)]
      · rw [htext, Option.eq_none_iff_forall_ne_some]
        exact fun o ho => htyped ((ofDocument?_eq_some_iff d o).mp ho).1

/-- A file that is there gives its settings, unless it is faulty. -/
theorem ofFile_cases (path : String) (state : FileState) :
    (state.isPresent = false ∨ state.Faulty toml) ∧
        (∃ e : ConfigError, e.IsReported ∧ Overlay.ofFile toml path state = .error e) ∨
      ¬ (state.isPresent = false ∨ state.Faulty toml) ∧
        Overlay.ofFile toml path state = .ok (state.overlay toml) := by
  match state with
  | .missing reason =>
    exact Or.inl ⟨Or.inl rfl, .unreadable path reason, ConfigError.noConfusion, rfl⟩
  | .present _ (.error reason) =>
    exact Or.inl ⟨Or.inr trivial, .unreadable path reason, ConfigError.noConfusion, rfl⟩
  | .present regular (.ok content) =>
    rcases ofText?_cases toml regular content with ⟨hfault, htext⟩ | ⟨hfine, htext⟩
    · refine Or.inl ⟨Or.inr hfault, .malformed path, ConfigError.noConfusion, ?_⟩
      simp only [Overlay.ofFile, FileState.content, htext]
    · refine Or.inr ⟨fun h => h.elim (fun h => by cases h) hfine, ?_⟩
      simp only [Overlay.ofFile, FileState.content, htext]

/-- A file that need not be there gives its settings, unless it is faulty. -/
theorem ofOptionalFile_cases (path : String) (state : FileState) :
    state.Faulty toml ∧
        (∃ e : ConfigError, e.IsReported ∧ Overlay.ofOptionalFile toml path state = .error e) ∨
      ¬ state.Faulty toml ∧
        Overlay.ofOptionalFile toml path state = .ok (state.overlay toml) := by
  match state with
  | .missing reason => exact Or.inr ⟨id, rfl⟩
  | .present regular content =>
    have hoptional : Overlay.ofOptionalFile toml path (.present regular content) =
        Overlay.ofFile toml path (.present regular content) := if_pos rfl
    rw [hoptional]
    simpa only [FileState.isPresent, Bool.true_eq_false, false_or] using
      ofFile_cases toml path (.present regular content)

end ArithTree
