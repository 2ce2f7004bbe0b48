import ArithTree.Libraries.Standard
import ArithTree.Proofs.KeyTrees
import ArithTree.Proofs.SettingsFiles
import Mathlib

/-!
# Settings are decided field by field

Where no two variables name one key, nor a key and its section, what has been gathered under the key
of a setting is the text of its variable, unless a variable for a position in a list has displaced
it (`text?_cases`). So the environment gives each setting on its own, as a file does, and loading
takes every setting from the highest layer that gives it. It fails for the faults of the layers
alone (`layers_decide`), unless the reader of the environment does not get through: it may panic
over a position in a list, and refuse a variable that is no text or panic over it.
-/

namespace ArithTree

open KeyPath (ofNames)

/-! ## Paths -/

namespace KeyPath

/-- A path parts from names, leads to them or beyond them, or needs a list on their way. -/
theorem cases_of_names (path : KeyPath) : ∀ names : List String,
    path.Passes names ∨ path.IsSectionOf (ofNames names) ∨ (ofNames names).IsSectionOf path ∨
      path.Displaces names := by
  induction path with
  | nil =>
    intro names
    cases names with
    | nil => exact Or.inr (Or.inl (Or.inl rfl))
    | cons name names => exact Or.inr (Or.inl (Or.inr ⟨name, ofNames names, rfl⟩))
  | cons step path ih =>
    intro names
    match step, names with
    | .position _, _ => exact Or.inr (Or.inr (Or.inr trivial))
    | .member name', [] => exact Or.inr (Or.inr (Or.inl (Or.inr ⟨name', path, rfl⟩)))
    | .member name', name :: names =>
      by_cases hname : name' = name
      · obtain rfl := hname
        rcases ih names with hpass | hsection | hsection | hdisplace
        · exact Or.inl (Or.inr hpass)
        · exact Or.inr (Or.inl (hsection.imp (congrArg _)
            fun ⟨name, rest, h⟩ => ⟨name, rest, congrArg _ h⟩))
        · exact Or.inr (Or.inr (Or.inl (hsection.imp (congrArg _)
            fun ⟨name, rest, h⟩ => ⟨name, rest, congrArg _ h⟩)))
        · exact Or.inr (Or.inr (Or.inr ⟨rfl, hdisplace⟩))
      · exact Or.inl (Or.inl hname)

/-- Names alone need no list. -/
theorem not_displaces_ofNames (names' : List String) : ∀ names : List String,
    ¬ Displaces (ofNames names') names := by
  induction names' with
  | nil => exact fun _ h => h
  | cons name' names' ih =>
    intro names h
    cases names with
    | nil => exact h
    | cons name names => exact ih names h.2

end KeyPath

/-! ## The environment -/

namespace Environment

/-- Two variables name neither one key nor a key and its own section. -/
def Apart (v w : String × String) : Prop :=
  ∀ path path', KeyPath.ofVariable? v.1 = some path → KeyPath.ofVariable? w.1 = some path' →
    ¬ path.IsSectionOf path' ∧ ¬ path'.IsSectionOf path

def Distinct (env : Environment) : Prop := env.textPairs.Pairwise Apart

instance : Std.Symm Apart where
  symm _ _ h path path' hpath hpath' := (h path' path hpath' hpath).symm

end Environment

namespace Setting

variable {α : Type} (k : Setting α)

def names : List String := [k.table, k.name]

/-- The key that the setting is looked up by. -/
def key : String := k.table ++ "." ++ k.name

/-- The text of the variable that names the setting. -/
def given? (env : Environment) : Option String :=
  (env.textPairs.find? fun v => KeyPath.ofVariable? v.1 = some (ofNames k.names)).map (·.2)

/-- What the environment says about the setting. -/
def inVariables? (r : Reader) (env : Environment) : Option α :=
  (k.given? env).bind (k.ofVariable? r)

/-- A variable for a position in a list stands in the way of the setting. -/
def Displaced (env : Environment) : Prop :=
  ∃ v ∈ env.textPairs, ∃ path, KeyPath.ofVariable? v.1 = some path ∧ path.Displaces k.names

/-- The setting has the value from the highest of three layers that gives one, or else the
default. -/
def Layered (lib : Libraries) (env : Environment) (upper lower : FileState) (s : Settings) : Prop :=
  k.of s = ((k.inVariables? lib.reader env).or
    ((k.inFile? lib.toml upper).or (k.inFile? lib.toml lower))).getD (k.of .default)

/-- The setting is decided by its layers, where a variable that is displaced may count as not
given. -/
def Decided (lib : Libraries) (env : Environment) (upper lower : FileState) (s : Settings) : Prop :=
  k.Layered lib env upper lower s ∨ k.Displaced env ∧ k.Layered lib [] upper lower s

end Setting

theorem isKey_memoize : KeyPath.IsKey Setting.memoize.key Setting.memoize.names :=
  ⟨by cbv, by simp [Setting.key, Setting.memoize]⟩

theorem isKey_maxInputLength :
    KeyPath.IsKey Setting.maxInputLength.key Setting.maxInputLength.names :=
  ⟨by cbv, by simp [Setting.key, Setting.maxInputLength]⟩

theorem isKey_format : KeyPath.IsKey Setting.format.key Setting.format.names :=
  ⟨by cbv, by simp [Setting.key, Setting.format]⟩

namespace Environment

variable {env : Environment} {r : Reader} {c : Configuration} {α : Type} {k : Setting α}

/-- Where keys are distinct, a variable is the one that names the setting, or passes it by, or
displaces it. -/
theorem Distinct.passes_or_displaces (h : env.Distinct) {v w : String × String}
    (hv : v ∈ env.textPairs) (hw : w ∈ env.textPairs) {names : List String} {path : KeyPath}
    (hnames : KeyPath.ofVariable? v.1 = some (ofNames names))
    (hpath : KeyPath.ofVariable? w.1 = some path) :
    w = v ∨ path.Passes names ∨ path.Displaces names := by
  by_cases hself : w = v
  · exact Or.inl hself
  · obtain ⟨hsection, hsection'⟩ := h.forall hw hv hself _ _ hpath hnames
    rcases path.cases_of_names names with hpass | hsec | hsec | hdisplace
    · exact Or.inr (Or.inl hpass)
    · exact absurd hsec hsection
    · exact absurd hsec hsection'
    · exact Or.inr (Or.inr hdisplace)

theorem Distinct.given?_eq_some_iff (h : env.Distinct) {text : String} : k.given? env = some text ↔
    ∃ v ∈ env.textPairs, KeyPath.ofVariable? v.1 = some (ofNames k.names) ∧ v.2 = text := by
  rw [Setting.given?, Option.map_eq_some_iff]
  constructor
  · rintro ⟨v, hfind, rfl⟩
    exact ⟨v, List.mem_of_find?_eq_some hfind, by simpa using List.find?_some hfind, rfl⟩
  · rintro ⟨v, hv, hnames, rfl⟩
    have hsome : (env.textPairs.find? fun v =>
        KeyPath.ofVariable? v.1 = some (ofNames k.names)).isSome = true :=
      List.find?_isSome.mpr ⟨v, hv, decide_eq_true hnames⟩
    obtain ⟨w, hfind⟩ := Option.isSome_iff_exists.mp hsome
    have hw := List.mem_of_find?_eq_some hfind
    have hnames' : KeyPath.ofVariable? w.1 = some (ofNames k.names) := by
      simpa using List.find?_some hfind
    have heq : w = v := by
      by_contra hne
      exact (h.forall hw hv hne _ _ hnames' hnames).1 (Or.inl rfl)
    exact ⟨w, hfind, congrArg _ heq⟩

/-- **Environment lemma.** What has been gathered under the key of a setting is the text of its
variable, or nothing where that is displaced. -/
theorem Distinct.text?_cases (h : env.Distinct) (hr : r.Lawful) (hbuild : r.build env = .built c)
    (hkey : KeyPath.IsKey k.key k.names) :
    c.text? k.key = k.given? env ∨ k.Displaced env ∧ c.text? k.key = none := by
  cases htext : c.text? k.key with
  | some text =>
    exact Or.inl (h.given?_eq_some_iff.mpr (hr.mem_of_text? hbuild hkey htext)).symm
  | none =>
    cases hgiven : k.given? env with
    | none => exact Or.inl rfl
    | some text =>
      obtain ⟨v, hv, hnames, -⟩ := h.given?_eq_some_iff.mp hgiven
      refine Or.inr ⟨Classical.byContradiction fun hfree => ?_, rfl⟩
      have hfound := hr.text?_of_mem hbuild hkey hv hnames fun w hw =>
        or_iff_not_imp_left.mpr fun hne path hpath =>
          ((h.passes_or_displaces hv hw hnames hpath).resolve_left hne).resolve_right
            fun hdisplace => hfree ⟨w, hw, path, hpath, hdisplace⟩
      cases htext.symm.trans hfound

theorem NamesOnly.not_displaced (h : env.NamesOnly) (k : Setting α) : ¬ k.Displaced env := by
  rintro ⟨v, hv, path, hpath, hdisplace⟩
  obtain ⟨names, rfl⟩ := h v hv path hpath
  exact KeyPath.not_displaces_ofNames _ _ hdisplace

end Environment

/-! ## What has been gathered -/

/-- The limit is given, as a negative number. -/
def IsNegativeLimit (r : Reader) (given? : Option String) : Prop :=
  ∃ text n, given? = some text ∧ r.integer? text = some n ∧ n < 0

/-- The format is given, by a name that is none. -/
def IsUnknownFormat (given? : Option String) : Prop :=
  ∃ text name, given? = some text ∧ OutputFormat.parse text = .error name

def Environment.GivesNegativeLimit (r : Reader) (env : Environment) : Prop :=
  IsNegativeLimit r (Setting.maxInputLength.given? env)

def Environment.GivesUnknownFormat (env : Environment) : Prop :=
  IsUnknownFormat (Setting.format.given? env)

namespace Configuration

/-- Loading has to be refused for what has been gathered. -/
def IsRefused (r : Reader) (c : Configuration) : Prop :=
  IsNegativeLimit r (c.text? Setting.maxInputLength.key) ∨
    IsUnknownFormat (c.text? Setting.format.key)

variable {env : Environment} {r : Reader} {c : Configuration}

/-- What has been gathered about all settings. -/
def settings (r : Reader) (c : Configuration) : Overlay where
  memoize := (c.text? Setting.memoize.key).bind (Setting.memoize.ofVariable? r)
  maxInputLength := (c.text? Setting.maxInputLength.key).bind (Setting.maxInputLength.ofVariable? r)
  format := (c.text? Setting.format.key).bind (Setting.format.ofVariable? r)

theorem keys : Setting.memoize.key = "parser.memoize" ∧
    Setting.maxInputLength.key = "parser.max_input_len" ∧ Setting.format.key = "output.format" := by
  decide

/-- An integer is below zero, or it is a natural number, if there is one. -/
theorem sign_cases (i : Option Int) :
    (∃ n, i = some (.negSucc n)) ∨ ∃ limit : Option Nat, i = limit.map Int.ofNat := by
  match i with
  | some (.negSucc n) => exact Or.inl ⟨n, rfl⟩
  | some (.ofNat n) => exact Or.inr ⟨some n, rfl⟩
  | none => exact Or.inr ⟨none, rfl⟩

/-- With a limit that is not negative, or none, only the format can be at fault. -/
theorem overlay_of_limit {limit : Option Nat}
    (hlimit : c.integer? "parser.max_input_len" = limit.map Int.ofNat) :
    IsUnknownFormat (c.text? "output.format") ∧
        (∃ name, c.overlay = .error (.unknownFormat name)) ∨
      ¬ IsUnknownFormat (c.text? "output.format") ∧
        c.overlay = .ok ⟨c.boolean? "parser.memoize", limit,
          (c.text? "output.format").bind fun text => (OutputFormat.parse text).toOption⟩ := by
  unfold overlay
  cases hformat : c.text? "output.format" with
  | none =>
    refine Or.inr ⟨fun ⟨text, name, h, _⟩ => (by cases h), ?_⟩
    cases limit <;> simp only [hlimit, Option.map_none, Option.map_some] <;> rfl
  | some text =>
    cases hparse : OutputFormat.parse text with
    | ok format =>
      refine Or.inr ⟨fun ⟨text', name, h, herror⟩ => ?_, ?_⟩
      · rw [← Option.some.inj h, hparse] at herror
        cases herror
      · rw [Option.bind_some, hparse]
        cases limit <;> simp only [hlimit, hparse, Option.map_none, Option.map_some] <;> rfl
    | error name =>
      refine Or.inl ⟨⟨text, name, rfl, hparse⟩, name, ?_⟩
      cases limit <;> simp only [hlimit, hparse, Option.map_none, Option.map_some] <;> rfl

/-- A negative limit and an unknown format are refused, and everything else is taken. -/
theorem overlay_cases (hr : r.Lawful) (hbuild : r.build env = .built c) :
    c.IsRefused r ∧ (∃ e : ConfigError, e.IsReported ∧ c.overlay = .error e) ∨
      ¬ c.IsRefused r ∧ c.overlay = .ok (c.settings r) := by
  have hinteger := hr.integer?_eq "parser.max_input_len" hbuild
  have hboolean := hr.boolean?_eq "parser.memoize" hbuild
  have hnegative : IsNegativeLimit r (c.text? "parser.max_input_len") ↔
      ∃ n, c.integer? "parser.max_input_len" = some n ∧ n < 0 := by
    simp only [IsNegativeLimit, hinteger, Option.bind_eq_some_iff]
    exact ⟨fun ⟨text, n, htext, hn, hneg⟩ => ⟨n, ⟨text, htext, hn⟩, hneg⟩,
      fun ⟨n, ⟨text, htext, hn⟩, hneg⟩ => ⟨text, n, htext, hn, hneg⟩⟩
  rw [IsRefused, settings, keys.1, keys.2.1, keys.2.2, hnegative]
  rcases sign_cases (c.integer? "parser.max_input_len") with ⟨n, hlimit⟩ | ⟨limit, hlimit⟩
  · refine Or.inl ⟨Or.inl ⟨_, hlimit, Int.negSucc_lt_zero n⟩, .negativeLimit (.negSucc n),
      ConfigError.noConfusion, ?_⟩
    unfold overlay
    simp only [hlimit]
    rfl
  · have hnat : ¬ ∃ n, c.integer? "parser.max_input_len" = some n ∧ n < 0 := by
      rintro ⟨n, hn, hneg⟩
      obtain ⟨m, -, rfl⟩ := Option.map_eq_some_iff.mp (hlimit.symm.trans hn)
      exact absurd hneg (Int.not_lt.mpr (Int.natCast_nonneg m))
    -- the limit converts back to the natural number that it is
    have hback : (c.text? "parser.max_input_len").bind (Setting.length? r) = limit := by
      have hlength : (c.text? "parser.max_input_len").bind (Setting.length? r) =
          ((c.text? "parser.max_input_len").bind r.integer?).bind fun n =>
            if 0 ≤ n then some n.toNat else none := (Option.bind_assoc ..).symm
      rw [hlength, ← hinteger, hlimit]
      cases limit <;> simp
    rcases overlay_of_limit hlimit with ⟨hunknown, name, herror⟩ | ⟨hknown, hok⟩
    · exact Or.inl ⟨Or.inr hunknown, .unknownFormat name, ConfigError.noConfusion, herror⟩
    · refine Or.inr ⟨not_or.mpr ⟨hnat, hknown⟩, ?_⟩
      rw [hok, hboolean]
      exact congrArg _ (congrArg (Overlay.mk _ · _) hback.symm)

/-- What has been gathered is refused only for what is given. -/
theorem IsRefused.given (hrefused : c.IsRefused r) (hr : r.Lawful) (h : env.Distinct)
    (hbuild : r.build env = .built c) : env.GivesNegativeLimit r ∨ env.GivesUnknownFormat := by
  rcases hrefused with hnegative | hunknown
  · rcases h.text?_cases hr hbuild isKey_maxInputLength with htext | ⟨-, hnone⟩
    · rw [htext] at hnegative
      exact Or.inl hnegative
    · obtain ⟨text, n, htext, -⟩ := hnegative
      cases hnone.symm.trans htext
  · rcases h.text?_cases hr hbuild isKey_format with htext | ⟨-, hnone⟩
    · rw [htext] at hunknown
      exact Or.inr hunknown
    · obtain ⟨text, name, htext, -⟩ := hunknown
      cases hnone.symm.trans htext

/-- What is given and not displaced has been gathered. -/
theorem isRefused_of_given (hr : r.Lawful) (h : env.Distinct) (hbuild : r.build env = .built c)
    (hgiven : env.GivesNegativeLimit r ∧ ¬ Setting.maxInputLength.Displaced env ∨
      env.GivesUnknownFormat ∧ ¬ Setting.format.Displaced env) : c.IsRefused r := by
  rcases hgiven with ⟨hnegative, hfree⟩ | ⟨hunknown, hfree⟩
  · have htext := (h.text?_cases hr hbuild isKey_maxInputLength).resolve_right
      fun hdisplaced => hfree hdisplaced.1
    exact Or.inl (htext ▸ hnegative)
  · have htext := (h.text?_cases hr hbuild isKey_format).resolve_right
      fun hdisplaced => hfree hdisplaced.1
    exact Or.inr (htext ▸ hunknown)

end Configuration

/-! ## Layers -/

/-- The file for all runs, or nothing when there is no place for it. -/
def Surroundings.globalFile (lib : Libraries) (m : Surroundings) : FileState :=
  match m.globalSettings? lib with
  | some path => m.file path
  | none => .absent

/-- The file of the directory, or nothing when that is not known. -/
def Surroundings.localFile (m : Surroundings) (directory : Option String) : FileState :=
  match m.localSettings directory with
  | .ok path => m.file path
  | .error reason => .missing reason

/-- One of the files is faulty. -/
def Surroundings.AtFault (lib : Libraries) (m : Surroundings) (directory : Option String) : Prop :=
  (m.globalFile lib).Faulty lib.toml ∨ (m.localFile directory).Faulty lib.toml

namespace Settings

variable (lib : Libraries) (m : Surroundings) (directory : Option String)

/-- Loading fails, without a panic. -/
def LoadReports : Prop := ∃ e : ConfigError, e.IsReported ∧ load lib m directory = .error e

/-- A file without a place is as good as one that is not there. -/
theorem load_eq : ∃ path path', load lib m directory = (do
    let lower ← Overlay.ofOptionalFile lib.toml path (m.globalFile lib)
    let upper ← Overlay.ofOptionalFile lib.toml path' (m.localFile directory)
    let vars ← m.environment.overlay lib.reader
    return ((default.overlaid lower).overlaid upper).overlaid vars) := by
  unfold load Surroundings.globalFile Surroundings.localFile
  cases m.globalSettings? lib with
  | none =>
    cases m.localSettings directory with
    | ok path => exact ⟨"", path, rfl⟩
    | error reason => exact ⟨"", "", rfl⟩
  | some path =>
    cases m.localSettings directory with
    | ok path' => exact ⟨path, path', rfl⟩
    | error reason => exact ⟨path, "", rfl⟩

/-- **Loading lemma.** The files come before the environment, and what is loaded are the defaults
with all three layers laid over them. -/
theorem load_cases :
    m.AtFault lib directory ∧ LoadReports lib m directory ∨
      ¬ m.AtFault lib directory ∧ load lib m directory =
        (m.environment.overlay lib.reader).map fun vars =>
          ((default.overlaid ((m.globalFile lib).overlay lib.toml)).overlaid
            ((m.localFile directory).overlay lib.toml)).overlaid vars := by
  obtain ⟨path, path', hload⟩ := load_eq lib m directory
  rw [LoadReports, hload]
  rcases ofOptionalFile_cases lib.toml path (m.globalFile lib) with
    ⟨hfault, e, he, herror⟩ | ⟨hfine, hok⟩
  · exact Or.inl ⟨Or.inl hfault, e, he, by rw [herror]; rfl⟩
  · rcases ofOptionalFile_cases lib.toml path' (m.localFile directory) with
      ⟨hfault, e, he, herror⟩ | ⟨hfine', hok'⟩
    · exact Or.inl ⟨Or.inr hfault, e, he, by rw [hok, herror]; rfl⟩
    · refine Or.inr ⟨fun h => h.elim hfine hfine', ?_⟩
      rw [hok, hok']
      cases m.environment.overlay lib.reader <;> rfl

theorem loadFile_cases (path : String) :
    ((m.file path).isPresent = false ∨ (m.file path).Faulty lib.toml) ∧
        (∃ e : ConfigError, e.IsReported ∧ loadFile lib m path = .error e) ∨
      ¬ ((m.file path).isPresent = false ∨ (m.file path).Faulty lib.toml) ∧
        loadFile lib m path = .ok (default.overlaid ((m.file path).overlay lib.toml)) := by
  unfold loadFile
  rcases ofFile_cases lib.toml path (m.file path) with ⟨hfault, e, he, herror⟩ | ⟨hfine, hok⟩
  · exact Or.inl ⟨hfault, e, he, by rw [herror]; rfl⟩
  · exact Or.inr ⟨hfine, by rw [hok]; rfl⟩

end Settings

section

variable {lib : Libraries} {env : Environment} {c : Configuration} {upper lower : FileState}
  {s : Settings}

/-- Laid over the files, what has been gathered decides a setting. -/
theorem Setting.decided_of_gathered {α : Type} (k : Setting α) (h : env.Distinct)
    (hr : lib.reader.Lawful) (hbuild : lib.reader.build env = .built c)
    (hkey : KeyPath.IsKey k.key k.names)
    (hs : k.of s = ((c.text? k.key).bind (k.ofVariable? lib.reader)).getD
      ((k.inFile? lib.toml upper).getD ((k.inFile? lib.toml lower).getD (k.of .default)))) :
    k.Decided lib env upper lower s := by
  rw [← Option.getD_or, ← Option.getD_or, Option.or_assoc] at hs
  rcases h.text?_cases hr hbuild hkey with htext | ⟨hdisplaced, hnone⟩
  · rw [htext] at hs
    exact Or.inl hs
  · rw [hnone] at hs
    exact Or.inr ⟨hdisplaced, hs⟩

end

namespace Settings

/-- Each setting is that of the highest layer that gives it. -/
structure Layered (lib : Libraries) (env : Environment) (upper lower : FileState) (s : Settings) :
    Prop where
  memoize : Setting.memoize.Layered lib env upper lower s
  maxInputLength : Setting.maxInputLength.Layered lib env upper lower s
  format : Setting.format.Layered lib env upper lower s

structure Decided (lib : Libraries) (env : Environment) (upper lower : FileState) (s : Settings) :
    Prop where
  memoize : Setting.memoize.Decided lib env upper lower s
  maxInputLength : Setting.maxInputLength.Decided lib env upper lower s
  format : Setting.format.Decided lib env upper lower s

theorem Decided.layered {lib : Libraries} {env : Environment} {upper lower : FileState}
    {s : Settings} (h : s.Decided lib env upper lower) (hnames : env.NamesOnly) :
    s.Layered lib env upper lower where
  memoize := h.memoize.resolve_right fun h => hnames.not_displaced _ h.1
  maxInputLength := h.maxInputLength.resolve_right fun h => hnames.not_displaced _ h.1
  format := h.format.resolve_right fun h => hnames.not_displaced _ h.1

variable (lib : Libraries) (m : Surroundings) (directory : Option String)

variable {lib m directory}

/-- The three ways in which loading ends. -/
theorem load_outcome (directory : Option String) (hr : lib.reader.Lawful)
    (h : m.environment.Distinct) :
    ((m.AtFault lib directory ∨ lib.reader.Refuses m.environment ∨
        ∃ c, lib.reader.build m.environment = .built c ∧ c.IsRefused lib.reader) ∧
      LoadReports lib m directory) ∨
    (¬ m.AtFault lib directory ∧ lib.reader.build m.environment = .panicked ∧
      load lib m directory = .error .panicked) ∨
    (¬ m.AtFault lib directory ∧ ∃ c s, lib.reader.build m.environment = .built c ∧
      ¬ c.IsRefused lib.reader ∧ load lib m directory = .ok s ∧
        s.Decided lib m.environment (m.localFile directory) (m.globalFile lib)) := by
  rcases load_cases lib m directory with ⟨hfault, herror⟩ | ⟨hfine, hload⟩
  · exact Or.inl ⟨Or.inl hfault, herror⟩
  · rw [LoadReports, hload]
    cases hbuild : lib.reader.build m.environment with
    | panicked =>
      exact Or.inr (Or.inl ⟨hfine, rfl, by simp only [Environment.overlay, hbuild]; rfl⟩)
    | refused reason =>
      exact Or.inl ⟨Or.inr (Or.inl ⟨reason, hbuild⟩), .refused reason, ConfigError.noConfusion,
        by simp only [Environment.overlay, hbuild]; rfl⟩
    | built c =>
      have hover : m.environment.overlay lib.reader = c.overlay := by
        simp only [Environment.overlay, hbuild]
      rw [hover]
      rcases Configuration.overlay_cases hr hbuild with ⟨hrefused, e, he, herror⟩ | ⟨htaken, hok⟩
      · exact Or.inl ⟨Or.inr (Or.inr ⟨c, rfl, hrefused⟩), e, he, by rw [herror]; rfl⟩
      · refine Or.inr (Or.inr ⟨hfine, c, _, rfl, htaken, by rw [hok]; rfl, ?_⟩)
        exact ⟨Setting.memoize.decided_of_gathered h hr hbuild isKey_memoize rfl,
          Setting.maxInputLength.decided_of_gathered h hr hbuild isKey_maxInputLength rfl,
          Setting.format.decided_of_gathered h hr hbuild isKey_format rfl⟩

theorem decided_of_load {s : Settings} (hr : lib.reader.Lawful) (h : m.environment.Distinct)
    (hs : load lib m directory = .ok s) :
    s.Decided lib m.environment (m.localFile directory) (m.globalFile lib) := by
  rcases load_outcome directory hr h with
    ⟨-, e, -, hload⟩ | ⟨-, -, hload⟩ | ⟨-, c, s', -, -, hload, hdecided⟩
  · cases hload.symm.trans hs
  · cases hload.symm.trans hs
  · rwa [← Except.ok.inj (hload.symm.trans hs)]

theorem given_of_loadReports (hr : lib.reader.Lawful) (h : m.environment.Distinct)
    (hreports : LoadReports lib m directory) :
    m.AtFault lib directory ∨ lib.reader.Refuses m.environment ∨
      m.environment.GivesNegativeLimit lib.reader ∨ m.environment.GivesUnknownFormat := by
  obtain ⟨e, he, herror⟩ := hreports
  rcases load_outcome directory hr h with
    ⟨hrefused, -⟩ | ⟨-, -, hload⟩ | ⟨-, c, s, -, -, hload, -⟩
  · exact hrefused.imp_right (Or.imp_right fun ⟨c, hbuild, hrefused⟩ => hrefused.given hr h hbuild)
  · exact absurd (Except.error.inj (hload.symm.trans herror)).symm he
  · cases hload.symm.trans herror

theorem loadReports_of_given (hr : lib.reader.Lawful) (h : m.environment.Distinct)
    (hgiven : m.AtFault lib directory ∨ lib.reader.Refuses m.environment ∨
      lib.reader.build m.environment ≠ .panicked ∧
        (m.environment.GivesNegativeLimit lib.reader ∧
            ¬ Setting.maxInputLength.Displaced m.environment ∨
          m.environment.GivesUnknownFormat ∧ ¬ Setting.format.Displaced m.environment)) :
    LoadReports lib m directory := by
  rcases load_outcome directory hr h with
    ⟨-, hreports⟩ | ⟨hfine, hbuild, -⟩ | ⟨hfine, c, s, hbuild, htaken, -, -⟩
  · exact hreports
  · rcases hgiven.resolve_left hfine with ⟨reason, hrefused⟩ | ⟨hbuilt, -⟩
    · cases hbuild.symm.trans hrefused
    · exact absurd hbuild hbuilt
  · rcases hgiven.resolve_left hfine with ⟨reason, hrefused⟩ | ⟨-, hgiven⟩
    · cases hbuild.symm.trans hrefused
    · exact absurd (Configuration.isRefused_of_given hr h hbuild hgiven) htaken

/-- The reader of the environment has to panic, and both files to be without fault. -/
theorem load_eq_panicked_iff (hr : lib.reader.Lawful) : load lib m directory = .error .panicked ↔
    ¬ m.AtFault lib directory ∧ lib.reader.build m.environment = .panicked := by
  rcases load_cases lib m directory with ⟨hfault, e, he, herror⟩ | ⟨hfine, hload⟩
  · exact iff_of_false (fun h => he (Except.error.inj (herror.symm.trans h))) fun h => h.1 hfault
  · rw [hload]
    cases hbuild : lib.reader.build m.environment with
    | panicked => exact iff_of_true (by simp only [Environment.overlay, hbuild]; rfl) ⟨hfine, rfl⟩
    | refused reason =>
      refine iff_of_false (fun h => ?_) fun h => nomatch h.2
      simp only [Environment.overlay, hbuild] at h
      cases h
    | built c =>
      have hover : m.environment.overlay lib.reader = c.overlay := by
        simp only [Environment.overlay, hbuild]
      rw [hover]
      refine iff_of_false (fun h => ?_) fun h => nomatch h.2
      rcases Configuration.overlay_cases hr hbuild with ⟨-, e, he, herror⟩ | ⟨-, hok⟩
      · rw [herror] at h
        exact he (Except.error.inj h)
      · rw [hok] at h
        cases h

theorem load_ne_panicked (hr : lib.reader.Lawful) (htext : m.environment.IsText)
    (hnames : m.environment.NamesOnly) : load lib m directory ≠ .error .panicked := by
  intro hload
  obtain ⟨c, hbuild⟩ := hr.built_of_names htext hnames
  cases hbuild.symm.trans ((load_eq_panicked_iff hr).mp hload).2

/-- The only layer above the defaults decides all settings. -/
theorem layered_overlaid (lib : Libraries) (state : FileState) :
    (default.overlaid (state.overlay lib.toml)).Layered lib [] state .absent where
  memoize := congrArg (Option.getD · _) Option.or_none.symm
  maxInputLength := congrArg (Option.getD · _) Option.or_none.symm
  format := congrArg (Option.getD · _) Option.or_none.symm

end Settings

/-- **Layers decide the settings.** Where every variable is text and names no position in a list,
each setting is the one from the highest layer that gives it, environment over local file over
global file over default, whatever the layers say about the others, and loading is refused exactly
for a faulty file, a negative limit or an unknown format. Otherwise a setting that is displaced by a
position may count as not given by its variable, and the reader of the environment may panic, which
ends the run where both files are without fault, or refuse it for a variable that is no text. A file
loaded alone is the only layer above the defaults, and has to be there. -/
theorem layers_decide (lib : Libraries) (hr : lib.reader.Lawful) (m : Surroundings)
    (directory : Option String) (h : m.environment.Distinct) :
    let env := m.environment
    let upper := m.localFile directory
    let lower := m.globalFile lib
    let loaded := Settings.load lib m directory
    (env.IsText → env.NamesOnly →
      (∀ s, loaded = .ok s → s.Layered lib env upper lower) ∧
      (Settings.LoadReports lib m directory ↔
        m.AtFault lib directory ∨ env.GivesNegativeLimit lib.reader ∨ env.GivesUnknownFormat) ∧
      loaded ≠ .error .panicked) ∧
    (∀ s, loaded = .ok s → s.Decided lib env upper lower) ∧
    (Settings.LoadReports lib m directory →
      m.AtFault lib directory ∨ lib.reader.Refuses env ∨ env.GivesNegativeLimit lib.reader ∨
        env.GivesUnknownFormat) ∧
    (m.AtFault lib directory ∨ lib.reader.Refuses env ∨ lib.reader.build env ≠ .panicked ∧
      (env.GivesNegativeLimit lib.reader ∧ ¬ Setting.maxInputLength.Displaced env ∨
        env.GivesUnknownFormat ∧ ¬ Setting.format.Displaced env) →
      Settings.LoadReports lib m directory) ∧
    (lib.reader.Refuses env → ¬ env.IsText) ∧
    (loaded = .error .panicked ↔
      ¬ m.AtFault lib directory ∧ lib.reader.build env = .panicked) ∧
    ∀ path,
      (∀ s, Settings.loadFile lib m path = .ok s → s.Layered lib [] (m.file path) .absent) ∧
      ((∃ e : ConfigError, e.IsReported ∧ Settings.loadFile lib m path = .error e) ↔
        (m.file path).isPresent = false ∨ (m.file path).Faulty lib.toml) ∧
      Settings.loadFile lib m path ≠ .error .panicked := by
  intro env upper lower loaded
  refine ⟨fun htext hnames => ?_, fun s => Settings.decided_of_load hr h,
    Settings.given_of_loadReports hr h, Settings.loadReports_of_given hr h,
    fun hrefuses htext => hr.not_refuses htext hrefuses, Settings.load_eq_panicked_iff hr,
    fun path => ?_⟩
  · obtain ⟨c, hbuild⟩ := hr.built_of_names htext hnames
    have hbuilt : lib.reader.build env ≠ .panicked := fun hpanic => by
      cases hpanic.symm.trans hbuild
    refine ⟨fun s hs => (Settings.decided_of_load hr h hs).layered hnames,
      ⟨fun hreports => ?_, fun hany => ?_⟩, Settings.load_ne_panicked hr htext hnames⟩
    · exact (Settings.given_of_loadReports hr h hreports).imp_right
        fun hgiven => hgiven.resolve_left (hr.not_refuses htext)
    · refine Settings.loadReports_of_given hr h (hany.imp_right fun hany => Or.inr ⟨hbuilt, ?_⟩)
      exact hany.imp (fun hnegative => ⟨hnegative, hnames.not_displaced _⟩)
        fun hunknown => ⟨hunknown, hnames.not_displaced _⟩
  · rcases Settings.loadFile_cases lib m path with ⟨hfault, e, he, hs⟩ | ⟨hfine, hs⟩
    · rw [hs]
      exact ⟨fun s h => (by cases h), ⟨fun _ => hfault, fun _ => ⟨e, he, rfl⟩⟩,
        fun h => he (Except.error.inj h)⟩
    · rw [hs]
      refine ⟨fun s h => ?_, ⟨fun ⟨e, _, h⟩ => (by cases h), fun h => absurd h hfine⟩,
        fun h => (by cases h)⟩
      rw [← Except.ok.inj h]
      exact Settings.layered_overlaid lib _

/-- A local file and two variables. Only the truth value is given by both. -/
def layeredSurroundings : Surroundings where
  file path := if path = ".exprtree.toml" then .text "parser = [false, 0x1F]" else .absent
  input := .ok ""
  environment := [(.text "EXPRTREE_PARSER__MEMOIZE", .text "on"),
    (.text "exprtree_Output.Format", .text " TREE")]
  accountHome := none
  directory := .ok ""
  terminal := false

namespace layeredSurroundings

theorem keys :
    KeyPath.ofVariable? "EXPRTREE_PARSER__MEMOIZE" = some (ofNames ["parser", "memoize"]) ∧
    KeyPath.ofVariable? "exprtree_Output.Format" = some (ofNames ["output", "format"]) :=
  ⟨by cbv, by cbv⟩

theorem distinct : layeredSurroundings.environment.Distinct := by
  refine List.pairwise_pair.mpr fun path path' hpath hpath' => ?_
  rw [← Option.some.inj (keys.1.symm.trans hpath), ← Option.some.inj (keys.2.symm.trans hpath')]
  constructor <;> rintro (h | ⟨name, rest, h⟩) <;> simp [ofNames] at h

theorem isText : layeredSurroundings.environment.IsText := by
  simp [Environment.IsText, layeredSurroundings, Environment.textPair?, OsText.text?]

theorem namesOnly : layeredSurroundings.environment.NamesOnly := by
  intro v hv path hpath
  have hvars : layeredSurroundings.environment.textPairs =
      [("EXPRTREE_PARSER__MEMOIZE", "on"), ("exprtree_Output.Format", " TREE")] := rfl
  rw [hvars, List.mem_pair] at hv
  rcases hv with rfl | rfl
  · exact ⟨_, Option.some.inj (hpath.symm.trans keys.1)⟩
  · exact ⟨_, Option.some.inj (hpath.symm.trans keys.2)⟩

/-- The variables decide the truth value and the format, and the file decides the limit. -/
theorem load : Settings.load .standard layeredSurroundings none = .ok ⟨true, 31, .drawing⟩ := by
  cbv

end layeredSurroundings

theorem layers_decide_layeredSurroundings : Libraries.standard.reader.Lawful ∧
    layeredSurroundings.environment.Distinct ∧ layeredSurroundings.environment.IsText ∧
      layeredSurroundings.environment.NamesOnly ∧
        Settings.Layered .standard layeredSurroundings.environment
          (layeredSurroundings.localFile none) (layeredSurroundings.globalFile .standard)
            ⟨true, 31, .drawing⟩ :=
  ⟨Reader.inOrder_lawful, layeredSurroundings.distinct, layeredSurroundings.isText,
    layeredSurroundings.namesOnly,
    ((layers_decide .standard Reader.inOrder_lawful layeredSurroundings none
      layeredSurroundings.distinct).1 layeredSurroundings.isText layeredSurroundings.namesOnly).1 _
        layeredSurroundings.load⟩

/-- A variable whose key cannot be followed, and a negative limit. -/
def straySurroundings : Surroundings where
  file _ := .absent
  input := .ok ""
  environment := [(.text "EXPRTREE_X[-1]", .text "1"),
    (.text "EXPRTREE_PARSER__MAX_INPUT_LEN", .text "-1")]
  accountHome := none
  directory := .ok ""
  terminal := false

namespace straySurroundings

theorem keys : KeyPath.ofVariable? "EXPRTREE_X[-1]" = some [.member "x", .position (-1)] ∧
    KeyPath.ofVariable? "EXPRTREE_PARSER__MAX_INPUT_LEN" =
      some (ofNames ["parser", "max_input_len"]) := ⟨by cbv, by cbv⟩

theorem distinct : straySurroundings.environment.Distinct := by
  refine List.pairwise_pair.mpr fun path path' hpath hpath' => ?_
  rw [← Option.some.inj (keys.1.symm.trans hpath), ← Option.some.inj (keys.2.symm.trans hpath')]
  constructor <;> rintro (h | ⟨name, rest, h⟩) <;> simp [ofNames] at h

theorem load : Settings.load .standard straySurroundings none = .error .panicked := by cbv

end straySurroundings

/-- The key ends the run, so the negative limit is never reported. -/
theorem load_straySurroundings : straySurroundings.environment.Distinct ∧
    straySurroundings.environment.GivesNegativeLimit Libraries.standard.reader ∧
      ¬ Settings.LoadReports .standard straySurroundings none := by
  refine ⟨straySurroundings.distinct, ⟨"-1", -1, by cbv, by cbv, by decide⟩, ?_⟩
  rintro ⟨e, he, herror⟩
  exact he (Except.error.inj (herror.symm.trans straySurroundings.load))

end ArithTree
