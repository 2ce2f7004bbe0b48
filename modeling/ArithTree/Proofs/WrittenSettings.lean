import ArithTree.Command.Run
import ArithTree.Proofs.Layering
import ArithTree.Proofs.WrittenDocuments

/-!
# Written settings are read back

Settings are written as a plain document, which the library reads back as it was. Read back, the
file gives all three settings, so neither the defaults nor a file below it matter
(`text_round_trip`). A limit can be written when it fits into a signed number, and no layer gives
one that does not, since neither the library for TOML nor the reader of the environment has larger
numbers.
-/

namespace ArithTree

open Text.Numeral (maxSigned)
open Toml (Document)

/-! ## The document -/

namespace Settings

variable {toml : Toml.Library} {s : Settings} {text : String}

theorem isWord_formatName (format : OutputFormat) : Toml.IsWord format.name := by
  cases format <;> simp [OutputFormat.name, Toml.IsWord, Toml.isBare]

theorem isPlain_document (s : Settings) : s.document.IsPlain := by
  have hword : ∀ name ∈ ["parser", "memoize", "max_input_len", "output", "format"],
      name ≠ "" ∧ ∀ c ∈ name.toList, Toml.isBare c = true := by simp [Toml.isBare]
  refine .cons (hword _ (by decide)) (by simp) ⟨_, rfl, ?_⟩
    (.cons (hword _ (by decide)) (by simp) ⟨_, rfl, ?_⟩ .nil)
  · exact .cons (hword _ (by decide)) (by simp) (.boolean s.memoize)
      (.cons (hword _ (by decide)) (by simp) (.integer s.maxInputLength) .nil)
  · exact .cons (hword _ (by decide)) (by simp) (.text (isWord_formatName s.format)) .nil

theorem fits_document_iff : s.document.Fits ↔ s.maxInputLength ≤ maxSigned := by
  have hnil : Document.Fits [] := List.forall_mem_nil _
  simp only [document, Document.fits_cons_iff, Toml.Value.fits_table_iff,
    Toml.Value.fits_integer_iff, iff_true_intro (Toml.Value.Fits.boolean s.memoize),
    iff_true_intro (Toml.Value.Fits.text s.format.name), iff_true_intro hnil, true_and, and_true]
  omega

theorem toText_ok_iff (h : toml.Lawful) :
    (∃ text, s.toText toml = .ok text) ↔ s.maxInputLength ≤ maxSigned := by
  rw [← fits_document_iff, ← h.write_ok_iff s.isPlain_document]
  unfold toText
  cases toml.write s.document with
  | ok text => exact iff_of_true ⟨_, rfl⟩ ⟨_, rfl⟩
  | error reason => exact iff_of_false (fun h => nomatch h) fun h => nomatch h

/-- **Document lemma.** What is written is read back with its types. -/
theorem ofText?_toText (h : toml.Lawful) (htext : s.toText toml = .ok text) :
    Overlay.ofText? toml text = some ⟨some s.memoize, some s.maxInputLength, some s.format⟩ := by
  have hwrite : toml.write s.document = .ok text := by
    unfold toText at htext
    cases hwrite : toml.write s.document with
    | ok written => rw [hwrite] at htext; exact congrArg _ (Except.ok.inj htext)
    | error reason => rw [hwrite] at htext; cases htext
  have hformat : OutputFormat.ofName? s.format.name = some s.format := OutputFormat.ofName?_name _
  rw [Overlay.ofText?, h.read?_of_write s.isPlain_document hwrite]
  simp only [document, Overlay.ofDocument?, sectionFields?, field?, readBoolean?, readFormat?,
    List.lookup, BEq.rfl, String.reduceBEq, hformat, Option.map_some, Option.bind_eq_bind,
    Option.bind_some]
  rfl

/-- A file that was written says everything. -/
theorem overlay_toText (h : toml.Lawful) (htext : s.toText toml = .ok text) (regular : Bool) :
    let state := FileState.present regular (.ok text)
    ¬ state.Faulty toml ∧
      state.overlay toml = ⟨some s.memoize, some s.maxInputLength, some s.format⟩ := by
  have hread := ofText?_toText h htext
  rcases ofText?_cases toml regular text with ⟨-, hnone⟩ | ⟨hfine, hsome⟩
  · cases hread.symm.trans hnone
  · exact ⟨hfine, Option.some.inj (hsome.symm.trans hread)⟩

end Settings

/-! ## Limits -/

theorem Toml.Document.Fits.lookup {d : Document} {key : String} {v : Toml.Value} (h : d.Fits)
    (hlookup : d.lookup key = some v) : v.Fits := by
  obtain ⟨before, after, rfl, -⟩ := List.lookup_eq_some_iff.mp hlookup
  exact h (key, v) (by simp)

/-- What a document has in the place of a setting fits like the rest of it. -/
theorem Setting.fits_of_value? {α : Type} {k : Setting α} {d : Document} {v : Toml.Value}
    (h : d.Fits) (hv : k.value? d = some v) : v.Fits := by
  unfold value? at hv
  split at hv
  · next hsection =>
    cases h.lookup hsection with
    | table each => exact Document.Fits.lookup each hv
  · next hsection =>
    cases h.lookup hsection with
    | array each => exact each v (List.mem_of_getElem? hv)
  · cases hv

/-- The limit that a layer gives, if it gives one, can be written. -/
def Overlay.Bounded (o : Overlay) : Prop := ∀ n, o.maxInputLength = some n → n ≤ maxSigned

theorem FileState.bounded_overlay {toml : Toml.Library} (h : toml.Lawful) (state : FileState) :
    (state.overlay toml).Bounded := by
  intro n hn
  change Setting.maxInputLength.inFile? toml state = some n at hn
  unfold Setting.inFile? at hn
  split at hn
  · obtain ⟨d, hread, hn⟩ := Option.bind_eq_some_iff.mp hn
    obtain ⟨v, hv, hn⟩ := Option.bind_eq_some_iff.mp hn
    change readLength? v = some n at hn
    unfold readLength? at hn
    split at hn
    · obtain rfl := Option.some.inj hn
      cases Setting.fits_of_value? (h.fits_of_read? hread) hv with
      | integer _ upper => exact Int.ofNat_le.mp upper
    · cases hn
  · cases hn

/-- No variable gives a limit that cannot be written. -/
theorem Environment.bounded_overlay {r : Reader} {env : Environment} {o : Overlay} (hr : r.Lawful)
    (h : env.overlay r = .ok o) : o.Bounded := by
  unfold overlay at h
  split at h
  · next c hbuild =>
    rcases Configuration.overlay_cases hr hbuild with ⟨-, e, -, herror⟩ | ⟨-, hok⟩
    · cases herror.symm.trans h
    · obtain rfl := Except.ok.inj (hok.symm.trans h)
      intro n hn
      obtain ⟨text, -, hn⟩ := Option.bind_eq_some_iff.mp hn
      obtain ⟨i, hi, hn⟩ := Option.bind_eq_some_iff.mp hn
      have hupper := (hr.integer?_inRange hi).2
      split at hn
      · obtain rfl := Option.some.inj hn
        exact Int.toNat_le.mpr hupper
      · cases hn
  · cases h
  · cases h

namespace Settings

variable {lib : Libraries} {m : Surroundings} {s : Settings} {text : String}

theorem le_overlaid {o : Overlay} (hs : s.maxInputLength ≤ maxSigned) (ho : o.Bounded) :
    (s.overlaid o).maxInputLength ≤ maxSigned := by
  change o.maxInputLength.getD s.maxInputLength ≤ maxSigned
  cases h : o.maxInputLength with
  | none => exact hs
  | some n => exact ho n h

theorem le_default : default.maxInputLength ≤ maxSigned := by decide

theorem le_of_load {directory : Option String} (htoml : lib.toml.Lawful)
    (hr : lib.reader.Lawful) (h : load lib m directory = .ok s) : s.maxInputLength ≤ maxSigned := by
  rcases load_cases lib m directory with ⟨-, e, -, herror⟩ | ⟨-, hload⟩
  · cases herror.symm.trans h
  · rw [hload] at h
    cases hvars : m.environment.overlay lib.reader with
    | error e =>
      rw [hvars] at h
      cases h
    | ok vars =>
      rw [hvars] at h
      obtain rfl := Except.ok.inj h
      exact le_overlaid (le_overlaid (le_overlaid le_default (FileState.bounded_overlay htoml _))
        (FileState.bounded_overlay htoml _)) (Environment.bounded_overlay hr hvars)

theorem le_of_loadFile {path : String} (htoml : lib.toml.Lawful)
    (h : loadFile lib m path = .ok s) : s.maxInputLength ≤ maxSigned := by
  rcases loadFile_cases lib m path with ⟨-, e, -, herror⟩ | ⟨-, hload⟩
  · cases herror.symm.trans h
  · obtain rfl := Except.ok.inj (hload.symm.trans h)
    exact le_overlaid le_default (FileState.bounded_overlay htoml _)

/-! ## Round trip -/

theorem loadFile_toText {path : String} (htoml : lib.toml.Lawful)
    (htext : s.toText lib.toml = .ok text) (hpath : (m.file path).content = .ok text) :
    loadFile lib m path = .ok s := by
  cases hstate : m.file path with
  | missing reason =>
    rw [hstate] at hpath
    cases hpath
  | present regular content =>
    rw [hstate] at hpath
    obtain rfl : content = .ok text := hpath
    obtain ⟨hfine, hoverlay⟩ := overlay_toText htoml htext regular
    rcases loadFile_cases lib m path with ⟨hfault, -⟩ | ⟨-, hload⟩
    · rw [hstate] at hfault
      exact absurd hfault (not_or.mpr ⟨Bool.noConfusion, hfine⟩)
    · rw [hload, hstate, hoverlay]
      rfl

theorem load_toText {directory : Option String} (htoml : lib.toml.Lawful)
    (htext : s.toText lib.toml = .ok text) (hupper : (m.localFile directory).content = .ok text)
    (hlower : ¬ (m.globalFile lib).Faulty lib.toml)
    (hvars : m.environment.overlay lib.reader = .ok .empty) : load lib m directory = .ok s := by
  cases hstate : m.localFile directory with
  | missing reason =>
    rw [hstate] at hupper
    cases hupper
  | present regular content =>
    rw [hstate] at hupper
    obtain rfl : content = .ok text := hupper
    obtain ⟨hfine, hoverlay⟩ := overlay_toText htoml htext regular
    rcases load_cases lib m directory with ⟨hfault, -⟩ | ⟨-, hload⟩
    · rw [Surroundings.AtFault, hstate] at hfault
      exact absurd hfault (not_or.mpr ⟨hlower, hfine⟩)
    · rw [hload, hstate, hoverlay, hvars]
      rfl

/-- Settings that are loaded are shown. -/
theorem exit_showSettings {args : List String} {i : Command.Invocation} (htoml : lib.toml.Lawful)
    (hr : lib.reader.Lawful) (hcall : lib.call args = .run i)
    (hshow : i.action = some .showSettings) (hload : load lib m i.configDir = .ok s) :
    (Command.run lib m args).exit = 0 := by
  -- a memo that is switched off changes nothing about the limit
  have hwritten : ∃ text,
      (if i.noMemo then { s with memoize := false } else s).toText lib.toml = .ok text := by
    refine (toText_ok_iff htoml).mpr ?_
    split
    · exact le_of_load (s := s) htoml hr hload
    · exact le_of_load htoml hr hload
  obtain ⟨text, htext⟩ := hwritten
  have hrun : ∃ printed, (i.run lib m (Command.isColoured m.environment m.terminal)).after "" =
      (.ok (), printed) := by
    simp only [Command.Invocation.run, hload, hshow, Command.Action.run, Except.mapError,
      Command.Printing.need_ok_bind, htext]
    exact ⟨_, rfl⟩
  obtain ⟨printed, hrun⟩ := hrun
  simp only [Command.run, hcall, hrun]

/-- **Settings survive being written.** Settings can be written exactly when their limit fits into a
signed number. The file with what was written gives them back, on its own and as the file of the
directory, whatever the file for all runs says, while no variable gives a setting. All settings that
are loaded can be written, so a run that is to show its settings shows them once they are loaded. -/
theorem text_round_trip (lib : Libraries) (htoml : lib.toml.Lawful) (hr : lib.reader.Lawful)
    (s : Settings) :
    ((∃ text, s.toText lib.toml = .ok text) ↔ s.maxInputLength ≤ maxSigned) ∧
    (∀ text, s.toText lib.toml = .ok text → ∀ m : Surroundings,
      (∀ path, (m.file path).content = .ok text → loadFile lib m path = .ok s) ∧
      ∀ directory, (m.localFile directory).content = .ok text →
        ¬ (m.globalFile lib).Faulty lib.toml → m.environment.overlay lib.reader = .ok .empty →
          load lib m directory = .ok s) ∧
    ∀ m : Surroundings,
      (∀ path, loadFile lib m path = .ok s → ∃ text, s.toText lib.toml = .ok text) ∧
      (∀ directory, load lib m directory = .ok s → ∃ text, s.toText lib.toml = .ok text) ∧
      ∀ args i, lib.call args = .run i → i.action = some .showSettings →
        load lib m i.configDir = .ok s → (Command.run lib m args).exit = 0 := by
  refine ⟨toText_ok_iff htoml, fun text htext m => ⟨fun path => loadFile_toText htoml htext,
    fun directory => load_toText htoml htext⟩, fun m => ⟨fun path hload => ?_,
      fun directory hload => ?_, fun args i => exit_showSettings htoml hr⟩⟩
  · exact (toText_ok_iff htoml).mpr (le_of_loadFile htoml hload)
  · exact (toText_ok_iff htoml).mpr (le_of_load htoml hr hload)

/-- Every file has the same text, and there is no variable. -/
def uniformSurroundings (text : String) : Surroundings where
  file _ := .text text
  input := .ok ""
  environment := []
  accountHome := some "/root"
  directory := .ok ""
  terminal := false

/-- Both files give the largest limit, and so does what is loaded. -/
theorem text_round_trip_largest : Libraries.standard.toml.Lawful ∧
    Libraries.standard.reader.Lawful ∧
      ∃ text, toText Libraries.standard.toml ⟨false, maxSigned, .drawing⟩ = .ok text ∧
        load .standard (uniformSurroundings text) none = .ok ⟨false, maxSigned, .drawing⟩ := by
  have hround := text_round_trip .standard Toml.lawful Reader.inOrder_lawful
    ⟨false, maxSigned, .drawing⟩
  obtain ⟨text, htext⟩ := hround.1.mpr (by decide)
  have hlower : ¬ ((uniformSurroundings text).globalFile .standard).Faulty
    Libraries.standard.toml :=
    (overlay_toText Toml.lawful htext true).1
  exact ⟨Toml.lawful, Reader.inOrder_lawful, text, htext,
    (hround.2.1 text htext (uniformSurroundings text)).2 none rfl hlower rfl⟩

end Settings

end ArithTree
