import ArithTree.Toml.Document

/-!
# Whole numbers in a document

A document is read into values, and every whole number among them fits into 64 bits with sign, in
whatever notation it was written and however deep it stands (`read?_fits`). Each reader of values
has one lemma, and so has each way in which a line changes the drafts of tables read so far.
-/

namespace ArithTree

namespace Toml

open Text.Numeral (maxSigned)

/-- Every whole number in the draft fits. -/
inductive Draft.Fits : Draft → Prop
  | value {v : Value} (h : v.Fits) : Fits (.value v)
  | table {origin : Origin} {entries : Drafts} (each : ∀ e ∈ entries, Fits e.2) :
      Fits (.table origin entries)
  | tables {items : List Drafts} (each : ∀ entries ∈ items, ∀ e ∈ entries, Fits e.2) :
      Fits (.tables items)

def Drafts.Fits (entries : Drafts) : Prop := ∀ e ∈ entries, e.2.Fits

/-! ## Finished drafts -/

theorem finishEntries_eq_map (entries : Drafts) :
    finishEntries entries = entries.map fun e => (e.1, e.2.finish) := by
  induction entries with
  | nil => rw [finishEntries, List.map_nil]
  | cons e entries ih => rw [finishEntries, ih, List.map_cons]

theorem finishTables_eq_map (items : List Drafts) :
    finishTables items = items.map fun entries => .table (finishEntries entries) := by
  induction items with
  | nil => rw [finishTables, List.map_nil]
  | cons entries items ih => rw [finishTables, ih, List.map_cons]

theorem Draft.Fits.finish {d : Draft} (h : d.Fits) : d.finish.Fits := by
  induction h with
  | value h => rwa [Draft.finish]
  | table each ih =>
    rw [Draft.finish, finishEntries_eq_map]
    refine .table fun e he => ?_
    obtain ⟨draft, hdraft, rfl⟩ := List.mem_map.mp he
    exact ih draft hdraft
  | tables each ih =>
    rw [Draft.finish, finishTables_eq_map]
    refine .array fun v hv => ?_
    obtain ⟨entries, hentries, rfl⟩ := List.mem_map.mp hv
    rw [finishEntries_eq_map]
    refine .table fun e he => ?_
    obtain ⟨draft, hdraft, rfl⟩ := List.mem_map.mp he
    exact ih entries hentries draft hdraft

theorem Drafts.Fits.finish {entries : Drafts} (h : entries.Fits) :
    Document.Fits (finishEntries entries) := by
  rw [finishEntries_eq_map]
  intro e he
  obtain ⟨draft, hdraft, rfl⟩ := List.mem_map.mp he
  exact (h draft hdraft).finish

/-- All values that a reader gives fit. -/
def GivesFitting (read : List Char → Option (Value × List Char)) : Prop :=
  ∀ cs v rest, read cs = some (v, rest) → v.Fits

/-! ## Numbers -/

theorem integerOf?_fits {negative : Bool} {magnitude : Nat} {v : Value}
    (h : integerOf? negative magnitude = some v) : v.Fits := by
  unfold integerOf? at h
  split at h <;> split at h
  · obtain rfl := Option.some.inj h
    exact .integer (by omega) (by omega)
  · cases h
  · obtain rfl := Option.some.inj h
    exact .integer (by omega) (by omega)
  · cases h

theorem based?_fits (base : Nat) : GivesFitting (based? base) := by
  intro cs v rest h
  simp only [based?, Option.bind_eq_bind, Option.bind_eq_some_iff, Option.pure_def,
    Option.some.injEq, Prod.mk.injEq] at h
  obtain ⟨_, -, n, hn, rfl, -⟩ := h
  exact integerOf?_fits hn

theorem unsignedNumber?_fits (negative : Bool) : GivesFitting (unsignedNumber? negative) := by
  intro cs v rest h
  simp only [unsignedNumber?, Option.bind_eq_bind, Option.bind_eq_some_iff] at h
  obtain ⟨⟨whole, r⟩, -, ⟨fraction, afterFraction⟩, -, ⟨exponent, afterExponent⟩, -, h⟩ := h
  dsimp only at h
  split at h
  · obtain ⟨n, hn, h⟩ := Option.bind_eq_some_iff.mp h
    obtain ⟨rfl, -⟩ := Prod.mk.inj (Option.some.inj h)
    exact integerOf?_fits hn
  · split at h
    · obtain ⟨rfl, -⟩ := Prod.mk.inj (Option.some.inj h)
      exact .decimal
    · cases h

theorem special?_fits : GivesFitting special? := by
  intro cs v rest h
  unfold special? at h
  split at h
  · obtain ⟨rfl, -⟩ := Prod.mk.inj (Option.some.inj h)
    exact .decimal
  · obtain ⟨rfl, -⟩ := Prod.mk.inj (Option.some.inj h)
    exact .decimal
  · cases h

theorem GivesFitting.or {read read' : List Char → Option (Value × List Char)}
    (h : GivesFitting read) (h' : GivesFitting read') :
    GivesFitting fun cs => (read cs).or (read' cs) := by
  intro cs v rest hread
  rcases Option.or_eq_some_iff.mp hread with hread | ⟨-, hread⟩
  · exact h cs v rest hread
  · exact h' cs v rest hread

theorem number?_fits : GivesFitting number? := by
  intro cs v rest h
  unfold number? at h
  split at h
  · exact based?_fits 16 _ _ _ h
  · exact based?_fits 8 _ _ _ h
  · exact based?_fits 2 _ _ _ h
  · exact special?_fits.or (unsignedNumber?_fits true) _ _ _ h
  · exact special?_fits.or (unsignedNumber?_fits false) _ _ _ h
  · exact special?_fits.or (unsignedNumber?_fits false) _ _ _ h

/-! ## Tables -/

namespace Draft.Fits

theorem of_table {origin : Origin} {entries : Drafts} (h : (Draft.table origin entries).Fits) :
    entries.Fits := by
  cases h with
  | table each => exact each

variable {items : List Drafts} {last : Drafts}

/-- The last table of an array of tables. -/
theorem getLast (h : (Draft.tables items).Fits) (hlast : items.getLast? = some last) :
    last.Fits := by
  cases h with
  | tables each => exact each last (List.mem_of_getLast? hlast)

/-- The array with another last table. -/
theorem putLast (h : (Draft.tables items).Fits) (hlast : last.Fits) :
    (Draft.tables (items.dropLast ++ [last])).Fits := by
  cases h with
  | tables each =>
    refine .tables fun entries hentries => ?_
    rcases List.mem_append.mp hentries with hmem | hmem
    · exact each entries (List.dropLast_subset _ hmem)
    · rwa [List.mem_singleton.mp hmem]

end Draft.Fits

namespace Drafts

section

variable {entries : Drafts} {key : String} {draft : Draft}

theorem fits_nil : Fits [] := fun _ h => by cases h

theorem Fits.lookup (h : entries.Fits) (hlookup : entries.lookup key = some draft) :
    draft.Fits := by
  obtain ⟨before, after, rfl, -⟩ := List.lookup_eq_some_iff.mp hlookup
  exact h (key, draft) (by simp)

theorem Fits.put (h : entries.Fits) (hdraft : draft.Fits) :
    (entries.put key draft).Fits := by
  intro e he
  obtain ⟨e', he', rfl⟩ := List.mem_map.mp he
  split
  · exact hdraft
  · exact h e' he'

theorem Fits.add (h : entries.Fits) (hdraft : draft.Fits) :
    (entries.add key draft).Fits := by
  intro e he
  rcases List.mem_append.mp he with he | he
  · exact h e he
  · rwa [List.mem_singleton.mp he]

end

/-- Changing an inner table keeps the numbers in range, where the change does. -/
theorem within_fits {change : Drafts → Option Drafts}
    (hchange : ∀ entries entries', entries.Fits → change entries = some entries' →
      entries'.Fits) (path : List String) : ∀ {entries entries' : Drafts}, entries.Fits →
        entries.within change path = some entries' → entries'.Fits := by
  induction path with
  | nil => exact fun h hwithin => hchange _ _ h hwithin
  | cons key path ih =>
    intro entries entries' h hwithin
    rw [within] at hwithin
    split at hwithin
    · obtain ⟨inner, hinner, rfl⟩ := Option.map_eq_some_iff.mp hwithin
      exact h.add (.table (ih fits_nil hinner))
    · next hlookup =>
      obtain ⟨inner, hinner, rfl⟩ := Option.map_eq_some_iff.mp hwithin
      exact h.put (.table (ih (h.lookup hlookup).of_table hinner))
    · next hlookup =>
      split at hwithin
      · next hlast =>
        obtain ⟨inner, hinner, rfl⟩ := Option.map_eq_some_iff.mp hwithin
        have htables := h.lookup hlookup
        exact h.put (htables.putLast (ih (htables.getLast hlast) hinner))
      · cases hwithin
    · cases hwithin

theorem assign_fits {value : Value} (hvalue : value.Fits) (path : List String) :
    ∀ {direct : Bool} {entries entries' : Drafts}, entries.Fits →
      assign value path direct entries = some entries' → entries'.Fits := by
  induction path with
  | nil => exact fun _ hassign => by cases hassign
  | cons key path ih =>
    intro direct entries entries' h hassign
    cases path with
    | nil =>
      rw [assign] at hassign
      split at hassign
      · obtain rfl := Option.some.inj hassign
        exact h.add (.value hvalue)
      · cases hassign
    | cons key' path =>
      rw [assign] at hassign
      · split at hassign
        · obtain ⟨inner, hinner, rfl⟩ := Option.map_eq_some_iff.mp hassign
          exact h.add (.table (ih fits_nil hinner))
        · next hlookup =>
          obtain ⟨inner, hinner, rfl⟩ := Option.map_eq_some_iff.mp hassign
          exact h.put (.table (ih (h.lookup hlookup).of_table hinner))
        · next hlookup =>
          obtain ⟨inner, hinner, rfl⟩ := Option.map_eq_some_iff.mp hassign
          exact h.put (.table (ih (h.lookup hlookup).of_table hinner))
        · next hlookup =>
          split at hassign
          · next hlast =>
            obtain ⟨inner, hinner, rfl⟩ := Option.map_eq_some_iff.mp hassign
            have htables := h.lookup hlookup
            exact h.put (htables.putLast (ih (htables.getLast hlast) hinner))
          · cases hassign
        · cases hassign
      · exact fun h => by cases h

theorem openTable_fits {path : List String} {key : String} {entries entries' : Drafts}
    (h : entries.Fits) (hopen : entries.openTable path key = some entries') :
    entries'.Fits := by
  refine within_fits (fun parent parent' hparent hchange => ?_) path h hopen
  split at hchange
  · obtain rfl := Option.some.inj hchange
    exact hparent.add (.table fits_nil)
  · next hlookup =>
    obtain rfl := Option.some.inj hchange
    exact hparent.put (.table (hparent.lookup hlookup).of_table)
  · cases hchange

theorem openElement_fits {path : List String} {key : String} {entries entries' : Drafts}
    (h : entries.Fits) (hopen : entries.openElement path key = some entries') :
    entries'.Fits := by
  refine within_fits (fun parent parent' hparent hchange => ?_) path h hopen
  split at hchange
  · obtain rfl := Option.some.inj hchange
    exact hparent.add (.tables fun e he => by rw [List.mem_singleton.mp he]; exact fits_nil)
  · next hlookup =>
    obtain rfl := Option.some.inj hchange
    refine hparent.put (.tables fun e he => ?_)
    rcases List.mem_append.mp he with hmem | hmem
    · cases hparent.lookup hlookup with
      | tables each => exact each e hmem
    · rw [List.mem_singleton.mp hmem]
      exact fits_nil
  · cases hchange

end Drafts

/-! ## Values -/

theorem scalarValue?_fits : GivesFitting scalarValue? := by
  intro cs v rest h
  unfold scalarValue? at h
  split at h
  · obtain ⟨_, -, heq⟩ := Option.map_eq_some_iff.mp h
    obtain ⟨rfl, -⟩ := Prod.mk.inj heq
    exact .text _
  · obtain ⟨_, -, heq⟩ := Option.map_eq_some_iff.mp h
    obtain ⟨rfl, -⟩ := Prod.mk.inj heq
    exact .text _
  · obtain ⟨rfl, -⟩ := Prod.mk.inj (Option.some.inj h)
    exact .boolean _
  · obtain ⟨rfl, -⟩ := Prod.mk.inj (Option.some.inj h)
    exact .boolean _
  · rcases Option.or_eq_some_iff.mp h with h | ⟨-, h⟩
    · obtain ⟨_, -, heq⟩ := Option.map_eq_some_iff.mp h
      obtain ⟨rfl, -⟩ := Prod.mk.inj heq
      exact .moment
    · exact number?_fits _ _ _ h

section

variable {read : List Char → Option (Value × List Char)} (hread : GivesFitting read)

include hread

theorem items?_fits (fuel : Nat) : ∀ {cs : List Char} {values : List Value} {rest : List Char},
    items? read fuel cs = some (values, rest) → ∀ v ∈ values, v.Fits := by
  induction fuel with
  | zero => exact fun h => by cases h
  | succ fuel ih =>
    intro cs values rest h
    rw [items?] at h
    split at h
    · obtain ⟨rfl, -⟩ := Prod.mk.inj (Option.some.inj h)
      exact fun v hv => by cases hv
    · obtain ⟨⟨value, cs'⟩, hvalue, h⟩ := Option.bind_eq_some_iff.mp h
      have hfirst := hread _ _ _ hvalue
      dsimp only at h
      split at h
      · obtain ⟨⟨values', rest'⟩, hvalues, h⟩ := Option.bind_eq_some_iff.mp h
        obtain ⟨rfl, -⟩ := Prod.mk.inj (Option.some.inj h)
        exact List.forall_mem_cons.mpr ⟨hfirst, ih hvalues⟩
      · obtain ⟨rfl, -⟩ := Prod.mk.inj (Option.some.inj h)
        exact fun v hv => by rwa [List.mem_singleton.mp hv]
      · cases h

theorem pair?_fits {cs : List Char} {path : List String} {value : Value} {rest : List Char}
    (h : pair? read cs = some ((path, value), rest)) : value.Fits := by
  obtain ⟨⟨path', cs'⟩, -, h⟩ := Option.bind_eq_some_iff.mp h
  dsimp only at h
  split at h
  · obtain ⟨⟨value', rest'⟩, hvalue, h⟩ := Option.bind_eq_some_iff.mp h
    obtain ⟨heq, -⟩ := Prod.mk.inj (Option.some.inj h)
    obtain ⟨-, rfl⟩ := Prod.mk.inj heq
    exact hread _ _ _ hvalue
  · cases h

theorem pairs?_fits (fuel : Nat) : ∀ {cs : List Char} {pairs : List (List String × Value)}
    {rest : List Char}, pairs? read fuel cs = some (pairs, rest) → ∀ p ∈ pairs, p.2.Fits := by
  induction fuel with
  | zero => exact fun h => by cases h
  | succ fuel ih =>
    intro cs pairs rest h
    rw [pairs?] at h
    obtain ⟨⟨⟨path, value⟩, cs'⟩, hpair, h⟩ := Option.bind_eq_some_iff.mp h
    have hfirst := pair?_fits hread hpair
    dsimp only at h
    split at h
    · obtain ⟨⟨pairs', rest'⟩, hpairs, h⟩ := Option.bind_eq_some_iff.mp h
      obtain ⟨rfl, -⟩ := Prod.mk.inj (Option.some.inj h)
      exact List.forall_mem_cons.mpr ⟨hfirst, ih hpairs⟩
    · obtain ⟨rfl, -⟩ := Prod.mk.inj (Option.some.inj h)
      exact fun p hp => by rwa [List.mem_singleton.mp hp]
    · cases h

end

/-- What every step keeps holds after a fold that can fail. -/
theorem foldlM_keeps {α β : Type} {P : β → Prop} {step : β → α → Option β} {xs : List α}
    (hstep : ∀ b b', ∀ x ∈ xs, P b → step b x = some b' → P b') :
    ∀ {b b' : β}, P b → xs.foldlM step b = some b' → P b' := by
  induction xs with
  | nil =>
    intro b b' hb hfold
    rwa [← Option.some.inj hfold]
  | cons x xs ih =>
    intro b b' hb hfold
    rw [List.foldlM_cons] at hfold
    obtain ⟨b₁, hfirst, hfold⟩ := Option.bind_eq_some_iff.mp hfold
    exact ih (fun b b' y hy => hstep b b' y (List.mem_cons_of_mem x hy))
      (hstep b b₁ x (List.mem_cons_self ..) hb hfirst) hfold

theorem braces?_fits {read : List Char → Option (Value × List Char)} (hread : GivesFitting read) :
    GivesFitting (braces? read) := by
  intro cs v rest h
  unfold braces? at h
  split at h
  · obtain ⟨rfl, -⟩ := Prod.mk.inj (Option.some.inj h)
    exact .table fun e he => by cases he
  · obtain ⟨⟨pairs, rest'⟩, hpairs, h⟩ := Option.bind_eq_some_iff.mp h
    obtain ⟨entries, hentries, h⟩ := Option.bind_eq_some_iff.mp h
    obtain ⟨rfl, -⟩ := Prod.mk.inj (Option.some.inj h)
    exact .table (Drafts.Fits.finish
      (foldlM_keeps (P := Drafts.Fits) (fun entries entries' p hp hin hassign =>
      Drafts.assign_fits (pairs?_fits hread _ hpairs p hp) p.1 hin hassign)
      Drafts.fits_nil hentries))

theorem value?_fits (depth : Nat) : GivesFitting (value? depth) := by
  induction depth using Nat.strongRecOn with
  | ind depth ih =>
    intro cs v rest h
    unfold value? at h
    split at h
    · cases h
    · cases h
    · exact scalarValue?_fits _ _ _ h
    · next lower cs =>
      obtain ⟨⟨items, rest'⟩, hitems, heq⟩ := Option.map_eq_some_iff.mp h
      obtain ⟨rfl, -⟩ := Prod.mk.inj heq
      exact .array (items?_fits (ih lower (Nat.lt_succ_self lower)) _ hitems)
    · next lower cs => exact braces?_fits (ih lower (Nat.lt_succ_self lower)) _ _ _ h
    · exact scalarValue?_fits _ _ _ h

/-! ## Documents -/

/-- The value on a line, if it has one, is in range. -/
def Line.Fits : Line → Prop
  | .pair _ value => value.Fits
  | .table _ => True
  | .element _ => True

theorem line?_fits {cs rest : List Char} {line : Line} (h : line? cs = some (line, rest)) :
    line.Fits := by
  unfold line? at h
  split at h
  · obtain ⟨⟨path, cs'⟩, -, h⟩ := Option.bind_eq_some_iff.mp h
    dsimp only at h
    split at h
    · obtain ⟨rfl, -⟩ := Prod.mk.inj (Option.some.inj h)
      trivial
    · cases h
  · obtain ⟨⟨path, cs'⟩, -, h⟩ := Option.bind_eq_some_iff.mp h
    dsimp only at h
    split at h
    · obtain ⟨rfl, -⟩ := Prod.mk.inj (Option.some.inj h)
      trivial
    · cases h
  · obtain ⟨⟨⟨path, value⟩, rest'⟩, hpair, heq⟩ := Option.map_eq_some_iff.mp h
    obtain ⟨rfl, -⟩ := Prod.mk.inj heq
    exact pair?_fits (value?_fits maxDepth) hpair

theorem lines?_fits (fuel : Nat) : ∀ {cs : List Char} {lines : List Line},
    lines? fuel cs = some lines → ∀ line ∈ lines, line.Fits := by
  induction fuel with
  | zero => exact fun h => by cases h
  | succ fuel ih =>
    intro cs lines h
    rw [lines?] at h
    split at h
    · obtain rfl := Option.some.inj h
      exact fun line hline => by cases hline
    · split at h
      · exact ih h
      · obtain ⟨⟨line, cs'⟩, hline, h⟩ := Option.bind_eq_some_iff.mp h
        obtain ⟨cs'', -, h⟩ := Option.bind_eq_some_iff.mp h
        obtain ⟨lines', hlines, h⟩ := Option.bind_eq_some_iff.mp h
        obtain rfl := Option.some.inj h
        exact List.forall_mem_cons.mpr ⟨line?_fits hline, ih hlines⟩

theorem extend_fits {state state' : Drafts × List String} {line : Line} (hline : line.Fits)
    (h : state.1.Fits) (hextend : line.extend state = some state') : state'.1.Fits := by
  cases line with
  | pair key value =>
    obtain ⟨entries, hentries, rfl⟩ := Option.map_eq_some_iff.mp hextend
    exact Drafts.within_fits (fun _ _ => Drafts.assign_fits hline key) _ h hentries
  | table path =>
    obtain ⟨key, -, hextend⟩ := Option.bind_eq_some_iff.mp hextend
    obtain ⟨entries, hentries, hextend⟩ := Option.bind_eq_some_iff.mp hextend
    obtain rfl := Option.some.inj hextend
    exact Drafts.openTable_fits h hentries
  | element path =>
    obtain ⟨key, -, hextend⟩ := Option.bind_eq_some_iff.mp hextend
    obtain ⟨entries, hentries, hextend⟩ := Option.bind_eq_some_iff.mp hextend
    obtain rfl := Option.some.inj hextend
    exact Drafts.openElement_fits h hentries

/-- **Range lemma.** Whatever a document says, its whole numbers fit. -/
theorem read?_fits {text : String} {d : Document} (h : read? text = some d) : d.Fits := by
  obtain ⟨lines, hlines, h⟩ := Option.bind_eq_some_iff.mp h
  obtain ⟨state, hstate, h⟩ := Option.bind_eq_some_iff.mp h
  obtain rfl := Option.some.inj h
  exact Drafts.Fits.finish (foldlM_keeps (P := fun state : Drafts × List String => state.1.Fits)
    (fun _ _ line hline => extend_fits (lines?_fits _ hlines line hline)) Drafts.fits_nil hstate)

end Toml

end ArithTree
