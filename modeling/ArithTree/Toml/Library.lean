import ArithTree.Text.Numeral
import ArithTree.Toml.Value

/-!
# The library for TOML

Settings files are read and written by a library. Nothing is assumed of it but three laws
(`Library.Lawful`): whole numbers have 64 bits with sign, a plain document can be written unless a
number in it is larger, and what is written is read back.
-/

namespace ArithTree.Toml

open Text.Numeral (maxSigned)

structure Library where
  /-- The document that a text is, if it is one. -/
  read? : String → Option Document
  /-- The text of a document, or the reason why there is none. -/
  write : Document → Except String String

/-- Every whole number in the value fits into 64 bits with sign. -/
inductive Value.Fits : Value → Prop
  | text (s : String) : Fits (.text s)
  | integer {n : Int} (lower : -(maxSigned : Int) - 1 ≤ n) (upper : n ≤ (maxSigned : Int)) :
      Fits (.integer n)
  | decimal : Fits .decimal
  | boolean (b : Bool) : Fits (.boolean b)
  | moment : Fits .moment
  | array {items : List Value} (each : ∀ v ∈ items, Fits v) : Fits (.array items)
  | table {entries : List (String × Value)} (each : ∀ e ∈ entries, Fits e.2) : Fits (.table entries)

def Document.Fits (d : Document) : Prop := ∀ e ∈ d, e.2.Fits

theorem Value.fits_integer_iff {n : Int} : (Value.integer n).Fits ↔
    -(maxSigned : Int) - 1 ≤ n ∧ n ≤ (maxSigned : Int) :=
  ⟨fun h => (by cases h with | integer lower upper => exact ⟨lower, upper⟩),
    fun h => .integer h.1 h.2⟩

theorem Value.fits_table_iff {d : Document} : (Value.table d).Fits ↔ d.Fits :=
  ⟨fun h => (by cases h with | table each => exact each), .table⟩

theorem Document.fits_cons_iff {e : String × Value} {d : Document} :
    Document.Fits (e :: d) ↔ e.2.Fits ∧ d.Fits := List.forall_mem_cons

/-! ## Plain documents -/

/-- What a key may consist of without quotes. -/
def isBare (c : Char) : Bool := c.isAlphanum || c = '-' || c = '_'

/-- A key that needs no quotes, or a text in which nothing has to be escaped. -/
def IsWord (s : String) : Prop := s ≠ "" ∧ ∀ c ∈ s.toList, isBare c = true

/-- A value that is written on one line after its key. -/
inductive Value.IsPlain : Value → Prop
  | text {s : String} (h : IsWord s) : IsPlain (.text s)
  | integer (n : Int) : IsPlain (.integer n)
  | boolean (b : Bool) : IsPlain (.boolean b)

/-- Words as keys, each once, with values of one kind. -/
structure Document.Keyed (d : Document) (Kind : Value → Prop) : Prop where
  word : ∀ e ∈ d, IsWord e.1
  nodup : (d.map (·.1)).Nodup
  kind : ∀ e ∈ d, Kind e.2

theorem Document.Keyed.nil {Kind : Value → Prop} : Document.Keyed [] Kind where
  word := List.forall_mem_nil _
  nodup := List.nodup_nil
  kind := List.forall_mem_nil _

theorem Document.Keyed.cons {Kind : Value → Prop} {name : String} {v : Value} {d : Document}
    (hword : IsWord name) (hfresh : name ∉ d.map (·.1)) (hkind : Kind v) (h : d.Keyed Kind) :
    Document.Keyed ((name, v) :: d) Kind where
  word := List.forall_mem_cons.mpr ⟨hword, h.word⟩
  nodup := List.nodup_cons.mpr ⟨hfresh, h.nodup⟩
  kind := List.forall_mem_cons.mpr ⟨hkind, h.kind⟩

/-- A section of plain values. -/
def Value.IsSection (v : Value) : Prop :=
  ∃ fields : Document, v = .table fields ∧ fields.Keyed Value.IsPlain

/-- A document of sections. -/
def Document.IsPlain (d : Document) : Prop := d.Keyed Value.IsSection

/-! ## Laws -/

/-- What is relied on. -/
structure Library.Lawful (toml : Library) : Prop where
  /-- Whole numbers are read into 64 bits with sign. -/
  fits_of_read? {text : String} {d : Document} : toml.read? text = some d → d.Fits
  /-- A plain document is refused only for a whole number without room in 64 bits with sign. -/
  write_ok_iff {d : Document} : d.IsPlain → ((∃ text, toml.write d = .ok text) ↔ d.Fits)
  /-- A plain document that was written is read back. -/
  read?_of_write {d : Document} {text : String} : d.IsPlain → toml.write d = .ok text →
    toml.read? text = some d

end ArithTree.Toml
