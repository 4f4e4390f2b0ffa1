import T4.Lib.Base64
import T4.Lib.Text

/-!
# JSON documents

What a JSON text denotes, and how the fields of a record are written to it and read back:
strings as text, with every byte outside a well-formed encoding replaced, byte slices as
base64, and empty fields left out where the record says so. A field that is absent or
null keeps its zero value.

`read_record` looks a field up in a record that was written; the `read_*` lemmas are the
round trips of the single fields, which only strings fail (`readString_writeString`).
-/

namespace T4.Lib

open Lib.Text Lib.Bytes List

inductive Json
  | null
  | bool (value : Bool)
  | num (value : Int)
  | str (text : Bytes)
  | arr (items : List Json)
  | obj (fields : List (String × Json))

namespace Json

inductive Error
  | unexpectedType
  | outOfRange
  | base64
  deriving DecidableEq

/-! ## Writing -/

/-- A record; a field without a document is left out. -/
def record (fields : List (String × Option Json)) : Json :=
  .obj (fields.filterMap (fun f => f.2.map (fun document => (f.1, document))))

/-- A field that is left out when it is empty. -/
def omitEmpty (empty : Bool) (document : Json) : Option Json :=
  if empty then none else some document

def writeString (s : Bytes) : Json := .str (coerceUTF8 s)

def writeBytes (b : Bytes) : Json := if b = [] then .null else .str (Base64.encode b)

def writeInt (n : Int) : Json := .num n

def writeUInt8 (n : UInt8) : Json := .num n.toNat

/-! ## Reading -/

def readString : Json → Except Error Bytes
  | .str text => .ok text
  | .null => .ok []
  | _ => .error .unexpectedType

def readBytes : Json → Except Error Bytes
  | .str text =>
    match Base64.decode text with
    | some b => .ok b
    | none => .error .base64
  | .null => .ok []
  | _ => .error .unexpectedType

def readInt64 : Json → Except Error Int
  | .num n => if IsInt64 n then .ok n else .error .outOfRange
  | .null => .ok 0
  | _ => .error .unexpectedType

def readUInt8 : Json → Except Error UInt8
  | .num n => if 0 ≤ n ∧ n < 256 then .ok (UInt8.ofNat n.toNat) else .error .outOfRange
  | .null => .ok 0
  | _ => .error .unexpectedType

def readBool : Json → Except Error Bool
  | .bool b => .ok b
  | .null => .ok false
  | _ => .error .unexpectedType

def readAll {α : Type*} (item : Json → Except Error α) : List Json → Except Error (List α)
  | [] => .ok []
  | j :: rest =>
    match item j with
    | .error err => .error err
    | .ok a =>
      match readAll item rest with
      | .error err => .error err
      | .ok more => .ok (a :: more)

def readList {α : Type*} (item : Json → Except Error α) : Json → Except Error (List α)
  | .arr items => readAll item items
  | .null => .ok []
  | _ => .error .unexpectedType

def readPointer {α : Type*} (target : Json → Except Error α) : Json → Except Error (Option α)
  | .null => .ok none
  | j =>
    match target j with
    | .error err => .error err
    | .ok a => .ok (some a)

/-- Read a document, or take the zero value for a missing one. -/
def readOptional {α : Type*} (zero : α) (read : Json → Except Error α) :
    Option Json → Except Error α
  | none => .ok zero
  | some document => read document

/-- Read the field `name` of a record. -/
def field {α : Type*} (j : Json) (name : String) (zero : α) (read : Json → Except Error α) :
    Except Error α :=
  match j with
  | .obj fields => readOptional zero read (fields.lookup name)
  | _ => .error .unexpectedType

/-! ## Round trips -/

variable {α : Type*} {read : Json → Except Error α} {zero : α}

theorem field_record {fields : List (String × Option Json)} {name : String}
    (distinct : (fields.map Prod.fst).Nodup) (zero : α) (read : Json → Except Error α) :
    (record fields).field name zero read =
      readOptional zero read (fields.lookup name).join := by
  have looked :
      (fields.filterMap (fun f => f.2.map (fun document => (f.1, document)))).lookup name =
      (fields.lookup name).join := by
    induction fields with
    | nil => rfl
    | cons f rest ih =>
      obtain ⟨first, document⟩ := f
      rw [map_cons, nodup_cons] at distinct
      have later := ih distinct.2
      by_cases here : name = first
      · subst here
        have absent : rest.lookup name = none := by
          rw [lookup_eq_none_iff]
          intro p mem
          simp only [bne_iff_ne, ne_eq]
          intro same
          exact distinct.1 (mem_map.mpr ⟨p, mem, same.symm⟩)
        cases document with
        | none =>
          rw [absent] at later
          simpa [lookup_cons] using later
        | some document => simp
      · have differs : (name == first) = false := by simpa using here
        cases document with
        | none => simpa [lookup_cons, differs] using later
        | some document => simpa [lookup_cons, differs] using later
  unfold record field
  simp only [looked]

/-- A reader of a record, past one of its fields. -/
theorem field_bind {α β : Type} {read : Json → Except Error α} {zero : α}
    {fields : List (String × Option Json)} {name : String}
    {document : Option Json} {a : α} {next : α → Except Error β} {result : Except Error β}
    (distinct : (fields.map Prod.fst).Nodup) (found : fields.lookup name = some document)
    (reads : readOptional zero read document = .ok a) (rest : next a = result) :
    ((record fields).field name zero read >>= next) = result := by
  rw [field_record distinct, found, Option.join_some, reads]
  exact rest

theorem readOptional_some {a : α} {document : Json} (reads : read document = .ok a) :
    readOptional zero read (some document) = .ok a :=
  reads

theorem readOptional_omitEmpty {empty : Bool} {after : α} {document : Json}
    (whenEmpty : empty = true → zero = after) (otherwise : read document = .ok after) :
    readOptional zero read (omitEmpty empty document) = .ok after := by
  cases empty with
  | true => rw [← whenEmpty rfl]; rfl
  | false => exact otherwise

theorem readString_writeString (s : Bytes) : readString (writeString s) = .ok (coerceUTF8 s) := rfl

theorem readBytes_writeBytes (b : Bytes) : readBytes (writeBytes b) = .ok b := by
  unfold writeBytes
  split
  · rename_i empty
    rw [empty]
    rfl
  · simp only [readBytes, Base64.decode_encode]

theorem readInt64_writeInt {n : Int} (fits : IsInt64 n) : readInt64 (writeInt n) = .ok n :=
  if_pos fits

theorem readUInt8_writeUInt8 (n : UInt8) : readUInt8 (writeUInt8 n) = .ok n := by
  have low := n.toNat_lt
  have range : (0 : Int) ≤ n.toNat ∧ (n.toNat : Int) < 256 := by omega
  simp only [writeUInt8, readUInt8, if_pos range, Int.toNat_natCast, UInt8.ofNat_toNat]

theorem readAll_map {write : α → Json} {after : α → α} {items : List α}
    (each : ∀ a ∈ items, read (write a) = .ok (after a)) :
    readAll read (items.map write) = .ok (items.map after) := by
  induction items with
  | nil => rfl
  | cons a rest ih =>
    rw [map_cons, readAll, each a (by simp),
      ih (fun a mem => each a (mem_cons_of_mem _ mem)), map_cons]

/-! Fields that are left out when they are empty. -/

theorem readOptional_omitInt {n : Int} (fits : IsInt64 n) :
    readOptional 0 readInt64 (omitEmpty (n = 0) (writeInt n)) = .ok n :=
  readOptional_omitEmpty (fun zero => (of_decide_eq_true zero).symm) (readInt64_writeInt fits)

theorem readOptional_omitBytes (b : Bytes) :
    readOptional [] readBytes (omitEmpty (b = []) (writeBytes b)) = .ok b :=
  readOptional_omitEmpty (fun empty => (of_decide_eq_true empty).symm) (readBytes_writeBytes b)

theorem readOptional_omitString (s : Bytes) :
    readOptional [] readString (omitEmpty (s = []) (writeString s)) = .ok (coerceUTF8 s) :=
  readOptional_omitEmpty (fun empty => by rw [of_decide_eq_true empty]; rfl)
    (readString_writeString s)

section Lists

variable {α : Type*} {read : Json → Except Error α} {write : α → Json} {after : α → α}

theorem readOptional_omitList {items : List α} [Decidable (items = [])]
    (each : ∀ a ∈ items, read (write a) = .ok (after a)) :
    readOptional [] (readList read) (omitEmpty (items = []) (.arr (items.map write))) =
      .ok (items.map after) :=
  readOptional_omitEmpty (fun empty => by rw [of_decide_eq_true empty]; rfl) (readAll_map each)

theorem readOptional_pointer {target : Option α} (isRecord : ∀ a, ∃ fields, write a = record fields)
    (each : ∀ a ∈ target, read (write a) = .ok (after a)) :
    readOptional none (readPointer read) (target.map write) = .ok (target.map after) := by
  cases target with
  | none => rfl
  | some a =>
    have reads := each a rfl
    obtain ⟨fields, same⟩ := isRecord a
    rw [Option.map_some, readOptional]
    rw [same] at reads ⊢
    rw [record] at reads ⊢
    simp only [readPointer, reads]
    rfl

end Lists

end Json

end T4.Lib
