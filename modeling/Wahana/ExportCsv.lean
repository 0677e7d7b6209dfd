import Wahana.Bytes

/-!
# exportCSV_NGINX.php and exportCSV_UWSGI.php

The two exports print a line of titles and then one line for each row of
a query, all of them by `fputcsv` with its default arguments: comma, double
quote and, as escape character, the backslash. The scripts differ in the
table, the file name and the first title.

The rows are what `mysqli_fetch_assoc` returns, a string or `null` for each
column. The table itself is not modelled: a `ResultSet` is any answer to
`SELECT * from ... limit 100`.
-/

namespace Wahana

/-! ## fputcsv -/

/-- A field with one of these bytes in it is enclosed. -/
def enclosedBytes : Bytes := [ch ',', ch '"', ch '\\', ch '\n', ch '\r', ch '\t', ch ' ']

def needsEnclosure (field : Bytes) : Bool := field.any fun b => enclosedBytes.contains b

/-- The loop over the bytes of an enclosed field. A quote is doubled, but
not while the flag is set. -/
def escapeField : (escaped : Bool) → Bytes → Bytes
  | _, [] => []
  | escaped, b :: s =>
      if b = ch '\\' then b :: escapeField true s
      else if !escaped && b == ch '"' then ch '"' :: b :: escapeField escaped s
      else b :: escapeField false s

def csvField (field : Bytes) : Bytes :=
  if needsEnclosure field then ch '"' :: (escapeField false field ++ [ch '"']) else field

/-- The fields, with a comma behind each but the last. -/
def csvFields : List Bytes → Bytes
  | [] => []
  | [field] => csvField field
  | field :: next :: fields => csvField field ++ ch ',' :: csvFields (next :: fields)

abbrev Row := List (Option Bytes)

/-- The line that `fputcsv` writes; `null` becomes the empty string. -/
def fputcsv (fields : Row) : Bytes := csvFields (fields.map fun f => f.getD []) ++ [ch '\n']

/-! ## The scripts -/

/-- An answer to the query: rows of one width, up to the limit. -/
structure ResultSet (α : Type) where
  columns : Nat
  columns_pos : 0 < columns
  rows : List (List α)
  width : ∀ row ∈ rows, row.length = columns
  limit : rows.length ≤ 100

def ResultSet.map {α β : Type} (f : α → β) (result : ResultSet α) : ResultSet β where
  columns := result.columns
  columns_pos := result.columns_pos
  rows := result.rows.map fun row => row.map f
  width := by
    intro row hrow
    obtain ⟨r, hr, rfl⟩ := List.mem_map.mp hrow
    rw [List.length_map]
    exact result.width r hr
  limit := by
    rw [List.length_map]
    exact result.limit

/-- `while ($row = mysqli_fetch_assoc($result))`; an empty array would end
the loop as `null` does. -/
def exportRows : List Row → Bytes
  | [] => []
  | row :: rows => if row.isEmpty then [] else fputcsv row ++ exportRows rows

structure Response where
  headers : List String
  output : Bytes

/-- The script, with `$_POST["export"]` if the form was sent. -/
def exportCsv (filename : String) (titles : List String) (posted : Option Bytes)
    (result : ResultSet (Option Bytes)) : Response :=
  if posted.isSome then
    { headers := ["Content-Type: text/csv; charset=utf-8",
        "Content-Disposition: attachment; filename=" ++ filename]
      output := fputcsv (titles.map fun t => some (bytes t)) ++ exportRows result.rows }
  else
    { headers := [], output := [] }

def exportCsvNginx : Option Bytes → ResultSet (Option Bytes) → Response :=
  exportCsv "nginx.csv" ["ID", "key_json", "value_json"]

def exportCsvUwsgi : Option Bytes → ResultSet (Option Bytes) → Response :=
  exportCsv "uwsgi.csv" ["id", "key_json", "value_json"]

end Wahana
