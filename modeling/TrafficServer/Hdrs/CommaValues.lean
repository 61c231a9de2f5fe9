/-
Changes of one value in the list of a field (`mime_field_value_*_comma_val` in `proxy/hdrs/MIME.cc`, `HttpCompat::parse_tok_list` in
`proxy/hdrs/HttpCompat.cc`).

The value of a field is taken apart at the commas that are not in quotes, one part is set, deleted, put in or made longer, and the parts are
put together again. Each change ends like `mime_field_value_set`.
-/
import TrafficServer.Hdrs.MimeHdr

namespace TrafficServer.Hdrs.MimeHdr

open HttpParse HdrCsv

/-- a token, and what is behind the separator that ends it -/
def tokenEnd (sep : UInt8) : (inQuote : Bool) → Bytes → Bytes × Option Bytes
  | _, [] => ([], none)
  | inQuote, c :: s =>
    if c = sep ∧ inQuote = false then ([], some s)
    else
      let (token, rest) := tokenEnd sep (if c = dquote then !inQuote else inQuote) s
      (c :: token, rest)

/-- The tokens of a string. At the end, and behind the last separator, there is an empty one. -/
def tokens (sep : UInt8) : ℕ → Bytes → List Bytes
  | 0, _ => []
  | n + 1, s =>
    match s.dropWhile isWs with
    | [] => [[]]
    | c :: s =>
      if c = sep then [] :: tokens sep n s
      else
        match tokenEnd sep false (c :: s) with
        | (token, none) => [token.rdropWhile isWs]
        | (token, some rest) => token.rdropWhile isWs :: tokens sep n rest

/-- `HttpCompat::parse_tok_list`, with the quotes left in -/
def parseTokList (value : Option Bytes) : List Bytes :=
  match value with
  | none => []
  | some s => tokens comma (s.length + 1) s

/-- `mime_field_value_str_from_strlist` -/
def valueStrFromStrList (list : List Bytes) : Bytes := (text ", ").intercalate list

namespace MIMEHdrImpl

variable (mh : MIMEHdrImpl)

/-- `mime_field_value_set_comma_val` -/
def fieldValueSetCommaVal (i : ℕ) (idx : ℤ) (newPiece : Bytes) : MIMEHdrImpl :=
  let list := parseTokList ((mh.slots[i]?).bind MIMEField.value)
  if idx < 0 ∨ idx ≥ list.length then mh
  else mh.fieldValueSet i (some (valueStrFromStrList (list.set idx.toNat newPiece)))

/-- `mime_field_value_delete_comma_val` -/
def fieldValueDeleteCommaVal (i : ℕ) (idx : ℤ) : MIMEHdrImpl :=
  let list := parseTokList ((mh.slots[i]?).bind MIMEField.value)
  if idx < 0 ∨ idx ≥ list.length then mh
  else
    let list := list.eraseIdx idx.toNat
    -- without a value left the pointer is null
    mh.fieldValueSet i (if list = [] then none else some (valueStrFromStrList list))

/-- `mime_field_value_insert_comma_val` -/
def fieldValueInsertCommaVal (i : ℕ) (idx : ℤ) (newPiece : Bytes) : MIMEHdrImpl :=
  let list := parseTokList ((mh.slots[i]?).bind MIMEField.value)
  let idx := if idx < 0 then (list.length : ℤ) else idx
  if idx > list.length then mh
  else mh.fieldValueSet i (some (valueStrFromStrList (list.insertIdx idx.toNat newPiece)))

/-- a token is made longer, in its quotes if it has some -/
def extendedToken (cell newPiece : Bytes) : Bytes :=
  if cell.length ≥ 2 ∧ cell.head? = some dquote ∧ cell.getLast? = some dquote then
    dquote :: ((cell.drop 1).dropLast ++ newPiece) ++ [dquote]
  else cell ++ newPiece

/-- `mime_field_value_extend_comma_val` -/
def fieldValueExtendCommaVal (i : ℕ) (idx : ℤ) (newPiece : Bytes) : MIMEHdrImpl :=
  let list := parseTokList ((mh.slots[i]?).bind MIMEField.value)
  if idx < 0 ∨ idx ≥ list.length then mh
  else mh.fieldValueSet i (some (valueStrFromStrList (list.modify idx.toNat fun cell => extendedToken cell newPiece)))

end MIMEHdrImpl

example : parseTokList (some (text "a , \"b,c\",,d ")) = [text "a", text "\"b,c\"", [], text "d"] := by decide +kernel

end TrafficServer.Hdrs.MimeHdr
