/-
The fields of a MIME header (`proxy/hdrs/MIME.cc`).

The fields stand in the slots of a list of blocks; every block but the last is full, so that a field is known by the number of its slot. The
live fields of one name are linked in the order of their slots. The first of them has the flag of a head, and it is found by a presence bit
and a slot accelerator for the well-known names, and by a search through the slots otherwise. `mime_hdr_field_attach` puts a field into its
list and `mime_hdr_field_detach` takes it out; both keep the cooked values with `recompute_cooked_stuff`.

A pointer that is null where the code follows it is `none`. `MimeHdrInv` has what holds of every header.
-/
import TrafficServer.Hdrs.CookedStuff
import TrafficServer.Lib.NextIndex

namespace TrafficServer.Hdrs.MimeHdr

open HttpParse Cooked

/-! ## Well-known names -/

/-- `HdrTokenFieldInfo`: the slot id, and the number of the presence bit -/
structure HdrTokenFieldInfo where
  name : String
  slotid : Option ℕ
  mask : Option ℕ

/-- `_hdrtoken_strs_field_initializers` -/
def fieldInitializers : List HdrTokenFieldInfo :=
  [⟨"Accept", some 0, some 0⟩, ⟨"Accept-Charset", some 1, some 1⟩, ⟨"Accept-Encoding", some 2, some 2⟩, ⟨"Accept-Language", some 3, some 3⟩,
    ⟨"Accept-Ranges", none, some 4⟩, ⟨"Age", some 4, some 5⟩, ⟨"Allow", none, some 6⟩, ⟨"Approved", none, none⟩,
    ⟨"Authorization", some 5, some 7⟩, ⟨"Bytes", none, some 8⟩, ⟨"Cache-Control", some 6, some 9⟩, ⟨"Client-ip", some 7, some 10⟩,
    ⟨"Connection", some 8, some 11⟩, ⟨"Content-Base", none, none⟩, ⟨"Content-Encoding", some 9, some 12⟩,
    ⟨"Content-Language", some 10, some 13⟩, ⟨"Content-Length", some 11, some 14⟩, ⟨"Content-Location", none, some 15⟩,
    ⟨"Content-MD5", none, some 16⟩, ⟨"Content-Range", none, some 17⟩, ⟨"Content-Type", some 12, some 18⟩, ⟨"Control", none, none⟩,
    ⟨"Cookie", some 13, some 19⟩, ⟨"Date", some 14, some 20⟩, ⟨"Distribution", none, none⟩, ⟨"Etag", none, some 21⟩,
    ⟨"Expires", some 15, some 22⟩, ⟨"Followup-To", none, none⟩, ⟨"From", none, some 23⟩, ⟨"Host", none, some 24⟩,
    ⟨"If-Match", some 16, some 25⟩, ⟨"If-Modified-Since", some 17, some 26⟩, ⟨"If-None-Match", some 18, some 27⟩,
    ⟨"If-Range", some 19, some 28⟩, ⟨"If-Unmodified-Since", some 20, some 29⟩, ⟨"Keep-Alive", none, some 30⟩, ⟨"Keywords", none, some 31⟩,
    ⟨"Last-Modified", some 21, some 32⟩, ⟨"Lines", none, some 33⟩, ⟨"Location", none, some 34⟩, ⟨"Max-Forwards", none, some 35⟩,
    ⟨"Message-ID", none, none⟩, ⟨"Newsgroups", none, none⟩, ⟨"Organization", none, none⟩, ⟨"Path", none, some 36⟩,
    ⟨"Pragma", some 22, some 37⟩, ⟨"Proxy-Authenticate", none, some 38⟩, ⟨"Proxy-Authorization", none, some 39⟩,
    ⟨"Proxy-Connection", some 23, some 40⟩, ⟨"Public", none, some 41⟩, ⟨"Range", some 24, some 42⟩, ⟨"References", none, none⟩,
    ⟨"Referer", none, some 43⟩, ⟨"Reply-To", none, none⟩, ⟨"Retry-After", none, none⟩, ⟨"Sender", none, none⟩, ⟨"Server", none, some 44⟩,
    ⟨"Set-Cookie", some 25, some 45⟩, ⟨"Strict-Transport-Security", none, none⟩, ⟨"Subject", none, some 46⟩, ⟨"Summary", none, some 47⟩,
    ⟨"TE", some 26, some 48⟩, ⟨"Transfer-Encoding", some 27, some 49⟩, ⟨"Upgrade", none, some 50⟩, ⟨"User-Agent", some 28, some 51⟩,
    ⟨"Vary", some 29, some 52⟩, ⟨"Via", some 30, some 53⟩, ⟨"Warning", none, some 54⟩, ⟨"Www-Authenticate", some 31, some 55⟩,
    ⟨"Xref", none, some 61⟩, ⟨"X-ID", none, none⟩, ⟨"X-Forwarded-For", none, none⟩, ⟨"Forwarded", none, none⟩,
    ⟨"Sec-WebSocket-Key", none, none⟩, ⟨"Sec-WebSocket-Version", none, none⟩]

def fieldInfo (idx : ℕ) : Option HdrTokenFieldInfo := fieldInitializers.find? fun e => e.name == hdrtokenStrs.getD idx ""

/-- `hdrtoken_index_to_mask` -/
def hdrtokenIndexToMask (idx : ℕ) : Option ℕ := (fieldInfo idx).bind HdrTokenFieldInfo.mask

/-- `hdrtoken_index_to_slotid` -/
def hdrtokenIndexToSlotid (idx : ℕ) : Option ℕ := (fieldInfo idx).bind HdrTokenFieldInfo.slotid

def MIME_WKSIDX_CACHE_CONTROL : ℕ := wksidx "Cache-Control"
def MIME_WKSIDX_PRAGMA : ℕ := wksidx "Pragma"
def MIME_WKSIDX_CONTENT_LENGTH : ℕ := wksidx "Content-Length"
def MIME_WKSIDX_TRANSFER_ENCODING : ℕ := wksidx "Transfer-Encoding"

/-! ## Fields -/

inductive Readiness where
  | empty | detached | live | deleted
deriving DecidableEq

/-- a field; `P` are the pointers to fields -/
structure MIMEField (P : Type) where
  name : Bytes
  /-- `m_ptr_value` with `m_len_value`; a null pointer is `none` -/
  value : Option Bytes
  nextDup : Option P
  wksIdx : Option ℕ
  /-- `m_n_v_raw_printable` -/
  rawPrintable : Bool
  readiness : Readiness
  /-- `MIME_FIELD_SLOT_FLAGS_DUP_HEAD` -/
  dupHead : Bool
  /-- `MIME_FIELD_SLOT_FLAGS_COOKED` -/
  cooked : Bool
deriving DecidableEq

namespace MIMEField

variable {P : Type}

/-- `mime_field_init` -/
def init : MIMEField P := ⟨[], none, none, none, false, .detached, false, false⟩

def isLive (f : MIMEField P) : Bool := f.readiness = .live

def isDetached (f : MIMEField P) : Bool := f.readiness = .detached

end MIMEField

/-- what a field is found by: a well-known name, or the letters of the name in lower case -/
inductive Key where
  | wks (idx : ℕ)
  | name (lower : Bytes)
deriving DecidableEq

namespace MIMEField

variable {P : Type} (f : MIMEField P)

/-- what `mime_field_name_get` gives to find it by -/
def key : Key :=
  match f.wksIdx with
  | some idx => .wks idx
  | none => .name (f.name.map inkTolower)

/-- the comparison of a search -/
def answers : Key → Bool
  | .wks idx => f.wksIdx == some idx
  | .name lower => f.name.map inkTolower == lower

end MIMEField

/-! ## The header -/

structure MIMEHdrImpl where
  /-- `m_presence_bits` -/
  presenceBits : ℕ → Bool
  /-- `m_slot_accelerators`: the four bits of each slot id -/
  slotAccelerators : ℕ → ℕ
  cookedStuff : MIMECooked
  /-- the slots below the `m_freetop` of the blocks -/
  slots : List (MIMEField ℕ)

def MIME_FIELD_SLOTNUM_MAX : ℕ := 14
def MIME_FIELD_SLOTNUM_UNKNOWN : ℕ := MIME_FIELD_SLOTNUM_MAX

namespace MIMEHdrImpl

/-- `mime_hdr_init` -/
def init : MIMEHdrImpl := ⟨fun _ => false, fun _ => 15, ⟨MIMECookedCacheControl.init, false⟩, []⟩

variable (mh : MIMEHdrImpl)

/-- a change of the field in a slot -/
def modify (i : ℕ) (g : MIMEField ℕ → MIMEField ℕ) : MIMEHdrImpl := { mh with slots := mh.slots.modify i g }

/-- a live field that is found by this key is in the slot -/
def atKey (k : Key) (i : ℕ) : Bool := (mh.slots[i]?).any fun f => f.isLive && f.key == k

/-- `mime_hdr_set_accelerators_and_presence_bits`, for a well-known name -/
def setAcceleratorsAndPresenceBits (idx i : ℕ) : MIMEHdrImpl :=
  { mh with
    presenceBits := match hdrtokenIndexToMask idx with
      | none => mh.presenceBits
      | some b => Function.update mh.presenceBits b true
    slotAccelerators := match hdrtokenIndexToSlotid idx with
      | none => mh.slotAccelerators
      | some s => Function.update mh.slotAccelerators s (if i < MIME_FIELD_SLOTNUM_UNKNOWN then i else MIME_FIELD_SLOTNUM_UNKNOWN) }

/-- `mime_hdr_unset_accelerators_and_presence_bits` -/
def unsetAcceleratorsAndPresenceBits (idx : ℕ) : MIMEHdrImpl :=
  { mh with
    presenceBits := match hdrtokenIndexToMask idx with
      | none => mh.presenceBits
      | some b => Function.update mh.presenceBits b false
    slotAccelerators := match hdrtokenIndexToSlotid idx with
      | none => mh.slotAccelerators
      | some s => Function.update mh.slotAccelerators s MIME_FIELD_SLOTNUM_MAX }

/-- both do nothing for another name -/
def setFor (f : MIMEField ℕ) (i : ℕ) : MIMEHdrImpl :=
  match f.wksIdx with
  | none => mh
  | some idx => mh.setAcceleratorsAndPresenceBits idx i

def unsetFor (f : MIMEField ℕ) : MIMEHdrImpl :=
  match f.wksIdx with
  | none => mh
  | some idx => mh.unsetAcceleratorsAndPresenceBits idx

/-! ## Finding a field -/

/-- `_mime_hdr_field_list_search_by_wks` and `_mime_hdr_field_list_search_by_string` -/
def listSearch (k : Key) : Option ℕ :=
  NextIndex.first (fun i => (mh.slots[i]?).any fun f => f.isLive && f.answers k) mh.slots.length

/-- `mime_hdr_field_find` of a well-known name -/
def fieldFindWks (idx : ℕ) : Option ℕ :=
  if (hdrtokenIndexToMask idx).any fun b => !mh.presenceBits b then none
  else
    match hdrtokenIndexToSlotid idx with
    | none => mh.listSearch (.wks idx)
    | some s =>
      let slotnum := mh.slotAccelerators s
      if slotnum ≠ MIME_FIELD_SLOTNUM_UNKNOWN then (if slotnum < mh.slots.length then some slotnum else none)
      else mh.listSearch (.wks idx)

/-- `mime_hdr_field_find` of the name that `mime_field_name_get` gives -/
def fieldFind : Key → Option ℕ
  | .wks idx => mh.fieldFindWks idx
  | .name lower => mh.listSearch (.name lower)

/-! ## Cooked values -/

/-- the values of the duplicates behind a field -/
def dupValues : ℕ → Option ℕ → List (Option Bytes)
  | 0, _ => []
  | _, none => []
  | n + 1, some i =>
    match mh.slots[i]? with
    | none => []
    | some f => f.value :: dupValues n f.nextDup

/-- a field and its duplicates, as they are found -/
def found (idx : ℕ) : Option (Option Bytes × List (Option Bytes)) :=
  (mh.fieldFindWks idx).bind fun i => (mh.slots[i]?).map fun f => (f.value, mh.dupValues mh.slots.length f.nextDup)

/-- `recompute_cooked_stuff`, for the `m_wks_idx` of the field that has changed; with null for it both headers are cooked -/
def recomputeCookedStuff (changing : Option (Option ℕ)) : MIMEHdrImpl :=
  { mh with
    cookedStuff := {
      cacheControl :=
        if changing = some (some MIME_WKSIDX_PRAGMA) then mh.cookedStuff.cacheControl
        else cookCacheControl (mh.found MIME_WKSIDX_CACHE_CONTROL)
      noCache :=
        if changing = some (some MIME_WKSIDX_CACHE_CONTROL) then mh.cookedStuff.noCache
        else cookPragma (mh.found MIME_WKSIDX_PRAGMA) } }

/-- the field in a slot has changed -/
def recomputeFor (f : MIMEField ℕ) : MIMEHdrImpl := if f.cooked then mh.recomputeCookedStuff (some f.wksIdx) else mh

/-! ## Making, attaching and detaching fields -/

/-- `mime_field_create` -/
def fieldCreate : MIMEHdrImpl := { mh with slots := mh.slots ++ [MIMEField.init] }

/-- `mime_field_name_set`, with the index of the name -/
def fieldNameSet (i : ℕ) (name : Bytes) : MIMEHdrImpl :=
  let idx := hdrtokenTokenize name
  mh.modify i fun f =>
    { f with
      wksIdx := idx, name := name,
      cooked := f.cooked || idx = some MIME_WKSIDX_CACHE_CONTROL || idx = some MIME_WKSIDX_PRAGMA }

/-- The walk down the list of duplicates: the field to put the new one behind, the slot it is taken to be in, and the next one. The number
of the next slot is not looked up again. -/
def attachWalk (fieldSlotnum nextSlotnum : ℕ) : ℕ → (prev prevSlotnum : ℕ) → (nextDup : Option ℕ) → Option (ℕ × ℕ × Option ℕ)
  | 0, _, _, _ => none
  | n + 1, prev, prevSlotnum, nextDup =>
    if prevSlotnum < fieldSlotnum then
      match nextDup with
      | none => some (prev, prevSlotnum, none)
      | some next =>
        if nextSlotnum > fieldSlotnum then some (prev, prevSlotnum, some next)
        else (mh.slots[next]?).bind fun f => attachWalk fieldSlotnum nextSlotnum n next nextSlotnum f.nextDup
    else some (prev, prevSlotnum, nextDup)

/-- a new field has been put before the first one of its list, or there is none -/
def attachHead (i : ℕ) (f : MIMEField ℕ) (nextDup : Option ℕ) : MIMEHdrImpl :=
  ((nextDup.elim mh fun p => mh.modify p fun g => { g with dupHead := false }).modify i fun g =>
    { g with dupHead := true, nextDup := nextDup.elim g.nextDup some }).setFor f i

def attachBehind (i prev : ℕ) (nextDup : Option ℕ) : MIMEHdrImpl :=
  (mh.modify prev fun g => { g with nextDup := some i }).modify i fun g => { g with dupHead := false, nextDup := nextDup }

/-- `mime_hdr_field_attach`; with `checkForDups` the list is looked for, otherwise there is none -/
def fieldAttach (i : ℕ) (checkForDups : Bool) : Option MIMEHdrImpl :=
  (mh.slots[i]?).bind fun f =>
    if !f.isDetached then some mh
    else
      let prevDup := if checkForDups then mh.fieldFind f.key else none
      let mh := mh.modify i fun g => { g with readiness := .live }
      (match prevDup with
        | none => some (mh.attachHead i f none)
        | some p =>
          (mh.slots[p]?).bind fun g =>
            (mh.attachWalk i (g.nextDup.getD 0) mh.slots.length p p g.nextDup).map fun (prev, prevSlotnum, nextDup) =>
              if prevSlotnum > i then mh.attachHead i f (some prev) else mh.attachBehind i prev nextDup).map fun mh : MIMEHdrImpl =>
        if f.value.isSome then mh.recomputeFor f else mh

/-- the walk from the head of the list to the field before this one -/
def detachWalk (i : ℕ) : ℕ → Option ℕ → Option ℕ
  | 0, _ => none
  | _, none => none
  | n + 1, some prev =>
    (mh.slots[prev]?).bind fun g => if g.nextDup = some i then some prev else detachWalk i n g.nextDup

/-- `mime_hdr_field_detach` of one field -/
def fieldDetach (i : ℕ) : Option MIMEHdrImpl :=
  (mh.slots[i]?).bind fun f =>
    if f.isDetached then some mh
    else
      (if f.dupHead then
        match f.nextDup with
        | none => some (mh.unsetFor f)
        | some next => (mh.slots[next]?).map fun g => (mh.modify next fun g => { g with dupHead := true }).setFor g next
      else (mh.detachWalk i mh.slots.length (mh.fieldFind f.key)).map fun prev => mh.modify prev fun g => { g with nextDup := f.nextDup }).map
        fun mh : MIMEHdrImpl => (mh.modify i fun g => { g with readiness := .detached, nextDup := none }).recomputeFor f

/-- `mime_hdr_field_detach` with `detach_all_dups` -/
def fieldDetachAll : ℕ → ℕ → MIMEHdrImpl → Option MIMEHdrImpl
  | 0, _, _ => none
  | n + 1, i, mh =>
    (mh.slots[i]?).bind fun f =>
      (mh.fieldDetach i).bind fun mh =>
        if f.isDetached then some mh
        else
          match f.nextDup with
          | none => some mh
          | some next => fieldDetachAll n next mh

/-- `mime_field_destroy` -/
def fieldDestroy (i : ℕ) : MIMEHdrImpl := mh.modify i fun f => { f with readiness := .deleted }

/-- `mime_hdr_field_delete` of one field -/
def fieldDelete (i : ℕ) : Option MIMEHdrImpl := (mh.fieldDetach i).map fun mh => mh.fieldDestroy i

/-- `mime_hdr_field_delete` with `delete_all_dups` -/
def fieldDeleteAll : ℕ → Option ℕ → MIMEHdrImpl → Option MIMEHdrImpl
  | 0, _, _ => none
  | _, none, mh => some mh
  | n + 1, some i, mh => (mh.slots[i]?).bind fun f => (mh.fieldDelete i).bind fun mh => fieldDeleteAll n f.nextDup mh

/-- `mime_field_value_set` -/
def fieldValueSet (i : ℕ) (value : Option Bytes) : MIMEHdrImpl :=
  -- the length has 24 bits
  let mh := mh.modify i fun f => { f with value := value.map fun s => s.take (s.length % 2 ^ 24), rawPrintable := false }
  match mh.slots[i]? with
  | none => mh
  | some f => if f.isLive then mh.recomputeFor f else mh

/-- `mime_field_name_value_set` of a field that is not attached, with its strings where they are -/
def fieldNameValueSet (i : ℕ) (name value : Bytes) (rawPrintable : Bool) : MIMEHdrImpl :=
  let idx := hdrtokenTokenize name
  mh.modify i fun f =>
    { f with
      wksIdx := idx, name := name, value := some (value.take (value.length % 2 ^ 24)), rawPrintable := rawPrintable,
      cooked := f.cooked || idx = some MIME_WKSIDX_CACHE_CONTROL || idx = some MIME_WKSIDX_PRAGMA }

/-- what `mime_parser_parse` does with a line that is a field -/
def parseField (name value : Bytes) (rawPrintable : Bool) : Option MIMEHdrImpl :=
  (mh.fieldCreate.fieldNameValueSet mh.slots.length name value rawPrintable).fieldAttach mh.slots.length true

/-- the lines of a header: the name, the value, and whether the line can be printed as it is -/
def parseFields (lines : List (Bytes × Bytes × Bool)) : Option MIMEHdrImpl :=
  lines.foldlM (fun (mh : MIMEHdrImpl) line => mh.parseField line.1 line.2.1 line.2.2) mh

end MIMEHdrImpl

end TrafficServer.Hdrs.MimeHdr
