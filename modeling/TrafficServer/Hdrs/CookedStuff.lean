/-
The cooked values of a header (`MIMEHdrImpl::recompute_cooked_stuff` in `proxy/hdrs/MIME.cc`).

A header keeps what its Cache-Control and Pragma fields say in bits and numbers. They are computed from the values of a field and of its
duplicates: each value of the list that begins with a well-known token sets the bits of the token, and for four of them the number behind
it is kept. `MimeHdr` says when they are computed.
-/
import TrafficServer.Hdrs.HdrCsvIter
import TrafficServer.Hdrs.MimeNumber

namespace TrafficServer.Hdrs.Cooked

open HttpParse HdrCsv

def INT_MAX : ℤ := 2 ^ 31 - 1

/-- `hdrtoken_string_to_wks` of a string of the table -/
def wksidx (s : String) : ℕ := hdrtokenStrs.idxOf s

def MIME_COOKED_MASK_CC_MAX_AGE : UInt32 := (1 : UInt32) <<< 0
def MIME_COOKED_MASK_CC_NO_CACHE : UInt32 := (1 : UInt32) <<< 1
def MIME_COOKED_MASK_CC_NO_STORE : UInt32 := (1 : UInt32) <<< 2
def MIME_COOKED_MASK_CC_NO_TRANSFORM : UInt32 := (1 : UInt32) <<< 3
def MIME_COOKED_MASK_CC_MAX_STALE : UInt32 := (1 : UInt32) <<< 4
def MIME_COOKED_MASK_CC_MIN_FRESH : UInt32 := (1 : UInt32) <<< 5
def MIME_COOKED_MASK_CC_ONLY_IF_CACHED : UInt32 := (1 : UInt32) <<< 6
def MIME_COOKED_MASK_CC_PUBLIC : UInt32 := (1 : UInt32) <<< 7
def MIME_COOKED_MASK_CC_PRIVATE : UInt32 := (1 : UInt32) <<< 8
def MIME_COOKED_MASK_CC_MUST_REVALIDATE : UInt32 := (1 : UInt32) <<< 9
def MIME_COOKED_MASK_CC_PROXY_REVALIDATE : UInt32 := (1 : UInt32) <<< 10
def MIME_COOKED_MASK_CC_S_MAXAGE : UInt32 := (1 : UInt32) <<< 11
def MIME_COOKED_MASK_CC_NEED_REVALIDATE_ONCE : UInt32 := (1 : UInt32) <<< 12

/-- `cc_mask_table` -/
def ccMaskTable : List (String × UInt32) :=
  [("max-age", MIME_COOKED_MASK_CC_MAX_AGE), ("no-cache", MIME_COOKED_MASK_CC_NO_CACHE), ("no-store", MIME_COOKED_MASK_CC_NO_STORE),
    ("no-transform", MIME_COOKED_MASK_CC_NO_TRANSFORM), ("max-stale", MIME_COOKED_MASK_CC_MAX_STALE),
    ("min-fresh", MIME_COOKED_MASK_CC_MIN_FRESH), ("only-if-cached", MIME_COOKED_MASK_CC_ONLY_IF_CACHED),
    -- in the table of strings it is written as the name of a field
    ("Public", MIME_COOKED_MASK_CC_PUBLIC), ("private", MIME_COOKED_MASK_CC_PRIVATE),
    ("must-revalidate", MIME_COOKED_MASK_CC_MUST_REVALIDATE), ("proxy-revalidate", MIME_COOKED_MASK_CC_PROXY_REVALIDATE),
    ("s-maxage", MIME_COOKED_MASK_CC_S_MAXAGE), ("need-revalidate-once", MIME_COOKED_MASK_CC_NEED_REVALIDATE_ONCE)]

/-- `cc_mask` of a token -/
def ccMask (idx : ℕ) : UInt32 := ((ccMaskTable.find? fun e => e.1 == hdrtokenStrs.getD idx "").map Prod.snd).getD 0

structure MIMECookedCacheControl where
  mask : UInt32
  secsMaxAge : ℤ
  secsSMaxage : ℤ
  secsMaxStale : ℤ
  secsMinFresh : ℤ
deriving DecidableEq

@[ext] structure MIMECooked where
  cacheControl : MIMECookedCacheControl
  /-- `m_pragma.m_no_cache` -/
  noCache : Bool
deriving DecidableEq

/-- what `mime_hdr_cooked_stuff_init` sets -/
def MIMECookedCacheControl.init : MIMECookedCacheControl := ⟨0, 0, 0, 0, 0⟩

def inkTolower (c : UInt8) : UInt8 := if 65 ≤ c ∧ c ≤ 90 then c + 32 else c

/-- `ptr_len_casecmp` gives 0 -/
def caseEq (s t : Bytes) : Bool := s.map inkTolower == t.map inkTolower

/-- one value of the Cache-Control list -/
def cookValue (cc : MIMECookedCacheControl) (s : Bytes) : MIMECookedCacheControl :=
  match hdrtokenTokenize (s.takeWhile isToken) with
  | none => cc
  | some token =>
    let mask := ccMask token
    let cc := { cc with mask := cc.mask ||| mask }
    if mask &&& (MIME_COOKED_MASK_CC_MAX_AGE ||| MIME_COOKED_MASK_CC_S_MAXAGE ||| MIME_COOKED_MASK_CC_MAX_STALE |||
        MIME_COOKED_MASK_CC_MIN_FRESH) ≠ 0 then
      match MimeNumber.mimeParseInteger (s.dropWhile isToken) with
      | some (value, _) =>
        if token = wksidx "max-age" then { cc with secsMaxAge := value }
        else if token = wksidx "min-fresh" then { cc with secsMinFresh := value }
        else if token = wksidx "max-stale" then { cc with secsMaxStale := value }
        else if token = wksidx "s-maxage" then { cc with secsSMaxage := value }
        else cc
      | none => if token = wksidx "max-stale" then { cc with secsMaxStale := INT_MAX } else cc
    else cc

/-- the bits of the values that are looked for first -/
def fastMask (field : Option Bytes) (dups : List (Option Bytes)) : UInt32 :=
  if dups = [] then
    if caseEq (field.getD []) (text "public") then MIME_COOKED_MASK_CC_PUBLIC
    else if caseEq (field.getD []) (text "private,no-cache") then MIME_COOKED_MASK_CC_PRIVATE ||| MIME_COOKED_MASK_CC_NO_CACHE
    else 0
  else 0

/-- the Cache-Control header is cooked; a field and its duplicates are given, if there is one -/
def cookCacheControl : Option (Option Bytes × List (Option Bytes)) → MIMECookedCacheControl
  | none => MIMECookedCacheControl.init
  | some (field, dups) =>
    if fastMask field dups = 0 then (csvValues comma true field dups).foldl cookValue MIMECookedCacheControl.init
    else { MIMECookedCacheControl.init with mask := fastMask field dups }

/-- the Pragma header is cooked -/
def cookPragma : Option (Option Bytes × List (Option Bytes)) → Bool
  | none => false
  | some (field, dups) =>
    dups = [] && caseEq (field.getD []) (text "no-cache") ||
      (csvValues comma true field dups).any fun s => hdrtokenTokenize (s.takeWhile isToken) = some (wksidx "no-cache")

/-- a field without a value says nothing -/
theorem cookCacheControl_null (dups : List (Option Bytes)) : cookCacheControl (some (none, dups)) = MIMECookedCacheControl.init := by
  have hfast : fastMask none dups = 0 := by
    unfold fastMask
    split_ifs with hdups hpublic hprivate
    · exact absurd hpublic (by decide)
    · exact absurd hprivate (by decide)
    · rfl
    · rfl
  rw [cookCacheControl, if_pos hfast]
  rfl

theorem cookPragma_null (dups : List (Option Bytes)) : cookPragma (some (none, dups)) = false := by
  have hfast : caseEq ((none : Option Bytes).getD []) (text "no-cache") = false := by decide
  rw [cookPragma, hfast, Bool.and_false, Bool.false_or]
  rfl

example : cookCacheControl (some (some (text "max-age=60, Private"), [some (text "max-stale")])) =
    ⟨MIME_COOKED_MASK_CC_MAX_AGE ||| MIME_COOKED_MASK_CC_PRIVATE ||| MIME_COOKED_MASK_CC_MAX_STALE, 60, 0, INT_MAX, 0⟩ := by decide +kernel

end TrafficServer.Hdrs.Cooked
