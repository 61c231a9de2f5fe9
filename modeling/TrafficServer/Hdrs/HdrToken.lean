/-
The well-known strings of the header system (`proxy/hdrs/HdrToken.cc`). A header object keeps the index of a well-known string; the text is
read back from the table. A string is looked up by its length and its hash, which folds letters; the bytes are not compared.
-/
import Mathlib

namespace TrafficServer.Hdrs

def text (s : String) : List UInt8 := s.toList.map fun c => c.toNat.toUInt8

/-- `_hdrtoken_strs` -/
def hdrtokenStrs : List String :=
  ["Accept-Charset", "Accept-Encoding", "Accept-Language", "Accept-Ranges", "Accept", "Age", "Allow", "Approved", "Authorization",
    "Bytes", "Cache-Control", "Client-ip", "Connection", "Content-Base", "Content-Encoding", "Content-Language", "Content-Length",
    "Content-Location", "Content-MD5", "Content-Range", "Content-Type", "Control", "Cookie", "Date", "Distribution", "Etag",
    "Expect", "Expires", "Followup-To", "From", "Host", "If-Match", "If-Modified-Since", "If-None-Match", "If-Range",
    "If-Unmodified-Since", "Keep-Alive", "Keywords", "Last-Modified", "Lines", "Location", "Max-Forwards", "Message-ID",
    "MIME-Version", "Newsgroups", "Organization", "Path", "Pragma", "Proxy-Authenticate", "Proxy-Authorization",
    "Proxy-Connection", "Public", "Range", "References", "Referer", "Reply-To", "Retry-After", "Sender", "Server", "Set-Cookie",
    "Subject", "Summary", "Transfer-Encoding", "Upgrade", "User-Agent", "Vary", "Via", "Warning", "Www-Authenticate", "Xref",
    "@Ats-Internal", "compress", "deflate", "gzip", "identity", "max-age", "max-stale", "min-fresh", "must-revalidate",
    "no-cache", "no-store", "no-transform", "only-if-cached", "private", "proxy-revalidate", "s-maxage", "need-revalidate-once",
    "none", "chunked", "close", "websocket", "Sec-WebSocket-Key", "Sec-WebSocket-Version", "h2c", "HTTP2-Settings", "file", "ftp",
    "gopher", "https", "http", "mailto", "news", "nntp", "prospero", "telnet", "tunnel", "wais", "pnm", "rtspu", "rtsp", "mmsu",
    "mmst", "mms", "wss", "ws", "CONNECT", "DELETE", "GET", "POST", "HEAD", "OPTIONS", "PURGE", "PUT", "TRACE", "PUSH", "X-ID",
    "X-Forwarded-For", "TE", "Strict-Transport-Security", "100-continue", "Forwarded"]

/-- `hdrtoken_index_to_wks` -/
def hdrtokenIndexToWks (i : ℕ) : List UInt8 := text (hdrtokenStrs.getD i "")

/-- `hdrtoken_hash`: FNV-1a over the bytes in upper case -/
def hdrtokenHash (string : List UInt8) : UInt32 :=
  string.foldl (fun hval b =>
    let hval := hval ^^^ (if 97 ≤ b ∧ b ≤ 122 then b - 32 else b).toUInt32
    hval + ((hval <<< 1) + (hval <<< 4) + (hval <<< 7) + (hval <<< 8) + (hval <<< 24))) 0x811c9dc5

/-- `hdrtoken_tokenize`: the slots of the hash table have one string each -/
def hdrtokenTokenize (string : List UInt8) : Option ℕ :=
  hdrtokenStrs.findIdx? fun wks => hdrtokenHash (text wks) == hdrtokenHash string && (text wks).length == string.length

/-- the strings of type `HDRTOKEN_TYPE_SCHEME` -/
def schemeStrs : List String :=
  ["file", "ftp", "gopher", "http", "https", "mailto", "news", "nntp", "prospero", "telnet", "tunnel", "wais", "pnm", "rtsp", "rtspu",
    "mms", "mmsu", "mmst", "wss", "ws"]

def isSchemeIdx (i : ℕ) : Bool := schemeStrs.contains (hdrtokenStrs.getD i "")

theorem hdrtokenStrs_nodup : (hdrtokenStrs.map text).Nodup := by decide +kernel

/-- two indices have two texts -/
theorem hdrtokenIndexToWks_inj {i j : ℕ} (hi : i < hdrtokenStrs.length) (hj : j < hdrtokenStrs.length)
    (h : hdrtokenIndexToWks i = hdrtokenIndexToWks j) : i = j := by
  have hat : ∀ k, k < hdrtokenStrs.length → (hdrtokenStrs.map text)[k]? = some (hdrtokenIndexToWks k) := by
    intro k hk
    simp [hdrtokenIndexToWks, hk]
  refine (List.getElem?_inj (by rwa [List.length_map]) hdrtokenStrs_nodup).mp ?_
  rw [hat i hi, hat j hj, h]

theorem hdrtokenIndexToWks_null (i : ℕ) : 0 ∉ hdrtokenIndexToWks i := by
  have hall : ∀ s ∈ hdrtokenStrs, 0 ∉ text s := by decide +kernel
  by_cases hi : i < hdrtokenStrs.length
  · have hget : hdrtokenStrs.getD i "" = hdrtokenStrs[i] := by simp [hi]
    rw [hdrtokenIndexToWks, hget]
    exact hall _ (List.getElem_mem hi)
  · have hget : hdrtokenStrs.getD i "" = "" := by simp [Nat.le_of_not_lt hi]
    rw [hdrtokenIndexToWks, hget]
    decide

end TrafficServer.Hdrs
