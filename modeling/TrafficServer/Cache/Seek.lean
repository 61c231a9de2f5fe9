/-
Reading at a position (`CacheVC::openReadMain`, `openReadReadDone` and `do_io_pread`; CacheRead.cc, Cache.cc).

A read VC has one fragment of the object in `buf`, with its number in `fragment` and the key of the next fragment in `key`.
`do_io_pread` leaves a position in `seek_to`; `openReadMain` then looks up the fragment that holds it in the table of the
alternate. If that is the one in `buf` it sets `doc_pos`. If not, it moves `key` along the chain until the next fragment to be
read is the right one, reads it and comes back. `seek_to == 0` means that no seek is pending: a client that starts at 0 calls
`do_io_read`.

The step that reads a fragment is in two parts, the probe of the directory at `Lread` and `openReadReadDone` with the
document. At `Lread` the volume's lock may be missed; `openReadMain` is then called again, with `fragment` and `key` already
moved. If the fragment looked for was the first one, `fragment` is -1 by then and the code reads memory in front of the
table: `stray` stands for what it finds there.

Results: `seek_finds_byte`, for the objects that `WriteVC` writes, with `seek_goes_wrong` for what it has to leave out;
`Loaded.openReadMain` and `Loaded.readDone` for reading on.
-/
import TrafficServer.Cache.WriteVCInv

namespace TrafficServer.Cache.ReadVC

open TrafficServer.Run TrafficServer.Pieces
open TrafficServer.Cache.WriteVC (Doc HTTPInfo fragStart fragStarts)

/-- `prefix_len`: header of the document and of the vector -/
def prefixLen (d : Doc) : ℤ := sizeofDoc + d.hlen

/-- `doc->len` -/
def docLength (d : Doc) : ℤ := prefixLen d + d.data.length

inductive Handler where
  | openReadMain
  | openReadReadDone
deriving DecidableEq

structure VC where
  handler : Handler
  /-- the document in `buf` -/
  doc : Doc
  docPos : ℤ
  fragment : ℤ
  key : CacheKey
  seekTo : ℕ
  docLen : ℕ
  /-- table of the alternate; null if empty -/
  fragOffsets : List ℕ
  ndone : ℤ
  nbytes : ℤ

/-- the volume's lock is free; the directory has the key; the client's buffer is over its water mark, before and after -/
structure World where
  locked : Bool
  found : Bool
  full : Bool
  highWater : Bool

/-- how a call of `openReadMain` ends: it waits for the client, is at the end, has a read under way, tries again for the
lock, or misses a fragment -/
inductive Next where
  | wait
  | eos
  | read
  | retry
  | error
deriving DecidableEq

/-- what the seek comes to: done, position behind the end, or another fragment to read -/
inductive Seek where
  | done
  | eos
  | read
deriving DecidableEq

namespace VC

def ntodo (v : VC) : ℤ := v.nbytes - v.ndone

/-- the byte at `doc_pos` -/
def nextByte (v : VC) : Option UInt8 :=
  if prefixLen v.doc ≤ v.docPos then v.doc.data[(v.docPos - prefixLen v.doc).toNat]? else none

/-- `frags[i]`; outside the table the code reads other memory -/
def fragAt (stray : ℤ → ℕ) (v : VC) (i : ℤ) : ℕ :=
  if 0 ≤ i ∧ i < v.fragOffsets.length then v.fragOffsets.getD i.toNat 0 else stray i

/-- the loop of the search from fragment 0 on, with `n` entries to go -/
def searchLoop (stray : ℤ → ℕ) (v : VC) : ℕ → ℕ → ℕ
  | 0, target => target
  | n + 1, target => if v.fragAt stray target ≤ v.seekTo then v.searchLoop stray n (target + 1) else target

/-- the search; the last fragment has no entry of its own -/
def search (stray : ℤ → ℕ) (v : VC) : ℕ :=
  let lfi := v.fragOffsets.length - 1
  let target := v.searchLoop stray lfi 0
  if target = lfi ∧ v.fragAt stray target ≤ v.seekTo then target + 1 else target

/-- the fragment that the seek chooses, with a shortcut for the one in `buf` -/
def seekTarget (stray : ℤ → ℕ) (v : VC) : ℤ :=
  let lfi : ℤ := v.fragOffsets.length - 1
  if v.fragment = 0 ∨ v.seekTo < v.fragAt stray (v.fragment - 1) ∨
      (v.fragment ≤ lfi ∧ v.fragAt stray v.fragment ≤ v.seekTo) then v.search stray
  else v.fragment

/-- move `fragment` to the target, and the key with it -/
def moveTo (target : ℤ) (v : VC) : VC :=
  { v with
    key :=
      if v.fragment ≤ target then nextCacheKey^[(target - v.fragment).toNat] v.key
      else prevCacheKey^[(v.fragment - target).toNat] v.key
    fragment := target }

/-- the seek at the top of `openReadMain`; `Lread` always reads the next fragment, so it moves to the one before -/
def seek (stray : ℤ → ℕ) (v : VC) : VC × Seek :=
  if v.seekTo = 0 then (v, .done)
  else if v.docLen ≤ v.seekTo then ({ v with ndone := v.docLen }, .eos)
  else if v.fragOffsets ≠ [] ∧ v.seekTarget stray ≠ v.fragment then (v.moveTo (v.seekTarget stray - 1), .read)
  else
    ({ v with
        docPos :=
          prefixLen v.doc + v.seekTo - if v.fragment ≠ 0 ∧ v.fragOffsets ≠ [] then v.fragAt stray (v.fragment - 1) else 0
        ndone := 0
        seekTo := 0 }, .done)

/-- `Lread`: read the fragment under `key` -/
def lread (w : World) (v : VC) : VC × Next :=
  if v.docLen ≤ v.ndone then (v, .eos)
  else if ¬ w.locked then ({ v with handler := .openReadMain }, .retry)
  else if w.found then ({ v with handler := .openReadReadDone }, .read)
  else (v, .error)

/-- deliver what is in `buf` from `doc_pos` on -/
def deliver (w : World) (v : VC) : VC × List UInt8 × Next :=
  let bytes := docLength v.doc - v.docPos
  if v.ntodo ≤ 0 then (v, [], .wait)
  else if w.full ∧ v.ndone ≠ 0 then (v, [], .wait)
  else if bytes ≤ 0 then
    let r := lread w v
    (r.1, [], r.2)
  else
    let bytes := min bytes v.ntodo
    let block := (v.doc.data.drop (v.docPos - prefixLen v.doc).toNat).take bytes.toNat
    let v := { v with ndone := v.ndone + bytes, docPos := v.docPos + bytes }
    if v.ntodo ≤ 0 ∨ w.highWater then (v, block, .wait)
    else
      let r := lread w v
      (r.1, block, r.2)

def openReadMain (stray : ℤ → ℕ) (w : World) (v : VC) : VC × List UInt8 × Next :=
  match v.seek stray with
  | (v, .eos) => (v, [], .eos)
  | (v, .read) =>
    let r := lread w v
    (r.1, [], r.2)
  | (v, .done) => deliver w v

/-- the document under `key` is in `buf`; `openReadMain` is called next -/
def openReadReadDone (d : Doc) (v : VC) : VC :=
  { v with
    handler := .openReadMain
    doc := d
    fragment := v.fragment + 1
    docPos := prefixLen d
    key := nextCacheKey v.key }

def doIoRead (nbytes : ℤ) (v : VC) : VC := { v with ndone := 0, nbytes }

def doIoPread (nbytes : ℤ) (offset : ℕ) (v : VC) : VC := { v with ndone := 0, nbytes, seekTo := offset }

end VC

/-- the VC that `openReadStartEarliest` makes from the first fragment and the alternate -/
def openReadStartEarliest (a : HTTPInfo) (d : Doc) : VC where
  handler := .openReadMain
  doc := d
  docPos := prefixLen d
  fragment := 0
  key := nextCacheKey d.key
  seekTo := 0
  docLen := a.objectSize
  fragOffsets := a.fragOffsets
  ndone := 0
  nbytes := 0

/-! ## The object on disk -/

/-- an object on disk: its fragments under the keys of the chain, and the alternate in the vector -/
structure Stored (docs : List Doc) (a : HTTPInfo) (body : List UInt8) : Prop where
  bytes : body = (docs.map Doc.data).flatten
  size : a.objectSize = body.length
  keys : docs.map Doc.key = (List.range docs.length).map (fragmentKey a.objectKey)
  table : a.fragOffsets = fragStarts docs

/-- what a finished write of a new alternate leaves on disk, if it has fragments -/
theorem stored_of_write {w : WriteVC.VC} (h : WriteVC.RunInv w) (hup : w.update = false) (hhttp : w.http = true)
    (hhead : w.head.isSome) {a : HTTPInfo} (ha : w.alternate = some a) (hdocs : w.docs ≠ []) :
    Stored w.docs a w.consumed := by
  obtain ⟨d, hd⟩ := Option.isSome_iff_exists.1 hhead
  obtain ⟨-, hrest, hsize⟩ := h.headOk d hd
  obtain ⟨hkey, htable⟩ := h.table hup a ha
  have hfrag : w.fragment ≠ 0 := by
    rw [h.stream.count]
    exact (List.length_pos_iff.2 hdocs).ne'
  constructor
  · rw [h.stream.taken, hrest hfrag, List.append_nil]
  · rw [hsize hhttp hup a ha, h.stream.total]
  · rw [h.stream.keys, hkey]
  · exact htable

/-- the fragment of number `g` is next to be followed by that under `key`; `buf` may hold another one -/
structure Numbered (docs : List Doc) (a : HTTPInfo) (g : ℕ) (v : VC) : Prop where
  lt : g < docs.length
  fragment : v.fragment = g
  key : v.key = fragmentKey a.objectKey (g + 1)
  table : v.fragOffsets = a.fragOffsets
  size : v.docLen = a.objectSize

/-- fragment `f` is in `buf` -/
structure Loaded (docs : List Doc) (a : HTTPInfo) (f : ℕ) (v : VC) : Prop extends Numbered docs a f v where
  doc : docs[f]? = some v.doc
  handler : v.handler = .openReadMain

variable {stray : ℤ → ℕ} {docs : List Doc} {a : HTTPInfo} {body : List UInt8} {v : VC} {f g s t : ℕ}

theorem Stored.key (ho : Stored docs a body) {d : Doc} (hd : docs[t]? = some d) : d.key = fragmentKey a.objectKey t := by
  have hlt := (List.getElem?_eq_some_iff.1 hd).1
  have hget := congrArg (·[t]?) ho.keys
  simp only [List.getElem?_map, hd, List.getElem?_range hlt, Option.map_some, Option.some.injEq] at hget
  exact hget

/-! ## Reading on -/

/-! ## The search -/

theorem length_fragStarts (docs : List Doc) : (fragStarts docs).length = docs.length - 1 := by
  unfold fragStarts
  rw [List.length_map, List.length_range']

/-- entry `i` of the table is the start of fragment `i + 1` -/
theorem fragAt_eq (htable : v.fragOffsets = fragStarts docs) {i : ℕ} (hi : i + 1 < docs.length) :
    v.fragAt stray i = fragStart docs (i + 1) := by
  have hlt : i < (fragStarts docs).length := by
    rw [length_fragStarts]
    omega
  unfold VC.fragAt
  rw [htable, if_pos ⟨Int.natCast_nonneg i, by exact_mod_cast hlt⟩, Int.toNat_natCast,
    List.getD_eq_getElem?_getD, List.getElem?_eq_getElem hlt, Option.getD_some]
  simp only [fragStarts, List.getElem_map, List.getElem_range']
  congr 1
  omega

/-- the loop stops at the first entry behind the position, or at the last one -/
theorem searchLoop_spec (stray : ℤ → ℕ) (v : VC) (n target : ℕ) :
    target ≤ v.searchLoop stray n target ∧ v.searchLoop stray n target ≤ target + n ∧
      (∀ i, target ≤ i → i < v.searchLoop stray n target → v.fragAt stray i ≤ v.seekTo) ∧
      (v.searchLoop stray n target < target + n → v.seekTo < v.fragAt stray (v.searchLoop stray n target)) := by
  induction n generalizing target with
  | zero =>
    refine ⟨le_rfl, le_rfl, fun i hi hi' => absurd hi (not_le.2 hi'), fun h => absurd h (lt_irrefl _)⟩
  | succ n ih =>
    unfold VC.searchLoop
    split_ifs with hle
    · obtain ⟨hlo, hhi, hpast, hstop⟩ := ih (target + 1)
      refine ⟨by omega, by omega, fun i hi hi' => ?_, fun h => hstop (by omega)⟩
      rcases Nat.eq_or_lt_of_le hi with rfl | hlt
      · exact hle
      · exact hpast i hlt hi'
    · exact ⟨le_rfl, by omega, fun i hi hi' => absurd hi (not_le.2 hi'), fun _ => not_le.1 hle⟩

/-- the search finds the fragment that holds the position -/
theorem search_covers (htable : v.fragOffsets = fragStarts docs) (hmulti : 2 ≤ docs.length)
    (hlt : v.seekTo < fragStart docs docs.length) : Covers (docs.map Doc.data) v.seekTo (v.search stray) := by
  have hlfi : v.fragOffsets.length - 1 = docs.length - 2 := by
    rw [htable, length_fragStarts]
    omega
  unfold VC.search
  dsimp only
  rw [hlfi]
  obtain ⟨-, hhi, hpast, hstop⟩ := searchLoop_spec stray v (docs.length - 2) 0
  generalize v.searchLoop stray (docs.length - 2) 0 = r at *
  have hentry : v.fragAt stray r = fragStart docs (r + 1) := fragAt_eq htable (by omega)
  split_ifs with hlast
  · -- behind the last entry: in the last fragment
    have hend : r + 1 + 1 = docs.length := by omega
    have hle := hlast.2
    rw [hentry] at hle
    refine ⟨hle, ?_⟩
    rw [hend]
    exact hlt
  · refine ⟨?_, ?_⟩
    · rcases Nat.eq_zero_or_pos r with h0 | hpos
      · rw [h0]
        exact Nat.zero_le _
      · have hbefore : v.fragAt stray ((r - 1 : ℕ) : ℤ) = fragStart docs (r - 1 + 1) := fragAt_eq htable (by omega)
        have hle := hpast (r - 1) (Nat.zero_le _) (by omega)
        rw [hbefore, Nat.sub_add_cancel hpos] at hle
        exact hle
    · have hbehind : v.seekTo < v.fragAt stray r := by
        rcases Nat.lt_or_ge r (docs.length - 2) with hr | hr
        · exact hstop (by omega)
        · by_contra hle
          exact hlast ⟨by omega, not_lt.1 hle⟩
      rw [hentry] at hbehind
      exact hbehind

/-- the fragment that the seek chooses holds the position, whichever fragment the VC stands at -/
theorem seekTarget_covers (h : Numbered docs a g v) (htable : a.fragOffsets = fragStarts docs) (hmulti : 2 ≤ docs.length)
    (hlt : v.seekTo < fragStart docs docs.length) :
    ∃ t : ℕ, v.seekTarget stray = t ∧ Covers (docs.map Doc.data) v.seekTo t := by
  have htable' : v.fragOffsets = fragStarts docs := h.table.trans htable
  unfold VC.seekTarget
  dsimp only
  split_ifs with hsearch
  · exact ⟨_, rfl, search_covers htable' hmulti hlt⟩
  · refine ⟨g, h.fragment, ?_⟩
    push Not at hsearch
    obtain ⟨hne, hbefore, hbehind⟩ := hsearch
    rw [h.fragment] at hne hbefore hbehind
    have hg : 0 < g := by omega
    have hlo : v.fragAt stray ((g - 1 : ℕ) : ℤ) = fragStart docs (g - 1 + 1) := fragAt_eq htable' (by have := h.lt; omega)
    rw [Nat.sub_add_cancel hg, Nat.cast_sub hg] at hlo
    refine ⟨(hlo ▸ hbefore : fragStart docs g ≤ v.seekTo), ?_⟩
    rcases Nat.lt_or_ge (g + 1) docs.length with hin | hend
    · have hlen : (g : ℤ) ≤ v.fragOffsets.length - 1 := by
        rw [htable', length_fragStarts]
        omega
      have hhi := hbehind hlen
      rw [fragAt_eq htable' hin] at hhi
      exact hhi
    · have hlast : g + 1 = docs.length := by have := h.lt; omega
      rw [hlast]
      exact hlt

/-! ## The seek -/

/-- moving to the fragment before `t` brings the key of `t` -/
theorem Numbered.moveTo_key (h : Numbered docs a g v) (t : ℕ) :
    (v.moveTo ((t : ℤ) - 1)).key = fragmentKey a.objectKey t := by
  unfold VC.moveTo
  dsimp only
  rw [h.fragment, h.key]
  split_ifs with hon
  · have hsteps : ((t : ℤ) - 1 - g).toNat = t - (g + 1) := by omega
    have ht : g + 1 + (t - (g + 1)) = t := by omega
    rw [hsteps, iterate_next_fragmentKey, ht]
  · have hsteps : ((g : ℤ) - (t - 1)).toNat = g + 1 - t := by omega
    have ht : t + (g + 1 - t) = g + 1 := by omega
    have hback := iterate_prev_fragmentKey a.objectKey t (g + 1 - t)
    rw [ht] at hback
    rw [hsteps, hback]

/-- the object has at least two fragments if its table is not empty -/
theorem two_le_of_table (htable : a.fragOffsets = fragStarts docs) (hne : a.fragOffsets ≠ []) : 2 ≤ docs.length := by
  have hpos := List.length_pos_iff.2 hne
  rw [htable, length_fragStarts] at hpos
  omega

/-- what the seek does with a position inside the object -/
theorem Numbered.seek_eq (h : Numbered docs a g v) (ho : Stored docs a body) (hpos : 0 < v.seekTo)
    (hend : v.seekTo < body.length) :
    v.seek stray =
      if v.fragOffsets ≠ [] ∧ v.seekTarget stray ≠ v.fragment then (v.moveTo (v.seekTarget stray - 1), .read)
      else
        ({ v with
            docPos :=
              prefixLen v.doc + v.seekTo - if v.fragment ≠ 0 ∧ v.fragOffsets ≠ [] then v.fragAt stray (v.fragment - 1) else 0
            ndone := 0
            seekTo := 0 }, .done) := by
  have hsize : v.docLen = body.length := h.size.trans ho.size
  unfold VC.seek
  rw [if_neg hpos.ne', if_neg (by rw [hsize]; exact not_le.2 hend)]

/-- with a table, the seek chooses the fragment that holds the position -/
theorem Numbered.seekTarget_eq (h : Numbered docs a g v) (ho : Stored docs a body) (hend : v.seekTo < body.length)
    (hcov : Covers (docs.map Doc.data) v.seekTo t) (hne : v.fragOffsets ≠ []) : v.seekTarget stray = t := by
  have hlt : v.seekTo < fragStart docs docs.length := by
    rw [WriteVC.fragStart_length, ← ho.bytes]
    exact hend
  rw [h.table] at hne
  obtain ⟨t', htarget, hcov'⟩ := seekTarget_covers h ho.table (two_le_of_table ho.table hne) hlt
  rw [htarget, hcov'.unique hcov]

/-- the code takes the start of the fragment in `buf` from the table, that of the first one as 0 -/
theorem Numbered.start_eq (h : Numbered docs a g v) (htable : a.fragOffsets = fragStarts docs) :
    (if v.fragment ≠ 0 ∧ v.fragOffsets ≠ [] then v.fragAt stray (v.fragment - 1) else 0) = fragStart docs g := by
  have htable' : v.fragOffsets = fragStarts docs := h.table.trans htable
  have hlt := h.lt
  rw [h.fragment]
  rcases Nat.eq_zero_or_pos g with rfl | hg
  · rw [if_neg fun hc => hc.1 rfl]
    rfl
  · have hne : v.fragOffsets ≠ [] := by
      intro hnil
      have hlen := congrArg List.length (htable'.symm.trans hnil)
      rw [length_fragStarts, List.length_nil] at hlen
      omega
    have hlo : v.fragAt stray ((g - 1 : ℕ) : ℤ) = fragStart docs (g - 1 + 1) := fragAt_eq htable' (by omega)
    rw [Nat.sub_add_cancel hg, Nat.cast_sub hg] at hlo
    rw [if_pos ⟨by omega, hne⟩]
    exact hlo

/-- a position in the fragment in `buf` is found there -/
theorem Numbered.seek_here (h : Numbered docs a g v) (ho : Stored docs a body) (hpos : 0 < v.seekTo)
    (hend : v.seekTo < body.length) (hcov : Covers (docs.map Doc.data) v.seekTo g) :
    v.seek stray =
      ({ v with docPos := prefixLen v.doc + v.seekTo - fragStart docs g, ndone := 0, seekTo := 0 }, .done) := by
  rw [h.seek_eq ho hpos hend, if_neg, h.start_eq ho.table]
  rintro ⟨hne, htarget⟩
  rw [h.seekTarget_eq ho hend hcov hne, h.fragment] at htarget
  exact htarget rfl

/-- for a position in another fragment, that one is to be read next -/
theorem Numbered.seek_away (h : Numbered docs a g v) (ho : Stored docs a body) (hpos : 0 < v.seekTo)
    (hend : v.seekTo < body.length) (hcov : Covers (docs.map Doc.data) v.seekTo t) (hne : t ≠ g) :
    v.seek stray = (v.moveTo ((t : ℤ) - 1), .read) := by
  have hmany : v.fragOffsets ≠ [] := by
    intro hnil
    have hlen := congrArg List.length (h.table.symm.trans hnil)
    rw [ho.table, length_fragStarts, List.length_nil] at hlen
    have ht := hcov.lt_length
    rw [List.length_map] at ht
    have hg := h.lt
    omega
  have htarget : v.seekTarget stray = t := h.seekTarget_eq ho hend hcov hmany
  rw [h.seek_eq ho hpos hend, htarget, h.fragment, if_pos ⟨hmany, by exact_mod_cast hne⟩]

/-! ## The position reached -/

/-- the VC stands at position `s` of the object, in fragment `t`, and delivers from there -/
structure Positioned (docs : List Doc) (a : HTTPInfo) (body : List UInt8) (s t : ℕ) (v : VC) : Prop where
  loaded : Loaded docs a t v
  idle : v.seekTo = 0
  next : v.nextByte = body[s]?
  delivers : 0 < v.nbytes → ∀ w, (v.deliver w).2.1.head? = body[s]?

/-- whatever is delivered starts at `doc_pos` -/
theorem deliver_head (w : World) (htodo : 0 < v.ntodo) (hfull : v.ndone = 0) (hlo : prefixLen v.doc ≤ v.docPos)
    (hhi : v.docPos < docLength v.doc) : (v.deliver w).2.1.head? = v.nextByte := by
  have hbytes : 0 < (min (docLength v.doc - v.docPos) v.ntodo).toNat := by
    have hmin : 0 < min (docLength v.doc - v.docPos) v.ntodo := lt_min (by omega) htodo
    omega
  have hblock : ((v.doc.data.drop (v.docPos - prefixLen v.doc).toNat).take
      (min (docLength v.doc - v.docPos) v.ntodo).toNat).head? = v.nextByte := by
    unfold VC.nextByte
    rw [if_pos hlo, List.head?_take, if_neg hbytes.ne', List.head?_drop]
  unfold VC.deliver
  dsimp only
  rw [if_neg (not_le.2 htodo), if_neg fun hc => hc.2 hfull, if_neg (by omega)]
  split_ifs
  · exact hblock
  · exact hblock

theorem Loaded.positioned (h : Loaded docs a t v) (ho : Stored docs a body) (hpos : 0 < v.seekTo)
    (hend : v.seekTo < body.length) (hcov : Covers (docs.map Doc.data) v.seekTo t) :
    ∃ v', v.seek stray = (v', .done) ∧ Positioned docs a body v.seekTo t v' := by
  refine ⟨_, h.toNumbered.seek_here ho hpos hend hcov, ?_⟩
  have hdata : (docs.map Doc.data)[t]? = some v.doc.data := by
    rw [List.getElem?_map, h.doc, Option.map_some]
  have hbyte : body[v.seekTo]? = v.doc.data[v.seekTo - fragStart docs t]? := by
    rw [ho.bytes]
    exact hcov.getElem hdata
  have hlo : fragStart docs t ≤ v.seekTo := hcov.1
  have hhi : v.seekTo < fragStart docs t + v.doc.data.length := by
    have hlt := hcov.2
    rw [start_succ hdata] at hlt
    exact hlt
  have hnext : { v with docPos := prefixLen v.doc + v.seekTo - fragStart docs t, ndone := 0, seekTo := 0 }.nextByte =
      body[v.seekTo]? := by
    unfold VC.nextByte
    rw [if_pos (by dsimp only; omega), hbyte]
    congr 1
    dsimp only
    omega
  refine ⟨⟨⟨h.lt, h.fragment, h.key, h.table, h.size⟩, h.doc, h.handler⟩, rfl, hnext, fun hbytes w => ?_⟩
  rw [← hnext]
  apply deliver_head
  · unfold VC.ntodo
    dsimp only at hbytes ⊢
    omega
  · rfl
  · dsimp only
    omega
  · unfold docLength
    dsimp only
    omega

/-! ## Reading the fragment -/

/-- a seek to `s` is under way, and fragment `t` has to be read for it -/
structure Pending (docs : List Doc) (a : HTTPInfo) (s t : ℕ) (v : VC) : Prop where
  numbered : ∃ g, g ≠ t ∧ Numbered docs a g v
  seekTo : v.seekTo = s
  ndone : v.ndone = 0

/-- the call of `openReadMain` that misses the lock -/
def retry (stray : ℤ → ℕ) (v : VC) (w : World) : VC := (v.openReadMain stray w).1

section Reading

variable (ho : Stored docs a body) (hpos : 0 < s) (hend : s < body.length) (hcov : Covers (docs.map Doc.data) s t)
include ho hpos hend hcov

theorem Pending.seek_read (h : Pending docs a s t v) : v.seek stray = (v.moveTo ((t : ℤ) - 1), .read) := by
  obtain ⟨⟨g, hne, hg⟩, rfl, -⟩ := h
  exact hg.seek_away ho hpos hend hcov hne.symm

theorem Pending.openReadMain_eq (h : Pending docs a s t v) (w : World) :
    v.openReadMain stray w =
      if w.locked then
        if w.found then ({ v.moveTo ((t : ℤ) - 1) with handler := .openReadReadDone }, [], .read)
        else (v.moveTo ((t : ℤ) - 1), [], .error)
      else ({ v.moveTo ((t : ℤ) - 1) with handler := .openReadMain }, [], .retry) := by
  have hnot : ¬ ((v.moveTo ((t : ℤ) - 1)).docLen : ℤ) ≤ (v.moveTo ((t : ℤ) - 1)).ndone := by
    obtain ⟨g, -, hg⟩ := h.numbered
    have hsize : v.docLen = body.length := hg.size.trans ho.size
    change ¬ (v.docLen : ℤ) ≤ v.ndone
    rw [hsize, h.ndone]
    omega
  unfold VC.openReadMain
  rw [h.seek_read ho hpos hend hcov]
  dsimp only
  unfold VC.lread
  rw [if_neg hnot]
  cases w.locked <;> cases w.found <;> rfl

/-- a missed lock leaves the seek under way, unless the first fragment has to be read -/
theorem Pending.retry (h : Pending docs a s t v) (ht : t ≠ 0) {w : World} (hw : w.locked = false) :
    Pending docs a s t (retry stray v w) := by
  obtain ⟨g, -, hg⟩ := h.numbered
  have hlt := hcov.lt_length
  rw [List.length_map] at hlt
  have hone : t - 1 + 1 = t := Nat.sub_add_cancel (Nat.pos_of_ne_zero ht)
  unfold ReadVC.retry
  rw [h.openReadMain_eq ho hpos hend hcov, if_neg (by rw [hw]; exact Bool.false_ne_true)]
  refine ⟨⟨t - 1, by omega, ⟨by omega, ?_, ?_, hg.table, hg.size⟩⟩, h.seekTo, h.ndone⟩
  · change (t : ℤ) - 1 = ((t - 1 : ℕ) : ℤ)
    omega
  · rw [hone]
    exact hg.moveTo_key t

theorem Pending.retries (h : Pending docs a s t v) (ws : List World) (hws : ∀ w ∈ ws, w.locked = false)
    (ht : t = 0 → ws = []) : Pending docs a s t (ws.foldl (ReadVC.retry stray) v) := by
  induction ws generalizing v with
  | nil => exact h
  | cons w ws ih =>
    have ht' : t ≠ 0 := fun h0 => List.cons_ne_nil w ws (ht h0)
    apply ih
    · exact h.retry ho hpos hend hcov ht' (hws w List.mem_cons_self)
    · exact fun x hx => hws x (List.mem_cons_of_mem w hx)
    · exact fun h0 => absurd h0 ht'

/-- the fragment is read under its key, and the seek is done in it -/
theorem Pending.read (h : Pending docs a s t v) {d : Doc} (hd : docs[t]? = some d) {w : World} (hlocked : w.locked = true)
    (hfound : w.found = true) :
    ∃ u, v.openReadMain stray w = (u, [], .read) ∧ u.key = d.key ∧
      ∃ v', (u.openReadReadDone d).seek stray = (v', .done) ∧ Positioned docs a body s t v' := by
  obtain ⟨g, -, hg⟩ := h.numbered
  have hlt := hcov.lt_length
  rw [List.length_map] at hlt
  have hkey : (v.moveTo ((t : ℤ) - 1)).key = fragmentKey a.objectKey t := hg.moveTo_key t
  refine ⟨{ v.moveTo ((t : ℤ) - 1) with handler := .openReadReadDone }, ?_, ?_, ?_⟩
  · rw [h.openReadMain_eq ho hpos hend hcov, if_pos hlocked, if_pos hfound]
  · exact hkey.trans (ho.key hd).symm
  · have hload : Loaded docs a t
        (VC.openReadReadDone d { v.moveTo ((t : ℤ) - 1) with handler := .openReadReadDone }) := by
      refine ⟨⟨hlt, ?_, ?_, hg.table, hg.size⟩, hd, rfl⟩
      · change (t : ℤ) - 1 + 1 = t
        omega
      · change nextCacheKey (v.moveTo ((t : ℤ) - 1)).key = _
        rw [hkey, next_fragmentKey]
    have hseek : v.seekTo = s := h.seekTo
    subst hseek
    exact hload.positioned ho hpos hend hcov

end Reading

/-- **Writer and reader agree on the fragments.** The object is what a write VC has written for a new alternate. For each of
its fragments in the buffer of a read VC and each position but 0, exactly one fragment holds the position. If it is the one
in the buffer, the seek ends at the byte. If not, the read that follows is made under the key of that fragment, also after
missed locks unless it is the first one, and the seek ends at the byte in it. -/
theorem seek_finds_byte (cfg : WriteVC.Config) (update http closeComplete : Bool) (key updateKey : CacheKey) (updateLen : ℕ)
    (ops : List WriteVC.Op)
    (hclient : Along (WriteVC.step cfg) WriteVC.ClientOk
      (WriteVC.init update http closeComplete key updateKey updateLen) ops)
    (x : WriteVC.VC) (hx : WriteVC.run cfg (WriteVC.init update http closeComplete key updateKey updateLen) ops = x)
    (hup : x.update = false) (hhttp : x.http = true) (hhead : x.head.isSome) (a : HTTPInfo) (ha : x.alternate = some a)
    (stray : ℤ → ℕ) (f : ℕ) (v : VC) (hv : Loaded x.docs a f v) (nbytes : ℤ) (s : ℕ) (hpos : 0 < s)
    (hend : s < x.consumed.length) :
    ∃ t d, x.docs[t]? = some d ∧ (∀ i, Covers (x.docs.map Doc.data) s i ↔ i = t) ∧
      (t = f → ∃ v', (v.doIoPread nbytes s).seek stray = (v', .done) ∧ Positioned x.docs a x.consumed s t v') ∧
      (t ≠ f → ∀ ws : List World, (∀ w ∈ ws, w.locked = false) → (t = 0 → ws = []) →
        ∀ w : World, w.locked = true → w.found = true →
          ∃ u, (ws.foldl (retry stray) (v.doIoPread nbytes s)).openReadMain stray w = (u, [], .read) ∧ u.key = d.key ∧
            ∃ v', (u.openReadReadDone d).seek stray = (v', .done) ∧ Positioned x.docs a x.consumed s t v') := by
  have hinv : WriteVC.RunInv x := hx ▸ WriteVC.run_inv cfg (WriteVC.init_inv _ _ _ _ _ _) hclient
  have hdocs : x.docs ≠ [] := List.ne_nil_of_length_pos (Nat.zero_lt_of_lt hv.lt)
  have ho := stored_of_write hinv hup hhttp hhead ha hdocs
  obtain ⟨t, hcov⟩ := exists_covers (ho.bytes ▸ hend)
  have hlt := hcov.lt_length
  rw [List.length_map] at hlt
  have hunique : ∀ i, Covers (x.docs.map Doc.data) s i ↔ i = t := by
    intro i
    constructor
    · exact fun hi => hi.unique hcov
    · rintro rfl
      exact hcov
  have hload : Loaded x.docs a f (v.doIoPread nbytes s) :=
    ⟨⟨hv.lt, hv.fragment, hv.key, hv.table, hv.size⟩, hv.doc, hv.handler⟩
  refine ⟨t, x.docs[t], List.getElem?_eq_getElem hlt, hunique, ?_, ?_⟩
  · rintro rfl
    exact hload.positioned ho hpos hend hcov
  · intro hne ws hws hfirst w hlocked hfound
    have hpending : Pending x.docs a s t (v.doIoPread nbytes s) := ⟨⟨f, hne.symm, hload.toNumbered⟩, rfl, rfl⟩
    have hlater : Pending x.docs a s t (ws.foldl (retry stray) (v.doIoPread nbytes s)) :=
      hpending.retries ho hpos hend hcov ws hws hfirst
    exact hlater.read ho hpos hend hcov (List.getElem?_eq_getElem hlt) hlocked hfound

/-! ## An object of two fragments -/

/-- fragments of one byte or more -/
def tinyConfig : WriteVC.Config := ⟨73, false, by decide⟩

def keyZero : CacheKey := ⟨fun _ => 0⟩

/-- the write of the bytes 1 to 4 in two fragments; `old` is the table of the alternate that an update replaces -/
def writeTwo (old : Option (List ℕ)) : List WriteVC.Op :=
  let calm : WriteVC.World := ⟨false, false, false, old, none⟩
  [.setHttpInfo 0 false, .doIoWrite 4 [1, 2], .event none calm, .event (some true) calm, .fill [3, 4], .event none calm,
    .event (some true) calm, .doIoClose (-1) calm, .event none calm, .event (some true) calm, .event none calm]

def written (update : Bool) (old : Option (List ℕ)) : WriteVC.VC :=
  WriteVC.run tinyConfig (WriteVC.init update true false keyZero keyZero 0) (writeTwo old)

def firstDoc : Doc := ⟨keyZero, 0, [1, 2]⟩

def secondDoc : Doc := ⟨nextCacheKey keyZero, 0, [3, 4]⟩

/-- a read VC with the first fragment in its buffer, and then with the second one -/
def atFirst (offsets : List ℕ) : VC := openReadStartEarliest ⟨keyZero, 4, offsets⟩ firstDoc

def atSecond (offsets : List ℕ) : VC := (atFirst offsets).openReadReadDone secondDoc

theorem seek_finds_byte_in_second :
    (written false none).docs = [firstDoc, secondDoc] ∧
      ∃ u, ((atFirst [2]).doIoPread 1 3).openReadMain (fun _ => 0) ⟨true, true, false, false⟩ = (u, [], .read) ∧
        u.key = secondDoc.key ∧ ∃ v', (u.openReadReadDone secondDoc).seek (fun _ => 0) = (v', .done) ∧
          v'.nextByte = some 4 := by
  have hdocs : (written false none).docs = [firstDoc, secondDoc] := by decide +kernel
  have hbody : (written false none).consumed = [1, 2, 3, 4] := by decide +kernel
  have halt : (written false none).alternate = some ⟨keyZero, 4, [2]⟩ := by decide +kernel
  have hload : Loaded (written false none).docs ⟨keyZero, 4, [2]⟩ 0 (atFirst [2]) := by
    rw [hdocs]
    exact ⟨⟨by decide, rfl, rfl, rfl, rfl⟩, rfl, rfl⟩
  obtain ⟨t, d, hd, hcov, -, haway⟩ := seek_finds_byte tinyConfig false true false keyZero keyZero 0 (writeTwo none)
    (by decide +kernel) (written false none) rfl (by decide +kernel) (by decide +kernel) (by decide +kernel)
    ⟨keyZero, 4, [2]⟩ halt (fun _ => 0) 0 (atFirst [2]) hload 1 3 (by decide) (by rw [hbody]; decide)
  obtain rfl : 1 = t := (hcov 1).1 ⟨by rw [hdocs]; decide, by rw [hdocs]; decide⟩
  obtain rfl : secondDoc = d := by
    rw [hdocs] at hd
    exact Option.some.inj hd
  obtain ⟨u, hread, hkey, v', hseek, hplace⟩ :=
    haway (by decide) [] (by simp) (by simp) ⟨true, true, false, false⟩ rfl rfl
  refine ⟨hdocs, u, hread, hkey, v', hseek, ?_⟩
  rw [hplace.next, hbody]
  rfl

/-- the words in front of a table of one entry: the pointer to the table, and before it the number of entries -/
def beforeTable (i : ℤ) : ℕ := if i = -2 then 1 else 2 ^ 46

/-- Where the agreement ends. From the second fragment, a seek to 0 goes nowhere. After an update that writes a body, the
vector has the table of the alternate it replaced, and a seek from the first fragment ends at another byte. And a seek back
into the first fragment that misses the lock comes back with `fragment` at -1 and takes the second one for it. -/
theorem seek_goes_wrong :
    (written false none).consumed = [1, 2, 3, 4] ∧ (written true (some [1])).consumed = [1, 2, 3, 4] ∧
      (((atSecond [2]).doIoPread 1 0).seek beforeTable).1.nextByte ≠ some 1 ∧
      (written true (some [1])).alternate = some ⟨keyZero, 4, [1]⟩ ∧
      ((VC.openReadReadDone secondDoc
        (((atFirst [1]).doIoPread 1 1).openReadMain beforeTable ⟨true, true, false, false⟩).1).seek beforeTable).1.nextByte ≠
          some 2 ∧
      ((retry beforeTable ((atSecond [2]).doIoPread 1 1) ⟨false, true, false, false⟩).seek beforeTable).1.nextByte ≠
        some 2 := by
  decide +kernel

end TrafficServer.Cache.ReadVC
