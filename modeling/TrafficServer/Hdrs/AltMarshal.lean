/-
Alternates in a buffer (`HTTPInfo::marshal` and `unmarshal` in `proxy/hdrs/HTTP.cc`).

A marshalled alternate is the structure, the offsets from the fifth on, and the heaps of its headers; its pointers are offsets from its
start. Unmarshalling makes them pointers again where it lies, and copies the offsets to a table in the heap if there are more than four.

`marshal_spec`: an alternate in use is written in as many bytes as `marshal_length` has said, and what is written is `Marshalled`:
wherever it lies, `unmarshal` goes over exactly these bytes and leaves an alternate in use with the same offsets.

A buffer is a list of pieces: the structure, a run of offsets, or a heap. The heaps of the headers (`HdrHeap`) are a parameter, and
so is `sizeof(HTTPCacheAlt)`. Lengths of offsets are counted in offsets.
-/
import TrafficServer.Hdrs.CacheAlt

namespace TrafficServer.Hdrs.CacheAlt

open TrafficServer.Memory

/-- what the code takes from elsewhere -/
structure Platform where
  sizeofAlt : ℕ
  Heap : Type
  /-- a marshalled heap -/
  Blob : Type
  blobSize : Blob → ℕ
  /-- `HdrHeap::marshal_length` -/
  marshalLength : Heap → ℕ
  /-- `HdrHeap::marshal` -/
  marshal : Heap → ℤ → Option Blob
  /-- `HdrHeap::unmarshal`: the heap, and the bytes it has -/
  unmarshal : Blob → ℤ → Option (Heap × ℕ)

/-- the structure has pointers and four offsets in it, and heaps are marshalled as they should -/
structure Platform.Lawful (P : Platform) : Prop where
  aligned : 8 ∣ P.sizeofAlt
  sizeof_ge : 8 * N_INTEGRAL_FRAG_OFFSETS ≤ P.sizeofAlt
  length_pos : ∀ h, 0 < P.marshalLength h
  roundTrip : ∀ h (len : ℤ), P.marshalLength h ≤ len → ∃ b, P.marshal h len = some b ∧ P.blobSize b = P.marshalLength h ∧
    ∀ len' : ℤ, P.blobSize b ≤ len' → ∃ h', P.unmarshal b len' = some (h', P.blobSize b)

inductive Piece (P : Platform) where
  | alt (alt : HTTPCacheAlt P.Heap)
  | offsets (c : List (Option FragOffset))
  | heap (b : P.Blob)

variable {P : Platform}

/-- `HTTP_ALT_MARSHAL_SIZE`, rounded up to `HDR_PTR_SIZE` -/
def Platform.HTTP_ALT_MARSHAL_SIZE (P : Platform) : ℕ := (P.sizeofAlt + 7) / 8 * 8

def Piece.size : Piece P → ℕ
  | alt _ => P.HTTP_ALT_MARSHAL_SIZE
  | offsets c => 8 * c.length
  | heap b => P.blobSize b

abbrev Buf (P : Platform) := List (Piece P)

abbrev Buf.size (buf : Buf P) : ℕ := sizes Piece.size buf

abbrev Buf.behind (buf : Buf P) (n : ℕ) : Option (Buf P) := Memory.behind Piece.size buf n

/-! ## `marshal_length` and `marshal` -/

/-- `HTTPHdr::valid` -/
def HeapPtr.valid : HeapPtr P.Heap → Bool
  | .live _ => true
  | _ => false

def HeapPtr.marshalLength : HeapPtr P.Heap → ℕ
  | .live h => P.marshalLength h
  | _ => 0

namespace HTTPInfo

def marshalLength (alt : HTTPCacheAlt P.Heap) : ℕ :=
  let len := P.HTTP_ALT_MARSHAL_SIZE
  let len := len + alt.requestHdr.marshalLength
  let len := len + alt.responseHdr.marshalLength
  if N_INTEGRAL_FRAG_OFFSETS < alt.fragOffsetCount then len - 8 * N_INTEGRAL_FRAG_OFFSETS + 8 * alt.fragOffsetCount else len

/-- the table: the first offsets are copied to the alternate, the others are written -/
def marshalFrags (alt : HTTPCacheAlt P.Heap) : Option (HTTPCacheAlt P.Heap × Buf P) :=
  let fragLen : ℤ := match alt.fragOffsets with
    | .integral => 0
    | _ => alt.fragOffsetCount
  if fragLen = 0 then some (alt, [])
  else
    ((alt.readTable 0 N_INTEGRAL_FRAG_OFFSETS).bind (alt.integralFragOffsets.write 0)).bind fun b =>
      let alt := { alt with integralFragOffsets := b }
      let fragLen := fragLen - N_INTEGRAL_FRAG_OFFSETS
      if 0 < fragLen then (alt.readTable N_INTEGRAL_FRAG_OFFSETS fragLen.toNat).map fun c => (alt, [.offsets c]) else some (alt, [])

/-- the heap of a header, at `used` -/
def marshalHdr (hdr : HeapPtr P.Heap) (used : ℕ) (len : ℤ) : Option (HeapPtr P.Heap × Buf P) :=
  match hdr with
  | .live h => (P.marshal h (len - used)).map fun b => (.offset used, [.heap b])
  | _ => some (.null, [])

/-- the alternate, and what is written to the buffer, of `len` bytes -/
def marshal (alt : HTTPCacheAlt P.Heap) (len : ℤ) : Option (HTTPCacheAlt P.Heap × Buf P) :=
  if alt.magic = .alive then
    (marshalFrags alt).bind fun (alt, frags) =>
      let used := P.HTTP_ALT_MARSHAL_SIZE
      let fragOffsets : FragPtr := if frags = [] then .null else .offset used
      let used := used + frags.size
      (marshalHdr alt.requestHdr used len).bind fun (requestHdr, request) =>
        let used := used + request.size
        (marshalHdr alt.responseHdr used len).bind fun (responseHdr, response) =>
          let used := used + response.size
          let marshalAlt := { alt with magic := .marshaled, unmarshalLen := -1, fragOffsets, requestHdr, responseHdr }
          if used ≤ len then some (alt, .alt marshalAlt :: (frags ++ (request ++ response))) else none
  else none

/-! ## `unmarshal` and `get_handle` -/

/-- the table, and how many offsets are not in the alternate -/
def unmarshalFrags (buf : Buf P) (alt : HTTPCacheAlt P.Heap) : Option (FragPtr × ℕ) :=
  if N_INTEGRAL_FRAG_OFFSETS < alt.fragOffsetCount then
    let extra := alt.fragOffsetCount - N_INTEGRAL_FRAG_OFFSETS
    (bcountFor alt.fragOffsetCount).bind fun n =>
      match alt.fragOffsets with
      | .offset at_ =>
        match buf.behind at_ with
        | some (.offsets c :: _) =>
          if extra ≤ c.length then
            (((Block.alloc n).write 0 alt.integralFragOffsets.cells).bind fun table =>
              table.write N_INTEGRAL_FRAG_OFFSETS (c.take extra)).map fun table => (.heap n table, extra)
          else none
        | _ => none
      | _ => none
  else if 0 < alt.fragOffsetCount then some (.integral, 0)
  else some (.null, 0)

/-- the header, and the bytes of its heap -/
def unmarshalHdr (buf : Buf P) (hdr : HeapPtr P.Heap) (len : ℤ) : Option (HeapPtr P.Heap × ℕ) :=
  match hdr with
  | .null => some (.null, 0)
  | .offset n =>
    match buf.behind n with
    | some (.heap b :: _) => (P.unmarshal b len).map fun r => (.live r.1, r.2)
    | _ => none
  | .live _ => none

/-- the buffer with the alternate at its start unmarshalled, and the bytes gone over -/
def unmarshal (buf : Buf P) (len : ℤ) : Option (Buf P × ℤ) :=
  match buf with
  | .alt alt :: rest =>
    match alt.magic with
    -- from the RAM cache
    | .alive => some (buf, alt.unmarshalLen)
    | .marshaled =>
      let origLen := len
      let len := len - P.HTTP_ALT_MARSHAL_SIZE
      (unmarshalFrags buf alt).bind fun (fragOffsets, extra) =>
        let len := len - 8 * extra
        (unmarshalHdr buf alt.requestHdr len).bind fun (requestHdr, tmp) =>
          let len := len - tmp
          (unmarshalHdr buf alt.responseHdr len).bind fun (responseHdr, tmp) =>
            let len := len - tmp
            let unmarshalLen := origLen - len
            some (.alt { alt with magic := .alive, fragOffsets, requestHdr, responseHdr, unmarshalLen } :: rest, unmarshalLen)
    | .dead => none
  | _ => none

/-- the alternate, and the bytes it has -/
def getHandle (buf : Buf P) : Option (HTTPCacheAlt P.Heap × ℤ) :=
  match buf with
  | .alt alt :: _ => if alt.magic = .alive then some (alt, alt.unmarshalLen) else none
  | _ => none

end HTTPInfo

/-! ## The table through a buffer -/

variable {alt : HTTPCacheAlt P.Heap} {l : List FragOffset}

theorem marshalFrags_spec (h : Live alt l) :
    ∃ alt', HTTPInfo.marshalFrags alt =
        some (alt', if N_INTEGRAL_FRAG_OFFSETS < l.length then [.offsets ((l.drop N_INTEGRAL_FRAG_OFFSETS).map some)] else []) ∧
      Live alt' l ∧ SameHdrs alt alt' ∧ alt'.integralFragOffsets.Holds (l.take N_INTEGRAL_FRAG_OFFSETS) := by
  rcases alt with ⟨magic, unmarshalLen, requestHdr, responseHdr, count, fragOffsets, integral⟩
  obtain rfl : count = l.length := h.count
  cases fragOffsets with
  | null =>
    obtain rfl : l = [] := h.holds
    exact ⟨_, rfl, h, ⟨rfl, rfl⟩, Block.Holds.nil _⟩
  | integral =>
    have hholds : integral.Holds l := h.holds
    have hfew : l.length ≤ N_INTEGRAL_FRAG_OFFSETS := hholds.length_le
    refine ⟨_, ?_, h, ⟨rfl, rfl⟩, ?_⟩
    · rw [if_neg (not_lt.mpr hfew)]
      rfl
    · rwa [List.take_of_length_le hfew]
  | heap n table =>
    have hholds : table.Holds l := h.holds
    by_cases hnil : l = []
    · subst hnil
      exact ⟨_, rfl, h, ⟨rfl, rfl⟩, Block.Holds.nil _⟩
    · have hpos : (l.length : ℤ) ≠ 0 := by simpa using hnil
      obtain ⟨c, hread, hlen, hprefix⟩ := hholds.read_prefix h.sized.2
      obtain ⟨b, hwrite, hb⟩ := Block.exists_write integral hlen.le
      refine ⟨⟨magic, unmarshalLen, requestHdr, responseHdr, l.length, .heap n table, b⟩, ?_,
        ⟨h.magic, rfl, hholds, h.sized, h.request, h.response⟩, ⟨rfl, rfl⟩, hprefix.trans hb⟩
      unfold HTTPInfo.marshalFrags
      dsimp only [HTTPCacheAlt.readTable]
      rw [if_neg hpos, hread, Option.bind_some, hwrite, Option.bind_some]
      by_cases hmany : N_INTEGRAL_FRAG_OFFSETS < l.length
      · have hlong : (0 : ℤ) < (l.length : ℤ) - N_INTEGRAL_FRAG_OFFSETS := by omega
        have hrest : ((l.length : ℤ) - N_INTEGRAL_FRAG_OFFSETS).toNat = (l.drop N_INTEGRAL_FRAG_OFFSETS).length := by
          rw [List.length_drop]
          omega
        have hreadRest := Block.Holds.read ((List.take_append_drop N_INTEGRAL_FRAG_OFFSETS l).symm ▸ hholds)
        rw [List.length_take, Nat.min_eq_left hmany.le] at hreadRest
        rw [if_pos hlong, if_pos hmany, hrest, hreadRest, Option.map_some]
      · have hshort : ¬ (0 : ℤ) < (l.length : ℤ) - N_INTEGRAL_FRAG_OFFSETS := by omega
        rw [if_neg hshort, if_neg hmany]
  | offset n => exact h.holds.elim

/-- the table of what was marshalled so -/
theorem unmarshalFrags_spec {buf : Buf P} {used : ℕ} (rest : Buf P) (hcount : alt.fragOffsetCount = l.length) (hl : l.length ≤ 2 ^ 30)
    (hintegral : alt.integralFragOffsets.Holds (l.take N_INTEGRAL_FRAG_OFFSETS))
    (hextra : N_INTEGRAL_FRAG_OFFSETS < l.length → alt.fragOffsets = .offset used ∧
      buf.behind used = some (.offsets ((l.drop N_INTEGRAL_FRAG_OFFSETS).map some) :: rest)) :
    ∃ table, HTTPInfo.unmarshalFrags buf alt = some (table, l.length - N_INTEGRAL_FRAG_OFFSETS) ∧ table.Sized ∧
      HTTPCacheAlt.Holds { alt with fragOffsets := table } l := by
  unfold HTTPInfo.unmarshalFrags
  rw [hcount]
  by_cases hmany : N_INTEGRAL_FRAG_OFFSETS < l.length
  · obtain ⟨hoffset, hbehind⟩ := hextra hmany
    obtain ⟨n, hn, hpow, hfour, hfits⟩ := bcountFor_spec hl
    have htake : (l.take N_INTEGRAL_FRAG_OFFSETS).length = N_INTEGRAL_FRAG_OFFSETS := by
      rw [List.length_take, Nat.min_eq_left hmany.le]
    obtain ⟨b, hwrite, hb⟩ := Block.exists_write_all (Block.alloc n) (l := l.take N_INTEGRAL_FRAG_OFFSETS) (htake.le.trans hfour)
    have hspace : (l.take N_INTEGRAL_FRAG_OFFSETS).length + (l.drop N_INTEGRAL_FRAG_OFFSETS).length ≤ n := by
      rwa [← List.length_append, List.take_append_drop]
    obtain ⟨b', hwrite', hb'⟩ := Block.Holds.write hb hspace
    rw [List.take_append_drop] at hb'
    rw [htake] at hwrite'
    have hlen : l.length - N_INTEGRAL_FRAG_OFFSETS = ((l.drop N_INTEGRAL_FRAG_OFFSETS).map (some : FragOffset → _)).length := by
      rw [List.length_map, List.length_drop]
    refine ⟨.heap n b', ?_, ⟨hpow, hfour⟩, hb'⟩
    rw [if_pos hmany, hn, Option.bind_some, hoffset]
    dsimp only
    rw [hbehind]
    dsimp only
    rw [if_pos hlen.le, Block.Holds.cells_eq hintegral htake, hwrite, Option.bind_some, hlen, List.take_length, hwrite', Option.map_some]
  · have hfew : l.length ≤ N_INTEGRAL_FRAG_OFFSETS := not_lt.mp hmany
    have hzero : l.length - N_INTEGRAL_FRAG_OFFSETS = 0 := Nat.sub_eq_zero_of_le hfew
    rw [if_neg hmany, hzero]
    by_cases hnil : l = []
    · exact ⟨.null, by simp [hnil], trivial, hnil⟩
    · refine ⟨.integral, if_pos (List.length_pos_of_ne_nil hnil), trivial, ?_⟩
      rwa [List.take_of_length_le hfew] at hintegral

/-! ## A header through a buffer -/

/-- the header is read back from these pieces at `used` -/
def ReadsBack (hdr : HeapPtr P.Heap) (used : ℕ) (b : Buf P) : Prop :=
  ∀ (before rest : Buf P) (len : ℤ), before.size = used → (∀ p ∈ before, 0 < p.size) → b.size ≤ len →
    ∃ hdr', HTTPInfo.unmarshalHdr (before ++ (b ++ rest)) hdr len = some (hdr', b.size) ∧ hdr'.Alive

theorem marshalHdr_spec (hP : P.Lawful) {hdr : HeapPtr P.Heap} (halive : hdr.Alive) (used : ℕ) (len : ℤ)
    (hlen : used + hdr.marshalLength ≤ len) :
    ∃ (hdr' : HeapPtr P.Heap) (b : Buf P), HTTPInfo.marshalHdr hdr used len = some (hdr', b) ∧ b.size = hdr.marshalLength ∧
      (∀ p ∈ b, 0 < p.size) ∧ ReadsBack hdr' used b := by
  cases hdr with
  | null => exact ⟨.null, [], rfl, rfl, by simp, fun _ _ _ _ _ _ => ⟨.null, rfl, trivial⟩⟩
  | live h =>
    obtain ⟨b, hmarshal, hsize, hunmarshal⟩ := hP.roundTrip h (len - used) (by rw [HeapPtr.marshalLength] at hlen; omega)
    have hsize' : Buf.size [Piece.heap b] = P.blobSize b := by simp [Piece.size]
    refine ⟨.offset used, [.heap b], ?_, hsize'.trans hsize, ?_, ?_⟩
    · rw [HTTPInfo.marshalHdr, hmarshal, Option.map_some]
    · intro p hp
      rw [List.mem_singleton.mp hp, Piece.size, hsize]
      exact hP.length_pos h
    · intro before rest len' hused hpos hlen'
      obtain ⟨h', hh'⟩ := hunmarshal len' (hsize' ▸ hlen')
      refine ⟨.live h', ?_, trivial⟩
      rw [HTTPInfo.unmarshalHdr, Buf.behind, ← hused, Buf.size, behind_append Piece.size hpos]
      dsimp only [List.singleton_append]
      rw [hh', Option.map_some, hsize']
  | offset n => exact halive.elim

/-! ## An alternate through a buffer -/

theorem Platform.Lawful.marshalSize_eq (hP : P.Lawful) : P.HTTP_ALT_MARSHAL_SIZE = P.sizeofAlt := by
  have haligned := hP.aligned
  unfold Platform.HTTP_ALT_MARSHAL_SIZE
  omega

/-- an alternate in use at the start of `n` bytes of a buffer -/
structure Unmarshalled (alt : HTTPCacheAlt P.Heap) (tail : Buf P) (l : List FragOffset) (n : ℕ) : Prop where
  live : Live alt l
  unmarshalLen : alt.unmarshalLen = n
  size : Buf.size (.alt alt :: tail) = n
  pos : ∀ p ∈ .alt alt :: tail, 0 < p.size

theorem Platform.Lawful.marshalSize_pos (hP : P.Lawful) : 0 < P.HTTP_ALT_MARSHAL_SIZE := by
  rw [hP.marshalSize_eq]
  exact lt_of_lt_of_le (by decide) hP.sizeof_ge

/-- what `unmarshal` takes for an alternate with these offsets, whatever is behind it -/
structure Marshalled (buf : Buf P) (l : List FragOffset) : Prop where
  size_ge : P.HTTP_ALT_MARSHAL_SIZE ≤ buf.size
  unmarshal : ∀ (rest : Buf P) (len : ℤ), buf.size ≤ len →
    ∃ alt tail, HTTPInfo.unmarshal (buf ++ rest) len = some (.alt alt :: (tail ++ rest), (buf.size : ℤ)) ∧
      Unmarshalled alt tail l buf.size

/-- the bytes of an alternate -/
def HTTPCacheAlt.bytes (alt : HTTPCacheAlt P.Heap) : ℕ :=
  P.sizeofAlt + alt.requestHdr.marshalLength + alt.responseHdr.marshalLength + 8 * (alt.fragOffsetCount - N_INTEGRAL_FRAG_OFFSETS)

theorem marshalLength_eq (hP : P.Lawful) (alt : HTTPCacheAlt P.Heap) : HTTPInfo.marshalLength alt = alt.bytes := by
  have hfour := hP.sizeof_ge
  unfold HTTPInfo.marshalLength HTTPCacheAlt.bytes
  rw [hP.marshalSize_eq]
  dsimp only
  split_ifs with hmany
  · omega
  · omega

/-- the offsets that are not in the alternate, as they are written -/
def extraPieces (P : Platform) (l : List FragOffset) : Buf P :=
  if N_INTEGRAL_FRAG_OFFSETS < l.length then [.offsets ((l.drop N_INTEGRAL_FRAG_OFFSETS).map some)] else []

theorem extraPieces_size (P : Platform) (l : List FragOffset) : (extraPieces P l).size = 8 * (l.length - N_INTEGRAL_FRAG_OFFSETS) := by
  unfold extraPieces
  split_ifs with hmany
  · simp [Piece.size]
  · simp [Nat.sub_eq_zero_of_le (not_lt.mp hmany)]

theorem extraPieces_pos (P : Platform) (l : List FragOffset) : ∀ p ∈ extraPieces P l, 0 < p.size := by
  unfold extraPieces
  split_ifs with hmany
  · intro p hp
    rw [List.mem_singleton.mp hp, Piece.size, List.length_map, List.length_drop]
    omega
  · simp

/-- `unmarshal` of an alternate whose three parts are read back -/
theorem unmarshal_parts {m : HTTPCacheAlt P.Heap} {buf : Buf P} {len : ℤ} {table : FragPtr} {extra n₁ n₂ n : ℕ}
    {request response : HeapPtr P.Heap} (hmagic : m.magic = .marshaled)
    (hfrags : HTTPInfo.unmarshalFrags (.alt m :: buf) m = some (table, extra))
    (hrequest : HTTPInfo.unmarshalHdr (.alt m :: buf) m.requestHdr (len - P.HTTP_ALT_MARSHAL_SIZE - 8 * extra) = some (request, n₁))
    (hresponse : HTTPInfo.unmarshalHdr (.alt m :: buf) m.responseHdr (len - P.HTTP_ALT_MARSHAL_SIZE - 8 * extra - n₁) =
      some (response, n₂))
    (hn : n = P.HTTP_ALT_MARSHAL_SIZE + 8 * extra + n₁ + n₂) :
    HTTPInfo.unmarshal (.alt m :: buf) len =
      some (.alt ⟨.alive, n, request, response, m.fragOffsetCount, table, m.integralFragOffsets⟩ :: buf, (n : ℤ)) := by
  have hlen : len - (len - P.HTTP_ALT_MARSHAL_SIZE - 8 * extra - n₁ - n₂) = n := by omega
  unfold HTTPInfo.unmarshal
  simp only [hmagic, hfrags, hrequest, hresponse, hlen, Option.bind_some]

/-- what is behind the alternate is read back -/
theorem marshalled_of_parts (hP : P.Lawful) {m : HTTPCacheAlt P.Heap} {b₁ b₂ : Buf P} (hmagic : m.magic = .marshaled)
    (hcount : m.fragOffsetCount = l.length) (hl : l.length ≤ 2 ^ 30)
    (hintegral : m.integralFragOffsets.Holds (l.take N_INTEGRAL_FRAG_OFFSETS))
    (hoffset : N_INTEGRAL_FRAG_OFFSETS < l.length → m.fragOffsets = .offset P.HTTP_ALT_MARSHAL_SIZE)
    (hpos₁ : ∀ p ∈ b₁, 0 < p.size) (hpos₂ : ∀ p ∈ b₂, 0 < p.size)
    (hback₁ : ReadsBack m.requestHdr (P.HTTP_ALT_MARSHAL_SIZE + (extraPieces P l).size) b₁)
    (hback₂ : ReadsBack m.responseHdr (P.HTTP_ALT_MARSHAL_SIZE + (extraPieces P l).size + b₁.size) b₂) :
    Marshalled (.alt m :: (extraPieces P l ++ (b₁ ++ b₂))) l := by
  have hextra := extraPieces_size P l
  have hpos := extraPieces_pos P l
  have hALT := hP.marshalSize_pos
  have halt : ∀ alt : HTTPCacheAlt P.Heap, Piece.size (.alt alt) = P.HTTP_ALT_MARSHAL_SIZE := fun _ => rfl
  have hsize : Buf.size (.alt m :: (extraPieces P l ++ (b₁ ++ b₂))) =
      P.HTTP_ALT_MARSHAL_SIZE + (extraPieces P l).size + b₁.size + b₂.size := by
    simp only [Buf.size, sizes_cons, sizes_append, halt, Nat.add_assoc]
  refine ⟨by omega, fun rest len hlen => ?_⟩
  rw [hsize] at hlen ⊢
  -- the four parts, cut in three places
  set buf := extraPieces P l ++ (b₁ ++ b₂) ++ rest with hbuf
  have hcut₀ : .alt m :: buf = [.alt m] ++ (extraPieces P l ++ (b₁ ++ b₂ ++ rest)) := by simp [hbuf]
  have hcut₁ : .alt m :: buf = .alt m :: extraPieces P l ++ (b₁ ++ (b₂ ++ rest)) := by simp [hbuf]
  have hcut₂ : .alt m :: buf = .alt m :: (extraPieces P l ++ b₁) ++ (b₂ ++ rest) := by simp [hbuf]
  obtain ⟨table, hfrags, hsized, hholds⟩ : ∃ table, HTTPInfo.unmarshalFrags (.alt m :: buf) m =
      some (table, l.length - N_INTEGRAL_FRAG_OFFSETS) ∧ table.Sized ∧ HTTPCacheAlt.Holds { m with fragOffsets := table } l := by
    refine unmarshalFrags_spec (b₁ ++ b₂ ++ rest) hcount hl hintegral fun hmany => ⟨hoffset hmany, ?_⟩
    have hbehind : Buf.behind ([.alt m] ++ (extraPieces P l ++ (b₁ ++ b₂ ++ rest))) (Buf.size [.alt m]) =
        some (extraPieces P l ++ (b₁ ++ b₂ ++ rest)) := behind_append Piece.size (by simpa [halt] using hALT) _
    rw [hcut₀, show P.HTTP_ALT_MARSHAL_SIZE = Buf.size [.alt m] by simp [halt], hbehind, extraPieces, if_pos hmany]
    rfl
  obtain ⟨request, hrequest, hrequestAlive⟩ := hback₁ (.alt m :: extraPieces P l) (b₂ ++ rest)
    (len - P.HTTP_ALT_MARSHAL_SIZE - 8 * (l.length - N_INTEGRAL_FRAG_OFFSETS : ℕ)) (by simp [halt])
    (by simpa [halt, hALT] using hpos) (by omega)
  obtain ⟨response, hresponse, hresponseAlive⟩ := hback₂ (.alt m :: (extraPieces P l ++ b₁)) rest
    (len - P.HTTP_ALT_MARSHAL_SIZE - 8 * (l.length - N_INTEGRAL_FRAG_OFFSETS : ℕ) - b₁.size) (by simp [halt, Nat.add_assoc])
    (by
      intro p hp
      rcases List.mem_cons.mp hp with rfl | hp
      · exact hALT
      · exact (List.mem_append.mp hp).elim (hpos p) (hpos₁ p)) (by omega)
  rw [← hcut₁] at hrequest
  rw [← hcut₂] at hresponse
  refine ⟨_, extraPieces P l ++ (b₁ ++ b₂),
    unmarshal_parts (n := P.HTTP_ALT_MARSHAL_SIZE + (extraPieces P l).size + b₁.size + b₂.size) hmagic hfrags hrequest hresponse
      (by rw [hextra]), ⟨?_, rfl, ?_, ?_⟩⟩
  · exact ⟨rfl, hcount, hholds, hsized, hrequestAlive, hresponseAlive⟩
  · simp only [Buf.size, sizes_cons, sizes_append, halt, Nat.add_assoc]
  · intro p hp
    rcases List.mem_cons.mp hp with rfl | hp
    · exact hALT
    · rcases List.mem_append.mp hp with hp | hp
      · exact hpos p hp
      · exact (List.mem_append.mp hp).elim (hpos₁ p) (hpos₂ p)

theorem marshal_spec (hP : P.Lawful) (h : Live alt l) (hl : l.length ≤ 2 ^ 30) (len : ℤ) (hlen : alt.bytes ≤ len) :
    ∃ alt' buf, HTTPInfo.marshal alt len = some (alt', buf) ∧ Live alt' l ∧ SameHdrs alt alt' ∧ buf.size = alt.bytes ∧
      Marshalled buf l := by
  obtain ⟨alt₁, hfrags, hlive, hsame, hintegral⟩ := marshalFrags_spec h
  change HTTPInfo.marshalFrags alt = some (alt₁, extraPieces P l) at hfrags
  have hextra := extraPieces_size P l
  have hALT := hP.marshalSize_eq
  have hbytes : alt.bytes =
      P.HTTP_ALT_MARSHAL_SIZE + (extraPieces P l).size + alt₁.requestHdr.marshalLength + alt₁.responseHdr.marshalLength := by
    rw [HTTPCacheAlt.bytes, hextra, hALT, h.count, hsame.request, hsame.response]
    omega
  obtain ⟨request, b₁, hrequest, hsize₁, hpos₁, hback₁⟩ :=
    marshalHdr_spec hP hlive.request (P.HTTP_ALT_MARSHAL_SIZE + (extraPieces P l).size) len (by push_cast; omega)
  obtain ⟨response, b₂, hresponse, hsize₂, hpos₂, hback₂⟩ :=
    marshalHdr_spec hP hlive.response (P.HTTP_ALT_MARSHAL_SIZE + (extraPieces P l).size + b₁.size) len (by push_cast; omega)
  have hfits : ((P.HTTP_ALT_MARSHAL_SIZE + (extraPieces P l).size + b₁.size + b₂.size : ℕ) : ℤ) ≤ len := by omega
  refine ⟨alt₁, _, ?_, hlive, hsame, ?_, marshalled_of_parts hP (m := { alt₁ with
    magic := .marshaled, unmarshalLen := -1, requestHdr := request, responseHdr := response,
    fragOffsets := if extraPieces P l = [] then .null else .offset P.HTTP_ALT_MARSHAL_SIZE }) rfl hlive.count hl hintegral ?_ hpos₁ hpos₂
    hback₁ hback₂⟩
  · unfold HTTPInfo.marshal
    rw [if_pos h.magic, hfrags, Option.bind_some]
    dsimp only
    rw [hrequest, Option.bind_some]
    dsimp only
    rw [hresponse, Option.bind_some, if_pos hfits]
  · simp only [Buf.size, sizes_cons, sizes_append, Piece.size]
    change P.HTTP_ALT_MARSHAL_SIZE + ((extraPieces P l).size + (b₁.size + b₂.size)) = alt.bytes
    omega
  · intro hmany
    simp [extraPieces, hmany]

end TrafficServer.Hdrs.CacheAlt
