/-
Vectors of alternates through a buffer (`CacheHTTPInfoVector::marshal_length`, `marshal`, `unmarshal` and `get_handles` in
`iocore/cache/CacheHttp.cc`).

`frag_tables`: in every run of pushes, copies, vectors that are marshalled and buffers that are unmarshalled, where every step meets its
condition (`OpOk`), nothing is accessed outside of an allocation and the table of each alternate is the list of the offsets pushed. In each
state of such a run, a vector goes through a buffer (`RoundTrip`) exactly if its bytes are an `int` and its last alternate has a header or
more than four offsets (`VectorOk`): the loops that read a buffer end where no more than the size of an alternate is left, and an
alternate without all of these has just that size.

The alternates have names, wherever they lie; those that are unmarshalled are named then.
-/
import TrafficServer.Hdrs.AltMarshal
import TrafficServer.Lib.Run

namespace TrafficServer.Cache.AltVector

open TrafficServer.Memory TrafficServer.Run TrafficServer.Hdrs.CacheAlt

variable {P : Platform} {ι β : Type} [DecidableEq ι] [DecidableEq β]

abbrev Alts (P : Platform) (ι : Type) := ι → HTTPCacheAlt P.Heap

/-! ## The functions -/

/-- an `int` -/
def marshalLength (alts : Alts P ι) (v : List ι) : Option ℕ :=
  let length := (v.map fun i => HTTPInfo.marshalLength (alts i)).sum
  if length < 2 ^ 31 then some length else none

/-- the alternates as they are left, and what is written to the buffer, of `length` bytes -/
def marshal : List ι → Alts P ι → ℤ → Option (Alts P ι × Buf P)
  | [], alts, _ => some (alts, [])
  | i :: v, alts, length =>
    (HTTPInfo.marshal (alts i) length).bind fun (alt, buf) =>
      (marshal v (Function.update alts i alt) (length - buf.size)).map fun r => (r.1, buf ++ r.2)

/-- the loop, at most `n` times: the buffer as it is left, and the alternates in the vector -/
def unmarshalLoop : ℕ → Buf P → ℤ → Option (Buf P × List (HTTPCacheAlt P.Heap))
  | 0, buf, length => if (P.sizeofAlt : ℤ) < length then none else some (buf, [])
  | n + 1, buf, length =>
    if (P.sizeofAlt : ℤ) < length then
      (HTTPInfo.unmarshal buf length).bind fun (buf, tmp) =>
        match buf with
        | .alt alt :: _ =>
          if tmp < 0 then none
          else
            (split Piece.size buf tmp.toNat).bind fun (done, rest) =>
              (unmarshalLoop n rest (length - tmp)).map fun r => (done ++ r.1, alt :: r.2)
        | _ => none
    else some (buf, [])

/-- each step goes over a piece at least -/
def unmarshal (buf : Buf P) (length : ℤ) : Option (Buf P × List (HTTPCacheAlt P.Heap)) := unmarshalLoop buf.length buf length

/-- the loop, at most `n` times -/
def getHandlesLoop : ℕ → Buf P → ℤ → Option (List (HTTPCacheAlt P.Heap))
  | 0, _, length => if (P.sizeofAlt : ℤ) < length then none else some []
  | n + 1, buf, length =>
    if (P.sizeofAlt : ℤ) < length then
      (HTTPInfo.getHandle buf).bind fun (alt, tmp) =>
        if tmp < 0 then none
        else (behind Piece.size buf tmp.toNat).bind fun rest => (getHandlesLoop n rest (length - tmp)).map (alt :: ·)
    else some []

def getHandles (buf : Buf P) (length : ℤ) : Option (List (HTTPCacheAlt P.Heap)) := getHandlesLoop buf.length buf length

/-! ## A vector through a buffer -/

/-- Where the length fits, that many bytes are written, and they are read back to as many alternates with the same tables. -/
def RoundTrip (alts : Alts P ι) (v : List ι) : Prop :=
  ∃ n, marshalLength alts v = some n ∧ ∀ length : ℤ, n ≤ length →
    ∃ alts' buf buf' read, marshal v alts length = some (alts', buf) ∧ buf.size = n ∧
      unmarshal buf n = some (buf', read) ∧ getHandles buf' n = some read ∧
      read.map HTTPCacheAlt.fragTable = v.map fun i => (alts i).fragTable

/-- no valid header, and no offsets outside -/
def Bare (alt : HTTPCacheAlt P.Heap) : Prop :=
  alt.requestHdr.valid = false ∧ alt.responseHdr.valid = false ∧ alt.fragOffsetCount ≤ N_INTEGRAL_FRAG_OFFSETS

instance (alt : HTTPCacheAlt P.Heap) : Decidable (Bare alt) := inferInstanceAs (Decidable (_ ∧ _ ∧ _))

/-- an `int` of bytes, and not a bare alternate at the end -/
def VectorOk (alts : Alts P ι) (v : List ι) : Prop :=
  (v.map fun i => (alts i).bytes).sum < 2 ^ 31 ∧ ∀ i ∈ v.getLast?, ¬ Bare (alts i)

instance (alts : Alts P ι) (v : List ι) : Decidable (VectorOk alts v) :=
  inferInstanceAs (Decidable (_ ∧ ∀ i ∈ v.getLast?, ¬ Bare (alts i)))

/-- the loops come to the last one -/
def ReadAll (bufs : List (Buf P)) : Prop := ∀ b ∈ bufs.getLast?, P.sizeofAlt < b.size

variable {b rest : Buf P} {bufs : List (Buf P)} {l : List FragOffset} {ls : List (List FragOffset)} {n : ℕ}

/-- one alternate, with something behind it or more than its structure -/
theorem unmarshalLoop_cons (hb : Marshalled b l) (hmore : P.sizeofAlt < b.size + rest.size) :
    ∃ alt tail, Unmarshalled alt tail l b.size ∧
      unmarshalLoop (n + 1) (b ++ rest) (b.size + rest.size : ℕ) =
        (unmarshalLoop n rest rest.size).map fun r => (.alt alt :: (tail ++ r.1), alt :: r.2) := by
  obtain ⟨alt, tail, hunmarshal, halt⟩ := hb.unmarshal rest (b.size + rest.size : ℕ) (by push_cast; omega)
  have hcut : split Piece.size (.alt alt :: (tail ++ rest)) b.size = some (.alt alt :: tail, rest) := by
    rw [← halt.size]
    exact split_append Piece.size halt.pos rest
  have hleft : ((b.size + rest.size : ℕ) : ℤ) - (b.size : ℤ) = (rest.size : ℤ) := by
    push_cast
    ring
  refine ⟨alt, tail, halt, ?_⟩
  rw [unmarshalLoop, if_pos (by exact_mod_cast hmore), hunmarshal, Option.bind_some]
  dsimp only
  rw [if_neg (by omega), Int.toNat_natCast, hcut, Option.bind_some, hleft]
  rfl

theorem getHandlesLoop_cons {alt : HTTPCacheAlt P.Heap} {tail : Buf P} {k : ℕ} (halt : Unmarshalled alt tail l k)
    (hmore : P.sizeofAlt < k + rest.size) :
    getHandlesLoop (n + 1) (.alt alt :: (tail ++ rest)) (k + rest.size : ℕ) = (getHandlesLoop n rest rest.size).map (alt :: ·) := by
  have hhandle : HTTPInfo.getHandle (.alt alt :: (tail ++ rest)) = some (alt, (k : ℤ)) := by
    rw [HTTPInfo.getHandle, if_pos halt.live.magic, halt.unmarshalLen]
  have hcut : behind Piece.size (.alt alt :: (tail ++ rest)) k = some rest := by
    rw [← halt.size]
    exact behind_append Piece.size halt.pos rest
  have hleft : ((k + rest.size : ℕ) : ℤ) - (k : ℤ) = (rest.size : ℤ) := by
    push_cast
    ring
  rw [getHandlesLoop, if_pos (by exact_mod_cast hmore), hhandle, Option.bind_some]
  dsimp only
  rw [if_neg (by omega), Int.toNat_natCast, hcut, Option.bind_some, hleft]

theorem readAll_cons (hmore : P.sizeofAlt < b.size + Buf.size bufs.flatten) : ReadAll (b :: bufs) ↔ ReadAll bufs := by
  cases bufs with
  | nil => simpa [ReadAll] using hmore
  | cons b' bufs => rw [ReadAll, ReadAll, List.getLast?_cons_cons]

/-- an alternate where the loops end is a bare one, and the last -/
theorem eq_nil_of_not_more (hP : P.Lawful) (hb : Marshalled b l) (hrest : List.Forall₂ Marshalled bufs ls)
    (hmore : ¬ P.sizeofAlt < b.size + Buf.size bufs.flatten) : bufs = [] ∧ b.size ≤ P.sizeofAlt := by
  have hsizeof : 0 < P.sizeofAlt := hP.marshalSize_eq ▸ hP.marshalSize_pos
  have hge := hP.marshalSize_eq ▸ hb.size_ge
  cases hrest with
  | nil => exact ⟨rfl, by simpa using hmore⟩
  | @cons b' _ bufs _ hb' _ =>
    have hge' := hP.marshalSize_eq ▸ hb'.size_ge
    have hsize : Buf.size (b' :: bufs).flatten = b'.size + Buf.size bufs.flatten := by
      rw [List.flatten_cons, Buf.size, sizes_append]
    omega

/-- The loops over the alternates that were marshalled: what is read is in use, and is all of them exactly if the last one is read. -/
theorem loops_spec (hP : P.Lawful) (h : List.Forall₂ Marshalled bufs ls) (hn : bufs.length ≤ n) :
    ∃ buf' alts, unmarshalLoop n bufs.flatten (Buf.size bufs.flatten) = some (buf', alts) ∧
      Buf.size buf' = Buf.size bufs.flatten ∧
      (ReadAll bufs → List.Forall₂ Live alts ls ∧ bufs.length ≤ buf'.length ∧
        ∀ n', bufs.length ≤ n' → getHandlesLoop n' buf' (Buf.size bufs.flatten) = some alts) ∧
      (¬ ReadAll bufs → alts.length ≠ ls.length) := by
  induction h generalizing n with
  | nil =>
    have hzero : ¬ (P.sizeofAlt : ℤ) < ((0 : ℕ) : ℤ) := by omega
    refine ⟨[], [], ?_, rfl, fun _ => ⟨.nil, le_refl _, fun n' _ => ?_⟩, fun hbad => absurd (by simp [ReadAll]) hbad⟩
    · cases n <;> exact if_neg hzero
    · cases n' <;> exact if_neg hzero
  | @cons b l bufs ls hb hrest ih =>
    have hsize : Buf.size (b :: bufs).flatten = b.size + Buf.size bufs.flatten := by
      rw [List.flatten_cons, Buf.size, sizes_append]
    obtain ⟨n, rfl⟩ : ∃ m, n = m + 1 := ⟨n - 1, by simp only [List.length_cons] at hn; omega⟩
    rw [hsize, List.flatten_cons]
    by_cases hmore : P.sizeofAlt < b.size + Buf.size bufs.flatten
    · obtain ⟨buf', alts, hloop, hsize', hall, hbad⟩ := ih (Nat.le_of_succ_le_succ hn)
      obtain ⟨alt, tail, halt, hstep⟩ := unmarshalLoop_cons (n := n) hb hmore
      refine ⟨.alt alt :: (tail ++ buf'), alt :: alts, ?_, ?_, fun hread => ?_, fun hread => ?_⟩
      · rw [hstep, hloop, Option.map_some]
      · have hcut : .alt alt :: (tail ++ buf') = .alt alt :: tail ++ buf' := rfl
        rw [hcut, Buf.size, sizes_append]
        exact congrArg₂ (· + ·) halt.size hsize'
      · obtain ⟨hlive, hlen, hhandles⟩ := hall ((readAll_cons hmore).mp hread)
        have hlen' : bufs.length ≤ (tail ++ buf').length := by
          rw [List.length_append]
          exact hlen.trans (Nat.le_add_left _ _)
        refine ⟨.cons halt.live hlive, Nat.succ_le_succ hlen', fun n' hn' => ?_⟩
        obtain ⟨n', rfl⟩ : ∃ m, n' = m + 1 := ⟨n' - 1, by simp only [List.length_cons] at hn'; omega⟩
        rw [← hsize', getHandlesLoop_cons halt (hsize' ▸ hmore), hsize', hhandles n' (Nat.le_of_succ_le_succ hn'), Option.map_some]
      · have hne := hbad fun h => hread ((readAll_cons hmore).mpr h)
        simpa using hne
    · obtain ⟨rfl, hbare⟩ := eq_nil_of_not_more hP hb hrest hmore
      refine ⟨b ++ [], [], if_neg (by exact_mod_cast hmore), by simp, fun hread => ?_, fun _ => by simp⟩
      exact absurd (hread b rfl) (not_lt.mpr hbare)

/-! ## Marshalling a vector -/

/-- every alternate is in use, with a table that the list gives -/
def AllLive (alts : Alts P ι) (pushed : ι → List FragOffset) : Prop := ∀ i, Live (alts i) (pushed i) ∧ (pushed i).length ≤ 2 ^ 30

variable {alts alts' : Alts P ι} {pushed : ι → List FragOffset} {v : List ι}

theorem AllLive.update (h : AllLive alts pushed) {i : ι} {alt : HTTPCacheAlt P.Heap} (hl : l.length ≤ 2 ^ 30) (halt : Live alt l) :
    AllLive (Function.update alts i alt) (Function.update pushed i l) := by
  intro j
  by_cases hj : j = i
  · subst hj
    simpa using ⟨halt, hl⟩
  · simpa [hj] using h j

theorem AllLive.update_same (h : AllLive alts pushed) {i : ι} {alt : HTTPCacheAlt P.Heap} (halt : Live alt (pushed i)) :
    AllLive (Function.update alts i alt) pushed := by
  simpa using h.update (i := i) (h i).2 halt

theorem bytes_eq {alt alt' : HTTPCacheAlt P.Heap} (h : Live alt l) (h' : Live alt' l) (hsame : SameHdrs alt alt') :
    alt'.bytes = alt.bytes := by
  rw [HTTPCacheAlt.bytes, HTTPCacheAlt.bytes, hsame.request, hsame.response, h.count, h'.count]

theorem marshal_spec (hP : P.Lawful) (h : AllLive alts pushed) (length : ℤ) (hlen : (v.map fun i => (alts i).bytes).sum ≤ length) :
    ∃ alts' bufs, marshal v alts length = some (alts', bufs.flatten) ∧ AllLive alts' pushed ∧
      List.Forall₂ Marshalled bufs (v.map pushed) ∧ bufs.map Buf.size = v.map fun i => (alts i).bytes := by
  induction v generalizing alts length with
  | nil => exact ⟨alts, [], rfl, h, .nil, rfl⟩
  | cons i v ih =>
    rw [List.map_cons, List.sum_cons, Nat.cast_add] at hlen
    obtain ⟨alt, buf, hmarshal, hlive, hsame, hsize, hbuf⟩ :=
      Hdrs.CacheAlt.marshal_spec hP (h i).1 (h i).2 length (by omega)
    -- the bytes of the others are the same after it
    have hbytes : ∀ j, (Function.update alts i alt j).bytes = (alts j).bytes := by
      intro j
      by_cases hj : j = i
      · subst hj
        rw [Function.update_self]
        exact bytes_eq (h j).1 hlive hsame
      · rw [Function.update_of_ne hj]
    obtain ⟨alts', bufs, hrest, hall, hbufs, hsizes⟩ :=
      ih (h.update_same hlive) (length - buf.size) (by simp only [hbytes]; omega)
    refine ⟨alts', buf :: bufs, ?_, hall, .cons hbuf hbufs, ?_⟩
    · rw [marshal, hmarshal, Option.bind_some]
      dsimp only
      rw [hrest]
      rfl
    · simp only [List.map_cons, hsizes, hbytes, hsize]

theorem sizes_flatten (bufs : List (Buf P)) : Buf.size bufs.flatten = (bufs.map Buf.size).sum := by
  induction bufs with
  | nil => rfl
  | cons b bufs ih => rw [List.flatten_cons, Buf.size, sizes_append, List.map_cons, List.sum_cons, ← ih]

/-- each alternate has a piece -/
theorem length_le_flatten (hP : P.Lawful) (h : List.Forall₂ Marshalled bufs ls) : bufs.length ≤ bufs.flatten.length := by
  induction h with
  | nil => exact le_refl _
  | @cons b l bufs ls hb _ ih =>
    have hne : 0 < b.length := by
      by_contra hzero
      obtain rfl : b = [] := List.length_eq_zero_iff.mp (by omega)
      exact absurd (hP.marshalSize_pos.trans_le hb.size_ge) (lt_irrefl 0)
    rw [List.flatten_cons, List.length_append, List.length_cons]
    omega

/-! ## The vector that is read -/

omit [DecidableEq ι] in
theorem marshalLength_eq (hP : P.Lawful) (alts : Alts P ι) (v : List ι) :
    marshalLength alts v =
      if (v.map fun i => (alts i).bytes).sum < 2 ^ 31 then some (v.map fun i => (alts i).bytes).sum else none := by
  simp only [marshalLength, Hdrs.CacheAlt.marshalLength_eq hP]

theorem valid_iff (hP : P.Lawful) (hdr : HeapPtr P.Heap) : hdr.valid = false ↔ hdr.marshalLength = 0 := by
  cases hdr with
  | null => simp [HeapPtr.valid, HeapPtr.marshalLength]
  | live h => simp [HeapPtr.valid, HeapPtr.marshalLength, (hP.length_pos h).ne']
  | offset n => simp [HeapPtr.valid, HeapPtr.marshalLength]

/-- a bare alternate has the bytes of its structure -/
theorem bare_iff (hP : P.Lawful) (alt : HTTPCacheAlt P.Heap) : Bare alt ↔ ¬ P.sizeofAlt < alt.bytes := by
  rw [Bare, valid_iff hP, valid_iff hP, HTTPCacheAlt.bytes]
  omega

omit [DecidableEq ι] in
theorem readAll_iff (hP : P.Lawful) (h : bufs.map Buf.size = v.map fun i => (alts i).bytes) :
    ReadAll bufs ↔ ∀ i ∈ v.getLast?, ¬ Bare (alts i) := by
  have hlast : bufs.getLast?.map Buf.size = v.getLast?.map fun i => (alts i).bytes := by
    rw [← List.getLast?_map, h, List.getLast?_map]
  unfold ReadAll
  cases hb : bufs.getLast? with
  | none =>
    rw [hb] at hlast
    cases hv : v.getLast? with
    | none => simp
    | some i => rw [hv] at hlast; exact absurd hlast (by simp)
  | some b =>
    rw [hb] at hlast
    cases hv : v.getLast? with
    | none => rw [hv] at hlast; exact absurd hlast (by simp)
    | some i =>
      rw [hv] at hlast
      have hsize : b.size = (alts i).bytes := by simpa using hlast
      simp [bare_iff hP, hsize]

theorem fragTables_eq {as : List (HTTPCacheAlt P.Heap)} (h : List.Forall₂ Live as ls) : as.map HTTPCacheAlt.fragTable = ls.map some := by
  induction h with
  | nil => rfl
  | cons hlive _ ih => rw [List.map_cons, List.map_cons, hlive.fragTable_eq, ih]

theorem roundTrip_iff (hP : P.Lawful) (h : AllLive alts pushed) (v : List ι) : RoundTrip alts v ↔ VectorOk alts v := by
  set bytes := (v.map fun i => (alts i).bytes).sum with hbytes
  have htables : (v.map fun i => (alts i).fragTable) = (v.map pushed).map some := by
    rw [List.map_map]
    exact List.map_congr_left fun i _ => (h i).1.fragTable_eq
  by_cases hint : bytes < 2 ^ 31
  · have hlength : marshalLength alts v = some bytes := by rw [marshalLength_eq hP, if_pos hint]
    constructor
    · rintro ⟨n, hn, hread⟩
      obtain rfl : bytes = n := Option.some.inj (hlength.symm.trans hn)
      obtain ⟨alts', bufs, hmarshal, -, hbufs, hsizes⟩ := marshal_spec hP h bytes (le_refl _)
      have hsize : Buf.size bufs.flatten = bytes := by rw [sizes_flatten, hsizes]
      obtain ⟨buf', read, hloop, -, -, hbad⟩ := loops_spec hP hbufs (length_le_flatten hP hbufs)
      obtain ⟨_, _, buf₂, read', hmarshal', -, hunmarshal', -, hsame⟩ := hread bytes (le_refl _)
      obtain ⟨rfl, rfl⟩ := Prod.mk.inj (Option.some.inj (hmarshal.symm.trans hmarshal'))
      rw [← hsize] at hunmarshal'
      obtain ⟨rfl, rfl⟩ := Prod.mk.inj (Option.some.inj (hloop.symm.trans hunmarshal'))
      refine ⟨hint, (readAll_iff hP hsizes).mp ?_⟩
      by_contra hread
      have hlen := congrArg List.length hsame
      rw [List.length_map, List.length_map] at hlen
      exact hbad hread (by rw [hlen, List.length_map])
    · rintro ⟨-, hlast⟩
      refine ⟨bytes, hlength, fun length hfits => ?_⟩
      obtain ⟨alts', bufs, hmarshal, -, hbufs, hsizes⟩ := marshal_spec hP h length hfits
      have hsize : Buf.size bufs.flatten = bytes := by rw [sizes_flatten, hsizes]
      obtain ⟨buf', read, hloop, -, hall, -⟩ := loops_spec hP hbufs (length_le_flatten hP hbufs)
      obtain ⟨hlive, hlen, hhandles⟩ := hall ((readAll_iff hP hsizes).mpr hlast)
      refine ⟨alts', bufs.flatten, buf', read, hmarshal, hsize, ?_, ?_, ?_⟩
      · rw [← hsize]
        exact hloop
      · rw [← hsize]
        exact hhandles _ hlen
      · rw [fragTables_eq hlive, htables]
  · have hlength : marshalLength alts v = none := by rw [marshalLength_eq hP, if_neg hint]
    refine iff_of_false ?_ fun hok => hint hok.1
    rintro ⟨n, hn, _⟩
    exact absurd (hlength.symm.trans hn) (by simp)

/-! ## Runs -/

inductive Op (P : Platform) (ι β : Type) where
  | pushFragOffset (i : ι) (offset : FragOffset)
  | copyFragOffsetsFrom (dst src : ι)
  | requestSet (i : ι) (h : P.Heap)
  | responseSet (i : ι) (h : P.Heap)
  /-- into a buffer of `marshal_length` -/
  | marshal (v : List ι) (b : β)
  /-- the alternates in the vector get these names -/
  | unmarshal (b : β) (names : List ι)

structure State (P : Platform) (ι β : Type) where
  alts : Alts P ι
  /-- what was marshalled -/
  bufs : β → Option (Buf P)

def State.new : State P ι β := ⟨fun _ => HTTPCacheAlt.new, fun _ => none⟩

/-- the names get the values, as long as there are both -/
def assign {α : Type} : List ι → List α → (ι → α) → ι → α
  | i :: names, a :: as, f => assign names as (Function.update f i a)
  | _, _, f => f

def step (s : State P ι β) : Op P ι β → Option (State P ι β)
  | .pushFragOffset i offset => ((s.alts i).pushFragOffset offset).map fun alt => { s with alts := Function.update s.alts i alt }
  | .copyFragOffsetsFrom dst src => (copyFragOffsetsFrom s.alts dst src).map fun alts => { s with alts }
  | .requestSet i h => some { s with alts := Function.update s.alts i { s.alts i with requestHdr := .live h } }
  | .responseSet i h => some { s with alts := Function.update s.alts i { s.alts i with responseHdr := .live h } }
  | .marshal v b =>
    (marshalLength s.alts v).bind fun n =>
      (marshal v s.alts n).map fun r => ⟨r.1, Function.update s.bufs b (some r.2)⟩
  | .unmarshal b names =>
    (s.bufs b).bind fun buf => (unmarshal buf buf.size).map fun r => ⟨assign names r.2 s.alts, Function.update s.bufs b none⟩

/-- where a step has no result, the run has none -/
def next (s : Option (State P ι β)) (op : Op P ι β) : Option (State P ι β) := s.bind fun s => step s op

/-- what is pushed, and what is in the buffers: the purpose of all this -/
structure Tables (ι β : Type) where
  pushed : ι → List FragOffset
  bufs : β → Option (List (List FragOffset))

def Tables.new : Tables ι β := ⟨fun _ => [], fun _ => none⟩

def Tables.step (t : Tables ι β) : Op P ι β → Tables ι β
  | .pushFragOffset i offset => { t with pushed := Function.update t.pushed i (t.pushed i ++ [offset]) }
  | .copyFragOffsetsFrom dst src => { t with pushed := Function.update t.pushed dst (t.pushed src) }
  | .requestSet _ _ => t
  | .responseSet _ _ => t
  | .marshal v b => { t with bufs := Function.update t.bufs b (some (v.map t.pushed)) }
  | .unmarshal b names => ⟨assign names ((t.bufs b).getD []) t.pushed, Function.update t.bufs b none⟩

/-- A push onto less than 2^30 offsets, a copy that is not of a heap table onto itself, a vector that goes through a buffer, a buffer
that was marshalled. -/
def OpOk (s : State P ι β) : Op P ι β → Prop
  | .pushFragOffset i _ => (s.alts i).fragOffsetCount < 2 ^ 30
  | .copyFragOffsetsFrom dst src => CopyOk s.alts dst src
  | .requestSet _ _ => True
  | .responseSet _ _ => True
  | .marshal v _ => VectorOk s.alts v
  | .unmarshal b _ => (s.bufs b).isSome

instance (s : State P ι β) : DecidablePred (OpOk s)
  | .pushFragOffset i _ => inferInstanceAs (Decidable ((s.alts i).fragOffsetCount < 2 ^ 30))
  | .copyFragOffsetsFrom dst src => inferInstanceAs (Decidable (CopyOk s.alts dst src))
  | .requestSet _ _ => isTrue trivial
  | .responseSet _ _ => isTrue trivial
  | .marshal v _ => inferInstanceAs (Decidable (VectorOk s.alts v))
  | .unmarshal b _ => inferInstanceAs (Decidable ((s.bufs b).isSome = true))

def NextOk (s : Option (State P ι β)) (op : Op P ι β) : Prop := ∀ s' ∈ s, OpOk s' op

instance (s : Option (State P ι β)) : DecidablePred (NextOk s) := fun op =>
  match s with
  | none => isTrue fun _ h => absurd h (by simp)
  | some s => decidable_of_iff (OpOk s op) (by simp [NextOk])

/-- the bytes of alternates with these tables, all of which are read -/
def BufHolds (buf : Buf P) (ls : List (List FragOffset)) : Prop :=
  ∃ bufs, buf = bufs.flatten ∧ List.Forall₂ Marshalled bufs ls ∧ ReadAll bufs ∧ ∀ l ∈ ls, l.length ≤ 2 ^ 30

structure Rel (s : State P ι β) (t : Tables ι β) : Prop where
  alts : AllLive s.alts t.pushed
  bufs : ∀ b, Option.Rel BufHolds (s.bufs b) (t.bufs b)

variable {s : State P ι β} {t : Tables ι β} {as : List (HTTPCacheAlt P.Heap)}

omit [DecidableEq ι] [DecidableEq β] in
theorem rel_new : Rel (State.new : State P ι β) Tables.new := ⟨fun _ => ⟨live_new, Nat.zero_le _⟩, fun _ => .none⟩

theorem AllLive.assign (h : AllLive alts pushed) (names : List ι) (has : List.Forall₂ Live as ls) (hls : ∀ l ∈ ls, l.length ≤ 2 ^ 30) :
    AllLive (assign names as alts) (assign names ls pushed) := by
  induction has generalizing names alts pushed with
  | nil => cases names <;> exact h
  | cons hlive _ ih =>
    cases names with
    | nil => exact h
    | cons i names =>
      exact ih (h.update (hls _ List.mem_cons_self) hlive) names fun l hl => hls l (List.mem_cons_of_mem _ hl)

theorem rel_update {f : β → Option (Buf P)} {g : β → Option (List (List FragOffset))} (h : ∀ b, Option.Rel BufHolds (f b) (g b)) (b : β)
    {o : Option (Buf P)} {o' : Option (List (List FragOffset))} (ho : Option.Rel BufHolds o o') :
    ∀ c, Option.Rel BufHolds (Function.update f b o c) (Function.update g b o' c) := by
  intro c
  by_cases hc : c = b
  · subst hc
    simpa using ho
  · simpa [hc] using h c

/-- a step that meets its condition does what it is for -/
theorem step_rel (hP : P.Lawful) (h : Rel s t) (op : Op P ι β) (hop : OpOk s op) : ∃ s', step s op = some s' ∧ Rel s' (t.step op) := by
  cases op with
  | pushFragOffset i offset =>
    obtain ⟨hlive, hle⟩ := h.alts i
    have hlt : (t.pushed i).length < 2 ^ 30 := hlive.count ▸ hop
    obtain ⟨alt, hpush, halt, -⟩ := pushFragOffset_live hlive hlt offset
    have hlt' : (t.pushed i ++ [offset]).length ≤ 2 ^ 30 := by
      rw [List.length_append]
      exact hlt
    exact ⟨⟨Function.update s.alts i alt, s.bufs⟩, by rw [step, hpush, Option.map_some], h.alts.update hlt' halt, h.bufs⟩
  | copyFragOffsetsFrom dst src =>
    obtain ⟨alt, hcopy, halt, -⟩ := copyFragOffsetsFrom_live (h.alts src).1 (h.alts dst).1 (h.alts src).2 hop
    exact ⟨⟨Function.update s.alts dst alt, s.bufs⟩, by rw [step, hcopy, Option.map_some], h.alts.update (h.alts src).2 halt, h.bufs⟩
  | requestSet i hdr =>
    obtain ⟨hlive, _⟩ := h.alts i
    exact ⟨_, rfl, h.alts.update_same ⟨hlive.magic, hlive.count, hlive.holds, hlive.sized, trivial, hlive.response⟩, h.bufs⟩
  | responseSet i hdr =>
    obtain ⟨hlive, _⟩ := h.alts i
    exact ⟨_, rfl, h.alts.update_same ⟨hlive.magic, hlive.count, hlive.holds, hlive.sized, hlive.request, trivial⟩, h.bufs⟩
  | marshal v b =>
    obtain ⟨hint, hlast⟩ := hop
    have hlength : marshalLength s.alts v = some _ := (marshalLength_eq hP s.alts v).trans (if_pos hint)
    obtain ⟨alts', bufs, hmarshal, hall, hbufs, hsizes⟩ := marshal_spec hP h.alts _ (le_refl _)
    refine ⟨⟨alts', Function.update s.bufs b (some bufs.flatten)⟩, ?_, hall, rel_update h.bufs b (.some ⟨bufs, rfl, hbufs, ?_, ?_⟩)⟩
    · rw [step, hlength, Option.bind_some, hmarshal, Option.map_some]
    · exact (readAll_iff hP hsizes).mpr hlast
    · simpa using fun i _ => (h.alts i).2
  | unmarshal b names =>
    obtain ⟨buf, hbuf⟩ := Option.isSome_iff_exists.mp hop
    obtain ⟨ls, htls, bufs, rfl, hbufs, hread, hls⟩ : ∃ ls, t.bufs b = some ls ∧ BufHolds buf ls := by
      have hrel := h.bufs b
      rw [hbuf] at hrel
      cases htls : t.bufs b with
      | none => rw [htls] at hrel; cases hrel
      | some ls => rw [htls] at hrel; cases hrel with | some hholds => exact ⟨ls, rfl, hholds⟩
    obtain ⟨buf', as, hloop, -, hall, -⟩ := loops_spec hP hbufs (length_le_flatten hP hbufs)
    have hunmarshal : unmarshal bufs.flatten (Buf.size bufs.flatten) = some (buf', as) := hloop
    refine ⟨⟨assign names as s.alts, Function.update s.bufs b none⟩, ?_, ?_, rel_update h.bufs b .none⟩
    · rw [step, hbuf, Option.bind_some, hunmarshal, Option.map_some]
    · rw [Tables.step, htls]
      exact h.alts.assign names (hall hread).1 hls

theorem run_rel (hP : P.Lawful) (h : Rel s t) (ops : List (Op P ι β)) (hops : Along next NextOk (some s) ops) :
    ∃ s', ops.foldl next (some s) = some s' ∧ Rel s' (ops.foldl Tables.step t) := by
  induction ops generalizing s t with
  | nil => exact ⟨s, rfl, h⟩
  | cons op ops ih =>
    obtain ⟨hop, hrest⟩ := hops
    obtain ⟨s', hstep, hrel⟩ := step_rel hP h op (hop s rfl)
    have hnext : next (some s) op = some s' := hstep
    rw [hnext] at hrest
    rw [List.foldl_cons, List.foldl_cons, hnext]
    exact ih hrel hrest

theorem frag_tables (hP : P.Lawful) (ops : List (Op P ι β)) (hops : Along next NextOk (some State.new) ops) :
    ∃ s, ops.foldl next (some State.new) = some s ∧
      (∀ i, (s.alts i).fragOffsetCount ≤ (s.alts i).capacity ∧
        (s.alts i).fragTable = some ((ops.foldl Tables.step Tables.new).pushed i)) ∧
      ∀ v, RoundTrip s.alts v ↔ VectorOk s.alts v := by
  obtain ⟨s, hs, hrel⟩ := run_rel hP rel_new ops hops
  refine ⟨s, hs, fun i => ?_, roundTrip_iff hP hrel.alts⟩
  have hlive := (hrel.alts i).1
  exact ⟨hlive.count ▸ hlive.length_le, hlive.fragTable_eq⟩

/-! ## Headers that are their bytes -/

/-- a heap is marshalled as its bytes behind a word, rounded up -/
def bytesPlatform : Platform where
  sizeofAlt := 416
  Heap := List UInt8
  Blob := List UInt8
  blobSize b := 8 + (b.length + 7) / 8 * 8
  marshalLength h := 8 + (h.length + 7) / 8 * 8
  marshal h len := if (8 + (h.length + 7) / 8 * 8 : ℕ) ≤ len then some h else none
  unmarshal b len := if (8 + (b.length + 7) / 8 * 8 : ℕ) ≤ len then some (b, 8 + (b.length + 7) / 8 * 8) else none

theorem bytesPlatform_lawful : bytesPlatform.Lawful where
  aligned := ⟨52, rfl⟩
  sizeof_ge := by decide
  length_pos _ := by simp [bytesPlatform]
  roundTrip h len hlen := ⟨h, if_pos hlen, rfl, fun len' hlen' => ⟨h, if_pos hlen'⟩⟩

/-- five offsets in an alternate with a request, a copy without header, and both through a buffer -/
def copiedOps : List (Op bytesPlatform ℕ ℕ) :=
  [.pushFragOffset 0 10, .pushFragOffset 0 20, .pushFragOffset 0 30, .pushFragOffset 0 40, .pushFragOffset 0 50,
    .requestSet 0 [71, 69, 84], .copyFragOffsetsFrom 1 0, .marshal [0, 1] 0, .unmarshal 0 [2, 3], .pushFragOffset 3 60]

theorem frag_tables_copied :
    ∃ s, copiedOps.foldl next (some State.new) = some s ∧ (s.alts 3).fragTable = some [10, 20, 30, 40, 50, 60] := by
  obtain ⟨s, hs, htables, -⟩ := frag_tables bytesPlatform_lawful copiedOps (by decide +kernel)
  exact ⟨s, hs, (htables 3).2⟩

/-- a vector with one alternate as it is created -/
theorem bare_alternate_lost :
    ¬ ∀ (ops : List (Op bytesPlatform ℕ ℕ)) (s : State bytesPlatform ℕ ℕ), ops.foldl next (some State.new) = some s →
      ∀ v, RoundTrip s.alts v := by
  intro h
  have hround : RoundTrip (State.new : State bytesPlatform ℕ ℕ).alts [0] := h [] State.new rfl [0]
  have hnew : Rel (State.new : State bytesPlatform ℕ ℕ) Tables.new := rel_new
  have hok := (roundTrip_iff bytesPlatform_lawful hnew.alts [0]).mp hround
  exact absurd hok (by decide +kernel)

end TrafficServer.Cache.AltVector
