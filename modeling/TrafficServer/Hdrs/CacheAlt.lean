/-
The table of fragment offsets of an alternate (`HTTPCacheAlt` in `proxy/hdrs/HTTP.h`, `HTTP.cc`).

The first four offsets lie in the alternate. The table moves to the heap when it is full there, and to a larger one whenever it is
full again, which is so at the powers of two. A copy allocates at once what growing would have come to.

`Live alt l`: the alternate is in use, and its table is the list `l`. `pushFragOffset_live` appends to the list, up to 2^30 offsets,
where twice the size is no `int` any more; `copyFragOffsetsFrom_live` makes it the list of the source, unless an alternate with a table
in the heap is copied onto itself.

A place outside of an allocation cannot be read or written, and a signed number that gets too large has no value: both are `none`.
-/
import TrafficServer.Lib.Memory

namespace TrafficServer.Hdrs.CacheAlt

open TrafficServer.Memory

abbrev FragOffset := BitVec 64

def N_INTEGRAL_FRAG_OFFSETS : ℕ := 4

/-- `m_frag_offsets` -/
inductive FragPtr where
  | null
  /-- `m_integral_frag_offsets` -/
  | integral
  | heap (n : ℕ) (table : Block FragOffset n)
  /-- in a marshalled alternate -/
  | offset (n : ℕ)

/-- `m_magic` -/
inductive AltMagic where
  | alive
  | marshaled
  | dead
deriving DecidableEq

/-- `m_heap` of a header, null if the header is not valid -/
inductive HeapPtr (Heap : Type*) where
  | null
  | live (h : Heap)
  /-- in a marshalled alternate -/
  | offset (n : ℕ)

/-- a heap or none -/
def HeapPtr.Alive {Heap : Type*} : HeapPtr Heap → Prop
  | offset _ => False
  | _ => True

structure HTTPCacheAlt (Heap : Type*) where
  magic : AltMagic
  unmarshalLen : ℤ
  requestHdr : HeapPtr Heap
  responseHdr : HeapPtr Heap
  fragOffsetCount : ℕ
  fragOffsets : FragPtr
  integralFragOffsets : Block FragOffset N_INTEGRAL_FRAG_OFFSETS

variable {Heap : Type*}

namespace HTTPCacheAlt

/-- as it is constructed -/
def new : HTTPCacheAlt Heap := ⟨.alive, -1, .null, .null, 0, .null, Block.alloc _⟩

/-! ## The table -/

/-- what is allocated where `m_frag_offsets` points to -/
def capacity (alt : HTTPCacheAlt Heap) : ℕ :=
  match alt.fragOffsets with
  | .integral => N_INTEGRAL_FRAG_OFFSETS
  | .heap n _ => n
  | _ => 0

def readTable (alt : HTTPCacheAlt Heap) (i k : ℕ) : Option (List (Option FragOffset)) :=
  match alt.fragOffsets with
  | .integral => alt.integralFragOffsets.read i k
  | .heap _ table => table.read i k
  | _ => none

def writeTable (alt : HTTPCacheAlt Heap) (i : ℕ) (c : List (Option FragOffset)) : Option (HTTPCacheAlt Heap) :=
  match alt.fragOffsets with
  | .integral => (alt.integralFragOffsets.write i c).map fun b => { alt with integralFragOffsets := b }
  | .heap n table => (table.write i c).map fun b => { alt with fragOffsets := .heap n b }
  | _ => none

/-- the offsets, if the table is allocated and was written -/
def fragTable (alt : HTTPCacheAlt Heap) : Option (List FragOffset) :=
  if alt.fragOffsetCount = 0 then some [] else (alt.readTable 0 alt.fragOffsetCount).bind values

/-! ## The functions -/

/-- `push_frag_offset`, up to where there is space -/
def upgrade (alt : HTTPCacheAlt Heap) : Option (HTTPCacheAlt Heap) :=
  match alt.fragOffsets with
  | .null => some { alt with fragOffsets := .integral }
  | _ =>
    if N_INTEGRAL_FRAG_OFFSETS ≤ alt.fragOffsetCount ∧ alt.fragOffsetCount &&& (alt.fragOffsetCount - 1) = 0 then
      if alt.fragOffsetCount * 2 < 2 ^ 31 then
        ((alt.readTable 0 alt.fragOffsetCount).bind ((Block.alloc (alt.fragOffsetCount * 2)).write 0)).map fun nf =>
          { alt with fragOffsets := .heap _ nf }
      else none
    else some alt

def pushFragOffset (alt : HTTPCacheAlt Heap) (offset : FragOffset) : Option (HTTPCacheAlt Heap) :=
  (alt.upgrade.bind fun alt => alt.writeTable alt.fragOffsetCount [some offset]).map fun alt =>
    { alt with fragOffsetCount := alt.fragOffsetCount + 1 }

end HTTPCacheAlt

/-- the loop from `bcount` on, at most `n` times -/
def bcountLoop (count : ℕ) : ℕ → ℕ → ℕ
  | 0, bcount => bcount
  | n + 1, bcount => if bcount < count then bcountLoop count n (bcount * 2) else bcount

/-- the size of a table for `count` offsets -/
def bcountFor (count : ℕ) : Option ℕ :=
  let bcount := bcountLoop count count (N_INTEGRAL_FRAG_OFFSETS * 2)
  if bcount < 2 ^ 31 then some bcount else none

variable {ι : Type*} [DecidableEq ι]

/-- `copy_frag_offsets_from`: the source may be the same alternate -/
def copyFragOffsetsFrom (alts : ι → HTTPCacheAlt Heap) (dst src : ι) : Option (ι → HTTPCacheAlt Heap) :=
  let count := (alts src).fragOffsetCount
  let alts := Function.update alts dst { alts dst with fragOffsetCount := count }
  if 0 < count then
    let table : Option FragPtr :=
      if N_INTEGRAL_FRAG_OFFSETS < count then (bcountFor count).map fun n => .heap n (Block.alloc n) else some .integral
    table.bind fun table =>
      let alts := Function.update alts dst { alts dst with fragOffsets := table }
      (((alts src).readTable 0 count).bind ((alts dst).writeTable 0)).map (Function.update alts dst)
  else some alts

/-! ## Alternates in use -/

namespace HTTPCacheAlt

/-- the table starts with these offsets -/
def Holds (alt : HTTPCacheAlt Heap) (l : List FragOffset) : Prop :=
  match alt.fragOffsets with
  | .null => l = []
  | .integral => alt.integralFragOffsets.Holds l
  | .heap _ table => table.Holds l
  | .offset _ => False

end HTTPCacheAlt

/-- a table in the heap has a size that the count meets -/
def FragPtr.Sized : FragPtr → Prop
  | .heap n _ => n.isPowerOfTwo ∧ N_INTEGRAL_FRAG_OFFSETS ≤ n
  | _ => True

structure Live (alt : HTTPCacheAlt Heap) (l : List FragOffset) : Prop where
  magic : alt.magic = .alive
  count : alt.fragOffsetCount = l.length
  holds : alt.Holds l
  sized : alt.fragOffsets.Sized
  request : alt.requestHdr.Alive
  response : alt.responseHdr.Alive

/-- the same but for the table -/
structure SameHdrs (alt alt' : HTTPCacheAlt Heap) : Prop where
  request : alt'.requestHdr = alt.requestHdr
  response : alt'.responseHdr = alt.responseHdr

variable {alt : HTTPCacheAlt Heap} {l m : List FragOffset}

theorem live_new : Live (HTTPCacheAlt.new : HTTPCacheAlt Heap) [] := ⟨rfl, rfl, rfl, trivial, trivial, trivial⟩

/-- the memory that `m_frag_offsets` points to -/
structure TableIs (alt : HTTPCacheAlt Heap) {n : ℕ} (b : Block FragOffset n) : Prop where
  capacity : alt.capacity = n
  read : alt.readTable = b.read
  holds : alt.Holds = b.Holds

/-- what holds offsets is a table or the null pointer -/
theorem table_cases (h : alt.Holds l) : (alt.fragOffsets = .null ∧ l = []) ∨ ∃ (n : ℕ) (b : Block FragOffset n), TableIs alt b := by
  rcases alt with ⟨magic, unmarshalLen, requestHdr, responseHdr, count, fragOffsets, integral⟩
  cases fragOffsets with
  | null => exact Or.inl ⟨rfl, h⟩
  | integral => exact Or.inr ⟨_, integral, rfl, rfl, rfl⟩
  | heap n table => exact Or.inr ⟨n, table, rfl, rfl, rfl⟩
  | offset n => exact h.elim

namespace Live

theorem length_le (h : Live alt l) : l.length ≤ alt.capacity := by
  obtain ⟨-, rfl⟩ | ⟨n, b, htable⟩ := table_cases h.holds
  · exact Nat.zero_le _
  · have hholds : b.Holds l := htable.holds ▸ h.holds
    rw [htable.capacity]
    exact hholds.length_le

theorem holds_nil (h : Live alt l) : alt.Holds [] := by
  obtain ⟨-, rfl⟩ | ⟨n, b, htable⟩ := table_cases h.holds
  · exact h.holds
  · rw [htable.holds]
    exact Block.Holds.nil b

/-- the offsets from `l` on, which may be all -/
theorem readTable_append (h : Live alt (l ++ m)) (hne : l ++ m ≠ []) : alt.readTable l.length m.length = some (m.map some) := by
  obtain ⟨-, hnil⟩ | ⟨n, b, htable⟩ := table_cases h.holds
  · exact absurd hnil hne
  · have hholds : b.Holds (l ++ m) := htable.holds ▸ h.holds
    rw [htable.read]
    exact hholds.read

theorem readTable_all (h : Live alt l) (hne : l ≠ []) : alt.readTable 0 l.length = some (l.map some) :=
  readTable_append (l := []) h hne

/-- the table is the list -/
theorem fragTable_eq (h : Live alt l) : alt.fragTable = some l := by
  rw [HTTPCacheAlt.fragTable, h.count]
  by_cases hl : l = []
  · rw [hl]
    rfl
  · rw [if_neg (by simpa using hl), h.readTable_all hl, Option.bind_some, values_map_some]

/-- where the table is full it is upgraded -/
theorem full_isPowerOfTwo (h : Live alt l) (hne : alt.fragOffsets ≠ .null) (hfull : l.length = alt.capacity) :
    N_INTEGRAL_FRAG_OFFSETS ≤ l.length ∧ l.length.isPowerOfTwo := by
  rw [hfull]
  rcases alt with ⟨magic, unmarshalLen, requestHdr, responseHdr, count, fragOffsets, integral⟩
  cases fragOffsets with
  | null => exact absurd rfl hne
  | integral => exact ⟨le_refl _, 2, rfl⟩
  | heap n table => exact ⟨h.sized.2, h.sized.1⟩
  | offset n => exact h.holds.elim

end Live

/-! ## `push_frag_offset` -/

theorem upgrade_of_ne_null (hne : alt.fragOffsets ≠ .null) :
    alt.upgrade =
      if N_INTEGRAL_FRAG_OFFSETS ≤ alt.fragOffsetCount ∧ alt.fragOffsetCount &&& (alt.fragOffsetCount - 1) = 0 then
        if alt.fragOffsetCount * 2 < 2 ^ 31 then
          ((alt.readTable 0 alt.fragOffsetCount).bind ((Block.alloc (alt.fragOffsetCount * 2)).write 0)).map fun nf =>
            { alt with fragOffsets := .heap _ nf }
        else none
      else some alt := by
  unfold HTTPCacheAlt.upgrade
  cases htable : alt.fragOffsets with
  | null => exact absurd htable hne
  | integral => rfl
  | heap n table => rfl
  | offset n => rfl

/-- there is space for one more -/
theorem upgrade_live (h : Live alt l) (hl : l.length < 2 ^ 30) :
    ∃ alt', alt.upgrade = some alt' ∧ Live alt' l ∧ SameHdrs alt alt' ∧ l.length < alt'.capacity := by
  by_cases hnull : alt.fragOffsets = .null
  · have hnil : l = [] := by
      have hholds := h.holds
      rwa [HTTPCacheAlt.Holds, hnull] at hholds
    subst hnil
    refine ⟨{ alt with fragOffsets := .integral }, ?_, ⟨h.magic, h.count, Block.Holds.nil _, trivial, h.request, h.response⟩,
      ⟨rfl, rfl⟩, ?_⟩
    · rw [HTTPCacheAlt.upgrade, hnull]
    · exact Nat.zero_lt_succ _
  · rw [upgrade_of_ne_null hnull, h.count]
    by_cases hfull : N_INTEGRAL_FRAG_OFFSETS ≤ l.length ∧ l.length &&& (l.length - 1) = 0
    · obtain ⟨hfour, hand⟩ := hfull
      have hpos : 0 < l.length := lt_of_lt_of_le (by decide) hfour
      have hpow : l.length.isPowerOfTwo := (Nat.and_sub_one_eq_zero_iff_isPowerOfTwo hpos.ne').mp hand
      have hne : l ≠ [] := List.ne_nil_of_length_pos hpos
      obtain ⟨nf, hwrite, hnf⟩ := Block.exists_write_all (Block.alloc (l.length * 2)) (l := l) (by omega)
      refine ⟨{ alt with fragOffsets := .heap _ nf }, ?_, ⟨h.magic, h.count, hnf, ⟨?_, ?_⟩, h.request, h.response⟩, ⟨rfl, rfl⟩, ?_⟩
      · rw [if_pos ⟨hfour, hand⟩, if_pos (by omega), h.readTable_all hne, Option.bind_some, hwrite, Option.map_some]
        simp only [h.count]
      · exact Nat.isPowerOfTwo_mul_two_of_isPowerOfTwo hpow
      · omega
      · change l.length < l.length * 2
        omega
    · refine ⟨alt, if_neg hfull, h, ⟨rfl, rfl⟩, lt_of_le_of_ne h.length_le fun heq => hfull ?_⟩
      obtain ⟨hfour, hpow⟩ := h.full_isPowerOfTwo hnull heq
      have hpos : 0 < l.length := lt_of_lt_of_le (by decide) hfour
      exact ⟨hfour, (Nat.and_sub_one_eq_zero_iff_isPowerOfTwo hpos.ne').mpr hpow⟩

/-- what a write to the table leaves -/
structure Wrote (alt alt' : HTTPCacheAlt Heap) : Prop where
  magic : alt'.magic = alt.magic
  count : alt'.fragOffsetCount = alt.fragOffsetCount
  sized : alt.fragOffsets.Sized → alt'.fragOffsets.Sized
  hdrs : SameHdrs alt alt'

/-- a write behind what the table holds -/
theorem writeTable_holds (h : alt.Holds l) (hm : l.length + m.length ≤ alt.capacity) (hne : alt.fragOffsets ≠ .null) :
    ∃ alt', alt.writeTable l.length (m.map some) = some alt' ∧ alt'.Holds (l ++ m) ∧ Wrote alt alt' := by
  rcases alt with ⟨magic, unmarshalLen, requestHdr, responseHdr, count, fragOffsets, integral⟩
  cases fragOffsets with
  | null => exact absurd rfl hne
  | integral =>
    obtain ⟨b, hwrite, hb⟩ := Block.Holds.write h hm
    exact ⟨⟨magic, unmarshalLen, requestHdr, responseHdr, count, .integral, b⟩, congrArg (Option.map _) hwrite, hb, rfl, rfl, id,
      rfl, rfl⟩
  | heap n table =>
    obtain ⟨b, hwrite, hb⟩ := Block.Holds.write h hm
    exact ⟨⟨magic, unmarshalLen, requestHdr, responseHdr, count, .heap n b, integral⟩, congrArg (Option.map _) hwrite, hb, rfl, rfl, id,
      rfl, rfl⟩
  | offset n => exact h.elim

theorem pushFragOffset_live (h : Live alt l) (hl : l.length < 2 ^ 30) (offset : FragOffset) :
    ∃ alt', alt.pushFragOffset offset = some alt' ∧ Live alt' (l ++ [offset]) ∧ SameHdrs alt alt' := by
  obtain ⟨alt₁, hupgrade, hlive, hsame, hspace⟩ := upgrade_live h hl
  have hne : alt₁.fragOffsets ≠ .null := by
    intro hnull
    rw [HTTPCacheAlt.capacity, hnull] at hspace
    exact Nat.not_lt_zero _ hspace
  obtain ⟨alt₂, hwrite, hholds, hwrote⟩ := writeTable_holds (m := [offset]) hlive.holds hspace hne
  have hcount : alt₂.fragOffsetCount = l.length := hwrote.count.trans hlive.count
  have hrequest : alt₂.requestHdr = alt.requestHdr := hwrote.hdrs.request.trans hsame.request
  have hresponse : alt₂.responseHdr = alt.responseHdr := hwrote.hdrs.response.trans hsame.response
  rw [List.map_singleton] at hwrite
  refine ⟨{ alt₂ with fragOffsetCount := alt₂.fragOffsetCount + 1 }, ?_, ?_, ⟨hrequest, hresponse⟩⟩
  · rw [HTTPCacheAlt.pushFragOffset, hupgrade, Option.bind_some, hlive.count, hwrite, Option.map_some]
  · exact ⟨hwrote.magic.trans hlive.magic, by rw [List.length_append, hcount]; rfl, hholds, hwrote.sized hlive.sized,
      hrequest ▸ h.request, hresponse ▸ h.response⟩

/-! ## `copy_frag_offsets_from` -/

/-- it is a power of two and no smaller than the count -/
theorem bcountLoop_spec (count : ℕ) :
    ∀ n bcount, bcount.isPowerOfTwo → 4 ≤ bcount → bcount ≤ 2 ^ 30 → count ≤ 2 ^ 30 → count ≤ bcount + n →
      (bcountLoop count n bcount).isPowerOfTwo ∧ 4 ≤ bcountLoop count n bcount ∧ count ≤ bcountLoop count n bcount ∧
        bcountLoop count n bcount ≤ 2 ^ 30
  | 0, bcount, hpow, hfour, hle, _, hfuel => ⟨hpow, hfour, hfuel, hle⟩
  | n + 1, bcount, hpow, hfour, hle, hcount, hfuel => by
    rw [bcountLoop]
    by_cases hlt : bcount < count
    · rw [if_pos hlt]
      have hdouble : bcount * 2 ≤ 2 ^ 30 := by
        obtain ⟨k, rfl⟩ := hpow
        have hk : k < 30 := (Nat.pow_lt_pow_iff_right (by decide)).mp (hlt.trans_le hcount)
        calc 2 ^ k * 2 = 2 ^ (k + 1) := (Nat.pow_succ 2 k).symm
          _ ≤ 2 ^ 30 := Nat.pow_le_pow_right (by decide) hk
      exact bcountLoop_spec count n (bcount * 2) (Nat.isPowerOfTwo_mul_two_of_isPowerOfTwo hpow) (by omega) hdouble hcount (by omega)
    · rw [if_neg hlt]
      exact ⟨hpow, hfour, not_lt.mp hlt, hle⟩

theorem bcountFor_spec {count : ℕ} (hcount : count ≤ 2 ^ 30) :
    ∃ n, bcountFor count = some n ∧ n.isPowerOfTwo ∧ N_INTEGRAL_FRAG_OFFSETS ≤ n ∧ count ≤ n := by
  obtain ⟨hpow, hfour, hle, hmax⟩ := bcountLoop_spec count count (N_INTEGRAL_FRAG_OFFSETS * 2) ⟨3, rfl⟩ (by decide) (by decide) hcount
    (Nat.le_add_left _ _)
  exact ⟨_, if_pos (lt_of_le_of_lt hmax (by decide)), hpow, hfour, hle⟩

/-- the table of a copy, nothing written yet -/
theorem copyTable_spec (Heap : Type*) {count : ℕ} (hcount : count ≤ 2 ^ 30) :
    ∃ table, (if N_INTEGRAL_FRAG_OFFSETS < count then (bcountFor count).map fun n => .heap n (Block.alloc n) else some .integral) =
        some table ∧ table ≠ FragPtr.null ∧ table.Sized ∧
      (∀ alt : HTTPCacheAlt Heap, { alt with fragOffsets := table }.Holds [] ∧ count ≤ { alt with fragOffsets := table }.capacity) ∧
      (count ≤ N_INTEGRAL_FRAG_OFFSETS → table = .integral) := by
  by_cases hfour : N_INTEGRAL_FRAG_OFFSETS < count
  · obtain ⟨n, hn, hpow, hle, hfits⟩ := bcountFor_spec hcount
    refine ⟨.heap n (Block.alloc n), ?_, by simp, ⟨hpow, hle⟩, fun alt => ⟨Block.Holds.nil _, hfits⟩, ?_⟩
    · rw [if_pos hfour, hn, Option.map_some]
    · intro hfew
      exact absurd hfour (not_lt.mpr hfew)
  · exact ⟨.integral, if_neg hfour, by simp, trivial, fun alt => ⟨Block.Holds.nil _, not_lt.mp hfour⟩, fun _ => rfl⟩

/-- not a table in the heap onto itself -/
def CopyOk (alts : ι → HTTPCacheAlt Heap) (dst src : ι) : Prop :=
  dst = src → (alts src).fragOffsetCount = 0 ∨ (alts src).fragOffsets = .integral

instance : DecidablePred (· = FragPtr.integral)
  | .null => isFalse nofun
  | .integral => isTrue rfl
  | .heap _ _ => isFalse nofun
  | .offset _ => isFalse nofun

instance (alts : ι → HTTPCacheAlt Heap) (dst src : ι) : Decidable (CopyOk alts dst src) :=
  have : Decidable ((alts src).fragOffsets = .integral) := inferInstanceAs (Decidable ((· = FragPtr.integral) (alts src).fragOffsets))
  inferInstanceAs (Decidable (_ → _ ∨ _))

theorem copyFragOffsetsFrom_live {alts : ι → HTTPCacheAlt Heap} {dst src : ι} (hsrc : Live (alts src) l) (hdst : Live (alts dst) m)
    (hl : l.length ≤ 2 ^ 30) (hok : CopyOk alts dst src) :
    ∃ alt, copyFragOffsetsFrom alts dst src = some (Function.update alts dst alt) ∧ Live alt l ∧ SameHdrs (alts dst) alt := by
  unfold copyFragOffsetsFrom
  rw [hsrc.count]
  by_cases hnil : l = []
  · subst hnil
    exact ⟨_, if_neg (Nat.lt_irrefl 0), ⟨hdst.magic, rfl, hdst.holds_nil, hdst.sized, hdst.request, hdst.response⟩, ⟨rfl, rfl⟩⟩
  · obtain ⟨table, htable, hne, hsized, hempty, hsmall⟩ := copyTable_spec Heap hl
    set alt₁ : HTTPCacheAlt Heap := { alts dst with fragOffsetCount := l.length, fragOffsets := table } with halt₁
    obtain ⟨halloc, hfits⟩ : alt₁.Holds [] ∧ l.length ≤ alt₁.capacity := hempty { alts dst with fragOffsetCount := l.length }
    -- the source is read when the table of the target is the new one
    have hread : (Function.update alts dst alt₁ src).readTable 0 l.length = some (l.map some) := by
      by_cases hself : src = dst
      · have hintegral : (alts src).fragOffsets = .integral := by
          refine (hok hself.symm).resolve_left fun h => hnil ?_
          rwa [hsrc.count, List.length_eq_zero_iff] at h
        have hfew : l.length ≤ N_INTEGRAL_FRAG_OFFSETS := by
          have hle := hsrc.length_le
          rwa [HTTPCacheAlt.capacity, hintegral] at hle
        have hsame := hsrc.readTable_all hnil
        rw [HTTPCacheAlt.readTable, hintegral] at hsame
        subst hself
        rw [Function.update_self, HTTPCacheAlt.readTable, halt₁, hsmall hfew]
        exact hsame
      · rw [Function.update_of_ne hself]
        exact hsrc.readTable_all hnil
    obtain ⟨alt₂, hwrite, hholds, hwrote⟩ := writeTable_holds (m := l) halloc (by simpa using hfits) hne
    refine ⟨alt₂, ?_, ?_, ⟨hwrote.hdrs.request, hwrote.hdrs.response⟩⟩
    · rw [if_pos (List.length_pos_of_ne_nil hnil), htable, Option.bind_some]
      simp only [Function.update_self, Function.update_idem, ← halt₁, hread, Option.bind_some]
      rw [show alt₁.writeTable 0 (l.map some) = some alt₂ from hwrite, Option.map_some, Function.update_idem]
    · exact ⟨hwrote.magic.trans hdst.magic, hwrote.count, hholds, hwrote.sized hsized, hwrote.hdrs.request ▸ hdst.request,
        hwrote.hdrs.response ▸ hdst.response⟩

end TrafficServer.Hdrs.CacheAlt
