/-
The region in front of the write cursor whose objects are evacuated when they are hit (`Vol::within_hit_evacuate_window`).

`hit_evacuate_window` and `data_blocks` count blocks of 8 KB, but the offsets they are compared with count blocks of 512 bytes. So the region is
one sixteenth of what it should be in front of the cursor, and the part behind the wrap is at a distance of `data_blocks` small blocks
instead of the size of the data area.

Result: `within_iff`, the entries for which the test is right; the others are of three kinds (`Short`, `Behind`, `Wrapped`).
Counterexample: `window_short`.
-/
import Mathlib
import TrafficServer.Cache.Vol

namespace TrafficServer.Cache.HitEvacuate

/-- the fields of the volume that the test reads, besides its geometry -/
structure Window where
  writePos : ℤ
  dataBlocks : ℤ
  hitEvacuateWindow : ℤ

variable (g : VolGeom) (w : Window)

/-- the cursor, in cache blocks of the data area -/
def writeOff : ℤ := (w.writePos + AGG_SIZE - g.start).tdiv CACHE_BLOCK_SIZE

/-- `Vol::within_hit_evacuate_window` -/
def withinHitEvacuateWindow (xdir : Dir) : Bool :=
  let oft := (xdir.offset : ℤ) - 1
  let delta := oft - writeOff g w
  if delta ≥ 0 then delta < w.hitEvacuateWindow
  else -delta > w.dataBlocks - w.hitEvacuateWindow && -delta < w.dataBlocks

/-- the cache blocks of a store block -/
def STORE_BLOCKS_PER_CACHE_BLOCK : ℤ := STORE_BLOCK_SIZE / CACHE_BLOCK_SIZE

/-- how far the entry is ahead of the cursor, in cache blocks of a data area where the first one follows the last one -/
def ahead (xdir : Dir) : ℤ := ((xdir.offset : ℤ) - 1 - writeOff g w) % (w.dataBlocks * STORE_BLOCKS_PER_CACHE_BLOCK)

/-- The entry is ahead of the cursor by less than the window. -/
def InWindow (xdir : Dir) : Prop := ahead g w xdir < w.hitEvacuateWindow * STORE_BLOCKS_PER_CACHE_BLOCK

/-- `Vol::init`: the blocks of the data area, which starts and ends at a store block; the cursor is in it -/
structure Ok : Prop where
  dataBlocks : g.skip + g.len - g.start = w.dataBlocks * STORE_BLOCK_SIZE
  pos : 0 < w.dataBlocks
  writePos : g.start ≤ w.writePos

/-- the distance that the test looks at -/
def delta (xdir : Dir) : ℤ := (xdir.offset : ℤ) - 1 - writeOff g w

/-- in front of the cursor, behind the first sixteenth of the window -/
def Short (xdir : Dir) : Prop :=
  w.hitEvacuateWindow ≤ delta g w xdir ∧ 0 ≤ delta g w xdir ∧ delta g w xdir < w.hitEvacuateWindow * STORE_BLOCKS_PER_CACHE_BLOCK

/-- behind the cursor where the test takes the wrap to be, and not in the window -/
def Behind (xdir : Dir) : Prop :=
  -w.dataBlocks < delta g w xdir ∧ delta g w xdir < 0 ∧ delta g w xdir < w.hitEvacuateWindow - w.dataBlocks ∧
    (w.hitEvacuateWindow - w.dataBlocks) * STORE_BLOCKS_PER_CACHE_BLOCK ≤ delta g w xdir

/-- far behind the cursor, which is behind the wrap and in the window -/
def Wrapped (xdir : Dir) : Prop :=
  delta g w xdir ≤ -w.dataBlocks ∧ ahead g w xdir < w.hitEvacuateWindow * STORE_BLOCKS_PER_CACHE_BLOCK

variable {g w}

theorem writeOff_nonneg (h : Ok g w) : 0 ≤ writeOff g w := by
  have := h.writePos
  apply Int.tdiv_nonneg
  · omega
  · decide

/-- an entry of the data area is at most its size ahead -/
theorem delta_lt (h : Ok g w) {xdir : Dir} (hx : g.volOffset xdir < g.skip + g.len) :
    delta g w xdir < w.dataBlocks * STORE_BLOCKS_PER_CACHE_BLOCK := by
  have hoff := writeOff_nonneg h
  have hdata := h.dataBlocks
  have hpos := h.pos
  have hcache : (CACHE_BLOCK_SIZE : ℤ) = 512 := by decide
  have hstore : (STORE_BLOCK_SIZE : ℤ) = 8192 := by decide
  have hk : STORE_BLOCKS_PER_CACHE_BLOCK = 16 := by decide
  rw [VolGeom.volOffset, hcache] at hx
  rw [hstore] at hdata
  rw [delta, hk]
  omega

/-- The test is right for the entries of the data area that are of none of the three kinds, and wrong for all others. -/
theorem within_iff (h : Ok g w) {xdir : Dir} (hx : g.volOffset xdir < g.skip + g.len) :
    (withinHitEvacuateWindow g w xdir = true ↔ InWindow g w xdir) ↔ ¬Short g w xdir ∧ ¬Behind g w xdir ∧ ¬Wrapped g w xdir := by
  have hlt := delta_lt h hx
  have hpos := h.pos
  have hk : STORE_BLOCKS_PER_CACHE_BLOCK = 16 := by decide
  have hahead : ahead g w xdir = delta g w xdir % (w.dataBlocks * STORE_BLOCKS_PER_CACHE_BLOCK) := rfl
  have hwithin : withinHitEvacuateWindow g w xdir = true ↔
      0 ≤ delta g w xdir ∧ delta g w xdir < w.hitEvacuateWindow ∨
        delta g w xdir < 0 ∧ w.dataBlocks - w.hitEvacuateWindow < -delta g w xdir ∧ -delta g w xdir < w.dataBlocks := by
    unfold withinHitEvacuateWindow
    change (if delta g w xdir ≥ 0 then _ else _) = true ↔ _
    split_ifs with h0
    · rw [decide_eq_true_iff]
      exact ⟨fun hd => Or.inl ⟨h0, hd⟩, fun hd => hd.elim And.right fun hn => absurd h0 (not_le.mpr hn.1)⟩
    · rw [Bool.and_eq_true, decide_eq_true_iff, decide_eq_true_iff]
      exact ⟨fun hd => Or.inr ⟨not_le.mp h0, hd.1, hd.2⟩, fun hd => hd.elim (fun hn => absurd hn.1 h0) And.right⟩
  rw [hwithin, InWindow, Short, Behind, Wrapped, hahead]
  generalize delta g w xdir = d at *
  generalize w.hitEvacuateWindow = k at *
  generalize w.dataBlocks = n at *
  rw [hk] at *
  by_cases h0 : 0 ≤ d
  · rw [Int.emod_eq_of_lt h0 hlt]
    omega
  · by_cases hn : -n < d
    · have hmod : d % (n * 16) = d + n * 16 := by
        rw [← Int.add_emod_right, Int.emod_eq_of_lt (by omega) (by omega)]
      rw [hmod]
      omega
    · omega

/-- a volume of 128 MB whose data starts behind two directories of 23 store blocks -/
def vol128 : VolGeom := ⟨8192 * 47, 8192, 8192 * 16384, 512, by decide, sector512_dvd⟩

/-- the cursor of an empty volume; the window is 10% of the data area -/
def window128 : Window := ⟨8192 * 47, 16338, 1633⟩

/-- An entry that is 1 MB in front of the cursor is not in the window of 13 MB. -/
theorem window_short :
    ¬∀ xdir : Dir, vol128.volOffset xdir < vol128.skip + vol128.len →
      (withinHitEvacuateWindow vol128 window128 xdir = true ↔ InWindow vol128 window128 xdir) := by
  intro h
  have hx := h (Dir.zero.setOffset 10241) (by decide)
  have hin : InWindow vol128 window128 (Dir.zero.setOffset 10241) := by
    unfold InWindow
    decide
  exact absurd (hx.mpr hin) (by decide)

/-- An entry that follows the cursor is found. -/
theorem within_iff_next : (withinHitEvacuateWindow vol128 window128 (Dir.zero.setOffset 8194) = true ↔
      InWindow vol128 window128 (Dir.zero.setOffset 8194)) ↔
    ¬Short vol128 window128 (Dir.zero.setOffset 8194) ∧ ¬Behind vol128 window128 (Dir.zero.setOffset 8194) ∧
      ¬Wrapped vol128 window128 (Dir.zero.setOffset 8194) :=
  within_iff ⟨by decide, by decide, by decide⟩ (by decide)

end TrafficServer.Cache.HitEvacuate
