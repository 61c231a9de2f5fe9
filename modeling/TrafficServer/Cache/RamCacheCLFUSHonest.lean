/-
The sizes that the CLFUS memory cache accounts.

The size of an entry in memory should be what its buffer holds, so that the bytes of the cache are the memory it uses. `put` and the
compression pass write the size together with the buffer. `get` does not: where it decompresses an entry in place, the new buffer
has the length of the object and the size becomes the compressed length. Such an entry is wrong at once, and nothing else is
(`clfus_size_honesty`), also where other threads come into a pass; twenty zeros compressed by zlib count 11 bytes and hold 20
(`zeros_unpacked`).
-/
import TrafficServer.Cache.CompressLock

namespace TrafficServer.Cache.CLFUS

open TrafficServer.Run

variable {V : Type} {c : Cfg V} {s : RamCacheCLFUS V} {M H : List ℕ} {B : ℕ → List ℕ} {base : ℤ} {e : ℕ}

/-! ## Sizes and buffers -/

/-- what the buffer of an entry holds -/
def Entry.held (x : Entry) : ℕ := x.data.elim 0 Data.blockSize

/-- every size is what the buffer holds, and the bytes are the buffers and the overheads -/
structure SizesHonest (s : RamCacheCLFUS V) : Prop where
  size_eq : ∀ e ∈ s.memoryList, ∃ d, (s.entry e).data = some d ∧ (s.entry e).size = d.blockSize
  bytes_eq : s.bytes = (s.memoryList.map fun e => ((s.entry e).held + ENTRY_OVERHEAD : ℤ)).sum

/-- what the buffer of a `put` holds -/
def Put.held (p : Put) : ℕ := if p.copy then p.len else p.data.blockSize

/-- the buffer and the overhead of an object fit in 32 bits -/
def Fits : Op → Prop
  | .put p => p.held + ENTRY_OVERHEAD < 2 ^ 32
  | _ => True

/-- no `get` decompresses in place -/
def InPlaceFree (c : Cfg V) (s : RamCacheCLFUS V) : Op → Prop
  | .get key auxkey1 auxkey2 => s.maxBytes ≠ 0 → ∀ e, s.lookup key auxkey1 auxkey2 = some e → (s.entry e).lru = false →
      ¬ Unpacks c (s.entry e)
  | _ => True

/-- an entry whose size is right -/
structure Entry.Sized (x : Entry) : Prop where
  honest : ∃ d, x.data = some d ∧ x.size = d.blockSize
  shorter : x.compressed ≠ 0 → x.compressedLen < x.len
  fits : x.size + ENTRY_OVERHEAD < 2 ^ 32

theorem passClosed_sized : PassClosed Entry.Sized where
  started _ h hcomp := ⟨h.honest, fun hne => absurd hcomp hne, h.fits⟩
  failed _ h := ⟨h.honest, h.shorter, h.fits⟩
  shrunk _ _ _ _ h hless hle := ⟨⟨_, rfl, rfl⟩, fun _ => hless, lt_of_le_of_lt (Nat.add_le_add_right hle _) h.fits⟩
  copied _ _ h hle := ⟨⟨_, rfl, rfl⟩, fun hne => absurd rfl hne, lt_of_le_of_lt (Nat.add_le_add_right hle _) h.fits⟩

theorem closedPass_sized : ClosedPass c Entry.Sized :=
  passClosed_sized.closedPass fun _ _ h => ⟨h.honest, h.shorter, h.fits⟩

theorem Put.Kept.blockSize_eq {p : Put} {d : Data} (h : p.Kept d) : d.blockSize = p.held := by
  unfold Put.Kept at h
  unfold Put.held
  by_cases hcopy : p.copy = true
  · rw [if_pos hcopy] at h ⊢
    exact h.2
  · rw [if_neg hcopy] at h ⊢
    exact congrArg Data.blockSize h

theorem Put.size_eq_held {p : Put} (h : p.held + ENTRY_OVERHEAD < 2 ^ 32) : p.size = p.held :=
  Nat.mod_eq_of_lt (lt_of_le_of_lt (Nat.le_add_right _ _) h)

/-- what a `put` leaves in memory -/
theorem sized_put {p : Put} {d : Data} {x : Entry} (hfits : p.held + ENTRY_OVERHEAD < 2 ^ 32) (hkept : p.Kept d)
    (hdata : x.data = some d) (hsize : x.size = p.size) (hcomp : x.compressed = 0) : x.Sized where
  honest := by
    refine ⟨d, hdata, ?_⟩
    calc x.size = p.size := hsize
      _ = p.held := Put.size_eq_held hfits
      _ = d.blockSize := hkept.blockSize_eq.symm
  shorter hne := absurd hcomp hne
  fits := by
    rw [hsize, Put.size_eq_held hfits]
    exact hfits

theorem small_sized : Small Entry.Sized := fun _ h => h.fits

theorem Rep.sizesHonest (h : Rep Entry.Sized s M H [] none B 0) : SizesHonest s where
  size_eq e he := by
    rw [h.memoryList_eq] at he
    exact (h.memory e (Or.inl he)).2.2.honest
  bytes_eq := by
    rw [h.memoryList_eq, h.bytes_eq, zero_add]
    apply congrArg List.sum
    apply List.map_congr_left
    intro e he
    have hsized := (h.memory e (Or.inl he)).2.2
    obtain ⟨d, hdata, hsize⟩ := hsized.honest
    calc (s.cost e : ℤ) = ((s.entry e).size + ENTRY_OVERHEAD : ℕ) := by
          rw [RamCacheCLFUS.cost, withOverhead_of_lt hsized.fits]
      _ = (s.entry e).held + ENTRY_OVERHEAD := by simp [Entry.held, hdata, hsize]

/-! ## Steps -/

theorem step_sized {op : Op} (hfits : Fits op) (hfree : InPlaceFree c s op) (h : Rep Entry.Sized s M H [] none B base) :
    ∃ M' H' B', Rep Entry.Sized (step c s op) M' H' [] none B' base := by
  cases op with
  | init abytes =>
    obtain ⟨B', hrep⟩ := h.init (c := c) abytes
    exact ⟨M, H, B', hrep⟩
  | get key auxkey1 auxkey2 =>
    obtain ⟨⟨M', H', B', base', hrep, hbase⟩, _⟩ := h.get_of (c := c) (closedPass_sized (c := c)).hits key auxkey1 auxkey2
      fun hmax e hfind hlru hunpacks => absurd hunpacks (hfree hmax e hfind hlru)
    exact ⟨M', H', B', hbase small_sized ▸ hrep⟩
  | put p =>
    by_cases hmax : s.maxBytes = 0
    · rw [step, put_off hmax]
      exact ⟨M, H, B, h⟩
    · obtain ⟨_, _, _, M', H', B', base', _, _, hrep, hbase, _⟩ := h.put (c := c) (p := p) (closedPass_sized (c := c)).hits hmax
        (fun d x hkept _ => sized_put hfits hkept rfl rfl rfl) fun d x hkept _ _ => sized_put hfits hkept rfl rfl rfl
      exact ⟨M', H', B', hbase small_sized ▸ hrep⟩
  | fixup key old1 old2 new1 new2 =>
    exact ⟨M, H, B, h.fixup (fun _ _ _ hx => ⟨hx.honest, hx.shorter, hx.fits⟩) key old1 old2 new1 new2⟩
  | compress doAtMost =>
    obtain ⟨⟨base', hrep, hbase⟩, _⟩ := h.compressEntries (c := c) closedPass_sized doAtMost
    exact ⟨M, H, B, hbase small_sized ▸ hrep⟩

/-- the entry after it was decompressed in place -/
theorem Rep.getHit_unpacked {Q : Entry → Prop} (h : Rep Q s M H [] none B base) (he : e ∈ M)
    (hunpacks : Unpacks c (s.entry e)) :
    e ∈ (s.getHit c e).1.memoryList ∧
      ∃ n out, (s.getHit c e).1.entry e = ({ s.entry e with hits := (s.entry e).hits + 1 } : Entry).unpacked n out := by
  obtain ⟨hcomp, hcopy, hdec⟩ := hunpacks
  obtain ⟨out, hout⟩ := Option.ne_none_iff_exists'.mp hdec
  unfold RamCacheCLFUS.getHit
  dsimp only
  generalize ht : (if c.lt s.averageValue (s.value c e) = true then (s.lruRemove .memory e).enqueue .memory e else s) = t
  obtain ⟨⟨M₁, hperm, hrep⟩, hentry, -, -⟩ := h.touch_if he _ ht
  have hmem : e ∈ t.memoryList := by
    rw [hrep.memoryList_eq]
    exact hperm.mem_iff.mpr he
  set u := t.modify e fun x => { x with hits := x.hits + 1 } with hu
  have hself : u.entry e = { s.entry e with hits := (s.entry e).hits + 1 } := by
    rw [hu, modify_entry_self, hentry]
  have hcomp' : ¬ (u.entry e).compressed = 0 := by rwa [hself]
  have hcopy' : ¬ (u.entry e).copy = true := by simp [hself, hcopy]
  have hout' : c.decompress (u.entry e) = some out := by rwa [hself, decompress_hits]
  rw [if_neg hcomp', hout']
  dsimp only
  rw [if_neg hcopy']
  refine ⟨hmem, u.nextData, out, ?_⟩
  rw [modify_entry_self, ← hself]
  rfl

theorem get_dishonest {key : CacheKey} {auxkey1 auxkey2 : ℕ} (hbad : ¬ InPlaceFree c s (.get key auxkey1 auxkey2))
    (h : Rep Entry.Sized s M H [] none B base) : ¬ SizesHonest (s.get c key auxkey1 auxkey2).1 := by
  simp only [InPlaceFree, not_forall, not_not] at hbad
  obtain ⟨hmax, e, hfind, hlru, hunpacks⟩ := hbad
  have he : e ∈ M := by
    rcases (h.lookup_mem hmax hfind).1 with he | he
    · exact he
    · exact absurd ((h.history e (Or.inl he)).1.symm.trans hlru) (by simp)
  obtain ⟨hmove, _⟩ := h.moveCompressed e
  obtain ⟨n, cur, heq⟩ := moveCompressed_eq s e
  rw [heq] at hmove
  obtain ⟨hmem, id, out, hentry⟩ := hmove.getHit_unpacked he hunpacks
  have hget : (s.get c key auxkey1 auxkey2).1 = (RamCacheCLFUS.getHit c { s with ncompressed := n, compressed := cur } e).1 := by
    simp [RamCacheCLFUS.get, hmax, hfind, heq, hlru]
  intro hhonest
  rw [hget] at hhonest
  obtain ⟨d, hdata, hsize⟩ := hhonest.size_eq e hmem
  rw [hentry] at hdata hsize
  obtain rfl : _ = d := Option.some.inj hdata
  exact absurd hsize ((h.memory e (Or.inl he)).2.2.shorter hunpacks.1).ne

/-! ## Runs -/

/-- A step of the cache and of its compression passes: a call or a whole pass while no pass is under way, the start of one, or a
step of it or of another thread. -/
inductive Turn where
  | op (o : Op)
  | start (doAtMost : ℕ)
  | act (a : Act)

def turn (c : Cfg V) (t : Pass V) : Turn → Pass V
  | .op o => if t.pc = .done then { t with cache := step c t.cache o } else t
  | .start doAtMost => if t.pc = .done then newPass t.cache doAtMost else t
  | .act a => act c t a

/-- a new cache, and no pass -/
def idle (c : Cfg V) (raw : ℕ → Entry) : Pass V := { newPass (newRamCacheCLFUS c raw) 0 with pc := .done }

/-- what is put fits, and the pass keeps to its lock -/
def TurnOk (c : Cfg V) (t : Pass V) : Turn → Prop
  | .op o => Fits o
  | .start _ => True
  | .act (.put p) => Fits (.put p)
  | .act a => ActOk c t a

/-- no `get` that has the lock decompresses in place -/
def TurnInPlaceFree (c : Cfg V) (t : Pass V) : Turn → Prop
  | .op o => t.pc = .done → InPlaceFree c t.cache o
  | .act (.get key auxkey1 auxkey2) => t.locked = false → InPlaceFree c t.cache (.get key auxkey1 auxkey2)
  | _ => True

variable {t : Pass V}

theorem PassInv.rep_sized (h : PassInv Entry.Sized t) : ∃ M H B, Rep Entry.Sized t.cache M H [] none B 0 := by
  obtain ⟨M, H, B, base, hrep, hzero, _⟩ := h.rep
  exact ⟨M, H, B, hzero small_sized ▸ hrep⟩

/-- a call between two passes -/
theorem PassInv.between {s' : RamCacheCLFUS V} {M' H' : List ℕ} {B' : ℕ → List ℕ} (h : PassInv Entry.Sized t) (hpc : t.pc = .done)
    (hrep : Rep Entry.Sized s' M' H' [] none B' 0) : PassInv Entry.Sized { t with cache := s' } :=
  ⟨⟨M', H', B', 0, hrep, fun _ => rfl, by simp [hpc], by simp [hpc], by simp [hpc]⟩, h.raced, h.dangling, h.locked, h.balance⟩

theorem call_sized {op : Op} (hop : Called op) (hfits : Fits op) (hfree : t.locked = false → InPlaceFree c t.cache op)
    (h : PassInv Entry.Sized t) : PassInv Entry.Sized (t.call c op) := by
  by_cases hlocked : t.locked = true
  · rw [Pass.call, if_pos hlocked]
    exact h
  · refine call_inv h hop fun M H B base hrep => ?_
    obtain ⟨M', H', B', hrep'⟩ := step_sized hfits (hfree (by simpa using hlocked)) hrep
    exact ⟨M', H', B', base, hrep', fun _ => rfl⟩

theorem turn_sized {a : Turn} (hok : TurnOk c t a) (hfree : TurnInPlaceFree c t a) (h : PassInv Entry.Sized t) :
    PassInv Entry.Sized (turn c t a) := by
  cases a with
  | op o =>
    by_cases hpc : t.pc = .done
    · obtain ⟨M, H, B, hrep⟩ := h.rep_sized
      obtain ⟨M', H', B', hrep'⟩ := step_sized hok (hfree hpc) hrep
      rw [turn, if_pos hpc]
      exact h.between hpc hrep'
    · rw [turn, if_neg hpc]
      exact h
  | start doAtMost =>
    by_cases hpc : t.pc = .done
    · obtain ⟨M, H, B, hrep⟩ := h.rep_sized
      rw [turn, if_pos hpc]
      exact newPass_inv doAtMost hrep fun _ => rfl
    · rw [turn, if_neg hpc]
      exact h
  | act a =>
    cases a with
    | pass => exact pass_inv passClosed_sized h hok
    | get key auxkey1 auxkey2 => exact call_sized trivial trivial hfree h
    | put p => exact call_sized trivial hok (fun _ => trivial) h
    | fixup key old1 old2 new1 new2 => exact call_sized trivial trivial (fun _ => trivial) h

/-- the size of an entry that was decompressed in place is wrong at once -/
theorem turn_dishonest {a : Turn} (hbad : ¬ TurnInPlaceFree c t a) (h : PassInv Entry.Sized t) :
    ¬ SizesHonest (turn c t a).cache := by
  obtain ⟨M, H, B, hrep⟩ := h.rep_sized
  cases a with
  | op o =>
    obtain ⟨hpc, hbad⟩ := not_forall.mp hbad
    rw [turn, if_pos hpc]
    cases o with
    | get key auxkey1 auxkey2 => exact get_dishonest hbad hrep
    | _ => exact absurd trivial hbad
  | start doAtMost => exact absurd trivial hbad
  | act a =>
    cases a with
    | get key auxkey1 auxkey2 =>
      obtain ⟨hlocked, hbad⟩ := not_forall.mp hbad
      have hcall : t.call c (.get key auxkey1 auxkey2) = { t with cache := step c t.cache (.get key auxkey1 auxkey2) } :=
        if_neg (by simp [hlocked])
      rw [turn, act, hcall]
      exact get_dishonest hbad hrep
    | _ => exact absurd trivial hbad

theorem clfus_size_honesty (c : Cfg V) (raw : ℕ → Entry) (turns : List Turn) (hok : Along (turn c) (TurnOk c) (idle c raw) turns) :
    (∀ n, SizesHonest ((turns.take n).foldl (turn c) (idle c raw)).cache) ↔
      Along (turn c) (TurnInPlaceFree c) (idle c raw) turns := by
  have hidle : PassInv Entry.Sized (idle c raw) :=
    ⟨⟨[], [], _, 0, rep_new _ c raw, fun _ => rfl, by simp [idle], by simp [idle], by simp [idle]⟩, rfl, rfl, rfl, rfl⟩
  refine along_iff (I := PassInv Entry.Sized) (Q := fun t => SizesHonest t.cache) (fun t h => ?_) (fun t a h hok hfree => ?_)
    (fun t a h _ hbad => turn_dishonest hbad h) hok hidle
  · obtain ⟨M, H, B, hrep⟩ := h.rep_sized
    exact hrep.sizesHonest
  · exact turn_sized hok hfree h

/-- zlib on twenty zeros -/
def zerosCfg : Cfg ℚ :=
  exactCfg CACHE_COMPRESSION_LIBZ
    (fun _ xs => if xs = List.replicate 20 0 then some [0x78, 0x9c, 0x63, 0x60, 0xc0, 0x04, 0x00, 0x00, 0x14, 0x00, 0x01] else none)
    fun _ ys _ => if ys = [0x78, 0x9c, 0x63, 0x60, 0xc0, 0x04, 0x00, 0x00, 0x14, 0x00, 0x01] then some (List.replicate 20 0) else none

/-- twenty zeros in a buffer of 128 bytes -/
def zerosPut (copy : Bool) : Put :=
  ⟨⟨fun _ => 0⟩, 0, 0, ⟨0, 128, List.replicate 20 0⟩, 20, copy, le_refl 20, by decide⟩

def zerosTurns (copy : Bool) : List Turn :=
  [.op (.init 1000), .op (.put (zerosPut copy)), .op (.compress 1), .act (.get ⟨fun _ => 0⟩ 0 0)]

/-- an entry that is copied stays compressed -/
theorem clfus_size_honesty_copied :
    Along (turn zerosCfg) (TurnOk zerosCfg) (idle zerosCfg fun _ => rawEntry) (zerosTurns true) ∧
    ∀ n, SizesHonest (((zerosTurns true).take n).foldl (turn zerosCfg) (idle zerosCfg fun _ => rawEntry)).cache := by
  have hok : Along (turn zerosCfg) (TurnOk zerosCfg) (idle zerosCfg fun _ => rawEntry) (zerosTurns true) :=
    ⟨trivial, (by decide : (zerosPut true).held + ENTRY_OVERHEAD < 2 ^ 32), trivial, trivial, trivial⟩
  refine ⟨hok, (clfus_size_honesty zerosCfg (fun _ => rawEntry) (zerosTurns true) hok).mpr
    ⟨fun _ => trivial, fun _ => trivial, fun _ => trivial, fun _ _ e hfind _ hunpacks => ?_, trivial⟩⟩
  obtain rfl : 0 = e := Option.some.inj ((by decide +kernel : some 0 = _).trans hfind)
  exact absurd hunpacks.2.1 (by decide +kernel)

/-- one that is not is decompressed in place -/
theorem zeros_unpacked :
    ¬ ∀ (c : Cfg ℚ) (raw : ℕ → Entry) (turns : List Turn), SizesHonest (turns.foldl (turn c) (idle c raw)).cache := by
  intro h
  obtain ⟨d, hdata, hsize⟩ := (h zerosCfg (fun _ => rawEntry) (zerosTurns false)).size_eq 0 (by decide +kernel)
  have hblock : d.blockSize = 20 := by
    have hheld := congrArg (Option.map Data.blockSize) hdata
    exact (Option.some.inj ((by decide +kernel : some 20 = _).trans hheld)).symm
  rw [hblock] at hsize
  exact absurd hsize (by decide +kernel)

end TrafficServer.Cache.CLFUS
