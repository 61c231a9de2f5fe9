/-
The lock of a compression pass (`RamCacheCLFUS::compress_entries`).

The pass holds the lock of the volume, gives it up while the codec runs, and takes it again; other threads call `get`, `put` and
`fixup` whenever it does not have it. `Pass` is the pass between two accesses: the cache, where it is in the code, its local
variables, and what it did with the lock. Cache state that is touched without the lock sets `raced`, and a pointer that is followed
to something that is not an entry of the cache sets `dangling`; a null pointer ends the pass. The buffer `edata` belongs to the
pass, which has a reference to it. There is one thread for all passes, so that no two of them run at the same time.

`compress_entries_lock`: with every interleaving the pass keeps to the lock, follows only pointers to entries, and gives the lock up
as often as it takes it, if the codec is not FASTLZ, an entry for which the codec fails is still in memory when the lock is back,
and the cursor is not null when the entry is gone. All three are needed: FASTLZ looks at the length of the entry without the lock, and
leaves without it if the object is short; after a failure, nobody asks whether the entry is still there; and an entry that is gone is
replaced by the cursor, whatever it is (`lock_lost`).
-/
import TrafficServer.Cache.RamCacheCLFUSRuns

namespace TrafficServer.Cache.CLFUS

open TrafficServer.Dll TrafficServer.HashChain TrafficServer.Run

/-- where the pass is -/
inductive Pc where
  | start
  /-- the condition of the loop -/
  | loop
  /-- the lock is given up -/
  | codec
  /-- the codec is done -/
  | retake
  /-- `Lfailed` -/
  | failed
  /-- `Lcontinue` -/
  | next
  /-- behind the loop -/
  | exit
  | done
  | crashed
deriving DecidableEq

structure Pass (V : Type) where
  cache : RamCacheCLFUS V
  pc : Pc
  locked : Bool
  /-- how often the lock was taken -/
  taken : ℕ
  /-- how often it was given up -/
  released : ℕ
  raced : Bool
  dangling : Bool
  doAtMost : ℕ
  n : ℕ
  target : ℤ → Bool
  e : Option ℕ
  edata : Option Data
  elen : ℕ
  key : CacheKey
  /-- what the codec has made; none if it failed -/
  out : Option (List (BitVec 8))

/-- the entry is in `lru[0]` or `lru[1]` -/
def RamCacheCLFUS.has {V : Type} (s : RamCacheCLFUS V) (x : ℕ) : Bool :=
  x ∈ s.memoryList ∨ x ∈ toList s.lruLink (s.nextEntry + 1) (s.lru .history).head

namespace Pass

variable {V : Type} (c : Cfg V) (t : Pass V)

/-! ## The pass -/

/-- `MUTEX_TAKE_LOCK` -/
def takeLock : Pass V := { t with locked := true, taken := t.taken + 1 }

/-- `MUTEX_UNTAKE_LOCK` -/
def untakeLock : Pass V := { t with locked := false, released := t.released + 1 }

/-- an access to the cache -/
def touch : Pass V := { t with raced := t.raced || !t.locked }

/-- an access through `e` -/
def deref (k : ℕ → Pass V → Pass V) : Pass V :=
  match t.e with
  | none => { t with dangling := true, pc := .crashed }
  | some x => k x { t.touch with dangling := t.dangling || !t.cache.has x }

/-- the first lock, and the cursor -/
def begin : Pass V :=
  if c.compress = 0 then { t with pc := .done }
  else
    let t := t.takeLock.touch
    let s := t.cache
    let s := if s.compressed = none then { s with compressed := (s.lru .memory).head, ncompressed := 0 } else s
    { t with cache := s, target := c.target s.objects, n := 0, pc := .loop }

/-- the loop up to the codec -/
def select (x : ℕ) : Pass V :=
  if (t.cache.entry x).tried then { t with pc := .next }
  else
    let t := { t with n := t.n + 1 }
    if t.doAtMost < t.n then { t with pc := .exit }
    else
      let s := t.cache.modify x fun y => { y with compressedLen := y.size }
      let t := { t with cache := s }
      if c.available c.compress then
        -- store transient data for lock release
        { t with edata := (s.entry x).data, elen := (s.entry x).len, key := (s.entry x).key, pc := .codec }.untakeLock
      else { t with pc := .next }

/-- the condition of the loop -/
def test : Pass V :=
  let t := t.touch
  match t.cache.compressed with
  | none => { t with pc := .exit }
  | some x =>
    if t.target t.cache.ncompressed then { t with e := some x }.deref fun x t => t.select c x else { t with pc := .exit }

/-- the codec at work, without the lock -/
def encode : Pass V := { t with out := c.encode c.compress ((t.edata.elim [] Data.bytes).take t.elen), pc := .retake }

/-- the second switch -/
def compress : Pass V :=
  if c.compress = CACHE_COMPRESSION_FASTLZ then
    t.deref fun x t => if (t.cache.entry x).len < 16 then { t with pc := .failed } else t.encode c
  else t.encode c

/-- is the entry still around -/
def found : Option ℕ :=
  find t.cache.hashLink (fun y => (t.cache.entry y).key = t.key ∧ (t.cache.entry y).data.map Data.id = t.edata.map Data.id)
    (t.cache.nextEntry + 1) (t.cache.chain t.key)

/-- the lock is taken again, and the entry gets what the codec has made -/
def finish : Pass V :=
  let t := t.takeLock.touch
  match t.out with
  | none => { t with pc := .failed }
  | some out =>
    if t.found = none ∨ t.found ≠ t.e then { t with e := t.cache.compressed, pc := .next }
    else t.deref fun x t => { t with cache := t.cache.compressDone c x out, pc := .next }

/-- `Lfailed` -/
def fail : Pass V := t.deref fun x t => { t with cache := t.cache.compressFailed x, pc := .next }

/-- `Lcontinue` -/
def advance : Pass V :=
  t.deref fun x t =>
    match t.cache.lruLink.next x with
    | none => { t with pc := .exit }
    | some y => { t with cache := { t.cache with compressed := some y, ncompressed := t.cache.ncompressed + 1 }, pc := .loop }

def pass : Pass V :=
  match t.pc with
  | .start => t.begin c
  | .loop => t.test c
  | .codec => t.compress c
  | .retake => t.finish c
  | .failed => t.fail
  | .next => t.advance
  | .exit => { t.untakeLock with pc := .done }
  | .done => t
  | .crashed => t

/-- a call of another thread, which waits for the lock -/
def call (op : Op) : Pass V := if t.locked then t else { t with cache := CLFUS.step c t.cache op }

end Pass

inductive Act where
  | pass
  | get (key : CacheKey) (auxkey1 auxkey2 : ℕ)
  | put (p : Put)
  | fixup (key : CacheKey) (oldAuxkey1 oldAuxkey2 newAuxkey1 newAuxkey2 : ℕ)

variable {V : Type}

def act (c : Cfg V) (t : Pass V) : Act → Pass V
  | .pass => t.pass c
  | .get key auxkey1 auxkey2 => t.call c (.get key auxkey1 auxkey2)
  | .put p => t.call c (.put p)
  | .fixup key old1 old2 new1 new2 => t.call c (.fixup key old1 old2 new1 new2)

/-- a pass before its first step -/
def newPass (s : RamCacheCLFUS V) (doAtMost : ℕ) : Pass V where
  cache := s
  pc := .start
  locked := false
  taken := 0
  released := 0
  raced := false
  dangling := false
  doAtMost := doAtMost
  n := 0
  target := fun _ => false
  e := none
  edata := none
  elen := 0
  key := ⟨fun _ => 0⟩
  out := none

/-! ## What a run keeps -/

/-- where the pass has the lock -/
def Pc.locked : Pc → Bool
  | .loop | .failed | .next | .exit => true
  | _ => false

variable {c : Cfg V} {Q : Entry → Prop} {t : Pass V} {s : RamCacheCLFUS V} {M H : List ℕ} {B : ℕ → List ℕ} {base : ℤ}

/-- what is known at each place, `M` being `lru[0]` -/
structure At (t : Pass V) (M : List ℕ) : Prop where
  pc_ne : t.pc ≠ .crashed
  /-- the lock is back, and `e` is an entry in memory -/
  entry : t.pc = .failed ∨ t.pc = .next → ∃ x ∈ M, t.e = some x
  /-- the lock is away -/
  away : t.pc = .codec ∨ t.pc = .retake → 0 < t.cache.nbuckets ∧ t.edata ≠ none

/-- `Q` survives what the pass does to an entry; the lock was away, so that the output may be that of another object -/
structure PassClosed (Q : Entry → Prop) : Prop where
  started : ∀ x, Q x → x.compressed = 0 → Q { x with compressedLen := x.size }
  failed : ∀ x, Q x → Q { x with incompressible := true }
  shrunk : ∀ x out n ctype, Q x → out.length < x.len → out.length ≤ x.size →
    Q { x with compressed := ctype, compressedLen := out.length, size := out.length, data := some ⟨n, out.length, out⟩ }
  copied : ∀ x n, Q x → x.len ≤ x.size → Q { x with compressed := 0, size := x.len, data := some ⟨n, x.len, x.object⟩ }

/-- with the lock, the output is that of the object -/
theorem PassClosed.closedPass (h : PassClosed Q) (hhits : IgnoresHits Q) : ClosedPass c Q where
  hits := hhits
  started := h.started
  failed := h.failed
  shrunk x out n hx _ _ _ := h.shrunk x out n c.compress hx
  copied x n hx _ _ := h.copied x n hx

theorem passClosed_counted : PassClosed fun x => True ∧ Counted x where
  started _ _ _ := ⟨trivial, fun _ => rfl⟩
  failed _ h := h
  shrunk _ _ _ _ _ _ _ := ⟨trivial, fun _ => rfl⟩
  copied _ _ _ _ := ⟨trivial, fun hne => absurd rfl hne⟩

structure PassInv (Q : Entry → Prop) (t : Pass V) : Prop where
  rep : ∃ M H B base, Rep Q t.cache M H [] none B base ∧ (Small Q → base = 0) ∧ At t M
  raced : t.raced = false
  dangling : t.dangling = false
  locked : t.locked = t.pc.locked
  balance : t.taken = t.released + t.locked.toNat

/-- what the pass relies on, before a step of it -/
def ActOk (c : Cfg V) (t : Pass V) : Act → Prop
  | .pass =>
    match t.pc with
    | .codec => c.compress ≠ CACHE_COMPRESSION_FASTLZ
    | .retake =>
      if t.out = none then ∃ x ∈ t.cache.memoryList, t.e = some x
      else (t.found = none ∨ t.found ≠ t.e) → t.cache.compressed ≠ none
    | _ => True
  | _ => True

theorem Rep.has (h : Rep Q s M H [] none B base) {x : ℕ} (hx : x ∈ M) : s.has x = true := by
  have hmem : x ∈ s.memoryList := h.memoryList_eq.symm ▸ hx
  simp [RamCacheCLFUS.has, hmem]

/-- an access with the lock -/
theorem touch_eq (hlocked : t.locked = true) : t.touch = t := by
  have hsame : (t.raced || !t.locked) = t.raced := by
    rw [hlocked, Bool.not_true, Bool.or_false]
  rw [Pass.touch, hsame]

/-- the pass has the lock, and nothing went wrong -/
structure Safe (Q : Entry → Prop) (t : Pass V) (M H : List ℕ) (B : ℕ → List ℕ) (base : ℤ) : Prop where
  rep : Rep Q t.cache M H [] none B base
  zero : Small Q → base = 0
  raced : t.raced = false
  dangling : t.dangling = false
  locked : t.locked = true
  balance : t.taken = t.released + 1

theorem PassInv.safe (h : PassInv Q t) (hpc : t.pc.locked = true) : ∃ M H B base, Safe Q t M H B base ∧ At t M := by
  obtain ⟨M, H, B, base, hrep, hzero, hat⟩ := h.rep
  have hlocked : t.locked = true := h.locked.trans hpc
  have hbalance := h.balance
  rw [hlocked] at hbalance
  exact ⟨M, H, B, base, ⟨hrep, hzero, h.raced, h.dangling, hlocked, hbalance⟩, hat⟩

/-- the lock is taken -/
theorem PassInv.take (h : PassInv Q t) (hpc : t.pc.locked = false) :
    ∃ M H B base, Safe Q t.takeLock M H B base ∧ At t M := by
  obtain ⟨M, H, B, base, hrep, hzero, hat⟩ := h.rep
  have hbalance := h.balance
  rw [h.locked, hpc] at hbalance
  exact ⟨M, H, B, base, ⟨hrep, hzero, h.raced, h.dangling, rfl, congrArg (· + 1) hbalance⟩, hat⟩

/-- a pointer to an entry in memory -/
theorem Safe.deref_eq {x : ℕ} (h : Safe Q t M H B base) (hx : x ∈ M) (he : t.e = some x) (k : ℕ → Pass V → Pass V) :
    t.deref k = k x t := by
  have hsame : (t.dangling || !t.cache.has x) = t.dangling := by
    rw [h.rep.has hx, Bool.not_true, Bool.or_false]
  rw [Pass.deref, he]
  dsimp only
  rw [touch_eq h.locked, hsame]

/-- with the lock, at a place that needs no entry -/
theorem Safe.inv (h : Safe Q t M H B base) (hpc : t.pc = .loop ∨ t.pc = .exit) : PassInv Q t where
  rep := by
    refine ⟨M, H, B, base, h.rep, h.zero, ?_, fun hplace => ?_, fun hplace => ?_⟩
    · rcases hpc with hpc | hpc <;> simp [hpc]
    · rcases hpc with hpc | hpc <;> simp [hpc] at hplace
    · rcases hpc with hpc | hpc <;> simp [hpc] at hplace
  raced := h.raced
  dangling := h.dangling
  locked := by rcases hpc with hpc | hpc <;> rw [hpc] <;> exact h.locked
  balance := by rw [h.locked]; exact h.balance

/-- with the lock and an entry in memory -/
theorem Safe.inv_entry {x : ℕ} (h : Safe Q t M H B base) (hpc : t.pc = .failed ∨ t.pc = .next) (hx : x ∈ M) (he : t.e = some x) :
    PassInv Q t where
  rep := by
    refine ⟨M, H, B, base, h.rep, h.zero, ?_, fun _ => ⟨x, hx, he⟩, fun hplace => ?_⟩
    · rcases hpc with hpc | hpc <;> simp [hpc]
    · rcases hpc with hpc | hpc <;> simp [hpc] at hplace
  raced := h.raced
  dangling := h.dangling
  locked := by rcases hpc with hpc | hpc <;> rw [hpc] <;> exact h.locked
  balance := by rw [h.locked]; exact h.balance

theorem Rep.nbuckets_pos_of_mem {x : ℕ} (h : Rep Q s M H [] none B base) (hx : x ∈ M) : 0 < s.nbuckets := by
  obtain ⟨b, hb, _⟩ := (h.table.mem x).mp (Or.inl hx)
  exact Nat.zero_lt_of_lt hb

/-! ## Steps of the pass -/

theorem begin_inv (h : PassInv Q t) (hpc : t.pc = .start) : PassInv Q (t.begin c) := by
  unfold Pass.begin
  by_cases h0 : c.compress = 0
  · rw [if_pos h0]
    obtain ⟨M, H, B, base, hrep, hzero, _⟩ := h.rep
    have hlocked := h.locked
    rw [hpc] at hlocked
    exact ⟨⟨M, H, B, base, hrep, hzero, by simp, by simp, by simp⟩, h.raced, h.dangling, hlocked, h.balance⟩
  · rw [if_neg h0]
    obtain ⟨M, H, B, base, hsafe, _⟩ := h.take (by rw [hpc]; rfl)
    rw [touch_eq hsafe.locked]
    generalize t.takeLock = u at hsafe
    dsimp only
    by_cases hcur : u.cache.compressed = none
    · rw [if_pos hcur]
      have hhead : (u.cache.lru .memory).head = M.head? := (hsafe.rep.queues.queue .memory).isDll.head_eq
      have hstart := hsafe.rep.setCursor (u.cache.lru .memory).head (fun x hx => List.mem_of_head? (hhead ▸ hx)) 0
      exact Safe.inv ⟨hstart, hsafe.zero, hsafe.raced, hsafe.dangling, hsafe.locked, hsafe.balance⟩
        (Or.inl rfl)
    · rw [if_neg hcur]
      exact Safe.inv ⟨hsafe.rep, hsafe.zero, hsafe.raced, hsafe.dangling, hsafe.locked, hsafe.balance⟩
        (Or.inl rfl)

theorem select_inv {x : ℕ} (hQ : PassClosed Q) (h : Safe Q t M H B base) (hx : x ∈ M) (he : t.e = some x) : PassInv Q (t.select c x) := by
  unfold Pass.select
  by_cases htried : (t.cache.entry x).tried = true
  · rw [if_pos htried]
    exact Safe.inv_entry ⟨h.rep, h.zero, h.raced, h.dangling, h.locked, h.balance⟩ (Or.inr rfl) hx he
  · rw [if_neg htried]
    dsimp only
    by_cases hmost : t.doAtMost < t.n + 1
    · rw [if_pos hmost]
      exact Safe.inv ⟨h.rep, h.zero, h.raced, h.dangling, h.locked, h.balance⟩ (Or.inr rfl)
    · rw [if_neg hmost]
      have hskip : (t.cache.entry x).compressed = 0 := by
        by_contra hne
        exact htried (by simp [Entry.tried, hne])
      have hstart := h.rep.modify_memory_size (f := fun x => { x with compressedLen := x.size }) hx (fun _ => rfl) rfl rfl rfl
        (hQ.started _ (h.rep.memory x (Or.inl hx)).2.2 hskip)
      have hdata := (hstart.memory x (Or.inl hx)).2.1
      by_cases havail : c.available c.compress = true
      · rw [if_pos havail]
        refine ⟨⟨M, H, B, base, hstart, h.zero, by simp [Pass.untakeLock], by simp [Pass.untakeLock], fun _ => ⟨?_, hdata⟩⟩,
          h.raced, h.dangling, rfl, h.balance⟩
        exact hstart.nbuckets_pos_of_mem hx
      · rw [if_neg havail]
        exact Safe.inv_entry ⟨hstart, h.zero, h.raced, h.dangling, h.locked, h.balance⟩ (Or.inr rfl) hx he

theorem test_inv (hQ : PassClosed Q) (h : PassInv Q t) (hpc : t.pc = .loop) : PassInv Q (t.test c) := by
  obtain ⟨M, H, B, base, hsafe, _⟩ := h.safe (by rw [hpc]; rfl)
  unfold Pass.test
  rw [touch_eq hsafe.locked]
  dsimp only
  cases hcur : t.cache.compressed with
  | none => exact Safe.inv ⟨hsafe.rep, hsafe.zero, hsafe.raced, hsafe.dangling, hsafe.locked, hsafe.balance⟩ (Or.inr rfl)
  | some x =>
    dsimp only
    by_cases htarget : t.target t.cache.ncompressed = true
    · rw [if_pos htarget]
      have hx : x ∈ M := hsafe.rep.cursor x hcur
      have hsafe' : Safe Q { t with e := some x } M H B base := ⟨hsafe.rep, hsafe.zero, hsafe.raced, hsafe.dangling, hsafe.locked, hsafe.balance⟩
      rw [hsafe'.deref_eq hx rfl]
      exact select_inv hQ hsafe' hx rfl
    · rw [if_neg htarget]
      exact Safe.inv ⟨hsafe.rep, hsafe.zero, hsafe.raced, hsafe.dangling, hsafe.locked, hsafe.balance⟩ (Or.inr rfl)

theorem compress_inv (h : PassInv Q t) (hpc : t.pc = .codec) (hok : c.compress ≠ CACHE_COMPRESSION_FASTLZ) : PassInv Q (t.compress c) := by
  unfold Pass.compress
  rw [if_neg hok]
  obtain ⟨M, H, B, base, hrep, hzero, hat⟩ := h.rep
  have hlocked := h.locked
  rw [hpc] at hlocked
  exact ⟨⟨M, H, B, base, hrep, hzero, by simp [Pass.encode], by simp [Pass.encode], fun _ => hat.away (Or.inl hpc)⟩, h.raced, h.dangling,
    hlocked, h.balance⟩

/-- the entry that is found has data, and is in memory -/
theorem found_mem {x : ℕ} (h : Rep Q t.cache M H [] none B base) (hpos : 0 < t.cache.nbuckets) (hdata : t.edata ≠ none)
    (hfound : t.found = some x) : x ∈ M := by
  have hb : hashOf t.cache.nbuckets t.key < t.cache.nbuckets := Nat.mod_lt _ hpos
  rw [Pass.found, RamCacheCLFUS.chain, h.table.find_eq hb (Nat.lt_succ_of_le (h.chain_length hb))] at hfound
  have hheld : Held M H [] none x := (h.table.mem x).mpr ⟨_, hb, List.mem_of_find?_eq_some hfound⟩
  have hsame := List.find?_some hfound
  rcases held_iff.mp hheld with hx | hx
  · exact hx
  · -- an entry of the history has no data
    have hnone := (h.history x (Or.inl hx)).2
    simp only [hnone, decide_eq_true_eq] at hsame
    exact absurd (Option.map_eq_none_iff.mp hsame.2.symm) hdata

theorem finish_inv (hQ : PassClosed Q) (h : PassInv Q t) (hpc : t.pc = .retake) (hok : ActOk c t .pass) : PassInv Q (t.finish c) := by
  obtain ⟨M, H, B, base, hsafe, hat⟩ := h.take (by rw [hpc]; rfl)
  obtain ⟨hpos, hdata⟩ := hat.away (Or.inr hpc)
  simp only [ActOk, hpc] at hok
  unfold Pass.finish
  rw [touch_eq hsafe.locked]
  dsimp only
  have hout : t.takeLock.out = t.out := rfl
  rw [hout]
  cases hres : t.out with
  | none =>
    rw [if_pos hres] at hok
    obtain ⟨x, hx, he⟩ := hok
    rw [hsafe.rep.memoryList_eq (s := t.cache)] at hx
    exact Safe.inv_entry ⟨hsafe.rep, hsafe.zero, hsafe.raced, hsafe.dangling, hsafe.locked, hsafe.balance⟩ (Or.inl rfl) hx he
  | some out =>
    rw [if_neg (by rw [hres]; simp)] at hok
    dsimp only
    by_cases hgone : t.takeLock.found = none ∨ t.takeLock.found ≠ t.takeLock.e
    · rw [if_pos hgone]
      obtain ⟨x, hcur⟩ := Option.ne_none_iff_exists'.mp (hok hgone)
      exact Safe.inv_entry ⟨hsafe.rep, hsafe.zero, hsafe.raced, hsafe.dangling, hsafe.locked, hsafe.balance⟩
        (Or.inr rfl) (hsafe.rep.cursor x hcur) hcur
    · rw [if_neg hgone]
      obtain ⟨hsome, he⟩ := not_or.mp hgone
      obtain ⟨x, hfound⟩ := Option.ne_none_iff_exists'.mp hsome
      have hx : x ∈ M := found_mem hsafe.rep hpos hdata hfound
      have he' : t.takeLock.e = some x := (not_not.mp he).symm.trans hfound
      rw [hsafe.deref_eq hx he']
      obtain ⟨⟨base', hrep, hbase⟩, _⟩ := hsafe.rep.compressDone_of (c := c) out hx hQ.failed
        (fun b n hx => hQ.shrunk _ out n _ hx) fun b n hx => hQ.copied _ n hx
      exact Safe.inv_entry ⟨hrep, fun hs => (hbase hs).trans (hsafe.zero hs), hsafe.raced, hsafe.dangling, hsafe.locked, hsafe.balance⟩ (Or.inr rfl) hx he'

theorem fail_inv (hQ : PassClosed Q) (h : PassInv Q t) (hpc : t.pc = .failed) : PassInv Q t.fail := by
  obtain ⟨M, H, B, base, hsafe, hat⟩ := h.safe (by rw [hpc]; rfl)
  obtain ⟨x, hx, he⟩ := hat.entry (Or.inl hpc)
  rw [Pass.fail, hsafe.deref_eq hx he]
  have hrep := hsafe.rep.modify_memory_size (f := fun x => { x with incompressible := true }) hx (fun _ => rfl) rfl rfl rfl
    (hQ.failed _ (hsafe.rep.memory x (Or.inl hx)).2.2)
  exact Safe.inv_entry ⟨hrep, hsafe.zero, hsafe.raced, hsafe.dangling, hsafe.locked, hsafe.balance⟩ (Or.inr rfl) hx he

/-- the entry behind one in memory is in memory -/
theorem Rep.next_mem {x y : ℕ} (h : Rep Q s M H [] none B base) (hx : x ∈ M) (hnext : s.lruLink.next x = some y) : y ∈ M := by
  obtain ⟨m₁, m₂, rfl⟩ := List.append_of_mem hx
  have hhead : s.lruLink.next x = m₂.head? := (h.queues.queue .memory).isDll.next_eq
  exact List.mem_append_right _ (List.mem_cons_of_mem x (List.mem_of_head? (hhead ▸ hnext)))

theorem advance_inv (h : PassInv Q t) (hpc : t.pc = .next) : PassInv Q t.advance := by
  obtain ⟨M, H, B, base, hsafe, hat⟩ := h.safe (by rw [hpc]; rfl)
  obtain ⟨x, hx, he⟩ := hat.entry (Or.inr hpc)
  rw [Pass.advance, hsafe.deref_eq hx he]
  cases hnext : t.cache.lruLink.next x with
  | none => exact Safe.inv ⟨hsafe.rep, hsafe.zero, hsafe.raced, hsafe.dangling, hsafe.locked, hsafe.balance⟩ (Or.inr rfl)
  | some y =>
    have hy : y ∈ M := hsafe.rep.next_mem hx hnext
    have hcursor := hsafe.rep.setCursor (some y) (fun z hz => Option.some.inj hz ▸ hy) (t.cache.ncompressed + 1)
    exact Safe.inv ⟨hcursor, hsafe.zero, hsafe.raced, hsafe.dangling, hsafe.locked, hsafe.balance⟩ (Or.inl rfl)

theorem exit_inv (h : PassInv Q t) (hpc : t.pc = .exit) : PassInv Q { t.untakeLock with pc := .done } := by
  obtain ⟨M, H, B, base, hsafe, _⟩ := h.safe (by rw [hpc]; rfl)
  exact ⟨⟨M, H, B, base, hsafe.rep, hsafe.zero, by simp, by simp, by simp⟩, hsafe.raced, hsafe.dangling, rfl, hsafe.balance⟩

theorem pass_inv (hQ : PassClosed Q) (h : PassInv Q t) (hok : ActOk c t .pass) : PassInv Q (t.pass c) := by
  unfold Pass.pass
  cases hpc : t.pc with
  | start => exact begin_inv h hpc
  | loop => exact test_inv hQ h hpc
  | codec =>
    simp only [ActOk, hpc] at hok
    exact compress_inv h hpc hok
  | retake => exact finish_inv hQ h hpc hok
  | failed => exact fail_inv hQ h hpc
  | next => exact advance_inv h hpc
  | exit => exact exit_inv h hpc
  | done => exact h
  | crashed => exact h

/-! ## Calls of other threads -/

/-- what other threads do -/
def Called : Op → Prop
  | .get .. => True
  | .put _ => True
  | .fixup .. => True
  | _ => False

theorem step_off {op : Op} (hop : Called op) (hmax : s.maxBytes = 0) : step c s op = s := by
  cases op with
  | init abytes => exact absurd hop id
  | get key auxkey1 auxkey2 => rw [step, RamCacheCLFUS.get, if_pos hmax]
  | put p => rw [step, put_off hmax]
  | fixup key old1 old2 new1 new2 => rw [step, RamCacheCLFUS.fixup, if_pos hmax]
  | compress doAtMost => exact absurd hop id

theorem Called.notInit {op : Op} (hop : Called op) : NotInit op := by
  cases op with
  | init abytes => exact hop
  | get key auxkey1 auxkey2 => exact trivial
  | put p => exact trivial
  | fixup key old1 old2 new1 new2 => exact trivial
  | compress doAtMost => exact trivial

/-- the table is still there -/
theorem step_nbuckets {op : Op} (hop : Called op) (h : Rep Q s M H [] none B base) {M' H' : List ℕ} {B' : ℕ → List ℕ} {base' : ℤ}
    (hrep : Rep Q (step c s op) M' H' [] none B' base') (hpos : 0 < s.nbuckets) : 0 < (step c s op).nbuckets := by
  by_cases hmax : s.maxBytes = 0
  · rw [step_off hop hmax]
    exact hpos
  · have hmax' : (step c s op).maxBytes = s.maxBytes := step_max h hop.notInit
    exact hrep.nbuckets_pos (hmax'.symm ▸ hmax)

/-- another thread has the lock for a call that `Rep` survives -/
theorem call_inv {op : Op} (h : PassInv Q t) (hop : Called op)
    (hstep : ∀ M H B base, Rep Q t.cache M H [] none B base →
      ∃ M' H' B' base', Rep Q (step c t.cache op) M' H' [] none B' base' ∧ (Small Q → base' = base)) : PassInv Q (t.call c op) := by
  unfold Pass.call
  by_cases hlocked : t.locked = true
  · rw [if_pos hlocked]
    exact h
  · rw [if_neg hlocked]
    obtain ⟨M, H, B, base, hrep, hzero, hat⟩ := h.rep
    have hfree : ¬ (t.pc = .failed ∨ t.pc = .next) := by
      rintro (hpc | hpc)
      · exact hlocked (by rw [h.locked, hpc]; rfl)
      · exact hlocked (by rw [h.locked, hpc]; rfl)
    obtain ⟨M', H', B', base', hrep', hbase⟩ := hstep M H B base hrep
    refine ⟨⟨M', H', B', base', hrep', fun hs => (hbase hs).trans (hzero hs), hat.pc_ne, fun hplace => absurd hplace hfree,
      fun haway => ?_⟩, h.raced, h.dangling, h.locked, h.balance⟩
    obtain ⟨hpos, hdata⟩ := hat.away haway
    exact ⟨step_nbuckets hop hrep hrep' hpos, hdata⟩

/-! ## Runs -/

theorem act_inv {a : Act} (h : PassInv (fun x => True ∧ Counted x) t) (hok : ActOk c t a) :
    PassInv (fun x => True ∧ Counted x) (act c t a) := by
  have hstep : ∀ op, ∀ M H B base, Rep (fun x => True ∧ Counted x) t.cache M H [] none B base →
      ∃ M' H' B' base', Rep (fun x => True ∧ Counted x) (step c t.cache op) M' H' [] none B' base' ∧
        (Small (fun x => True ∧ Counted x) → base' = base) := fun op M H B base hrep =>
    step_rep (stepClosed_counted (P := fun _ => True) (fun _ _ _ _ => trivial) fun _ _ => trivial) hrep
  cases a with
  | pass => exact pass_inv passClosed_counted h hok
  | get key auxkey1 auxkey2 => exact call_inv h trivial (hstep _)
  | put p => exact call_inv h trivial (hstep _)
  | fixup key old1 old2 new1 new2 => exact call_inv h trivial (hstep _)

theorem newPass_inv (doAtMost : ℕ) (h : Rep Q s M H [] none B base) (hzero : Small Q → base = 0) :
    PassInv Q (newPass s doAtMost) :=
  ⟨⟨M, H, B, base, h, hzero, by simp [newPass], by simp [newPass], by simp [newPass]⟩, rfl, rfl, rfl, rfl⟩

theorem compress_entries_lock (c : Cfg V) (raw : ℕ → Entry) (ops : List Op) (doAtMost : ℕ) (acts : List Act)
    (hok : Along (act c) (ActOk c) (newPass (ops.foldl (step c) (newRamCacheCLFUS c raw)) doAtMost) acts) :
    (acts.foldl (act c) (newPass (ops.foldl (step c) (newRamCacheCLFUS c raw)) doAtMost)).raced = false ∧
    (acts.foldl (act c) (newPass (ops.foldl (step c) (newRamCacheCLFUS c raw)) doAtMost)).dangling = false ∧
    ((acts.foldl (act c) (newPass (ops.foldl (step c) (newRamCacheCLFUS c raw)) doAtMost)).pc = .done →
      (acts.foldl (act c) (newPass (ops.foldl (step c) (newRamCacheCLFUS c raw)) doAtMost)).taken =
      (acts.foldl (act c) (newPass (ops.foldl (step c) (newRamCacheCLFUS c raw)) doAtMost)).released) := by
  obtain ⟨M, H, B, base, hrep, hzero⟩ := run_rep (P := fun _ => True) (fun _ _ _ _ => trivial) c raw ops fun _ _ _ _ => trivial
  have hinv := hok.inv (fun t a => act_inv) (newPass_inv doAtMost hrep hzero)
  generalize acts.foldl (act c) _ = t at hinv
  refine ⟨hinv.raced, hinv.dangling, fun hpc => ?_⟩
  have hbalance := hinv.balance
  rw [hinv.locked, hpc] at hbalance
  exact hbalance

/-! ### Runs with one object of two bytes -/

/-- `compress` of zlib on the object -/
def zlibOf (xs : List (BitVec 8)) : Option (List (BitVec 8)) :=
  if xs = [1, 2] then some [0x78, 0x9c, 0x63, 0x64, 0x02, 0x00, 0x00, 0x06, 0x00, 0x04] else none

def zlibCfg : Cfg ℚ := exactCfg CACHE_COMPRESSION_LIBZ (fun _ => zlibOf) fun _ _ _ => none

/-- there is no room for what lzma makes of two bytes -/
def lzmaCfg : Cfg ℚ := { exactCfg CACHE_COMPRESSION_LIBLZMA (fun _ _ => none) fun _ _ _ => none with hasLzma := true }

/-- the object is too short for FASTLZ -/
def fastlzCfg : Cfg ℚ := exactCfg CACHE_COMPRESSION_FASTLZ (fun _ _ => none) fun _ _ _ => none

/-- a pass over a cache with the object -/
def onePass (c : Cfg ℚ) : Pass ℚ :=
  newPass ([Op.init 1000, .put (blockPut 128)].foldl (step c) (newRamCacheCLFUS c fun _ => rawEntry)) 1

/-- the object again, under another auxiliary key -/
def conflictPut : Put := { blockPut 128 with auxkey1 := 1 }

theorem actOk_pass (hcodec : t.pc ≠ .codec) (hretake : t.pc ≠ .retake) : ActOk c t .pass := by
  cases hpc : t.pc <;> simp_all [ActOk]

theorem actOk_codec (hne : c.compress ≠ CACHE_COMPRESSION_FASTLZ) (hretake : t.pc ≠ .retake) : ActOk c t .pass := by
  cases hpc : t.pc <;> simp_all [ActOk]

theorem actOk_found (hcodec : t.pc ≠ .codec) (hout : t.out ≠ none) (hfound : t.found ≠ none) (he : t.found = t.e) :
    ActOk c t .pass := by
  cases hpc : t.pc <;> simp_all [ActOk]

def quietActs : List Act := [.pass, .pass, .pass, .get ⟨fun _ => 0⟩ 0 0, .pass, .pass, .pass]

theorem quietActs_ok : Along (act zlibCfg) (ActOk zlibCfg) (onePass zlibCfg) quietActs := by
  refine ⟨actOk_pass ?_ ?_, actOk_pass ?_ ?_, actOk_codec ?_ ?_, trivial, actOk_found ?_ ?_ ?_ ?_, actOk_pass ?_ ?_,
    actOk_pass ?_ ?_, trivial⟩ <;> decide +kernel

theorem compress_entries_lock_quiet :
    (quietActs.foldl (act zlibCfg) (onePass zlibCfg)).pc = .done ∧
    (quietActs.foldl (act zlibCfg) (onePass zlibCfg)).raced = false ∧
    (quietActs.foldl (act zlibCfg) (onePass zlibCfg)).dangling = false ∧
    (quietActs.foldl (act zlibCfg) (onePass zlibCfg)).taken = (quietActs.foldl (act zlibCfg) (onePass zlibCfg)).released := by
  have hdone : (quietActs.foldl (act zlibCfg) (onePass zlibCfg)).pc = .done := by
    decide +kernel
  obtain ⟨h1, h2, h3⟩ := compress_entries_lock zlibCfg (fun _ => rawEntry) [Op.init 1000, .put (blockPut 128)] 1 quietActs quietActs_ok
  exact ⟨hdone, h1, h2, h3 hdone⟩

/-- FASTLZ and a short object: the lock is given up twice. lzma fails and the entry is gone: it is marked all the same. zlib is done,
the entry is gone, and there is nothing to go on with: the null pointer is followed. -/
theorem lock_lost :
    ((List.replicate 6 Act.pass).foldl (act fastlzCfg) (onePass fastlzCfg)).pc = .done ∧
    ((List.replicate 6 Act.pass).foldl (act fastlzCfg) (onePass fastlzCfg)).raced = true ∧
    ((List.replicate 6 Act.pass).foldl (act fastlzCfg) (onePass fastlzCfg)).taken = 1 ∧
    ((List.replicate 6 Act.pass).foldl (act fastlzCfg) (onePass fastlzCfg)).released = 2 ∧
    ([Act.pass, .pass, .pass, .put conflictPut, .pass, .pass].foldl (act lzmaCfg) (onePass lzmaCfg)).dangling = true ∧
    ([Act.pass, .pass, .pass, .put conflictPut, .pass, .pass].foldl (act zlibCfg) (onePass zlibCfg)).pc = .crashed := by
  decide +kernel

end TrafficServer.Cache.CLFUS
