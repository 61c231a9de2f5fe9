/-
The open directory (`OpenDir` in `iocore/cache/CacheDir.cc`): which objects are being written, and by whom.

A cache VC that writes an object registers with `open_write` under its `first_key`. All writers of one key share one
`OpenDirEntry`, linked in bucket `first_key.slice32(0) % OPEN_DIR_BUCKETS`; the entry does not store the key, it is read
from the first writer. `close_write` takes the VC off its entry, and the last writer to leave unlinks and frees the entry
and passes the readers that wait on it to `signal_readers`. `open_read` finds the entry of a key.

Entries and VCs are heap objects here, named by numbers, and buckets are lists of entry names, so that an entry shared by
several VCs is one object. The counters are the source's `uint16_t`: additions and subtractions wrap. A VC registers only
while it is registered nowhere (`od == nullptr`) and only a registered VC closes; its `first_key` does not change while
it is registered.

Results: `run_table_ok` (the invariant of the table in every reachable state, with `open_read` answering exactly the keys
that some VC has open) and `openWrite_failed`.
-/
import Mathlib
import TrafficServer.Cache.Dir

namespace TrafficServer.Cache.OpenDir

def OPEN_DIR_BUCKETS : ℕ := 256

/-! ## State -/

structure OpenDirEntry where
  writers : List ℕ
  readers : List ℕ
  numWriters : ℕ
  maxWriters : ℕ
  dontUpdateDirectory : Bool
  moveResidentAlt : Bool
  readingVec : Bool
  writingVec : Bool
  firstDir : Dir

/-- the fields of a `CacheVC` that the table uses -/
structure VC where
  firstKey : CacheKey
  od : Option ℕ

structure St where
  bucket : ℕ → List ℕ
  entry : ℕ → OpenDirEntry
  vc : ℕ → VC
  delayedReaders : List ℕ
  /-- the allocator: names from here on are unused -/
  fresh : ℕ

def bucketOf (key : CacheKey) : ℕ := key.slice32 0 % OPEN_DIR_BUCKETS

/-- `d->writers.head->first_key == key` -/
def writtenUnder (s : St) (key : CacheKey) (d : ℕ) : Bool :=
  match (s.entry d).writers.head? with
  | some w => decide ((s.vc w).firstKey = key)
  | none => false

/-! ## Operations -/

/-- what `open_write` sets in a newly allocated entry -/
def newEntry (c : ℕ) (maxWriters : ℤ) : OpenDirEntry where
  writers := [c]
  readers := []
  numWriters := 1
  maxWriters := (maxWriters % 2 ^ 16).toNat
  dontUpdateDirectory := false
  moveResidentAlt := false
  readingVec := false
  writingVec := false
  firstDir := Dir.zero

/-- a further writer of an entry -/
def OpenDirEntry.join (e : OpenDirEntry) (c : ℕ) : OpenDirEntry :=
  { e with writers := c :: e.writers, numWriters := (e.numWriters + 1) % 2 ^ 16 }

/-- a writer leaves -/
def OpenDirEntry.leave (e : OpenDirEntry) (c : ℕ) : OpenDirEntry :=
  { e with writers := e.writers.erase c, numWriters := (e.numWriters + (2 ^ 16 - 1)) % 2 ^ 16 }

def setOd (s : St) (c : ℕ) (od : Option ℕ) : St := { s with vc := Function.update s.vc c { s.vc c with od := od } }

def openWrite (s : St) (c : ℕ) (allowIfWriters : Bool) (maxWriters : ℤ) : St × Bool :=
  let key := (s.vc c).firstKey
  let b := bucketOf key
  match (s.bucket b).find? (writtenUnder s key) with
  | some d =>
    if allowIfWriters ∧ (s.entry d).numWriters < (s.entry d).maxWriters then
      (setOd { s with entry := Function.update s.entry d ((s.entry d).join c) } c (some d), true)
    else (s, false)
  | none =>
    let od := s.fresh
    let s := { s with entry := Function.update s.entry od (newEntry c maxWriters), fresh := od + 1 }
    let s := setOd s c (some od)
    ({ s with bucket := Function.update s.bucket b (od :: s.bucket b) }, true)

/-- `signal_readers`: a delayed reader whose lock is free runs, the others stay delayed -/
def signalReaders (locked : ℕ → Bool) (s : St) : St :=
  { s with delayedReaders := (s.delayedReaders.filter fun c => !locked c).reverse }

def closeWrite (s : St) (c : ℕ) (locked : ℕ → Bool) : St :=
  match (s.vc c).od with
  | none => s
  | some d =>
    let s := { s with entry := Function.update s.entry d ((s.entry d).leave c) }
    let s :=
      if (s.entry d).writers.head? = none then
        let b := bucketOf (s.vc c).firstKey
        let s := { s with bucket := Function.update s.bucket b ((s.bucket b).erase d) }
        signalReaders locked { s with delayedReaders := s.delayedReaders ++ (s.entry d).readers }
      else s
    setOd s c none

def openRead (s : St) (key : CacheKey) : Option ℕ := (s.bucket (bucketOf key)).find? (writtenUnder s key)

/-- `OpenDirEntry::wait` -/
def wait (s : St) (d c : ℕ) : St :=
  { s with entry := Function.update s.entry d { s.entry d with readers := c :: (s.entry d).readers } }

inductive Op where
  | openWrite (c : ℕ) (key : CacheKey) (allowIfWriters : Bool) (maxWriters : ℤ)
  | closeWrite (c : ℕ) (locked : ℕ → Bool)
  | openRead (key : CacheKey)
  | wait (d c : ℕ)
  | signalReaders (locked : ℕ → Bool)

/-- one call into the table; `open_write` by a VC that is registered nowhere, with the key it then writes under -/
def step (s : St) : Op → St
  | .openWrite c key allow max =>
    if (s.vc c).od = none then
      (openWrite { s with vc := Function.update s.vc c { s.vc c with firstKey := key } } c allow max).1
    else s
  | .closeWrite c locked => closeWrite s c locked
  | .openRead _ => s
  | .wait d c => wait s d c
  | .signalReaders locked => signalReaders locked s

def run (s : St) (ops : List Op) : St := ops.foldl step s

/-- an empty table, with VCs that are registered nowhere -/
def init (entry : ℕ → OpenDirEntry) (key : ℕ → CacheKey) : St where
  bucket := fun _ => []
  entry := entry
  vc := fun c => ⟨key c, none⟩
  delayedReaders := []
  fresh := 0

/-! ## Invariant -/

/-- the entry `d` is linked in bucket `b`: its writers point back to it and agree on a key of that bucket -/
structure EntryOk (s : St) (b d : ℕ) : Prop where
  old : d < s.fresh
  nonempty : (s.entry d).writers ≠ []
  nodup : (s.entry d).writers.Nodup
  back : ∀ c ∈ (s.entry d).writers, (s.vc c).od = some d
  key : ∃ key, bucketOf key = b ∧ ∀ c ∈ (s.entry d).writers, (s.vc c).firstKey = key
  count : (s.entry d).numWriters = (s.entry d).writers.length
  limit : (s.entry d).numWriters ≤ max 1 (s.entry d).maxWriters
  fits : (s.entry d).maxWriters < 2 ^ 16

structure Inv (s : St) : Prop where
  nodup : ∀ b, (s.bucket b).Nodup
  entry : ∀ b, ∀ d ∈ s.bucket b, EntryOk s b d
  registered : ∀ c d, (s.vc c).od = some d → d ∈ s.bucket (bucketOf (s.vc c).firstKey) ∧ c ∈ (s.entry d).writers
  one : ∀ b, ∀ d ∈ s.bucket b, ∀ d' ∈ s.bucket b, ∀ c ∈ (s.entry d).writers, ∀ c' ∈ (s.entry d').writers,
    (s.vc c).firstKey = (s.vc c').firstKey → d = d'

section Lemmas

variable {s : St} {b c d : ℕ} {key : CacheKey}

/-- an entry is found under the key of any of its writers -/
theorem writtenUnder_iff (h : EntryOk s b d) :
    writtenUnder s key d = true ↔ ∃ c ∈ (s.entry d).writers, (s.vc c).firstKey = key := by
  obtain ⟨k, -, hk⟩ := h.key
  unfold writtenUnder
  cases hw : (s.entry d).writers with
  | nil => exact absurd hw h.nonempty
  | cons w ws =>
    rw [hw] at hk
    simp only [List.head?_cons, decide_eq_true_eq]
    constructor
    · intro heq
      exact ⟨w, List.mem_cons_self, heq⟩
    · rintro ⟨c, hc, heq⟩
      rw [hk w List.mem_cons_self, ← hk c hc]
      exact heq

/-- what `open_read` (and the search of `open_write`) finds -/
theorem find_some (h : Inv s) (hf : openRead s key = some d) :
    d ∈ s.bucket (bucketOf key) ∧ ∃ c ∈ (s.entry d).writers, (s.vc c).firstKey = key := by
  have hmem := List.mem_of_find?_eq_some hf
  exact ⟨hmem, (writtenUnder_iff (h.entry _ d hmem)).1 (List.find?_some hf)⟩

theorem find_none (h : Inv s) (hf : openRead s key = none) (hd : d ∈ s.bucket (bucketOf key)) :
    ∀ c ∈ (s.entry d).writers, (s.vc c).firstKey ≠ key := by
  intro c hc heq
  have := List.find?_eq_none.1 hf d hd
  exact this ((writtenUnder_iff (h.entry _ d hd)).2 ⟨c, hc, heq⟩)

/-- the bucket of an entry is determined by its writers -/
theorem bucket_of_mem (h : Inv s) (hd : d ∈ s.bucket b) (hc : c ∈ (s.entry d).writers) :
    bucketOf (s.vc c).firstKey = b := by
  obtain ⟨k, hk, hall⟩ := (h.entry b d hd).key
  rw [hall c hc]
  exact hk

/-- an entry is linked in one bucket only -/
theorem bucket_unique (h : Inv s) {b' : ℕ} (hd : d ∈ s.bucket b) (hd' : d ∈ s.bucket b') : b = b' := by
  obtain ⟨w, hw⟩ := List.exists_mem_of_ne_nil _ (h.entry b d hd).nonempty
  rw [← bucket_of_mem h hd hw, ← bucket_of_mem h hd' hw]

/-- a VC that is registered nowhere writes no linked entry -/
theorem not_writer_of_od (h : Inv s) (hc : (s.vc c).od = none) (hd : d ∈ s.bucket b) : c ∉ (s.entry d).writers := by
  intro hm
  rw [(h.entry b d hd).back c hm] at hc
  cases hc

theorem setOd_firstKey (s : St) (c w : ℕ) (od : Option ℕ) : ((setOd s c od).vc w).firstKey = (s.vc w).firstKey := by
  unfold setOd
  rcases eq_or_ne w c with rfl | hw
  · simp
  · simp [Function.update_of_ne hw]

theorem setOd_od (s : St) (c w : ℕ) (od : Option ℕ) : ((setOd s c od).vc w).od = if w = c then od else (s.vc w).od := by
  unfold setOd
  rcases eq_or_ne w c with rfl | hw
  · simp
  · simp [hw]

/-- an entry that a step does not touch -/
theorem EntryOk.congr {s' : St} (h : EntryOk s b d) (he : s'.entry d = s.entry d)
    (hk : ∀ c ∈ (s.entry d).writers, (s'.vc c).firstKey = (s.vc c).firstKey)
    (ho : ∀ c ∈ (s.entry d).writers, (s'.vc c).od = (s.vc c).od) (hf : s.fresh ≤ s'.fresh) : EntryOk s' b d := by
  obtain ⟨key, hb, hkey⟩ := h.key
  refine ⟨lt_of_lt_of_le h.old hf, ?_, ?_, ?_, ⟨key, hb, ?_⟩, ?_, ?_, ?_⟩
  · rw [he]; exact h.nonempty
  · rw [he]; exact h.nodup
  · intro c hc
    rw [he] at hc
    rw [ho c hc]
    exact h.back c hc
  · intro c hc
    rw [he] at hc
    rw [hk c hc]
    exact hkey c hc
  · rw [he]; exact h.count
  · rw [he]; exact h.limit
  · rw [he]; exact h.fits

/-- a VC that is registered nowhere may take another key -/
theorem Inv.setKey (h : Inv s) (hc : (s.vc c).od = none) (key : CacheKey) :
    Inv { s with vc := Function.update s.vc c { s.vc c with firstKey := key } } := by
  have hvc : ∀ b, ∀ d ∈ s.bucket b, ∀ w ∈ (s.entry d).writers,
      Function.update s.vc c { s.vc c with firstKey := key } w = s.vc w := by
    intro b d hd w hw
    apply Function.update_of_ne
    rintro rfl
    exact not_writer_of_od h hc hd hw
  refine ⟨h.nodup, fun b d hd => ?_, fun w d hw => ?_, fun b d hd d' hd' w hw w' hw' heq => ?_⟩
  · exact (h.entry b d hd).congr rfl (fun w hw => by simp only [hvc b d hd w hw]) (fun w hw => by simp only [hvc b d hd w hw])
      le_rfl
  · rcases eq_or_ne w c with rfl | hne
    · simp [hc] at hw
    · simp only [Function.update_of_ne hne] at hw ⊢
      exact h.registered w d hw
  · simp only [hvc b d hd w hw, hvc b d' hd' w' hw'] at heq
    exact h.one b d hd d' hd' w hw w' hw' heq

/-! ## Registering -/

/-- a further writer joins the entry of its key -/
theorem Inv.join (h : Inv s) (hc : (s.vc c).od = none) (hf : openRead s (s.vc c).firstKey = some d)
    (hlt : (s.entry d).numWriters < (s.entry d).maxWriters) :
    Inv (setOd { s with entry := Function.update s.entry d ((s.entry d).join c) } c (some d)) := by
  generalize hs' : setOd { s with entry := Function.update s.entry d ((s.entry d).join c) } c (some d) = s'
  obtain ⟨hd, w₀, hw₀, hkey₀⟩ := find_some h hf
  have hbucket : s'.bucket = s.bucket := by rw [← hs']; rfl
  have hfresh : s'.fresh = s.fresh := by rw [← hs']; rfl
  have hk : ∀ w, (s'.vc w).firstKey = (s.vc w).firstKey := fun w => by rw [← hs', setOd_firstKey]
  have ho : ∀ w, (s'.vc w).od = if w = c then some d else (s.vc w).od := fun w => by rw [← hs', setOd_od]
  have hed : s'.entry d = (s.entry d).join c := by rw [← hs']; exact Function.update_self _ _ _
  have hother : ∀ d', d' ≠ d → s'.entry d' = s.entry d' := fun d' hne => by
    rw [← hs']; exact Function.update_of_ne hne _ _
  have hwd : (s'.entry d).writers = c :: (s.entry d).writers := by rw [hed]; rfl
  have hcd : c ∉ (s.entry d).writers := not_writer_of_od h hc hd
  have hold := h.entry _ d hd
  obtain ⟨key, hkb, hkall⟩ := hold.key
  have hkc : (s.vc c).firstKey = key := by rw [← hkey₀, hkall w₀ hw₀]
  -- every writer of a linked entry has the key of a writer that was there before
  have hrepr : ∀ b, ∀ d' ∈ s.bucket b, ∀ w ∈ (s'.entry d').writers,
      ∃ w' ∈ (s.entry d').writers, (s.vc w').firstKey = (s'.vc w).firstKey := by
    intro b d' hd' w hw
    rcases eq_or_ne d' d with rfl | hne
    · rw [hwd] at hw
      rcases List.mem_cons.1 hw with rfl | hw
      · exact ⟨w₀, hw₀, by rw [hk]; exact hkey₀⟩
      · exact ⟨w, hw, (hk w).symm⟩
    · rw [hother d' hne] at hw
      exact ⟨w, hw, (hk w).symm⟩
  refine ⟨by rw [hbucket]; exact h.nodup, fun b d' hd' => ?_, fun w d' hw => ?_, fun b d₁ hd₁ d₂ hd₂ w₁ hw₁ w₂ hw₂ heq => ?_⟩
  · rw [hbucket] at hd'
    rcases eq_or_ne d' d with rfl | hne
    · obtain rfl := bucket_unique h hd hd'
      have hnum : (s'.entry d').numWriters = (s.entry d').numWriters + 1 := by
        rw [hed]
        have := hold.fits
        exact Nat.mod_eq_of_lt (by omega)
      have hmax : (s'.entry d').maxWriters = (s.entry d').maxWriters := by rw [hed]; rfl
      refine ⟨by rw [hfresh]; exact hold.old, by rw [hwd]; simp, by rw [hwd]; exact List.nodup_cons.2 ⟨hcd, hold.nodup⟩,
        fun w hw => ?_, ⟨key, hkb, fun w hw => ?_⟩, ?_, ?_, by rw [hmax]; exact hold.fits⟩
      · rw [ho w]
        split_ifs with hwc
        · rfl
        · rw [hwd] at hw
          exact hold.back w ((List.mem_cons.1 hw).resolve_left hwc)
      · rw [hk w]
        rw [hwd] at hw
        rcases List.mem_cons.1 hw with rfl | hw
        · exact hkc
        · exact hkall w hw
      · rw [hnum, hwd, hold.count, List.length_cons]
      · rw [hnum, hmax]
        exact le_trans hlt (le_max_right _ _)
    · refine (h.entry b d' hd').congr (hother d' hne) (fun w _ => hk w) (fun w hw => ?_) (le_of_eq hfresh.symm)
      rw [ho w, if_neg]
      rintro rfl
      exact not_writer_of_od h hc hd' hw
  · rw [ho w] at hw
    rw [hk w, hbucket]
    split_ifs at hw with hwc
    · obtain rfl := Option.some.inj hw
      subst hwc
      exact ⟨hd, by rw [hwd]; exact List.mem_cons_self⟩
    · obtain ⟨h1, h2⟩ := h.registered w d' hw
      refine ⟨h1, ?_⟩
      rcases eq_or_ne d' d with rfl | hne
      · rw [hwd]; exact List.mem_cons_of_mem _ h2
      · rw [hother d' hne]; exact h2
  · rw [hbucket] at hd₁ hd₂
    obtain ⟨w₁', hw₁', hk₁⟩ := hrepr b d₁ hd₁ w₁ hw₁
    obtain ⟨w₂', hw₂', hk₂⟩ := hrepr b d₂ hd₂ w₂ hw₂
    exact h.one b d₁ hd₁ d₂ hd₂ w₁' hw₁' w₂' hw₂' (by rw [hk₁, hk₂]; exact heq)

/-- the first writer of a key -/
theorem Inv.alloc (h : Inv s) (hc : (s.vc c).od = none) (hf : openRead s (s.vc c).firstKey = none) (m : ℤ) :
    Inv (let b := bucketOf (s.vc c).firstKey
      let s₁ := setOd { s with entry := Function.update s.entry s.fresh (newEntry c m), fresh := s.fresh + 1 } c (some s.fresh)
      { s₁ with bucket := Function.update s₁.bucket b (s.fresh :: s₁.bucket b) }) := by
  dsimp only
  generalize hs₁ : setOd { s with entry := Function.update s.entry s.fresh (newEntry c m), fresh := s.fresh + 1 } c
    (some s.fresh) = s₁
  have hbucket : s₁.bucket = s.bucket := by rw [← hs₁]; rfl
  have hfresh : s₁.fresh = s.fresh + 1 := by rw [← hs₁]; rfl
  have hk : ∀ w, (s₁.vc w).firstKey = (s.vc w).firstKey := fun w => by rw [← hs₁, setOd_firstKey]
  have ho : ∀ w, (s₁.vc w).od = if w = c then some s.fresh else (s.vc w).od := fun w => by rw [← hs₁, setOd_od]
  have hnew : s₁.entry s.fresh = newEntry c m := by rw [← hs₁]; exact Function.update_self _ _ _
  have hother : ∀ d, d ≠ s.fresh → s₁.entry d = s.entry d := fun d hne => by
    rw [← hs₁]; exact Function.update_of_ne hne _ _
  have hnot : ∀ b, s.fresh ∉ s.bucket b := fun b hm => lt_irrefl _ (h.entry b _ hm).old
  have hkeep : ∀ b, ∀ d ∈ s.bucket b, s₁.entry d = s.entry d := fun b d hd =>
    hother d fun hh => hnot b (hh ▸ hd)
  rw [hbucket]
  -- the entries of a bucket after the push
  have hmem : ∀ b d, d ∈ Function.update s.bucket (bucketOf (s.vc c).firstKey)
      (s.fresh :: s.bucket (bucketOf (s.vc c).firstKey)) b → (d = s.fresh ∧ b = bucketOf (s.vc c).firstKey) ∨ d ∈ s.bucket b := by
    intro b d hd
    rcases eq_or_ne b (bucketOf (s.vc c).firstKey) with rfl | hb
    · rw [Function.update_self] at hd
      rcases List.mem_cons.1 hd with rfl | hd
      · exact Or.inl ⟨rfl, rfl⟩
      · exact Or.inr hd
    · rw [Function.update_of_ne hb] at hd
      exact Or.inr hd
  have hmem' : ∀ b, ∀ d ∈ s.bucket b, d ∈ Function.update s.bucket (bucketOf (s.vc c).firstKey)
      (s.fresh :: s.bucket (bucketOf (s.vc c).firstKey)) b := by
    intro b d hd
    rcases eq_or_ne b (bucketOf (s.vc c).firstKey) with rfl | hb
    · rw [Function.update_self]; exact List.mem_cons_of_mem _ hd
    · rw [Function.update_of_ne hb]; exact hd
  -- no linked entry has a writer with the key of `c`
  have hkeyne : ∀ b, ∀ d ∈ s.bucket b, ∀ w ∈ (s.entry d).writers, (s.vc w).firstKey ≠ (s.vc c).firstKey := by
    intro b d hd w hw heq
    have hb := bucket_of_mem h hd hw
    rw [heq] at hb
    exact find_none h hf (hb ▸ hd) w hw heq
  refine ⟨fun b => ?_, fun b d hd => ?_, fun w d hw => ?_, fun b d₁ hd₁ d₂ hd₂ w₁ hw₁ w₂ hw₂ heq => ?_⟩
  · show (Function.update s.bucket _ _ b).Nodup
    rcases eq_or_ne b (bucketOf (s.vc c).firstKey) with rfl | hb
    · rw [Function.update_self]
      exact List.nodup_cons.2 ⟨hnot _, h.nodup _⟩
    · rw [Function.update_of_ne hb]
      exact h.nodup b
  · rcases hmem b d hd with ⟨rfl, rfl⟩ | hold
    · refine ⟨by show s.fresh < s₁.fresh; omega, ?_, ?_, ?_, ⟨(s.vc c).firstKey, rfl, ?_⟩, ?_, ?_, ?_⟩ <;>
        simp only [hnew]
      · simp [newEntry]
      · simp [newEntry]
      · intro w hw
        rw [ho w, if_pos (by simpa [newEntry] using hw)]
      · intro w hw
        obtain rfl : w = c := by simpa [newEntry] using hw
        exact hk w
      · rfl
      · exact le_max_left _ _
      · show (m % 2 ^ 16).toNat < 2 ^ 16
        omega
    · refine (h.entry b d hold).congr (hkeep b d hold) (fun w _ => hk w) (fun w hw => ?_)
        (by show s.fresh ≤ s₁.fresh; omega)
      show (s₁.vc w).od = (s.vc w).od
      rw [ho w, if_neg]
      rintro rfl
      exact not_writer_of_od h hc hold hw
  · change (s₁.vc w).od = some d at hw
    show d ∈ Function.update s.bucket _ _ (bucketOf (s₁.vc w).firstKey) ∧ w ∈ (s₁.entry d).writers
    rw [hk w]
    rw [ho w] at hw
    split_ifs at hw with hwc
    · obtain rfl := Option.some.inj hw
      subst hwc
      exact ⟨by rw [Function.update_self]; exact List.mem_cons_self, by rw [hnew]; simp [newEntry]⟩
    · obtain ⟨h1, h2⟩ := h.registered w d hw
      exact ⟨hmem' _ d h1, by rw [hkeep _ d h1]; exact h2⟩
  · change w₁ ∈ (s₁.entry d₁).writers at hw₁
    change w₂ ∈ (s₁.entry d₂).writers at hw₂
    change (s₁.vc w₁).firstKey = (s₁.vc w₂).firstKey at heq
    rw [hk w₁, hk w₂] at heq
    rcases hmem b d₁ hd₁ with ⟨rfl, rfl⟩ | hold₁ <;> rcases hmem _ d₂ hd₂ with ⟨rfl, -⟩ | hold₂
    · rfl
    · rw [hkeep _ d₂ hold₂] at hw₂
      obtain rfl : w₁ = c := by rw [hnew] at hw₁; simpa [newEntry] using hw₁
      exact absurd heq.symm (hkeyne _ d₂ hold₂ w₂ hw₂)
    · rw [hkeep _ d₁ hold₁] at hw₁
      obtain rfl : w₂ = c := by rw [hnew] at hw₂; simpa [newEntry] using hw₂
      exact absurd heq (hkeyne _ d₁ hold₁ w₁ hw₁)
    · rw [hkeep _ d₁ hold₁] at hw₁
      rw [hkeep _ d₂ hold₂] at hw₂
      exact h.one b d₁ hold₁ d₂ hold₂ w₁ hw₁ w₂ hw₂ heq

theorem Inv.openWrite (h : Inv s) (hc : (s.vc c).od = none) (allow : Bool) (m : ℤ) :
    Inv (openWrite s c allow m).1 := by
  unfold OpenDir.openWrite
  dsimp only
  rcases hf : (s.bucket (bucketOf (s.vc c).firstKey)).find? (writtenUnder s (s.vc c).firstKey) with _ | d
  · exact h.alloc hc hf m
  · dsimp only
    split_ifs with hlt
    · exact h.join hc hf hlt.2
    · exact h

/-! ## Leaving -/

/-- a writer leaves its entry, and the entry is unlinked if it was the last -/
theorem Inv.leave {s' : St} (h : Inv s) (hod : (s.vc c).od = some d)
    (hk : ∀ w, (s'.vc w).firstKey = (s.vc w).firstKey)
    (ho : ∀ w, (s'.vc w).od = if w = c then none else (s.vc w).od)
    (he : s'.entry = Function.update s.entry d ((s.entry d).leave c)) (hfresh : s'.fresh = s.fresh)
    (hb : ∀ b, s'.bucket b = if (s.entry d).writers.erase c = [] then (s.bucket b).erase d else s.bucket b) :
    Inv s' := by
  obtain ⟨hd, hcd⟩ := h.registered c d hod
  have hold := h.entry _ d hd
  have hwd : (s'.entry d).writers = (s.entry d).writers.erase c := by rw [he, Function.update_self]; rfl
  have hother : ∀ d', d' ≠ d → s'.entry d' = s.entry d' := fun d' hne => by rw [he, Function.update_of_ne hne]
  have hsub : ∀ b, ∀ d' ∈ s'.bucket b, d' ∈ s.bucket b ∧ (d' = d → (s.entry d).writers.erase c ≠ []) := by
    intro b d' hd'
    rw [hb b] at hd'
    split_ifs at hd' with hempty
    · refine ⟨List.mem_of_mem_erase hd', fun hdd => ?_⟩
      exact absurd hdd ((h.nodup b).mem_erase_iff.1 hd').1
    · exact ⟨hd', fun _ => hempty⟩
  have hwsub : ∀ d', ∀ w ∈ (s'.entry d').writers, w ∈ (s.entry d').writers := by
    intro d' w hw
    rcases eq_or_ne d' d with rfl | hne
    · rw [hwd] at hw; exact List.mem_of_mem_erase hw
    · rw [hother d' hne] at hw; exact hw
  refine ⟨fun b => ?_, fun b d' hd' => ?_, fun w d' hw => ?_, fun b d₁ hd₁ d₂ hd₂ w₁ hw₁ w₂ hw₂ heq => ?_⟩
  · rw [hb b]
    split_ifs
    · exact (h.nodup b).erase d
    · exact h.nodup b
  · obtain ⟨hmem, hne⟩ := hsub b d' hd'
    rcases eq_or_ne d' d with rfl | hdd
    · obtain rfl := bucket_unique h hd hmem
      obtain ⟨key, hkb, hkall⟩ := hold.key
      have hpos : 0 < (s.entry d').writers.length := List.length_pos_of_mem hcd
      have hlen : ((s.entry d').writers.erase c).length = (s.entry d').writers.length - 1 := List.length_erase_of_mem hcd
      have hcount := hold.count
      have hlimit := hold.limit
      have hfits := hold.fits
      have hnum : (s'.entry d').numWriters = (s.entry d').numWriters - 1 := by
        rw [he, Function.update_self]
        show ((s.entry d').numWriters + (2 ^ 16 - 1)) % 2 ^ 16 = _
        omega
      have hmax : (s'.entry d').maxWriters = (s.entry d').maxWriters := by rw [he, Function.update_self]; rfl
      refine ⟨by rw [hfresh]; exact hold.old, by rw [hwd]; exact hne rfl, by rw [hwd]; exact hold.nodup.erase c,
        fun w hw => ?_, ⟨key, hkb, fun w hw => ?_⟩, by rw [hnum, hwd]; omega, by rw [hnum, hmax]; omega,
        by rw [hmax]; exact hfits⟩
      · rw [hwd] at hw
        rw [ho w, if_neg (hold.nodup.mem_erase_iff.1 hw).1]
        exact hold.back w (List.mem_of_mem_erase hw)
      · rw [hk w]
        exact hkall w (hwsub d' w hw)
    · refine (h.entry b d' hmem).congr (hother d' hdd) (fun w _ => hk w) (fun w hw => ?_) (le_of_eq hfresh.symm)
      rw [ho w, if_neg]
      rintro rfl
      rw [(h.entry b d' hmem).back w hw] at hod
      exact hdd (Option.some.inj hod)
  · rw [ho w] at hw
    split_ifs at hw with hwc
    rw [hk w]
    obtain ⟨h1, h2⟩ := h.registered w d' hw
    have hkept : w ∈ (s'.entry d').writers := by
      rcases eq_or_ne d' d with rfl | hne
      · rw [hwd]; exact hold.nodup.mem_erase_iff.2 ⟨hwc, h2⟩
      · rw [hother d' hne]; exact h2
    refine ⟨?_, hkept⟩
    rw [hb]
    split_ifs with hempty
    · refine (h.nodup _).mem_erase_iff.2 ⟨?_, h1⟩
      rintro rfl
      rw [hwd, hempty] at hkept
      cases hkept
    · exact h1
  · rw [hk w₁, hk w₂] at heq
    exact h.one b d₁ (hsub b d₁ hd₁).1 d₂ (hsub b d₂ hd₂).1 w₁ (hwsub d₁ w₁ hw₁) w₂ (hwsub d₂ w₂ hw₂) heq

theorem Inv.closeWrite (h : Inv s) (c : ℕ) (locked : ℕ → Bool) : Inv (closeWrite s c locked) := by
  unfold OpenDir.closeWrite
  rcases hod : (s.vc c).od with _ | d
  · exact h
  · dsimp only
    have hw : (Function.update s.entry d ((s.entry d).leave c) d).writers = (s.entry d).writers.erase c := by
      rw [Function.update_self]; rfl
    obtain ⟨hd, -⟩ := h.registered c d hod
    split_ifs with hempty
    · have hnil : (s.entry d).writers.erase c = [] := by rw [← hw]; exact List.head?_eq_none_iff.1 hempty
      refine h.leave hod (fun w => setOd_firstKey _ c w _) (fun w => setOd_od _ c w _) rfl rfl fun b => ?_
      rw [if_pos hnil]
      show Function.update s.bucket _ _ b = _
      rcases eq_or_ne b (bucketOf (s.vc c).firstKey) with rfl | hb
      · rw [Function.update_self]
      · rw [Function.update_of_ne hb, List.erase_of_not_mem]
        intro hmem
        exact hb (bucket_unique h hmem hd)
    · have hnil : (s.entry d).writers.erase c ≠ [] := by
        rw [← hw]
        exact fun hh => hempty (List.head?_eq_none_iff.2 hh)
      refine h.leave hod (fun w => setOd_firstKey _ c w _) (fun w => setOd_od _ c w _) rfl rfl fun b => ?_
      rw [if_neg hnil]
      rfl

/-! ## Runs -/

theorem inv_init (entry : ℕ → OpenDirEntry) (key : ℕ → CacheKey) : Inv (init entry key) :=
  ⟨fun _ => List.nodup_nil, fun _ _ hd => absurd hd List.not_mem_nil, (fun _ _ hw => by cases hw),
    fun _ _ hd => absurd hd List.not_mem_nil⟩

/-- waiting readers are not looked at by the table -/
theorem Inv.wait (h : Inv s) (d c : ℕ) : Inv (OpenDir.wait s d c) := by
  have hfields : ∀ d', ((OpenDir.wait s d c).entry d').writers = (s.entry d').writers ∧
      ((OpenDir.wait s d c).entry d').numWriters = (s.entry d').numWriters ∧
      ((OpenDir.wait s d c).entry d').maxWriters = (s.entry d').maxWriters := by
    intro d'
    show (Function.update s.entry d _ d').writers = _ ∧ (Function.update s.entry d _ d').numWriters = _ ∧
      (Function.update s.entry d _ d').maxWriters = _
    rcases eq_or_ne d' d with rfl | hne
    · rw [Function.update_self]; exact ⟨rfl, rfl, rfl⟩
    · rw [Function.update_of_ne hne]; exact ⟨rfl, rfl, rfl⟩
  refine ⟨h.nodup, fun b d' hd' => ?_, fun w d' hw => ?_, fun b d₁ hd₁ d₂ hd₂ w₁ hw₁ w₂ hw₂ heq => ?_⟩
  · obtain ⟨h1, h2, h3⟩ := hfields d'
    have := h.entry b d' hd'
    exact ⟨this.old, h1 ▸ this.nonempty, h1 ▸ this.nodup, by rw [h1]; exact this.back, by rw [h1]; exact this.key,
      by rw [h1, h2]; exact this.count, by rw [h2, h3]; exact this.limit, by rw [h3]; exact this.fits⟩
  · rw [(hfields d').1]; exact h.registered w d' hw
  · rw [(hfields d₁).1] at hw₁
    rw [(hfields d₂).1] at hw₂
    exact h.one b d₁ hd₁ d₂ hd₂ w₁ hw₁ w₂ hw₂ heq

theorem step_inv (h : Inv s) (op : Op) : Inv (step s op) := by
  cases op with
  | openWrite c key allow m =>
    unfold step
    dsimp only
    split_ifs with hc
    · refine (h.setKey hc key).openWrite ?_ allow m
      show (Function.update s.vc c _ c).od = none
      rw [Function.update_self]
      exact hc
    · exact h
  | closeWrite c locked => exact h.closeWrite c locked
  | openRead key => exact h
  | wait d c => exact h.wait d c
  | signalReaders locked => exact ⟨h.nodup, fun b d hd => (h.entry b d hd).congr rfl (fun _ _ => rfl) (fun _ _ => rfl) le_rfl,
      h.registered, h.one⟩

theorem run_inv (ops : List Op) (h : Inv s) : Inv (run s ops) := by
  induction ops generalizing s with
  | nil => exact h
  | cons op ops ih => exact ih (step_inv h op)

end Lemmas

/-! ## Main results -/

/-- the entry `d` is the entry of `key`: it is linked, and its writers write under `key` -/
def EntryOf (s : St) (key : CacheKey) (d : ℕ) : Prop :=
  ∃ b, d ∈ s.bucket b ∧ ∃ c ∈ (s.entry d).writers, (s.vc c).firstKey = key

/-- a VC has `key` open for writing -/
def HasOpen (s : St) (key : CacheKey) : Prop := ∃ c, (s.vc c).od ≠ none ∧ (s.vc c).firstKey = key

/-- the open directory as a table of writers -/
structure TableOk (s : St) : Prop where
  /-- one entry per key, linked once -/
  unique : ∀ key d d', EntryOf s key d → EntryOf s key d' → d = d'
  once : ∀ b, (s.bucket b).Nodup
  /-- an entry is in the bucket of its key -/
  bucket : ∀ key d b, EntryOf s key d → (d ∈ s.bucket b ↔ b = bucketOf key)
  /-- all writers of an entry write under one key -/
  shared : ∀ b, ∀ d ∈ s.bucket b, ∃! key, EntryOf s key d
  /-- the writer count -/
  count : ∀ b, ∀ d ∈ s.bucket b, (s.entry d).numWriters = (s.entry d).writers.length ∧ 1 ≤ (s.entry d).numWriters ∧
    (s.entry d).numWriters ≤ max 1 (s.entry d).maxWriters
  /-- `open_read` returns the entry of the key -/
  found : ∀ key d, openRead s key = some d ↔ EntryOf s key d
  /-- and it returns one exactly when somebody writes under the key -/
  answers : ∀ key, (openRead s key).isSome ↔ HasOpen s key

theorem Inv.tableOk {s : St} (h : Inv s) : TableOk s := by
  have hbucket : ∀ key d b, EntryOf s key d → d ∈ s.bucket b → b = bucketOf key := by
    rintro key d b ⟨b', hd', c, hc, rfl⟩ hd
    exact (bucket_of_mem h hd hc).symm
  have hunique : ∀ key d d', EntryOf s key d → EntryOf s key d' → d = d' := by
    rintro key d d' hk hk'
    obtain ⟨b, hd, c, hc, hkey⟩ := hk
    obtain ⟨b', hd', c', hc', hkey'⟩ := hk'
    have hb : b = b' := by rw [← bucket_of_mem h hd hc, ← bucket_of_mem h hd' hc', hkey, hkey']
    subst hb
    exact h.one b d hd d' hd' c hc c' hc' (hkey.trans hkey'.symm)
  have hfound : ∀ key d, openRead s key = some d ↔ EntryOf s key d := by
    intro key d
    constructor
    · intro hf
      exact ⟨_, find_some h hf⟩
    · intro hk
      obtain ⟨b, hd, c, hc, hkey⟩ := hk
      have hb := hbucket key d b ⟨b, hd, c, hc, hkey⟩ hd
      subst hb
      rcases hf : openRead s key with _ | d'
      · exact absurd hkey (find_none h hf hd c hc)
      · rw [hunique key d d' ⟨_, hd, c, hc, hkey⟩ ⟨_, find_some h hf⟩]
  refine ⟨hunique, h.nodup, fun key d b hk => ⟨hbucket key d b hk, fun hb => ?_⟩, fun b d hd => ?_, fun b d hd => ?_, hfound,
    fun key => ?_⟩
  · obtain ⟨b', hd', hc⟩ := hk
    rw [hb, ← hbucket key d b' ⟨b', hd', hc⟩ hd']
    exact hd'
  · obtain ⟨w, hw⟩ := List.exists_mem_of_ne_nil _ (h.entry b d hd).nonempty
    refine ⟨(s.vc w).firstKey, ⟨b, hd, w, hw, rfl⟩, ?_⟩
    rintro key ⟨b', hd', c, hc, rfl⟩
    obtain ⟨k, -, hall⟩ := (h.entry b d hd).key
    rw [hall c hc, hall w hw]
  · have hok := h.entry b d hd
    refine ⟨hok.count, ?_, hok.limit⟩
    rw [hok.count]
    exact List.length_pos_of_ne_nil hok.nonempty
  · rw [Option.isSome_iff_exists]
    constructor
    · rintro ⟨d, hf⟩
      obtain ⟨b, hd, c, hc, hkey⟩ := (hfound key d).1 hf
      exact ⟨c, by rw [(h.entry b d hd).back c hc]; simp, hkey⟩
    · rintro ⟨c, hod, rfl⟩
      obtain ⟨d, hd⟩ := Option.ne_none_iff_exists'.1 hod
      obtain ⟨hmem, hc⟩ := h.registered c d hd
      exact ⟨d, (hfound _ d).2 ⟨_, hmem, c, hc, rfl⟩⟩

/-- a failed `open_write` changes nothing -/
theorem openWrite_failed (s : St) (c : ℕ) (allow : Bool) (m : ℤ) (hf : (openWrite s c allow m).2 = false) :
    (openWrite s c allow m).1 = s := by
  unfold openWrite at hf ⊢
  dsimp only at hf ⊢
  rcases hfind : (s.bucket (bucketOf (s.vc c).firstKey)).find? (writtenUnder s (s.vc c).firstKey) with _ | d
  · rw [hfind] at hf; cases hf
  · rw [hfind] at hf
    dsimp only at hf ⊢
    split_ifs at hf ⊢ with hlt
    rfl

/-- The open directory in every reachable state: one entry per key, in the bucket of its key, with a true writer count,
found by `open_read` exactly while somebody writes; and an `open_write` that fails there leaves every entry as it is. -/
theorem run_table_ok (entry : ℕ → OpenDirEntry) (key : ℕ → CacheKey) (ops : List Op) :
    TableOk (run (init entry key) ops) ∧ ∀ c allow m, (openWrite (run (init entry key) ops) c allow m).2 = false →
      (openWrite (run (init entry key) ops) c allow m).1 = run (init entry key) ops :=
  ⟨(run_inv ops (inv_init entry key)).tableOk, fun c allow m => openWrite_failed _ c allow m⟩

end TrafficServer.Cache.OpenDir
