/-
What `get` of the CLFUS memory cache returns.

An entry in memory has the object of the last `put` of its key and auxiliary keys, as it was given, copied or compressed. `get`
returns the caller's buffer or one with exactly the bytes of the object (`clfus_data_fidelity`), for every codec that is lossless.
It needs that an object that is put again while it is in memory has the length it had: `put` does not store the new one, and the
old one is what `get` copies and what the codec is given (`stale_length`).
-/
import TrafficServer.Cache.RamCacheCLFUSRuns

namespace TrafficServer.Cache.CLFUS

open TrafficServer.Run

variable {V : Type} {c : Cfg V} {s : RamCacheCLFUS V} {M H : List ℕ} {B : ℕ → List ℕ} {base : ℤ}

/-! ## The object of an entry -/

/-- what the codec makes of an object it can undo -/
def Cfg.Lossless (c : Cfg V) : Prop := ∀ ctype xs ys, c.encode ctype xs = some ys → c.decode ctype ys xs.length = some xs

/-- the bytes that are put -/
def Put.object (p : Put) : List (BitVec 8) := p.data.bytes.take p.len

/-- the caller's buffer, or one with exactly the object -/
def Put.Returned (p : Put) (d : Data) : Prop := d = p.data ∨ d.bytes = p.object

theorem Put.length_object (p : Put) : p.object.length = p.len := by
  rw [Put.object, List.length_take, Nat.min_eq_left p.len_le]

theorem Put.Returned.take {p : Put} {d : Data} (h : p.Returned d) : d.bytes.take p.len = p.object := by
  rcases h with rfl | h
  · rfl
  · rw [h, ← p.length_object, List.take_length]

theorem Put.Kept.returned {p : Put} {d : Data} (h : p.Kept d) : p.Returned d := by
  unfold Put.Kept at h
  by_cases hcopy : p.copy = true
  · rw [if_pos hcopy] at h
    exact Or.inr h.1
  · rw [if_neg hcopy] at h
    exact Or.inl h

/-- An entry in memory has the object of `p`. The length may be another one only if nothing reads it. -/
structure Holds (c : Cfg V) (p : Put) (x : Entry) : Prop where
  len : x.len = p.len ∨ (x.copy = false ∧ c.compress = 0)
  raw : x.compressed = 0 → ∃ d, x.data = some d ∧ p.Returned d
  packed : x.compressed ≠ 0 → x.compressed = c.compress ∧ c.available c.compress = true ∧
    ∃ d, x.data = some d ∧ c.encode c.compress p.object = some d.bytes ∧ x.compressedLen = d.bytes.length

theorem compress_ne_zero (h : c.available c.compress = true) : c.compress ≠ 0 := by
  intro h0
  rw [h0] at h
  simp [Cfg.available, CACHE_COMPRESSION_FASTLZ, CACHE_COMPRESSION_LIBZ, CACHE_COMPRESSION_LIBLZMA] at h

theorem Holds.len_eq {p : Put} {x : Entry} (h : Holds c p x) (hne : c.compress ≠ 0) : x.len = p.len :=
  h.len.resolve_right fun h0 => hne h0.2

theorem Holds.decompress_eq {p : Put} {x : Entry} (hc : c.Lossless) (h : Holds c p x) (hcomp : x.compressed ≠ 0) :
    c.decompress x = some p.object := by
  obtain ⟨htype, havail, d, hdata, henc, hlen⟩ := h.packed hcomp
  have hdec := hc _ _ _ henc
  have hx : x.len = p.object.length := by
    rw [h.len_eq (compress_ne_zero havail), p.length_object]
  unfold Cfg.decompress
  rw [htype, if_pos havail, hdata, Option.elim_some, hlen, List.take_length, hx, hdec]
  dsimp only
  rw [if_neg]
  exact fun hfail => hfail.2 rfl

theorem Holds.object_eq {p : Put} {x : Entry} (h : Holds c p x) (hcomp : x.compressed = 0) (havail : c.available c.compress = true) :
    x.object = p.object := by
  obtain ⟨d, hdata, hret⟩ := h.raw hcomp
  rw [Entry.object, hdata, Option.elim_some, h.len_eq (compress_ne_zero havail)]
  exact hret.take

/-- what a hit returns is the object -/
theorem Holds.returned {p : Put} {x : Entry} {d : Data} (hc : c.Lossless) (h : Holds c p x) (hget : GetData c x d) :
    p.Returned d := by
  rcases hget with ⟨hcomp, d', hdata, hd⟩ | ⟨hcomp, hd⟩
  · obtain ⟨d₀, hdata₀, hret⟩ := h.raw hcomp
    obtain rfl : d₀ = d' := Option.some.inj (hdata₀.symm.trans hdata)
    by_cases hcopy : x.copy = true
    · rw [if_pos hcopy, h.len.resolve_right fun h0 => absurd (hcopy.symm.trans h0.1) (by simp)] at hd
      exact Or.inr (hd.trans hret.take)
    · rw [if_neg hcopy] at hd
      exact hd ▸ hret
  · rw [h.decompress_eq hc hcomp] at hd
    exact Or.inr (Option.some.inj hd).symm

/-! ## The last `put` -/

/-- for each key and auxiliary keys, the last `put` -/
def record (g : CacheKey → ℕ → ℕ → Option Put) : Op → CacheKey → ℕ → ℕ → Option Put
  | .put p => fun key auxkey1 auxkey2 => if key = p.key ∧ auxkey1 = p.auxkey1 ∧ auxkey2 = p.auxkey2 then some p else g key auxkey1 auxkey2
  | _ => g

def lastPut (ops : List Op) : CacheKey → ℕ → ℕ → Option Put := ops.foldl record fun _ _ _ => none

/-- an entry has the object of the last `put` of its keys -/
def Stored (c : Cfg V) (g : CacheKey → ℕ → ℕ → Option Put) (x : Entry) : Prop :=
  ∃ p, g x.key x.auxkey1 x.auxkey2 = some p ∧ Holds c p x

theorem closed_stored (hc : c.Lossless) (g : CacheKey → ℕ → ℕ → Option Put) : Closed c (Stored c g) where
  hits x n := by
    rintro ⟨p, hp, h⟩
    exact ⟨p, hp, h.len, h.raw, h.packed⟩
  decompressed x out n := by
    rintro ⟨p, hp, h⟩ hcomp hout
    rw [h.decompress_eq hc hcomp] at hout
    exact ⟨p, hp, h.len, fun _ => ⟨_, rfl, Or.inr (Option.some.inj hout).symm⟩, fun hne => absurd rfl hne⟩
  started x := by
    rintro ⟨p, hp, h⟩ hcomp
    exact ⟨p, hp, h.len, h.raw, fun hne => absurd hcomp hne⟩
  failed x := by
    rintro ⟨p, hp, h⟩
    exact ⟨p, hp, h.len, h.raw, h.packed⟩
  shrunk x out n := by
    rintro ⟨p, hp, h⟩ hcomp havail hout _ _
    rw [h.object_eq hcomp havail] at hout
    exact ⟨p, hp, h.len, fun h0 => absurd h0 (compress_ne_zero havail), fun _ => ⟨rfl, havail, _, rfl, hout, rfl⟩⟩
  copied x n := by
    rintro ⟨p, hp, h⟩ hcomp havail _
    exact ⟨p, hp, h.len, fun _ => ⟨_, rfl, Or.inr (h.object_eq hcomp havail)⟩, fun hne => absurd rfl hne⟩

/-! ## Runs -/

theorem Rep.strengthen {Q Q' : Entry → Prop} (h : Rep Q s M H [] none B base) (hQ : ∀ x ∈ M, Q (s.entry x) → Q' (s.entry x)) :
    Rep Q' s M H [] none B base := by
  refine ⟨h.queues, h.table, h.out, h.lt_next, h.fresh, h.unique, h.objects_eq, h.history_eq, h.bytes_eq, fun x hx => ?_, h.history,
    h.cursor, h.nbuckets_pos⟩
  obtain ⟨h1, h2, h3⟩ := h.memory x hx
  exact ⟨h1, h2, hQ x (by simpa using hx) h3⟩

/-- a `put` that finds its entry in memory finds it with the same length, or nothing reads the length -/
def LenOk (c : Cfg V) (s : RamCacheCLFUS V) : Op → Prop
  | .put p => ∀ e, (p.walk s).2 = some e → ((p.walk s).1.entry e).lru = false →
      ((p.walk s).1.entry e).len = p.len ∨ (p.copy = false ∧ c.compress = 0)
  | _ => True

theorem PutEntry.stored {p : Put} {x : Entry} {g : CacheKey → ℕ → ℕ → Option Put} (hok : LenOk c s (.put p))
    (h : PutEntry p (p.walk s) x) : Stored c (record g (.put p)) x := by
  obtain ⟨d, y, hkept, ⟨h1, h2, h3⟩, hx⟩ := h
  refine ⟨p, ?_, ?_⟩
  · have hnames : x.key = p.key ∧ x.auxkey1 = p.auxkey1 ∧ x.auxkey2 = p.auxkey2 := by
      rcases hx with rfl | ⟨rfl, _⟩
      · exact ⟨h1, h2, h3⟩
      · exact ⟨h1, h2, h3⟩
    exact if_pos hnames
  · rcases hx with rfl | ⟨rfl, e, hfound, hlru, hlen⟩
    · exact ⟨Or.inl rfl, fun _ => ⟨d, rfl, hkept.returned⟩, fun hne => absurd rfl hne⟩
    · refine ⟨?_, fun _ => ⟨d, rfl, hkept.returned⟩, fun hne => absurd rfl hne⟩
      change y.len = p.len ∨ (p.copy = false ∧ c.compress = 0)
      rw [hlen]
      exact hok e hfound hlru

/-- neither `init` nor `fixup` -/
def DataOp : Op → Prop
  | .init _ => False
  | .fixup .. => False
  | _ => True

theorem step_stored {op : Op} {g : CacheKey → ℕ → ℕ → Option Put} (hc : c.Lossless) (hop : DataOp op) (hok : LenOk c s op)
    (hmax : s.maxBytes ≠ 0) (h : Rep (Stored c g) s M H [] none B base) :
    ∃ M' H' B' base', Rep (Stored c (record g op)) (step c s op) M' H' [] none B' base' ∧ (step c s op).maxBytes = s.maxBytes := by
  cases op with
  | init abytes => exact absurd hop id
  | fixup key old1 old2 new1 new2 => exact absurd hop id
  | get key auxkey1 auxkey2 =>
    obtain ⟨⟨M', H', B', base', hrep, _⟩, hm, _⟩ := h.get (closed_stored hc g) key auxkey1 auxkey2
    exact ⟨M', H', B', base', hrep, hm⟩
  | compress doAtMost =>
    obtain ⟨⟨base', hrep, _⟩, hm, _⟩ := h.compressEntries (closed_stored hc g).toClosedPass doAtMost
    exact ⟨M, H, B, base', hrep, hm⟩
  | put p =>
    -- the entry of the key is not known for now
    have hother : Rep (fun x => x.key = p.key ∨ Stored c (record g (.put p)) x) s M H [] none B base := by
      apply h.mono
      rintro x ⟨q, hq, hx⟩
      by_cases hkey : x.key = p.key
      · exact Or.inl hkey
      · exact Or.inr ⟨q, (if_neg fun hn => hkey hn.1).trans hq, hx⟩
    have hhits : IgnoresHits fun x => x.key = p.key ∨ Stored c (record g (.put p)) x := fun x n hx =>
      hx.imp id ((closed_stored hc _).hits x n)
    obtain ⟨_, _, _, M', H', B', base', _, _, hrep, _, _, hm, hentry, _⟩ := hother.put (c := c) (p := p) hhits hmax
      (fun _ _ _ hn => Or.inl hn.1) (fun _ _ _ hn _ => Or.inl hn.1)
    refine ⟨M', H', B', base', hrep.strengthen fun x hx hQ => ?_, hm⟩
    rcases hQ with hkey | hQ
    · exact (hentry x hx hkey).stored hok
    · exact hQ

theorem run_stored {ops : List Op} {g : CacheKey → ℕ → ℕ → Option Put} (hc : c.Lossless) (hops : ∀ op ∈ ops, DataOp op)
    (hok : Along (step c) (LenOk c) s ops) (hmax : s.maxBytes ≠ 0) (h : Rep (Stored c g) s M H [] none B base) :
    ∃ M' H' B' base', Rep (Stored c (ops.foldl record g)) (ops.foldl (step c) s) M' H' [] none B' base' := by
  induction ops generalizing s g M H B base with
  | nil => exact ⟨M, H, B, base, h⟩
  | cons op ops ih =>
    obtain ⟨M', H', B', base', hrep, hm⟩ := step_stored hc (hops op List.mem_cons_self) hok.1 hmax h
    exact ih (fun op' hop' => hops op' (List.mem_cons_of_mem op hop')) hok.2 (hm ▸ hmax) hrep

theorem DataOp.notInit {op : Op} (h : DataOp op) : NotInit op := by
  cases op with
  | init abytes => exact h
  | get key auxkey1 auxkey2 => exact trivial
  | put p => exact trivial
  | fixup key old1 old2 new1 new2 => exact trivial
  | compress doAtMost => exact trivial

/-- a cache without bytes stays without -/
theorem run_off (c : Cfg V) (raw : ℕ → Entry) {ops : List Op} (hops : ∀ op ∈ ops, DataOp op) :
    (ops.foldl (step c) (initialized c raw 0)).maxBytes = 0 := by
  have hstep : ∀ s op, ((∃ M H B base, Rep (fun x => True ∧ Counted x) s M H [] none B base) ∧ s.maxBytes = 0) → DataOp op →
      (∃ M H B base, Rep (fun x => True ∧ Counted x) (step c s op) M H [] none B base) ∧ (step c s op).maxBytes = 0 := by
    rintro s op ⟨⟨M, H, B, base, hrep⟩, hmax⟩ hop
    have hc : StepClosed c (fun x => True ∧ Counted x) op :=
      stepClosed_counted (P := fun _ => True) (fun _ _ _ _ => trivial) fun _ _ => trivial
    obtain ⟨M', H', B', base', hrep', _⟩ := step_rep hc hrep
    exact ⟨⟨M', H', B', base', hrep'⟩, (step_max hrep hop.notInit).trans hmax⟩
  obtain ⟨B, hrep⟩ := (rep_new (fun x => True ∧ Counted x) c raw).init (c := c) 0
  exact ((along_of_forall hops).inv hstep ⟨⟨_, _, B, _, hrep⟩, (initialized_fields c raw 0).1⟩).2

theorem clfus_data_fidelity (c : Cfg V) (hcodec : c.Lossless) (raw : ℕ → Entry) (maxBytes : ℕ) (ops : List Op)
    (hops : ∀ op ∈ ops, DataOp op) (hok : Along (step c) (LenOk c) (initialized c raw maxBytes) ops)
    (key : CacheKey) (auxkey1 auxkey2 n : ℕ) (d : Data)
    (hget : ((ops.foldl (step c) (initialized c raw maxBytes)).get c key auxkey1 auxkey2).2 = some (n, d)) :
    ∃ p, lastPut ops key auxkey1 auxkey2 = some p ∧ p.Returned d := by
  by_cases hmax : maxBytes = 0
  · -- the cache is off
    subst hmax
    rw [RamCacheCLFUS.get, if_pos (run_off c raw hops)] at hget
    exact absurd hget (by simp)
  · obtain ⟨B, hrep⟩ := (rep_new (Stored c fun _ _ _ => none) c raw).init (c := c) maxBytes
    have hmax' : (initialized c raw maxBytes).maxBytes ≠ 0 := by
      rw [(initialized_fields c raw maxBytes).1]
      exact_mod_cast hmax
    obtain ⟨M, H, B', base, hrun⟩ := run_stored hcodec hops hok hmax' hrep
    obtain ⟨e, he, hkeys, hdata⟩ := (hrun.get (closed_stored hcodec _) key auxkey1 auxkey2).2.2.2 n d hget
    obtain ⟨p, hp, hholds⟩ := (hrun.memory e (Or.inl he)).2.2
    obtain ⟨hk, h1, h2⟩ := of_decide_eq_true hkeys
    rw [hk, h1, h2] at hp
    exact ⟨p, hp, hholds.returned hcodec hdata⟩

theorem plainCfg_lossless : plainCfg.Lossless := fun _ _ _ h => absurd h (by simp [plainCfg, exactCfg])

theorem one_lt_word : 1 < 2 ^ 32 := by decide

/-- a whole buffer that is copied -/
def copyPut (bytes : List (BitVec 8)) (hlt : bytes.length < 2 ^ 32) : Put :=
  ⟨⟨fun _ => 0⟩, 0, 0, ⟨0, bytes.length, bytes⟩, bytes.length, true, le_refl bytes.length, hlt⟩

/-- an object of two bytes, and then another one -/
def sameOps : List Op := [.put (copyPut [1, 2] two_lt_word), .compress 1, .put (copyPut [3, 4] two_lt_word)]

theorem sameOps_ok : Along (step plainCfg) (LenOk plainCfg) (initialized plainCfg (fun _ => rawEntry) 1000) sameOps := by
  have hfirst : ((copyPut [1, 2] two_lt_word).walk (initialized plainCfg (fun _ => rawEntry) 1000)).2 = none := by
    decide
  refine ⟨fun e he => absurd (hfirst.symm.trans he) (by simp), trivial, fun e he _ => ?_, trivial⟩
  obtain rfl : 0 = e := Option.some.inj ((by decide : some 0 = _).trans he)
  exact Or.inl (by decide)

theorem clfus_data_fidelity_same :
    ((sameOps.foldl (step plainCfg) (initialized plainCfg (fun _ => rawEntry) 1000)).get plainCfg ⟨fun _ => 0⟩ 0 0).2 =
      some (1, ⟨2, 2, [3, 4]⟩) ∧ ∃ p, lastPut sameOps ⟨fun _ => 0⟩ 0 0 = some p ∧ p.Returned ⟨2, 2, [3, 4]⟩ := by
  have hget : ((sameOps.foldl (step plainCfg) (initialized plainCfg (fun _ => rawEntry) 1000)).get plainCfg ⟨fun _ => 0⟩ 0 0).2 =
      some (1, ⟨2, 2, [3, 4]⟩) := by
    decide +kernel
  refine ⟨hget, clfus_data_fidelity plainCfg plainCfg_lossless (fun _ => rawEntry) 1000 sameOps ?_ sameOps_ok ⟨fun _ => 0⟩ 0 0 1 _ hget⟩
  intro op hop
  simp only [sameOps, List.mem_cons, List.not_mem_nil, or_false] at hop
  rcases hop with rfl | rfl | rfl <;> exact trivial

/-- an object of one byte, and then one of two bytes under the same keys -/
def longerOps : List Op := [.put (copyPut [1] one_lt_word), .put (copyPut [3, 4] two_lt_word)]

/-- the second object is cut to the length of the first -/
theorem stale_length :
    plainCfg.Lossless ∧ (∀ op ∈ longerOps, DataOp op) ∧
    ¬ ∀ n d, ((longerOps.foldl (step plainCfg) (initialized plainCfg (fun _ => rawEntry) 1000)).get plainCfg ⟨fun _ => 0⟩ 0 0).2 =
      some (n, d) → ∃ p, lastPut longerOps ⟨fun _ => 0⟩ 0 0 = some p ∧ p.Returned d := by
  have hget : ((longerOps.foldl (step plainCfg) (initialized plainCfg (fun _ => rawEntry) 1000)).get plainCfg ⟨fun _ => 0⟩ 0 0).2 =
      some (1, ⟨2, 1, [3]⟩) := by
    decide +kernel
  have hlast : lastPut longerOps ⟨fun _ => 0⟩ 0 0 = some (copyPut [3, 4] two_lt_word) := rfl
  refine ⟨plainCfg_lossless, ?_, fun h => ?_⟩
  · intro op hop
    simp only [longerOps, List.mem_cons, List.not_mem_nil, or_false] at hop
    rcases hop with rfl | rfl <;> exact trivial
  · obtain ⟨p, hp, hret⟩ := h _ _ hget
    obtain rfl : copyPut [3, 4] two_lt_word = p := Option.some.inj (hlast.symm.trans hp)
    rcases hret with hret | hret
    · exact absurd (congrArg Data.bytes hret) (by decide)
    · exact absurd hret (by decide)

end TrafficServer.Cache.CLFUS
