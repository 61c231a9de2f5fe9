/-
The links of a directory segment: which slots are on which list, and what the primitives of `Segment` do to the lists.

`Links g s free ch loc` reads a segment's memory as lists. `free` is the freelist, doubly linked through `next` and
`prev`; `ch b` is the chain behind the root of bucket `b`, linked through `next`; `loc` gives every slot that is not a
root the ONE place it is in. A slot may also be `held`: an operation has taken it off one list and not yet put it on
another. There is one lemma per primitive, and each moves one slot: `unlink` (freelist to hand), `link` (hand to chain),
`cut` (chain to hand), `push` (hand to freelist). The operations are compositions of them.
-/
import Mathlib
import TrafficServer.Lib.LinkSeg
import TrafficServer.Cache.Segment

namespace TrafficServer.Cache

open TrafficServer.LinkSeg

/-! ## Reading back a segment update -/

@[simp] theorem dirFromOffset_zero : dirFromOffset 0 = none := rfl

theorem dirFromOffset_pos {i : ℕ} (h : i ≠ 0) : dirFromOffset i = some i := if_neg h

theorem dirFromOffset_eq_none {i : ℕ} : dirFromOffset i = none ↔ i = 0 := by
  unfold dirFromOffset
  split_ifs with h <;> simp [h]

namespace Seg

variable (s : Seg) (i j : ℕ) (e : Dir) (f : Dir → Dir)

theorem set_dir : (s.set i e).dir j = if j = i then e else s.dir j := by
  simp [set, Function.update_apply]

theorem modify_dir : (s.modify i f).dir j = if j = i then f (s.dir i) else s.dir j := set_dir s i j _

@[simp] theorem set_freelist : (s.set i e).freelist = s.freelist := rfl
@[simp] theorem modify_freelist : (s.modify i f).freelist = s.freelist := rfl
@[simp] theorem set_stamp : (s.set i e).stamp = s.stamp := rfl
@[simp] theorem modify_stamp : (s.modify i f).stamp = s.stamp := rfl
@[simp] theorem set_clock : (s.set i e).clock = s.clock := rfl
@[simp] theorem modify_clock : (s.modify i f).clock = s.clock := rfl
@[simp] theorem mark_dir : (s.mark i).dir = s.dir := rfl
@[simp] theorem mark_freelist : (s.mark i).freelist = s.freelist := rfl
@[simp] theorem mark_clock : (s.mark i).clock = s.clock + 1 := rfl
@[simp] theorem carry_dir : (s.carry i j).dir = s.dir := rfl
@[simp] theorem carry_freelist : (s.carry i j).freelist = s.freelist := rfl
@[simp] theorem carry_clock : (s.carry i j).clock = s.clock := rfl

theorem mark_stamp : (s.mark i).stamp j = if j = i then s.clock else s.stamp j := by
  simp [mark, Function.update_apply]

theorem carry_stamp {k : ℕ} : (s.carry i k).stamp j = if j = i then s.stamp k else s.stamp j := by
  simp [carry, Function.update_apply]

/-- what slot `i` holds, its chain link apart: the entry's words and its stamp -/
def ent (s : Seg) (i : ℕ) : Dir × ℕ := ((s.dir i).setNext 0, s.stamp i)

theorem ent_offset : (s.ent i).1.offset = (s.dir i).offset := rfl

/-- changing only the link of a slot does not change what it holds -/
theorem ent_setNext (k : ℕ) : (s.modify i (·.setNext k)).ent j = s.ent j := by
  unfold ent
  rw [modify_dir]
  split_ifs with h
  · subst h; rfl
  · rfl

theorem nextDir_congr {s s' : Seg} {i : ℕ} (h : (s'.dir i).next = (s.dir i).next) : s'.nextDir i = s.nextDir i := by
  unfold nextDir; rw [h]

theorem prevDir_congr {s s' : Seg} {i : ℕ} (h : (s'.dir i).prev = (s.dir i).prev) : s'.prevDir i = s.prevDir i := by
  unfold prevDir; rw [h]

end Seg

/-! ## The places of a segment -/

namespace SegGeom

variable (g : SegGeom)

/-- a slot that is not a root -/
def IsRow (e : ℕ) : Prop := e < g.slots ∧ e % DIR_DEPTH ≠ 0

instance (e : ℕ) : Decidable (g.IsRow e) := inferInstanceAs (Decidable (_ ∧ _))

theorem IsRow.pos {g : SegGeom} {e : ℕ} (h : g.IsRow e) : e ≠ 0 := by
  rintro rfl; exact h.2 rfl

theorem IsRow.lt {g : SegGeom} {e : ℕ} (h : g.IsRow e) : e < 2 ^ 16 := lt_of_lt_of_le h.1 g.fits

theorem IsRow.ne_root {g : SegGeom} {e : ℕ} (h : g.IsRow e) (b : ℕ) : e ≠ dirBucket b := by
  rintro rfl; exact h.2 (Nat.mul_mod_left b DIR_DEPTH)

end SegGeom

theorem dirBucket_inj {b c : ℕ} : dirBucket b = dirBucket c ↔ b = c := by
  unfold dirBucket DIR_DEPTH; omega

/-- `unlink_from_freelist`, slot by slot -/
theorem unlinkFromFreelist_dir {e : ℕ} {s : Seg} (hp : s.prevDir e ≠ some e) (x : ℕ) :
    (unlinkFromFreelist e s).dir x =
      (fun y : Dir => if s.nextDir e = some x then y.setPrev (s.dir e).prev else y)
        (if s.prevDir e = some x then (s.dir x).setNext (s.dir e).next else s.dir x) := by
  unfold unlinkFromFreelist
  cases hpe : s.prevDir e with
  | none =>
    cases hne : s.nextDir e with
    | none =>
      have hn : Seg.nextDir { s with freelist := (s.dir e).next } e = none := hne
      simp [hn]
    | some n =>
      have hn : Seg.nextDir { s with freelist := (s.dir e).next } e = some n := hne
      simp only [hn, Seg.modify_dir, reduceCtorEq, if_false, Option.some.injEq]
      by_cases hx : x = n
      · subst hx; simp
      · simp [hx, Ne.symm hx]
  | some p =>
    have hpne : e ≠ p := by rintro rfl; exact hp hpe
    have hde : (s.modify p (·.setNext (s.dir e).next)).dir e = s.dir e := by rw [Seg.modify_dir, if_neg hpne]
    have hnx : (s.modify p (·.setNext (s.dir e).next)).nextDir e = s.nextDir e := Seg.nextDir_congr (by rw [hde])
    simp only [hnx, Option.some.injEq]
    cases hne : s.nextDir e with
    | none =>
      simp only [Seg.modify_dir, reduceCtorEq, if_false]
      by_cases hx : x = p
      · subst hx; simp
      · simp [hx, Ne.symm hx]
    | some n =>
      simp only [hde, Option.some.injEq]
      rw [Seg.modify_dir, Seg.modify_dir, Seg.modify_dir]
      by_cases hx : x = n
      · subst hx
        by_cases hxp : x = p
        · subst hxp; simp
        · simp [hxp, Ne.symm hxp]
      · by_cases hxp : x = p
        · subst hxp; simp [hx, Ne.symm hx]
        · simp [hx, Ne.symm hx, hxp, Ne.symm hxp]

theorem unlinkFromFreelist_freelist (e : ℕ) (s : Seg) :
    (unlinkFromFreelist e s).freelist = if s.prevDir e = none then (s.dir e).next else s.freelist := by
  unfold unlinkFromFreelist
  cases s.prevDir e with
  | none => dsimp only; split <;> simp
  | some p => dsimp only; split <;> simp

@[simp] theorem unlinkFromFreelist_stamp (e : ℕ) (s : Seg) : (unlinkFromFreelist e s).stamp = s.stamp := by
  unfold unlinkFromFreelist
  cases s.prevDir e <;> dsimp only <;> split <;> rfl

@[simp] theorem unlinkFromFreelist_clock (e : ℕ) (s : Seg) : (unlinkFromFreelist e s).clock = s.clock := by
  unfold unlinkFromFreelist
  cases s.prevDir e <;> dsimp only <;> split <;> rfl

@[simp] theorem dirFreeEntry_stamp (e : ℕ) (s : Seg) : (dirFreeEntry e s).stamp = s.stamp := by
  unfold dirFreeEntry
  dsimp only
  split_ifs <;> rfl

@[simp] theorem dirFreeEntry_clock (e : ℕ) (s : Seg) : (dirFreeEntry e s).clock = s.clock := by
  unfold dirFreeEntry
  dsimp only
  split_ifs <;> rfl

/-- a write through `setNext` of a link that was read from an entry -/
theorem dirFromOffset_setNext (y z : Dir) : dirFromOffset (y.setNext z.next).next = dirFromOffset z.next := by
  rw [Dir.setNext_next y z.next_lt]

theorem dirFromOffset_setPrev (y z : Dir) : dirFromOffset (y.setPrev z.prev).prev = dirFromOffset z.prev := by
  rw [Dir.setPrev_prev y z.prev_lt]

theorem unlinkFromFreelist_nextDir {e : ℕ} {s : Seg} (hp : s.prevDir e ≠ some e) (x : ℕ) :
    (unlinkFromFreelist e s).nextDir x = if s.prevDir e = some x then s.nextDir e else s.nextDir x := by
  unfold Seg.nextDir
  rw [unlinkFromFreelist_dir hp x]
  by_cases h1 : s.prevDir e = some x
  · simp only [h1, if_true]
    split_ifs
    · exact dirFromOffset_setNext (s.dir x) (s.dir e)
    · exact dirFromOffset_setNext (s.dir x) (s.dir e)
  · simp only [h1, if_false]
    split_ifs <;> rfl

theorem unlinkFromFreelist_prevDir {e : ℕ} {s : Seg} (hp : s.prevDir e ≠ some e) (x : ℕ) :
    (unlinkFromFreelist e s).prevDir x = if s.nextDir e = some x then s.prevDir e else s.prevDir x := by
  unfold Seg.prevDir
  rw [unlinkFromFreelist_dir hp x]
  by_cases h1 : s.nextDir e = some x
  · simp only [h1, if_true]
    exact dirFromOffset_setPrev _ _
  · simp only [h1, if_false]
    split_ifs <;> rfl

/-! ## Places -/

/-- where a slot that is not a root is: on the freelist, on the chain of a bucket, or in the hands of an operation that
is moving it from one to the other -/
inductive Place where
  | free
  | chain (b : ℕ)
  | held
deriving DecidableEq

/-- the freelist `free` and the chains `ch` have exactly the slots that `loc` puts there -/
structure Placed (g : SegGeom) (free : List ℕ) (ch : ℕ → List ℕ) (loc : ℕ → Place) : Prop where
  memFree : ∀ e, e ∈ free ↔ g.IsRow e ∧ loc e = .free
  memCh : ∀ b < g.buckets, ∀ e, e ∈ ch b ↔ g.IsRow e ∧ loc e = .chain b
  inside : ∀ e b, g.IsRow e → loc e = .chain b → b < g.buckets

namespace Placed

variable {g : SegGeom} {free : List ℕ} {ch : ℕ → List ℕ} {loc : ℕ → Place} {b e : ℕ}

theorem row_of_free (h : Placed g free ch loc) (he : e ∈ free) : g.IsRow e := ((h.memFree e).1 he).1

theorem row_of_ch (h : Placed g free ch loc) (hb : b < g.buckets) (he : e ∈ ch b) : g.IsRow e :=
  ((h.memCh b hb e).1 he).1

theorem not_free_of_ch (h : Placed g free ch loc) (hb : b < g.buckets) (he : e ∈ ch b) : e ∉ free := by
  intro hf
  have h1 := ((h.memCh b hb e).1 he).2
  have h2 := ((h.memFree e).1 hf).2
  rw [h1] at h2
  cases h2

theorem root_not_free (h : Placed g free ch loc) (b : ℕ) : dirBucket b ∉ free :=
  fun hf => (h.row_of_free hf).ne_root b rfl

theorem root_not_ch (h : Placed g free ch loc) {c : ℕ} (hc : c < g.buckets) (b : ℕ) : dirBucket b ∉ ch c :=
  fun hf => (h.row_of_ch hc hf).ne_root b rfl

/-- a bucket's slots, its root included, are not on the freelist -/
theorem bucket_not_free (h : Placed g free ch loc) (hb : b < g.buckets) (he : e ∈ dirBucket b :: ch b) : e ∉ free := by
  rcases List.mem_cons.1 he with rfl | he
  · exact h.root_not_free b
  · exact h.not_free_of_ch hb he

/-- two buckets share no slot -/
theorem bucket_apart (h : Placed g free ch loc) {c : ℕ} (hb : b < g.buckets) (hc : c < g.buckets) (hbc : b ≠ c)
    (he : e ∈ dirBucket b :: ch b) : e ∉ dirBucket c :: ch c := by
  intro hf
  rcases List.mem_cons.1 he with rfl | he <;> rcases List.mem_cons.1 hf with hf | hf
  · exact hbc (dirBucket_inj.1 hf)
  · exact h.root_not_ch hc b hf
  · exact h.root_not_ch hb c (hf ▸ he)
  · have h1 := ((h.memCh b hb e).1 he).2
    rw [((h.memCh c hc e).1 hf).2] at h1
    exact hbc (Place.chain.inj h1).symm

theorem leaveFree {l₁ l₂ : List ℕ} (h : Placed g (l₁ ++ e :: l₂) ch loc) (he : e ∉ l₁ ++ l₂) :
    Placed g (l₁ ++ l₂) ch (Function.update loc e .held) := by
  have hef : e ∈ l₁ ++ e :: l₂ := by simp
  refine ⟨fun x => ?_, fun c hc x => ?_, fun x c hx hxc => ?_⟩
  · by_cases hx : x = e
    · subst hx; simp [he]
    · rw [Function.update_of_ne hx, ← h.memFree x]; simp [hx]
  · by_cases hx : x = e
    · subst hx
      simp only [Function.update_self, reduceCtorEq, and_false, iff_false]
      exact fun hxc => h.not_free_of_ch hc hxc hef
    · rw [Function.update_of_ne hx]; exact h.memCh c hc x
  · by_cases hx' : x = e
    · subst hx'; simp at hxc
    · rw [Function.update_of_ne hx'] at hxc; exact h.inside x c hx hxc

theorem enterFree (h : Placed g free ch loc) (hr : g.IsRow e) (he : loc e = .held) :
    Placed g (e :: free) ch (Function.update loc e .free) := by
  refine ⟨fun x => ?_, fun c hc x => ?_, fun x c hx hxc => ?_⟩
  · by_cases hx : x = e
    · subst hx; simp [hr]
    · rw [Function.update_of_ne hx, ← h.memFree x]; simp [hx]
  · by_cases hx : x = e
    · subst hx
      rw [h.memCh c hc, he, Function.update_self]
      simp
    · rw [Function.update_of_ne hx]; exact h.memCh c hc x
  · by_cases hx' : x = e
    · subst hx'; simp at hxc
    · rw [Function.update_of_ne hx'] at hxc; exact h.inside x c hx hxc

theorem enterCh (h : Placed g free ch loc) (hb : b < g.buckets) (hr : g.IsRow e) (he : loc e = .held) :
    Placed g free (Function.update ch b (e :: ch b)) (Function.update loc e (.chain b)) := by
  refine ⟨fun x => ?_, fun c hc x => ?_, fun x c hx hxc => ?_⟩
  · by_cases hx : x = e
    · subst hx
      rw [h.memFree, he, Function.update_self]
      simp
    · rw [Function.update_of_ne hx]; exact h.memFree x
  · by_cases hcb : c = b
    · subst hcb
      rw [Function.update_self, List.mem_cons, h.memCh c hc x]
      by_cases hx : x = e
      · subst hx; simp [hr]
      · simp [hx]
    · rw [Function.update_of_ne hcb, h.memCh c hc x]
      by_cases hx : x = e
      · subst hx; simp [he, Ne.symm hcb]
      · simp [hx]
  · by_cases hx' : x = e
    · subst hx'
      rw [Function.update_self] at hxc
      cases hxc
      exact hb
    · rw [Function.update_of_ne hx'] at hxc; exact h.inside x c hx hxc

theorem leaveCh (h : Placed g free ch loc) (hb : b < g.buckets) {l₁ l₂ : List ℕ} (hl : ch b = l₁ ++ e :: l₂)
    (he : e ∉ l₁ ++ l₂) : Placed g free (Function.update ch b (l₁ ++ l₂)) (Function.update loc e .held) := by
  have hec : e ∈ ch b := by rw [hl]; simp
  refine ⟨fun x => ?_, fun c hc x => ?_, fun x c hx hxc => ?_⟩
  · by_cases hx : x = e
    · subst hx
      simp only [Function.update_self, reduceCtorEq, and_false, iff_false]
      exact h.not_free_of_ch hb hec
    · rw [Function.update_of_ne hx]; exact h.memFree x
  · by_cases hx : x = e
    · subst hx
      simp only [Function.update_self, reduceCtorEq, and_false, iff_false]
      by_cases hcb : c = b
      · subst hcb; rwa [Function.update_self]
      · rw [Function.update_of_ne hcb]
        intro hxc
        exact h.bucket_apart hb hc (Ne.symm hcb) (List.mem_cons_of_mem _ hec) (List.mem_cons_of_mem _ hxc)
    · rw [Function.update_of_ne hx, ← h.memCh c hc x]
      by_cases hcb : c = b
      · subst hcb; rw [Function.update_self, hl]; simp [hx]
      · rw [Function.update_of_ne hcb]
  · by_cases hx' : x = e
    · subst hx'; simp at hxc
    · rw [Function.update_of_ne hx'] at hxc; exact h.inside x c hx hxc

end Placed

/-! ## Links -/

/-- the memory of a segment, read as a freelist and one chain per bucket -/
structure Links (g : SegGeom) (s : Seg) (free : List ℕ) (ch : ℕ → List ℕ) (loc : ℕ → Place) : Prop
    extends Placed g free ch loc where
  freelist : ∃ q, DSeg s.nextDir s.prevDir none (dirFromOffset s.freelist) free q none
  chain : ∀ b < g.buckets, LSeg s.nextDir (s.nextDir (dirBucket b)) (ch b) none
  free0 : ∀ e ∈ free, (s.dir e).offset = 0
  freeFits : s.freelist < 2 ^ 16

namespace Links

variable {g : SegGeom} {s s' : Seg} {free : List ℕ} {ch : ℕ → List ℕ} {loc : ℕ → Place} {b e : ℕ}

theorem nodup_ch (h : Links g s free ch loc) (hb : b < g.buckets) : (ch b).Nodup := (h.chain b hb).nodup

theorem nodup_bucket (h : Links g s free ch loc) (hb : b < g.buckets) : (dirBucket b :: ch b).Nodup :=
  List.nodup_cons.2 ⟨h.root_not_ch hb b, h.nodup_ch hb⟩

theorem nodup_free (h : Links g s free ch loc) : free.Nodup := by
  obtain ⟨q, hq⟩ := h.freelist
  exact hq.lseg.nodup

/-- following `next` from the root visits the bucket -/
theorem bucket_lseg (h : Links g s free ch loc) (hb : b < g.buckets) :
    LSeg s.nextDir (some (dirBucket b)) (dirBucket b :: ch b) none := ⟨rfl, h.chain b hb⟩

/-- the link of a bucket's slot is the slot after it -/
theorem next_at (h : Links g s free ch loc) (hb : b < g.buckets) {pre post : List ℕ}
    (hpos : dirBucket b :: ch b = pre ++ e :: post) : s.nextDir e = post.head? := by
  have := h.bucket_lseg hb
  rw [hpos] at this
  exact this.suffix.head

/-- an operation that keeps the link of every slot that is in a place, and the back link and offset of the freelist
slots, keeps the links of the segment -/
theorem congr (h : Links g s free ch loc) (hf : s'.freelist = s.freelist)
    (hn : ∀ i, (g.IsRow i → loc i ≠ .held) → (s'.dir i).next = (s.dir i).next)
    (hfree : ∀ e ∈ free, (s'.dir e).prev = (s.dir e).prev ∧ (s'.dir e).offset = (s.dir e).offset) :
    Links g s' free ch loc := by
  have hroot : ∀ b, s'.nextDir (dirBucket b) = s.nextDir (dirBucket b) := fun b =>
    Seg.nextDir_congr (hn _ fun hr => absurd rfl (hr.ne_root b))
  refine { h with freelist := ?_, chain := ?_, free0 := ?_, freeFits := ?_ }
  · obtain ⟨q, hq⟩ := h.freelist
    rw [hf]
    refine ⟨q, hq.congr (fun e he => ?_) fun e he => ?_⟩
    · refine Seg.nextDir_congr (hn e fun _ hl => ?_)
      rw [((h.memFree e).1 he).2] at hl
      cases hl
    · exact Seg.prevDir_congr (hfree e he).1
  · intro b hb
    rw [hroot b]
    refine (h.chain b hb).congr fun e he => Seg.nextDir_congr (hn e fun _ hl => ?_)
    rw [((h.memCh b hb e).1 he).2] at hl
    cases hl
  · intro e he; rw [(hfree e he).2]; exact h.free0 e he
  · rw [hf]; exact h.freeFits

/-- `unlink_from_freelist`: the slot leaves the freelist, wherever it stands in it -/
theorem unlink {l₁ l₂ : List ℕ} (h : Links g s (l₁ ++ e :: l₂) ch loc) :
    Links g (unlinkFromFreelist e s) (l₁ ++ l₂) ch (Function.update loc e .held) ∧
      ∀ x, x ∉ l₁ ++ l₂ → (unlinkFromFreelist e s).dir x = s.dir x := by
  have he' : e ∉ l₁ ++ l₂ := (List.nodup_middle.1 h.nodup_free).notMem
  have hmem : ∀ x ∈ l₁ ++ l₂, x ∈ l₁ ++ e :: l₂ := by intro x hx; simp at hx ⊢; tauto
  obtain ⟨q, hq⟩ := h.freelist
  -- the two neighbours are freelist slots other than `e`
  have hpe : ∀ p, s.prevDir e = some p → p ∈ l₁ ++ l₂ := by
    intro p hp
    obtain ⟨r, k, h1, -, hr, -⟩ := dseg_append.1 hq
    rcases List.eq_nil_or_concat' l₁ with rfl | ⟨l₀, x, rfl⟩
    · rw [dseg_nil] at h1; rw [hr, ← h1.2] at hp; simp at hp
    · rw [hr, h1.last] at hp; simp at hp; simp [hp]
  have hne : ∀ n, s.nextDir e = some n → n ∈ l₁ ++ l₂ := by
    intro n hn
    have := hq.lseg.suffix.head
    rw [hn] at this
    exact List.mem_append_right _ (List.mem_of_head? this.symm)
  have hpe' : s.prevDir e ≠ some e := fun hp => he' (hpe e hp)
  have hdir := unlinkFromFreelist_dir hpe'
  have hsame : ∀ x, x ∉ l₁ ++ l₂ → (unlinkFromFreelist e s).dir x = s.dir x := by
    intro x hx
    have h1 : s.prevDir e ≠ some x := fun hp => hx (hpe x hp)
    have h2 : s.nextDir e ≠ some x := fun hp => hx (hne x hp)
    simp only [hdir x, h1, h2, if_false]
  have hkeep : ∀ c < g.buckets, ∀ x ∈ dirBucket c :: ch c, (unlinkFromFreelist e s).nextDir x = s.nextDir x := by
    intro c hc x hx
    exact Seg.nextDir_congr (by rw [hsame x fun hxl => h.bucket_not_free hc hx (hmem x hxl)])
  refine ⟨{ h.toPlaced.leaveFree he' with freelist := ?_, chain := ?_, free0 := ?_, freeFits := ?_ }, hsame⟩
  · obtain ⟨q', hq'⟩ := hq.unlink (fun x _ => unlinkFromFreelist_nextDir hpe' x)
      (fun x _ => unlinkFromFreelist_prevDir hpe' x)
    refine ⟨q', ?_⟩
    rw [unlinkFromFreelist_freelist]
    split_ifs with hp
    · rwa [if_pos hp] at hq'
    · rwa [if_neg hp] at hq'
  · intro c hc
    rw [hkeep c hc _ List.mem_cons_self]
    exact (h.chain c hc).congr fun x hx => hkeep c hc x (List.mem_cons_of_mem _ hx)
  · intro x hx
    have hoff : ((unlinkFromFreelist e s).dir x).offset = (s.dir x).offset := by rw [hdir x]; split_ifs <;> rfl
    rw [hoff]
    exact h.free0 x (hmem x hx)
  · rw [unlinkFromFreelist_freelist]
    split_ifs
    · exact Dir.next_lt _
    · exact h.freeFits

/-- `Llink`: a slot in hand becomes the first of a chain -/
theorem link (h : Links g s free ch loc) (hb : b < g.buckets) (hr : g.IsRow e) (he : loc e = .held) :
    Links g (dirLink e (dirBucket b) s) free (Function.update ch b (e :: ch b)) (Function.update loc e (.chain b)) := by
  have her : e ≠ dirBucket b := hr.ne_root b
  have hef : e ∉ free := fun hf => by rw [((h.memFree e).1 hf).2] at he; cases he
  have hec : ∀ c < g.buckets, e ∉ ch c := fun c hc hf => by rw [((h.memCh c hc e).1 hf).2] at he; cases he
  have hdir : ∀ x, x ≠ e → x ≠ dirBucket b → (dirLink e (dirBucket b) s).dir x = s.dir x := by
    intro x h1 h2
    unfold dirLink
    rw [Seg.modify_dir, if_neg h2, Seg.modify_dir, if_neg h1]
  have hfree : ∀ x ∈ free, (dirLink e (dirBucket b) s).dir x = s.dir x := fun x hx =>
    hdir x (fun hxe => hef (hxe ▸ hx)) fun hxb => h.root_not_free b (hxb ▸ hx)
  have hroot : (dirLink e (dirBucket b) s).nextDir (dirBucket b) = some e := by
    unfold dirLink Seg.nextDir
    rw [Seg.modify_dir, if_pos rfl, Dir.setNext_next _ hr.lt, dirFromOffset_pos hr.pos]
  have hnext : (dirLink e (dirBucket b) s).nextDir e = s.nextDir (dirBucket b) := by
    unfold dirLink Seg.nextDir
    rw [Seg.modify_dir, if_neg her, Seg.modify_dir, if_pos rfl]
    exact dirFromOffset_setNext _ _
  have hrest : ∀ c < g.buckets, ∀ x ∈ ch c, (dirLink e (dirBucket b) s).nextDir x = s.nextDir x := fun c hc x hx =>
    Seg.nextDir_congr (by rw [hdir x (fun hxe => hec c hc (hxe ▸ hx)) fun hxb => h.root_not_ch hc b (hxb ▸ hx)])
  refine { h.toPlaced.enterCh hb hr he with freelist := ?_, chain := ?_, free0 := ?_, freeFits := h.freeFits }
  · obtain ⟨q, hq⟩ := h.freelist
    refine ⟨q, hq.congr (fun x hx => ?_) fun x hx => ?_⟩
    · exact Seg.nextDir_congr (by rw [hfree x hx])
    · exact Seg.prevDir_congr (by rw [hfree x hx])
  · intro c hc
    by_cases hcb : c = b
    · subst hcb
      rw [Function.update_self, hroot]
      refine ⟨rfl, ?_⟩
      rw [hnext]
      exact (h.chain c hc).congr (hrest c hc)
    · rw [Function.update_of_ne hcb]
      have hc' : dirBucket c ≠ dirBucket b := fun hh => hcb (dirBucket_inj.1 hh)
      have hce : dirBucket c ≠ e := fun hh => hr.ne_root c hh.symm
      have hcroot : (dirLink e (dirBucket b) s).nextDir (dirBucket c) = s.nextDir (dirBucket c) :=
        Seg.nextDir_congr (by rw [hdir _ hce hc'])
      rw [hcroot]
      exact (h.chain c hc).congr (hrest c hc)
  · intro x hx; rw [hfree x hx]; exact h.free0 x hx

/-- A slot `e` is cut out of its chain: the slot before it takes `e`'s link. The operation may do what it likes with the
other words of the chain slots, with slots in hand and with `e` itself. -/
theorem cut (h : Links g s free ch loc) (hb : b < g.buckets) {pre post : List ℕ} {p : ℕ}
    (hpos : dirBucket b :: ch b = pre ++ p :: e :: post) (hf : s'.freelist = s.freelist)
    (hp : (s'.dir p).next = (s.dir e).next)
    (hn : ∀ i, i ≠ p → i ≠ e → (g.IsRow i → loc i ≠ .held) → (s'.dir i).next = (s.dir i).next)
    (hfree : ∀ e ∈ free, s'.dir e = s.dir e) :
    ∃ ch', Links g s' free ch' (Function.update loc e .held) ∧ dirBucket b :: ch' b = pre ++ p :: post ∧
      (∀ c, c ≠ b → ch' c = ch c) ∧ g.IsRow e := by
  have hnd : (pre ++ p :: e :: post).Nodup := hpos ▸ h.nodup_bucket hb
  -- the chain without its root
  obtain ⟨l, hl, hl'⟩ : ∃ l, ch b = l ++ e :: post ∧ dirBucket b :: (l ++ post) = pre ++ p :: post := by
    cases pre with
    | nil => simp only [List.nil_append, List.cons.injEq] at hpos; exact ⟨[], hpos.2, by simp [hpos.1]⟩
    | cons x pre =>
      simp only [List.cons_append, List.cons.injEq] at hpos
      exact ⟨pre ++ [p], by simp [hpos.2], by simp [hpos.1]⟩
  have hec : e ∈ ch b := by rw [hl]; simp
  have hel : e ∉ l ++ post := (List.nodup_middle.1 (hl ▸ h.nodup_ch hb)).notMem
  have hpb : p ∈ dirBucket b :: ch b := by rw [hpos]; simp
  refine ⟨_, { h.toPlaced.leaveCh hb hl hel with freelist := ?_, chain := ?_, free0 := ?_, freeFits := hf ▸ h.freeFits },
    ?_, fun c hc => Function.update_of_ne hc _ _, h.row_of_ch hb hec⟩
  · obtain ⟨q, hq⟩ := h.freelist
    rw [hf]
    refine ⟨q, hq.congr (fun x hx => ?_) fun x hx => ?_⟩
    · exact Seg.nextDir_congr (by rw [hfree x hx])
    · exact Seg.prevDir_congr (by rw [hfree x hx])
  · -- a slot of a bucket keeps its link unless it is `p` or `e`
    have hkeep : ∀ c < g.buckets, ∀ x ∈ dirBucket c :: ch c, x ≠ p → x ≠ e → s'.nextDir x = s.nextDir x := by
      intro c hc x hx hxp hxe
      refine Seg.nextDir_congr (hn x hxp hxe fun hr hl => ?_)
      rcases List.mem_cons.1 hx with rfl | hx
      · exact hr.ne_root c rfl
      · rw [((h.memCh c hc x).1 hx).2] at hl; cases hl
    intro c hc
    by_cases hcb : c = b
    · subst hcb
      rw [Function.update_self]
      have hseg : LSeg s'.nextDir (some (dirBucket c)) (dirBucket c :: (l ++ post)) none := by
        have h0 := h.bucket_lseg hc
        rw [hpos, lseg_append] at h0
        obtain ⟨k, h1, rfl, h2, h3⟩ := h0
        rw [hl', lseg_append]
        have hsub : ∀ x, x ∈ pre ∨ x ∈ post → s'.nextDir x = s.nextDir x := by
          intro x hx
          rw [List.nodup_append] at hnd
          obtain ⟨-, hnd2, hdis⟩ := hnd
          have hmem : x ∈ dirBucket c :: ch c := by rw [hpos]; rcases hx with hx | hx <;> simp [hx]
          refine hkeep c hc x hmem ?_ ?_
          · rintro rfl
            rcases hx with hx | hx
            · exact hdis x hx x (by simp) rfl
            · exact (List.nodup_cons.1 hnd2).1 (by simp [hx])
          · rintro rfl
            rcases hx with hx | hx
            · exact hdis x hx x (by simp) rfl
            · exact (List.nodup_cons.1 (List.nodup_cons.1 hnd2).2).1 hx
        refine ⟨some p, h1.congr fun x hx => hsub x (Or.inl hx), rfl, ?_⟩
        have hpn : s'.nextDir p = s.nextDir e := by unfold Seg.nextDir; rw [hp]
        rw [hpn]
        exact h3.congr fun x hx => hsub x (Or.inr hx)
      exact hseg.2
    · rw [Function.update_of_ne hcb]
      have hsame : ∀ x ∈ dirBucket c :: ch c, s'.nextDir x = s.nextDir x := by
        intro x hx
        refine hkeep c hc x hx ?_ ?_
        · rintro rfl; exact h.bucket_apart hb hc (Ne.symm hcb) hpb hx
        · rintro rfl; exact h.bucket_apart hb hc (Ne.symm hcb) (List.mem_cons_of_mem _ hec) hx
      rw [hsame _ List.mem_cons_self]
      exact (h.chain c hc).congr fun x hx => hsame x (List.mem_cons_of_mem _ hx)
  · intro x hx; rw [hfree x hx]; exact h.free0 x hx
  · rw [Function.update_self, hl']

/-- `dir_free_entry`: a slot in hand whose words are cleared becomes the first of the freelist -/
theorem push (h : Links g s free ch loc) (hr : g.IsRow e) (he : loc e = .held) (hz : s.dir e = Dir.zero) :
    Links g (dirFreeEntry e s) (e :: free) ch (Function.update loc e .free) ∧
      ∀ x, x ≠ e → x ∉ free → (dirFreeEntry e s).dir x = s.dir x := by
  have hef : e ∉ free := fun hf => by rw [((h.memFree e).1 hf).2] at he; cases he
  obtain ⟨q, hq⟩ := h.freelist
  have hhead : ∀ x, dirFromOffset s.freelist = some x → x ∈ free := by
    intro x hx
    have := hq.lseg.head
    rw [hx] at this
    exact List.mem_of_head? this.symm
  have hfo : s.freelist ≠ 0 → s.freelist ≠ e := by
    intro h0 hh
    exact hef (hhead e (by rw [dirFromOffset_pos h0, hh]))
  -- slot by slot
  have hdir : ∀ x, (dirFreeEntry e s).dir x = if x = e then Dir.zero.setNext s.freelist
      else if dirFromOffset s.freelist = some x then (s.dir x).setPrev e else s.dir x := by
    intro x
    unfold dirFreeEntry
    by_cases h0 : s.freelist = 0
    · simp only [h0, ne_eq, not_true_eq_false, if_false, dirFromOffset_zero, reduceCtorEq]
      rw [Seg.modify_dir, hz]
    · simp only [ne_eq, h0, not_false_eq_true, if_true, dirFromOffset_pos h0, Option.some.injEq]
      rw [Seg.modify_dir, Seg.modify_dir, Seg.modify_dir, if_neg (hfo h0), hz]
      by_cases hxe : x = e
      · subst hxe; simp [Ne.symm (hfo h0)]
      · by_cases hxf : x = s.freelist
        · simp [hxf, hfo h0]
        · simp [hxe, hxf, Ne.symm hxf]
  have hnext : ∀ x, x ≠ e → (dirFreeEntry e s).nextDir x = s.nextDir x := by
    intro x hx
    refine Seg.nextDir_congr ?_
    rw [hdir x, if_neg hx]
    split_ifs <;> rfl
  have hne : (dirFreeEntry e s).nextDir e = dirFromOffset s.freelist := by
    unfold Seg.nextDir
    rw [hdir e, if_pos rfl, Dir.setNext_next _ h.freeFits]
  have hpe : (dirFreeEntry e s).prevDir e = none := by
    unfold Seg.prevDir
    rw [hdir e, if_pos rfl, Dir.setNext_prev]
    rfl
  have hfl : (dirFreeEntry e s).freelist = e := Nat.mod_eq_of_lt hr.lt
  have hother : ∀ x, x ≠ e → x ∉ free → (dirFreeEntry e s).dir x = s.dir x := by
    intro x hx hxf
    rw [hdir x, if_neg hx, if_neg fun hh => hxf (hhead x hh)]
  refine ⟨{ h.toPlaced.enterFree hr he with freelist := ?_, chain := ?_, free0 := ?_, freeFits := ?_ }, hother⟩
  · rw [hfl, dirFromOffset_pos hr.pos]
    refine hq.push hef hne hpe (fun x hx => hnext x fun hxe => hef (hxe ▸ hx)) (fun x hx => ?_) fun x hx hxh => ?_
    · have hxe : x ≠ e := fun hxe => hef (hxe ▸ hhead x hx)
      unfold Seg.prevDir
      rw [hdir x, if_neg hxe, if_pos hx, Dir.setPrev_prev _ hr.lt, dirFromOffset_pos hr.pos]
    · have hxe : x ≠ e := fun hxe => hef (hxe ▸ hx)
      exact Seg.prevDir_congr (by rw [hdir x, if_neg hxe, if_neg hxh])
  · intro c hc
    rw [hnext _ (hr.ne_root c).symm]
    refine (h.chain c hc).congr fun x hx => hnext x ?_
    rintro rfl
    rw [((h.memCh c hc x).1 hx).2] at he
    cases he
  · intro x hx
    rw [hdir x]
    split_ifs with h1 h2
    · exact Dir.zero_offset
    · exact h.free0 x (hhead x h2)
    · rcases List.mem_cons.1 hx with hx | hx
      · exact absurd hx h1
      · exact h.free0 x hx
  · rw [hfl]; exact hr.lt

end Links

end TrafficServer.Cache
