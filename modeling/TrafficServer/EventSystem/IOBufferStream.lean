/-
Buffers as byte streams.

`Stream` says what a buffer is for: bytes that are only added at the end, and for every reader a place in them. `Run` takes any number of
buffers in one heap through any order of operations, together with their streams. `iobuffer_stream` says that every operation succeeds, that
all accessors of a reader see the bytes of the stream from its place on, and that no reader moves another one.
-/
import Mathlib
import TrafficServer.EventSystem.IOBufferWrite

namespace TrafficServer.IOBuffer

open TrafficServer.LinkSeg

abbrev Slot := Fin MAX_MIOBUFFER_READERS

/-! ## Operations -/

structure System where
  heap : Heap
  bufs : ℕ → MIOBuffer

inductive Op where
  | write (buf : Bytes)
  /-- from the reader in a slot of a buffer -/
  | writeReader (j : ℕ) (s : Slot) (len offset : ℕ)
  | appendBlock (data : Bytes) (space : ℕ)
  | appendFresh (sizeIndex : ℤ)
  | fill (buf : Bytes)
  | allocReader
  | cloneReader (s : Slot)
  | consume (s : Slot) (n : ℕ)
  | read (s : Slot) (len : ℕ)

/-- the reader that an operation moves -/
def Op.through : Op → Option Slot
  | consume s _ => some s
  | read s _ => some s
  | _ => none

def System.put (sys : System) (k : ℕ) (res : Heap × MIOBuffer) : System := ⟨res.1, Function.update sys.bufs k res.2⟩

/-- an operation on the buffer `k` -/
def System.step (sys : System) (k : ℕ) : Op → Option System
  | .write buf => ((sys.bufs k).write sys.heap buf).map (sys.put k)
  | .writeReader j s len offset =>
    ((sys.bufs j).readers s).bind fun r => ((sys.bufs k).writeReader sys.heap r len offset).map fun res => sys.put k (res.1, res.2.1)
  | .appendBlock data space => ((sys.bufs k).appendBlock sys.heap data space).map (sys.put k)
  | .appendFresh sizeIndex => ((sys.bufs k).appendFresh sys.heap sizeIndex).map (sys.put k)
  | .fill buf => ((sys.bufs k).fill sys.heap buf).map (sys.put k)
  | .allocReader => (sys.bufs k).allocReader.map fun b => sys.put k (sys.heap, b)
  | .cloneReader s => ((sys.bufs k).readers s).bind fun r => ((sys.bufs k).cloneReader r).map fun b => sys.put k (sys.heap, b)
  | .consume s n => ((sys.bufs k).readers s).map fun r => sys.put k (sys.heap, (sys.bufs k).setReader s (r.consume sys.heap n))
  | .read s len => ((sys.bufs k).readers s).map fun r => sys.put k (sys.heap, (sys.bufs k).setReader s (r.read sys.heap len).2)

/-- what the callers take care of. A buffer that is written from its own reader is written the bytes it has, otherwise the loop would follow
its own clones. -/
def Enabled (sys : System) (k : ℕ) : Op → Prop
  | .write _ => True
  | .writeReader j s len offset => ∃ r, (sys.bufs j).readers s = some r ∧ (j = k → ((len + offset : ℕ) : ℤ) ≤ r.readAvail sys.heap)
  | .appendBlock data _ => data ≠ []
  | .appendFresh sizeIndex => bufferSizeAllocated sizeIndex = true
  | .fill buf => (sys.bufs k).writer ≠ none ∧ buf.length ≤ (sys.bufs k).currentWriteAvail sys.heap
  | .allocReader => (sys.bufs k).freeSlot ≠ none
  | .cloneReader s => (sys.bufs k).freeSlot ≠ none ∧ ∃ r, (sys.bufs k).readers s = some r
  | .consume s n => ∃ r, (sys.bufs k).readers s = some r ∧ (n : ℤ) ≤ r.readAvail sys.heap
  | .read s _ => ∃ r, (sys.bufs k).readers s = some r

/-! ## Streams -/

/-- the bytes of a buffer, and the places of its readers in them -/
structure Stream where
  bytes : Bytes
  readers : Slot → Option ℕ

namespace Stream

def left (S : Stream) (s : Slot) : Bytes := (S.readers s).elim [] S.bytes.drop

def add (S : Stream) (buf : Bytes) : Stream := { S with bytes := S.bytes ++ buf }

def setReader (S : Stream) (s : Slot) (pos : ℕ) : Stream := { S with readers := Function.update S.readers s (some pos) }

def freeSlot (S : Stream) : Option Slot := (List.finRange MAX_MIOBUFFER_READERS).find? fun s => (S.readers s).isNone

/-- a new reader -/
def newReader (S : Stream) (pos : ℕ) : Stream := S.freeSlot.elim S fun s => S.setReader s pos

/-- the place of a reader is moved forward -/
def move (S : Stream) (s : Slot) (n : ℕ) : Stream := (S.readers s).elim S fun pos => S.setReader s (pos + n)

/-- an operation on the stream `k`; `here` is the number of bytes in the current write block -/
def step (st : ℕ → Stream) (k here : ℕ) : Op → Stream
  | .write buf => (st k).add buf
  | .writeReader j s len offset => (st k).add ((((st j).left s).drop offset).take len)
  | .appendBlock data _ => (st k).add data
  | .appendFresh _ => st k
  | .fill buf => (st k).add buf
  | .allocReader => (st k).newReader ((st k).bytes.length - here)
  | .cloneReader s => ((st k).readers s).elim (st k) (st k).newReader
  | .consume s n => (st k).move s n
  | .read s len => (st k).move s (min len ((st k).left s).length)

end Stream

/-- the number of bytes in the write block -/
def writeBlockAvail (sys : System) (k : ℕ) : ℕ := (sys.bufs k).writer.elim 0 fun w => (sys.heap.block w).readAvail

/-- any number of buffers without blocks, and then any operations on them -/
inductive Run : System → (ℕ → Stream) → Prop where
  | init (size : ℕ → ℤ) (hs : ∀ k, bufferSizeAllocated (size k) = true) :
    Run ⟨⟨fun _ => default, 0⟩, fun k => MIOBuffer.empty (size k)⟩ fun _ => ⟨[], fun _ => none⟩
  | step {sys sys' : System} {st : ℕ → Stream} {k : ℕ} {op : Op} (h : Run sys st) (he : Enabled sys k op)
    (hs : sys.step k op = some sys') : Run sys' (Function.update st k (Stream.step st k (writeBlockAvail sys k) op))

/-! ## The invariant -/

/-- the buffers hold their streams in blocks of their own -/
structure Tracks (sys : System) (st : ℕ → Stream) (L post : ℕ → List ℕ) : Prop where
  holds : ∀ k, Holds sys.heap (sys.bufs k) (L k) (post k)
  bytes : ∀ k, (st k).bytes = content sys.heap (L k)
  readers : ∀ k s, Option.Rel (ReaderAt sys.heap (L k)) ((sys.bufs k).readers s) ((st k).readers s)
  own : ∀ j k, j ≠ k → ∀ i ∈ L j ++ post j, i ∉ L k ++ post k

theorem Holds.congr {h h' : Heap} {b : MIOBuffer} {L post : List ℕ} (hh : Holds h b L post)
    (hs : ∀ i ∈ L ++ post, h'.block i = h.block i) (hf : h.fresh ≤ h'.fresh) : Holds h' b L post := by
  refine ⟨hh.link.congr fun i hi => ?_, fun i hi => (hh.lt i hi).trans_le hf, hh.writer, fun i hi => ?_, fun i hi => ?_, hh.start, hh.size⟩
  · rw [Heap.next, hs i hi]
    rfl
  · rw [hs i (List.mem_append_left _ (List.mem_of_mem_tail hi))]
    exact hh.filled i hi
  · rw [hs i (List.mem_append_right _ hi)]
    exact hh.room i hi

theorem ReaderAt.congr {h h' : Heap} {L : List ℕ} {r : IOBufferReader} {pos : ℕ} (hr : ReaderAt h L r pos)
    (hs : ∀ i ∈ L, (h'.block i).data = (h.block i).data) : ReaderAt h' L r pos := by
  obtain ⟨l₁, l₂, rfl, hb, hne, hpos, hle⟩ := hr
  have h1 : content h' l₁ = content h l₁ := content_congr fun i hi => hs i (List.mem_append_left _ hi)
  exact ⟨l₁, l₂, rfl, hb, hne, by rw [h1]; exact hpos, by rw [content_congr hs]; exact hle⟩

theorem rel_imp {α β : Type} {R R' : α → β → Prop} (h : ∀ a b, R a b → R' a b) {o : Option α} {p : Option β} (hr : Option.Rel R o p) :
    Option.Rel R' o p := by
  cases hr with
  | none => exact Option.Rel.none
  | some hab => exact Option.Rel.some (h _ _ hab)

theorem rel_some {α β : Type} {R : α → β → Prop} {o : Option α} {p : Option β} (hr : Option.Rel R o p) {a : α} (ha : o = some a) :
    ∃ b, p = some b ∧ R a b := by
  cases hr with
  | none => exact absurd ha (by simp)
  | some hab =>
    obtain rfl := Option.some.inj ha
    exact ⟨_, rfl, hab⟩

theorem rel_none {α β : Type} {R : α → β → Prop} {o : Option α} {p : Option β} (hr : Option.Rel R o p) : o = none ↔ p = none := by
  cases hr <;> simp

/-- one buffer changes, the others stay -/
theorem Tracks.put {sys : System} {st : ℕ → Stream} {L post : ℕ → List ℕ} (ht : Tracks sys st L post) {k : ℕ} {h' : Heap} {b' : MIOBuffer}
    {L' post' : List ℕ} {S' : Stream} (hh : Holds h' b' L' post') (hf : Frame sys.heap (L k ++ post k) h' (L' ++ post'))
    (hb : S'.bytes = content h' L') (hr : ∀ s, Option.Rel (ReaderAt h' L') (b'.readers s) (S'.readers s)) :
    Tracks (sys.put k (h', b')) (Function.update st k S') (Function.update L k L') (Function.update post k post') := by
  have hkeep : ∀ j, j ≠ k → ∀ i ∈ L j ++ post j, h'.block i = sys.heap.block i :=
    fun j hj i hi => hf.block i ((ht.holds j).lt i hi) (ht.own j k hj i hi)
  have hdata : ∀ j, j ≠ k → ∀ i ∈ L j, (h'.block i).data = (sys.heap.block i).data := by
    intro j hj i hi
    rw [hkeep j hj i (List.mem_append_left _ hi)]
  -- the blocks of another buffer are not among the new ones
  have hown : ∀ j, j ≠ k → ∀ i ∈ L j ++ post j, i ∉ L' ++ post' := by
    intro j hj i hi hi'
    rcases hf.mem i hi' with hm | hle
    · exact ht.own j k hj i hi hm
    · exact absurd ((ht.holds j).lt i hi) (Nat.not_lt.mpr hle)
  refine ⟨fun j => ?_, fun j => ?_, fun j s => ?_, fun i j hij => ?_⟩
  · by_cases hj : j = k
    · subst hj
      simpa only [System.put, Function.update_self] using hh
    · simpa only [System.put, Function.update_of_ne hj] using (ht.holds j).congr (hkeep j hj) hf.fresh
  · by_cases hj : j = k
    · subst hj
      simpa only [System.put, Function.update_self] using hb
    · simp only [System.put, Function.update_of_ne hj]
      rw [ht.bytes j, content_congr (hdata j hj)]
  · by_cases hj : j = k
    · subst hj
      simpa only [System.put, Function.update_self] using hr s
    · simp only [System.put, Function.update_of_ne hj]
      exact rel_imp (fun r pos hat => hat.congr (hdata j hj)) (ht.readers j s)
  · by_cases hi : i = k
    · subst hi
      simp only [Function.update_self, Function.update_of_ne hij.symm]
      exact fun a ha hm => hown j hij.symm a hm ha
    · by_cases hj : j = k
      · subst hj
        simp only [Function.update_self, Function.update_of_ne hi]
        exact hown i hi
      · simp only [Function.update_of_ne hi, Function.update_of_ne hj]
        exact ht.own i j hij

section

variable {sys : System} {st : ℕ → Stream} {L post : ℕ → List ℕ} {k : ℕ}

/-- an operation that writes -/
theorem Tracks.grows (ht : Tracks sys st L post) {h' : Heap} {b' : MIOBuffer} {L' post' : List ℕ} {buf : Bytes}
    (hg : Grows sys.heap (sys.bufs k) (L k) (post k) h' b' L' post' buf) :
    Tracks (sys.put k (h', b')) (Function.update st k ((st k).add buf)) (Function.update L k L') (Function.update post k post') := by
  refine ht.put hg.holds hg.frame ?_ fun s => ?_
  · rw [Stream.add, hg.bytes, ht.bytes k]
  · have hrel := ht.readers k s
    change Option.Rel _ _ ((st k).readers s)
    cases hr : (sys.bufs k).readers s with
    | none =>
      rw [hg.none s hr, (rel_none hrel).mp hr]
      exact Option.Rel.none
    | some r =>
      obtain ⟨pos, hpos, hat⟩ := rel_some hrel hr
      obtain ⟨r', hr', hat'⟩ := hg.readers s r pos hr hat
      rw [hr', hpos]
      exact Option.Rel.some hat'

theorem Tracks.adds (ht : Tracks sys st L post) {res : Option (Heap × MIOBuffer)} {buf : Bytes}
    (ha : Adds sys.heap (sys.bufs k) (L k) (post k) res buf) :
    ∃ sys' L' post', res.map (sys.put k) = some sys' ∧ Tracks sys' (Function.update st k ((st k).add buf)) L' post' := by
  obtain ⟨h', b', L', post', rfl, hg⟩ := ha
  exact ⟨_, _, _, rfl, ht.grows hg⟩

theorem Stream.add_nil (S : Stream) : S.add [] = S := by
  rw [Stream.add, List.append_nil]

/-- a reader is put into a slot -/
theorem Tracks.setReader (ht : Tracks sys st L post) {s : Slot} {r : IOBufferReader} {pos : ℕ} (hr : ReaderAt sys.heap (L k) r pos) :
    Tracks (sys.put k (sys.heap, (sys.bufs k).setReader s r)) (Function.update st k ((st k).setReader s pos)) L post := by
  have hh := ht.holds k
  have hput : Tracks (sys.put k (sys.heap, (sys.bufs k).setReader s r)) (Function.update st k ((st k).setReader s pos))
      (Function.update L k (L k)) (Function.update post k (post k)) := ht.put
    ⟨hh.link, hh.lt, hh.writer, hh.filled, hh.room, hh.start, hh.size⟩ ⟨le_rfl, fun _ _ _ => rfl, fun _ hi => Or.inl hi⟩ (ht.bytes k) ?_
  · rwa [Function.update_eq_self, Function.update_eq_self] at hput
  · intro s'
    simp only [MIOBuffer.setReader, Stream.setReader, Function.update_apply]
    split_ifs
    · exact Option.Rel.some hr
    · exact ht.readers k s'

theorem Tracks.freeSlot_eq (ht : Tracks sys st L post) : (st k).freeSlot = (sys.bufs k).freeSlot := by
  have hfree : (fun s => ((st k).readers s).isNone) = fun s => ((sys.bufs k).readers s).isNone := by
    funext s
    rw [Bool.eq_iff_iff, Option.isNone_iff_eq_none, Option.isNone_iff_eq_none]
    exact (rel_none (ht.readers k s)).symm
  rw [Stream.freeSlot, MIOBuffer.freeSlot, hfree]

theorem Tracks.newReader (ht : Tracks sys st L post) (hf : (sys.bufs k).freeSlot ≠ none) {r : IOBufferReader} {pos : ℕ}
    (hr : ReaderAt sys.heap (L k) r pos) :
    ∃ sys' L' post', ((sys.bufs k).freeSlot.map fun s => (sys.bufs k).setReader s r).map (fun b => sys.put k (sys.heap, b)) = some sys' ∧
      Tracks sys' (Function.update st k ((st k).newReader pos)) L' post' := by
  obtain ⟨s, hs⟩ := Option.ne_none_iff_exists'.mp hf
  rw [Stream.newReader, ht.freeSlot_eq, hs]
  exact ⟨_, L, post, rfl, ht.setReader hr⟩

/-- a new reader starts at the first byte of the write block -/
theorem Tracks.start (ht : Tracks sys st L post) :
    ReaderAt sys.heap (L k) ⟨(sys.bufs k).writer, 0⟩ ((st k).bytes.length - writeBlockAvail sys k) := by
  have hw := (ht.holds k).writer
  rw [ht.bytes k, writeBlockAvail, hw]
  rcases List.eq_nil_or_concat' (L k) with hL | ⟨l, w, hL⟩
  · rw [hL]
    exact ⟨[], [], rfl, rfl, fun _ => rfl, rfl, Nat.zero_le _⟩
  · rw [hL, List.getLast?_concat]
    refine ⟨l, [w], rfl, rfl, by simp, ?_, Nat.sub_le _ _⟩
    simp [IOBufferBlock.readAvail]

theorem Tracks.left_eq (ht : Tracks sys st L post) {s : Slot} {pos : ℕ} (hp : (st k).readers s = some pos) :
    (st k).left s = (content sys.heap (L k)).drop pos := by
  rw [Stream.left, hp, ← ht.bytes k]
  rfl

theorem ReaderAt.room (ht : Tracks sys st L post) {r : IOBufferReader} {pos n : ℕ} (hr : ReaderAt sys.heap (L k) r pos)
    (hn : (n : ℤ) ≤ r.readAvail sys.heap) : pos + n ≤ (content sys.heap (L k)).length := by
  have hle := hr.le
  rw [(hr.sees (ht.holds k)).readAvail, List.length_drop] at hn
  omega

/-- the blocks from a reader on, as `write` takes them -/
theorem Tracks.source (ht : Tracks sys st L post) {j : ℕ} {r : IOBufferReader} {pos len offset : ℕ}
    (hr : ReaderAt sys.heap (L j) r pos) (hown : j = k → ((len + offset : ℕ) : ℤ) ≤ r.readAvail sys.heap) :
    ∃ A, Source sys.heap (L k) r.block A len (offset + r.startOffset) ∧ A.length < sys.heap.fresh + 1 ∧
      (content sys.heap A).drop (offset + r.startOffset) = ((content sys.heap (L j)).drop pos).drop offset := by
  have hh := ht.holds j
  have hroom := fun h => hr.room ht (hown h)
  obtain ⟨l₁, l₂, hl, hb, hne, hpos, hle⟩ := hr
  have hchain : LSeg sys.heap.next r.block (l₂ ++ post j) none := by
    have hlink := hh.link
    rw [hl, List.append_assoc] at hlink
    obtain ⟨m, -, h2⟩ := lseg_append.1 hlink
    have hm : m = r.block := by
      rw [h2.head, hb]
      cases l₂ with
      | nil => rw [hh.start (hne rfl)]; rfl
      | cons i l => rfl
    rwa [hm] at h2
  have hsub : ∀ i ∈ l₂ ++ post j, i ∈ L j ++ post j := by
    intro i hi
    rw [hl, List.append_assoc]
    exact List.mem_append_right _ hi
  have hlt : ∀ i ∈ l₂ ++ post j, i < sys.heap.fresh := fun i hi => hh.lt i (hsub i hi)
  have hdrop : (content sys.heap l₂).drop (offset + r.startOffset) = ((content sys.heap (L j)).drop pos).drop offset := by
    have hd : (content sys.heap l₁ ++ content sys.heap l₂).drop ((content sys.heap l₁).length + r.startOffset) =
        (content sys.heap l₂).drop r.startOffset := by rw [← List.drop_drop, List.drop_left]
    rw [hl, content_append, hpos, hd, List.drop_drop, Nat.add_comm]
  by_cases hjk : j = k
  · -- its own reader
    subst hjk
    refine ⟨l₂, ⟨fun i hi => hlt i (List.mem_append_left _ hi), fun a ha hla => ?_, Or.inr ⟨?_, Or.inr ?_⟩⟩, ?_, hdrop⟩
    · obtain ⟨l, hll⟩ := List.getLast?_eq_some_iff.mp hla
      have hnd : (L j).Nodup := (List.nodup_append.mp hh.nodup).1
      have hmem : a ∈ (L j).dropLast := by
        rw [hl, List.dropLast_append_of_ne_nil (List.ne_nil_of_mem (List.dropLast_subset _ ha))]
        exact List.mem_append_right _ ha
      rw [hll, List.dropLast_concat] at hmem
      rw [hll] at hnd
      exact (List.nodup_append.mp hnd).2.2 a hmem a (by simp) rfl
    · obtain ⟨m, hm, -⟩ := lseg_append.1 hchain
      exact ⟨m, hm⟩
    · have := hroom rfl
      rw [hl, content_append, List.length_append] at this
      omega
    · have := Heap.length_le_fresh hchain hlt
      rw [List.length_append] at this
      omega
  · have hother : ∀ a ∈ l₂ ++ post j, (L k).getLast? ≠ some a := by
      intro a ha hla
      exact ht.own j k hjk a (hsub a ha) (List.mem_append_left _ (List.mem_of_getLast? hla))
    refine ⟨l₂ ++ post j, ⟨hlt, fun a ha => hother a (List.dropLast_subset _ ha), Or.inl ⟨hchain, hother⟩⟩, ?_, ?_⟩
    · exact Nat.lt_succ_of_le (Heap.length_le_fresh hchain hlt)
    · rw [content_append, hh.content_post, List.append_nil]
      exact hdrop

/-- every operation that the callers may do succeeds, and the buffers hold their streams after it -/
theorem Tracks.step (ht : Tracks sys st L post) {op : Op} (he : Enabled sys k op) :
    ∃ sys' L' post', sys.step k op = some sys' ∧
      Tracks sys' (Function.update st k (Stream.step st k (writeBlockAvail sys k) op)) L' post' := by
  have hh := ht.holds k
  cases op with
  | write buf => exact ht.adds (write_spec hh buf)
  | writeReader j s len offset =>
    obtain ⟨r, hr, hown⟩ := he
    obtain ⟨pos, hpos, hat⟩ := rel_some (ht.readers j s) hr
    obtain ⟨A, hsource, hfuel, hdrop⟩ := ht.source hat hown
    obtain ⟨len', h', b', L', post', hloop, hg, -⟩ := writeReaderLoop_spec (sys.heap.fresh + 1) hh hsource hfuel
    rw [hdrop, ← ht.left_eq hpos] at hg
    refine ⟨_, _, _, ?_, ht.grows hg⟩
    rw [System.step, hr, Option.bind_some, MIOBuffer.writeReader, hloop]
    rfl
  | appendBlock data space =>
    obtain ⟨h', b', happ, hg, -⟩ := appendBlock_spec hh he space
    exact ht.adds ⟨h', b', _, _, happ, hg⟩
  | appendFresh sizeIndex =>
    obtain ⟨h', b', L', post', happ, hg, -⟩ := appendFresh_spec hh he
    have := ht.adds (k := k) ⟨h', b', L', post', happ, hg⟩
    rwa [Stream.add_nil] at this
  | fill buf => exact ht.adds (fill_spec hh he.1 he.2)
  | allocReader => exact ht.newReader he ht.start
  | cloneReader s =>
    obtain ⟨hf, r, hr⟩ := he
    obtain ⟨pos, hpos, hat⟩ := rel_some (ht.readers k s) hr
    rw [System.step, hr, Stream.step, hpos]
    exact ht.newReader hf hat
  | consume s n =>
    obtain ⟨r, hr, hn⟩ := he
    obtain ⟨pos, hpos, hat⟩ := rel_some (ht.readers k s) hr
    rw [System.step, hr, Stream.step, Stream.move, hpos]
    exact ⟨_, L, post, rfl, ht.setReader (hat.consume hh (hat.room ht hn))⟩
  | read s len =>
    obtain ⟨r, hr⟩ := he
    obtain ⟨pos, hpos, hat⟩ := rel_some (ht.readers k s) hr
    rw [System.step, hr, Stream.step, Stream.move, ht.left_eq hpos, hpos]
    exact ⟨_, L, post, rfl, ht.setReader (hat.read hh len).2⟩

theorem tracks_init (size : ℕ → ℤ) (hs : ∀ k, bufferSizeAllocated (size k) = true) :
    Tracks ⟨⟨fun _ => default, 0⟩, fun k => MIOBuffer.empty (size k)⟩ (fun _ => ⟨[], fun _ => none⟩) (fun _ => []) fun _ => [] :=
  ⟨fun k => ⟨rfl, by simp, rfl, by simp, by simp, fun _ => rfl, hs k⟩, fun _ => rfl, fun _ _ => Option.Rel.none, by simp⟩

/-- the buffers hold their streams at any time -/
theorem Run.tracks (h : Run sys st) : ∃ L post, Tracks sys st L post := by
  induction h with
  | init size hs => exact ⟨_, _, tracks_init size hs⟩
  | step _ he hs ih =>
    obtain ⟨L, post, ht⟩ := ih
    obtain ⟨sys'', L', post', hs', ht'⟩ := ht.step he
    obtain rfl := Option.some.inj (hs.symm.trans hs')
    exact ⟨L', post', ht'⟩

/-! ## The result -/

theorem Stream.setReader_kept {S : Stream} {s s' : Slot} (hs : s' ≠ s) (pos : ℕ) : (S.setReader s pos).readers s' = S.readers s' :=
  Function.update_of_ne hs _ _

theorem Stream.newReader_kept {S : Stream} {s : Slot} {p : ℕ} (hp : S.readers s = some p) (pos : ℕ) :
    (S.newReader pos).readers s = some p ∧ (S.newReader pos).bytes = S.bytes := by
  rw [Stream.newReader]
  cases hf : S.freeSlot with
  | none => exact ⟨hp, rfl⟩
  | some s' =>
    refine ⟨(Stream.setReader_kept ?_ pos).trans hp, rfl⟩
    rintro rfl
    have hfree := List.find?_some hf
    rw [hp] at hfree
    simp at hfree

theorem Stream.move_kept (S : Stream) {s s' : Slot} (hs : s' ≠ s) (n : ℕ) :
    (S.move s n).readers s' = S.readers s' ∧ (S.move s n).bytes = S.bytes := by
  rw [Stream.move]
  cases S.readers s with
  | none => exact ⟨rfl, rfl⟩
  | some pos => exact ⟨Stream.setReader_kept hs _, rfl⟩

/-- an operation adds bytes or moves readers -/
theorem Stream.step_kept (st : ℕ → Stream) (k here : ℕ) (op : Op) {s : Slot} {pos : ℕ} (hp : (st k).readers s = some pos)
    (hs : op.through ≠ some s) :
    ∃ buf, (Stream.step st k here op).readers s = some pos ∧ (Stream.step st k here op).bytes = (st k).bytes ++ buf ∧
      (op.through ≠ none → buf = []) := by
  cases op with
  | write buf => exact ⟨buf, hp, rfl, fun hn => absurd rfl hn⟩
  | writeReader j s' len offset => exact ⟨_, hp, rfl, fun hn => absurd rfl hn⟩
  | appendBlock data space => exact ⟨data, hp, rfl, fun hn => absurd rfl hn⟩
  | appendFresh sizeIndex => exact ⟨[], hp, (List.append_nil _).symm, fun _ => rfl⟩
  | fill buf => exact ⟨buf, hp, rfl, fun hn => absurd rfl hn⟩
  | allocReader =>
    obtain ⟨h1, h2⟩ := Stream.newReader_kept hp ((st k).bytes.length - here)
    exact ⟨[], h1, by rw [List.append_nil]; exact h2, fun _ => rfl⟩
  | cloneReader s' =>
    rw [Stream.step]
    cases (st k).readers s' with
    | none => exact ⟨[], hp, (List.append_nil _).symm, fun _ => rfl⟩
    | some pos' =>
      obtain ⟨h1, h2⟩ := Stream.newReader_kept hp pos'
      exact ⟨[], h1, by rw [List.append_nil]; exact h2, fun _ => rfl⟩
  | consume s' n =>
    have hne : s ≠ s' := fun he => hs (by rw [he]; rfl)
    obtain ⟨h1, h2⟩ := (st k).move_kept hne n
    exact ⟨[], h1.trans hp, by rw [List.append_nil]; exact h2, fun _ => rfl⟩
  | read s' len =>
    have hne : s ≠ s' := fun he => hs (by rw [he]; rfl)
    obtain ⟨h1, h2⟩ := (st k).move_kept hne (min len ((st k).left s').length)
    exact ⟨[], h1.trans hp, by rw [List.append_nil]; exact h2, fun _ => rfl⟩

/-- In every run, every operation succeeds, and what all accessors of a reader see is the stream from the place of the reader on. An
operation that does not move a reader leaves what it sees, with bytes added at the end if it writes. -/
theorem iobuffer_stream (sys : System) (st : ℕ → Stream) (h : Run sys st) :
    (∀ k op, Enabled sys k op → (sys.step k op).isSome) ∧
    (∀ k s, ((sys.bufs k).readers s).isSome = ((st k).readers s).isSome) ∧
    (∀ k s r, (sys.bufs k).readers s = some r → Sees sys.heap r ((st k).left s)) ∧
    ∀ k op sys', Enabled sys k op → sys.step k op = some sys' → ∀ j s r, (sys.bufs j).readers s = some r →
      (j = k → op.through ≠ some s) →
      ∃ r' buf, (sys'.bufs j).readers s = some r' ∧ Sees sys.heap r ((st j).left s) ∧ Sees sys'.heap r' ((st j).left s ++ buf) ∧
        (op.through ≠ none → buf = []) := by
  obtain ⟨L, post, ht⟩ := h.tracks
  have hsees : ∀ k s r, (sys.bufs k).readers s = some r → Sees sys.heap r ((st k).left s) := by
    intro k s r hr
    obtain ⟨pos, hpos, hat⟩ := rel_some (ht.readers k s) hr
    rw [ht.left_eq hpos]
    exact hat.sees (ht.holds k)
  refine ⟨fun k op he => ?_, fun k s => ?_, hsees, fun k op sys' he hs j s r hr hmove => ?_⟩
  · obtain ⟨sys', -, -, hs, -⟩ := ht.step he
    rw [hs]
    rfl
  · rw [Bool.eq_iff_iff, Option.isSome_iff_ne_none, Option.isSome_iff_ne_none]
    exact not_congr (rel_none (ht.readers k s))
  · obtain ⟨sys'', L', post', hs', ht'⟩ := ht.step he
    obtain rfl := Option.some.inj (hs.symm.trans hs')
    obtain ⟨pos, hpos, hat⟩ := rel_some (ht.readers j s) hr
    have hle : pos ≤ (st j).bytes.length := by
      rw [ht.bytes j]
      exact hat.le
    -- what the stream says of the reader after the operation
    obtain ⟨buf, hpos', hbytes, hnil⟩ : ∃ buf, (Function.update st k (Stream.step st k (writeBlockAvail sys k) op) j).readers s = some pos ∧
        (Function.update st k (Stream.step st k (writeBlockAvail sys k) op) j).bytes = (st j).bytes ++ buf ∧
        (op.through ≠ none → buf = []) := by
      by_cases hj : j = k
      · subst hj
        rw [Function.update_self]
        exact Stream.step_kept st j _ op hpos (hmove rfl)
      · rw [Function.update_of_ne hj]
        exact ⟨[], hpos, (List.append_nil _).symm, fun _ => rfl⟩
    obtain ⟨r', hr', hat'⟩ : ∃ r', (sys'.bufs j).readers s = some r' ∧ ReaderAt sys'.heap (L' j) r' pos := by
      have hrel := ht'.readers j s
      rw [hpos'] at hrel
      cases hr' : (sys'.bufs j).readers s with
      | none =>
        rw [hr'] at hrel
        cases hrel
      | some r' =>
        rw [hr'] at hrel
        cases hrel with
        | some hat' => exact ⟨r', rfl, hat'⟩
    have hsees' := hat'.sees (ht'.holds j)
    rw [← ht'.bytes j, hbytes, List.drop_append_of_le_length hle, ht.bytes j, ← ht.left_eq hpos] at hsees'
    exact ⟨r', buf, hr', hsees j s r hr, hsees', hnil⟩

end

/-- a reader of an empty buffer, into which three bytes are written -/
theorem iobuffer_stream_three : ∃ sys st, Run sys st ∧ ∃ r s, (sys.bufs 0).readers s = some r ∧ Sees sys.heap r [1, 2, 3] := by
  have h0 := Run.init (fun _ => 0) fun _ => rfl
  have hfree : Enabled ⟨⟨fun _ => default, 0⟩, fun _ => MIOBuffer.empty 0⟩ 0 .allocReader := by
    rw [Enabled]
    decide
  obtain ⟨sys₁, hs₁⟩ := Option.isSome_iff_exists.mp ((iobuffer_stream _ _ h0).1 0 .allocReader hfree)
  have h1 := Run.step h0 hfree hs₁
  have hwrite : Enabled sys₁ 0 (.write [1, 2, 3]) := trivial
  obtain ⟨sys₂, hs₂⟩ := Option.isSome_iff_exists.mp ((iobuffer_stream _ _ h1).1 0 _ hwrite)
  have h2 := Run.step h1 hwrite hs₂
  obtain ⟨-, hsome, hsees, -⟩ := iobuffer_stream _ _ h2
  obtain ⟨r, hr⟩ := Option.isSome_iff_exists.mp ((hsome 0 ⟨0, by decide⟩).trans rfl)
  exact ⟨sys₂, _, h2, r, ⟨0, by decide⟩, hr, hsees 0 _ r hr⟩

end TrafficServer.IOBuffer
