/-
What the operations on a buffer do to its bytes: they add bytes at the end, and no reader moves.

`Grows` is the effect of an operation that writes. It composes (`Grows.trans`), so that the loops of `write`, of `write` from a reader and of
`fill` follow from their rounds. In the middle of `write` and `fill` the write block may be a block without bytes (`Moved`).
-/
import Mathlib
import TrafficServer.EventSystem.IOBufferSees

namespace TrafficServer.IOBuffer

open TrafficServer.LinkSeg

/-! ## The heap -/

section

variable (h : Heap) (i j : ℕ)

theorem Heap.set_block (b : IOBufferBlock) : (h.set i b).block j = if j = i then b else h.block j := by
  simp only [Heap.set, Function.update_apply]

theorem Heap.alloc_block (b : IOBufferBlock) : (h.alloc b).block j = if j = h.fresh then b else h.block j := by
  simp only [Heap.alloc, Function.update_apply]

theorem Heap.fill_data (s : Bytes) : ((h.fill i s).block j).data = if j = i then (h.block j).data ++ s else (h.block j).data := by
  rw [Heap.fill, Heap.set_block]
  split_ifs with hj
  · rw [hj]
  · rfl

theorem Heap.fill_space (s : Bytes) :
    ((h.fill i s).block j).space = if j = i then (h.block j).space - s.length else (h.block j).space := by
  rw [Heap.fill, Heap.set_block]
  split_ifs with hj
  · rw [hj]
  · rfl

@[simp] theorem Heap.fill_next (s : Bytes) : (h.fill i s).next = h.next := by
  funext j
  simp only [Heap.next, Heap.fill, Heap.set_block]
  split_ifs with hj
  · rw [hj]
  · rfl

theorem Heap.setNext_data (n : ℕ) : ((h.setNext i n).block j).data = (h.block j).data := by
  rw [Heap.setNext, Heap.set_block]
  split_ifs with hj
  · rw [hj]
  · rfl

theorem Heap.setNext_space (n : ℕ) : ((h.setNext i n).block j).space = (h.block j).space := by
  rw [Heap.setNext, Heap.set_block]
  split_ifs with hj
  · rw [hj]
  · rfl

theorem Heap.setNext_next (n : ℕ) : (h.setNext i n).next j = if j = i then some n else h.next j := by
  simp only [Heap.next, Heap.setNext, Heap.set_block]
  split_ifs <;> rfl

end

/-! ## Growing -/

/-- blocks outside `S` are as they were, and new blocks are new -/
structure Frame (h : Heap) (S : List ℕ) (h' : Heap) (S' : List ℕ) : Prop where
  fresh : h.fresh ≤ h'.fresh
  block : ∀ i < h.fresh, i ∉ S → h'.block i = h.block i
  mem : ∀ i ∈ S', i ∈ S ∨ h.fresh ≤ i

theorem Frame.trans {h h' h'' : Heap} {S S' S'' : List ℕ} (h1 : Frame h S h' S') (h2 : Frame h' S' h'' S'') : Frame h S h'' S'' := by
  refine ⟨h1.fresh.trans h2.fresh, fun i hi hS => ?_, fun i hi => ?_⟩
  · have hS' : i ∉ S' := fun hm => (h1.mem i hm).elim hS (Nat.not_le_of_lt hi)
    rw [h2.block i (hi.trans_le h1.fresh) hS', h1.block i hi hS]
  · rcases h2.mem i hi with hm | hle
    · exact h1.mem i hm
    · exact Or.inr (h1.fresh.trans hle)

/-- the buffer has got the bytes `added`, and its readers are where they were -/
structure Grows (h : Heap) (b : MIOBuffer) (L post : List ℕ) (h' : Heap) (b' : MIOBuffer) (L' post' : List ℕ) (added : Bytes) : Prop where
  holds : Holds h' b' L' post'
  bytes : content h' L' = content h L ++ added
  ext : ∃ M, L' = L ++ M
  kept : ∀ i ∈ L.dropLast, (h'.block i).data = (h.block i).data
  none : ∀ s, b.readers s = none → b'.readers s = none
  readers : ∀ s r pos, b.readers s = some r → ReaderAt h L r pos → ∃ r', b'.readers s = some r' ∧ ReaderAt h' L' r' pos
  frame : Frame h (L ++ post) h' (L' ++ post')

theorem dropLast_append_subset {L M : List ℕ} {i : ℕ} (h : i ∈ L.dropLast) : i ∈ (L ++ M).dropLast := by
  cases M with
  | nil => simpa using h
  | cons m M =>
    rw [List.dropLast_append_cons]
    exact List.mem_append_left _ (List.dropLast_subset L h)

theorem Grows.trans {h h' h'' : Heap} {b b' b'' : MIOBuffer} {L L' L'' post post' post'' : List ℕ} {s t : Bytes}
    (h1 : Grows h b L post h' b' L' post' s) (h2 : Grows h' b' L' post' h'' b'' L'' post'' t) :
    Grows h b L post h'' b'' L'' post'' (s ++ t) := by
  obtain ⟨M, hM⟩ := h1.ext
  obtain ⟨M', hM'⟩ := h2.ext
  refine ⟨h2.holds, ?_, ⟨M ++ M', by rw [hM', hM, List.append_assoc]⟩, fun i hi => ?_, fun k hk => h2.none k (h1.none k hk),
    fun k r pos hk hr => ?_, h1.frame.trans h2.frame⟩
  · rw [h2.bytes, h1.bytes, List.append_assoc]
  · rw [h2.kept i (by rw [hM]; exact dropLast_append_subset hi), h1.kept i hi]
  · obtain ⟨r', hk', hr'⟩ := h1.readers k r pos hk hr
    exact h2.readers k r' pos hk' hr'

theorem Grows.refl {h : Heap} {b : MIOBuffer} {L post : List ℕ} (hh : Holds h b L post) : Grows h b L post h b L post [] :=
  ⟨hh, (List.append_nil _).symm, ⟨[], (List.append_nil L).symm⟩, fun _ _ => rfl, fun _ hs => hs, fun _ r _ hs hr => ⟨r, hs, hr⟩,
    le_rfl, fun _ _ _ => rfl, fun _ hi => Or.inl hi⟩

/-- a reader stays where it is when the blocks before the write block keep their bytes -/
theorem ReaderAt.grow {h h' : Heap} {L M : List ℕ} {r : IOBufferReader} {pos : ℕ} (hr : ReaderAt h L r pos) (hL : L ≠ [])
    (hk : ∀ i ∈ L.dropLast, (h'.block i).data = (h.block i).data) (hle : (content h L).length ≤ (content h' (L ++ M)).length) :
    ReaderAt h' (L ++ M) r pos := by
  obtain ⟨l₁, l₂, hl, hb, hne, hpos, hp⟩ := hr
  have hl₂ : l₂ ≠ [] := fun he => hL (hne he)
  have hc : content h' l₁ = content h l₁ := by
    refine content_congr fun i hi => hk i ?_
    rw [hl]
    obtain ⟨c, l, rfl⟩ := List.exists_cons_of_ne_nil hl₂
    rw [List.dropLast_append_cons]
    exact List.mem_append_left _ hi
  refine ⟨l₁, l₂ ++ M, by rw [hl, List.append_assoc], ?_, fun he => absurd (List.append_eq_nil_iff.mp he).1 hl₂, by rw [hc]; exact hpos,
    hp.trans hle⟩
  obtain ⟨c, l, rfl⟩ := List.exists_cons_of_ne_nil hl₂
  exact hb

section

variable {h : Heap} {b : MIOBuffer} {L post : List ℕ} {w : ℕ}

/-! ## Filling a block -/

theorem Holds.nodup (hh : Holds h b L post) : (L ++ post).Nodup := hh.link.nodup

theorem content_fill {l : List ℕ} (hnd : (l ++ [w]).Nodup) (s : Bytes) :
    content (h.fill w s) (l ++ [w]) = content h (l ++ [w]) ++ s := by
  have hl : ∀ i ∈ l, ((h.fill w s).block i).data = (h.block i).data := by
    intro i hi
    rw [Heap.fill_data, if_neg]
    rintro rfl
    exact (List.nodup_append.mp hnd).2.2 i hi i (by simp) rfl
  rw [content_append, content_append, content_congr hl, content_cons, content_cons, content_nil, content_nil, Heap.fill_data, if_pos rfl,
    List.append_nil, List.append_nil, List.append_assoc]

/-- bytes are put into the last block of `l ++ [w]`, which is the write block then -/
theorem grows_fill {l : List ℕ} {s : Bytes} {b' : MIOBuffer} (hh : Holds h b L post) (hL : L ≠ []) {post' : List ℕ}
    (hsplit : L ++ post = l ++ w :: post') (hlen : L = l ++ [w] ∨ L = l ∧ s ≠ []) (hb : b' = { b with writer := some w }) :
    Grows h b L post (h.fill w s) b' (l ++ [w]) post' s := by
  have hnd := hh.nodup
  have hlink := hh.link
  have hlt := hh.lt
  rw [hsplit] at hnd hlink hlt
  have hsplit' : l ++ w :: post' = l ++ [w] ++ post' := by simp
  have hndw : (l ++ [w]).Nodup := by
    rw [hsplit'] at hnd
    exact (List.nodup_append.mp hnd).1
  have hwl : w ∉ l := fun hm => (List.nodup_append.mp hndw).2.2 w hm w (by simp) rfl
  have hwpost : w ∉ post' := by
    rw [hsplit'] at hnd
    exact fun hm => (List.nodup_append.mp hnd).2.2 w (by simp) w hm rfl
  have hother : ∀ i, i ≠ w → ((h.fill w s).block i).data = (h.block i).data := fun i hi => by rw [Heap.fill_data, if_neg hi]
  -- the blocks behind the new write block are those behind the old one, or some of them
  have hpost : ∀ i ∈ post', i ∈ post := by
    intro i hi
    rcases hlen with rfl | ⟨rfl, -⟩
    · rw [hsplit', List.append_cancel_left_eq] at hsplit
      rw [hsplit]
      exact hi
    · rw [List.append_cancel_left_eq] at hsplit
      rw [hsplit]
      exact List.mem_cons_of_mem w hi
  have hcontent : content h (l ++ [w]) = content h L := by
    rcases hlen with rfl | ⟨rfl, -⟩
    · rfl
    · have hw : (h.block w).data = [] := by
        rw [List.append_cancel_left_eq] at hsplit
        exact (hh.room w (by rw [hsplit]; simp)).1
      rw [content_append, content_cons, content_nil, hw, List.append_nil, List.append_nil]
  have hext : ∃ M, l ++ [w] = L ++ M := by
    rcases hlen with rfl | ⟨rfl, -⟩
    · exact ⟨[], (List.append_nil _).symm⟩
    · exact ⟨[w], rfl⟩
  have hkept : ∀ i ∈ L.dropLast, ((h.fill w s).block i).data = (h.block i).data := by
    intro i hi
    refine hother i ?_
    rintro rfl
    rcases hlen with rfl | ⟨rfl, -⟩
    · rw [List.dropLast_concat] at hi
      exact hwl hi
    · exact hwl (List.dropLast_subset _ hi)
  have hbytes : content (h.fill w s) (l ++ [w]) = content h L ++ s := by rw [content_fill hndw, hcontent]
  refine ⟨⟨?_, ?_, ?_, ?_, ?_, ?_, ?_⟩, hbytes, hext, hkept, ?_, ?_, le_rfl, ?_, ?_⟩
  · rw [← hsplit', Heap.fill_next]
    exact hlink
  · rw [← hsplit']
    exact hlt
  · rw [hb, List.getLast?_concat]
  · intro i hi
    by_cases hiw : i = w
    · subst hiw
      rw [Heap.fill_data, if_pos rfl]
      rcases hlen with hl | ⟨-, hs⟩
      · rw [← hl] at hi
        exact fun he => hh.filled i hi (List.append_eq_nil_iff.mp he).1
      · exact fun he => hs (List.append_eq_nil_iff.mp he).2
    · rw [hother i hiw]
      refine hh.filled i ?_
      rcases hlen with rfl | ⟨rfl, -⟩
      · exact hi
      · obtain ⟨c, l', rfl⟩ := List.exists_cons_of_ne_nil hL
        simp only [List.cons_append, List.tail_cons, List.mem_append, List.mem_singleton] at hi
        exact hi.resolve_right hiw
  · intro i hi
    have hiw : i ≠ w := fun he => hwpost (he ▸ hi)
    rw [hother i hiw, Heap.fill_space, if_neg hiw]
    exact hh.room i (hpost i hi)
  · exact fun he => absurd he (by simp)
  · rw [hb]
    exact hh.size
  · rw [hb]
    exact fun k hk => hk
  · intro k r pos hk hr
    obtain ⟨M, hM⟩ := hext
    refine ⟨r, by rw [hb]; exact hk, ?_⟩
    rw [hM] at hbytes ⊢
    refine hr.grow hL hkept ?_
    rw [hbytes, List.length_append]
    exact Nat.le_add_right _ _
  · intro i _ hi
    rw [Heap.fill, Heap.set_block, if_neg]
    rintro rfl
    exact hi (by rw [hsplit]; simp)
  · intro i hi
    rw [hsplit, hsplit']
    exact Or.inl hi

/-! ## Appending a block -/

theorem Heap.chain_none (h : Heap) : h.chain none = [] := by
  rw [Heap.chain]
  cases h.fresh <;> rfl

/-- the blocks from a block on that is linked to no other -/
theorem Heap.chain_single {i : ℕ} (hn : h.next i = none) (hi : i < h.fresh) : h.chain (some i) = [i] :=
  Heap.chain_eq ⟨rfl, hn⟩ (by simpa using hi)

theorem ReaderAt.of_nil {r : IOBufferReader} {pos : ℕ} (hr : ReaderAt h [] r pos) : r = ⟨none, 0⟩ ∧ pos = 0 := by
  obtain ⟨l₁, l₂, hl, hb, -, hpos, hle⟩ := hr
  obtain ⟨rfl, rfl⟩ := List.append_eq_nil_iff.mp hl.symm
  rw [content_nil, List.length_nil] at hle hpos
  obtain rfl : pos = 0 := Nat.le_zero.mp hle
  obtain ⟨bl, off⟩ := r
  obtain rfl : bl = none := hb
  obtain rfl : off = 0 := (Nat.zero_add off).symm.trans hpos.symm
  exact ⟨rfl, rfl⟩

/-- the first block of a buffer; the readers that have been waiting get it -/
theorem append_first (hh : Holds h b [] post) (s : Bytes) (space : ℕ) :
    ∃ h' b', MIOBuffer.appendBlockInternal (h.alloc ⟨s, space, none⟩) b h.fresh = some (h', b') ∧ Grows h b [] post h' b' [h.fresh] [] s ∧
      (h'.block h.fresh).space = space ∧ h'.next h.fresh = none := by
  have hw : b.writer = none := hh.writer
  have hpost : post = [] := hh.start rfl
  have hblk : (h.alloc ⟨s, space, none⟩).block h.fresh = ⟨s, space, none⟩ := by rw [Heap.alloc_block, if_pos rfl]
  have hnext : (h.alloc ⟨s, space, none⟩).next h.fresh = none := by rw [Heap.next, hblk]
  have hold : ∀ i < h.fresh, (h.alloc ⟨s, space, none⟩).block i = h.block i := by
    intro i hi
    rw [Heap.alloc_block, if_neg hi.ne]
  refine ⟨h.alloc ⟨s, space, none⟩, { ({ b with writer := some h.fresh }).initReaders with writer := some h.fresh }, ?_, ⟨⟨⟨rfl, hnext⟩, ?_, rfl, by simp, by simp, fun _ => rfl, hh.size⟩, ?_, ⟨[h.fresh], rfl⟩, by simp,
    ?_, ?_, Nat.le_succ _, fun i hi _ => hold i hi, ?_⟩, by rw [hblk], hnext⟩
  · rw [MIOBuffer.appendBlockInternal, hw]
    dsimp only
    rw [hnext, Heap.chain_none]
    rfl
  · intro i hi
    rw [List.append_nil, List.mem_singleton] at hi
    rw [hi]
    exact Nat.lt_succ_self _
  · rw [content_cons, content_nil, hblk, List.append_nil, content_nil, List.nil_append]
  · intro k hk
    simp [MIOBuffer.initReaders, hk]
  · intro k r pos hk hr
    obtain ⟨rfl, rfl⟩ := hr.of_nil
    refine ⟨⟨some h.fresh, 0⟩, by simp [MIOBuffer.initReaders, hk], [], [h.fresh], rfl, rfl, by simp, rfl, Nat.zero_le _⟩
  · intro i hi
    rw [List.append_nil, List.mem_singleton] at hi
    exact Or.inr hi.ge

/-- what linking a new block behind the write block does to the heap -/
structure Linked (h : Heap) (w : ℕ) (s : Bytes) (space : ℕ) (h' : Heap) : Prop where
  fresh : h'.fresh = h.fresh + 1
  block : ∀ i < h.fresh, i ≠ w → h'.block i = h.block i
  data : ∀ i < h.fresh, (h'.block i).data = (h.block i).data
  room : ∀ i < h.fresh, (h'.block i).space = (h.block i).space
  new : h'.block h.fresh = ⟨s, space, none⟩
  next : h'.next w = some h.fresh

theorem linked (hw : w < h.fresh) (s : Bytes) (space : ℕ) : Linked h w s space ((h.alloc ⟨s, space, none⟩).setNext w h.fresh) := by
  have hold : ∀ i < h.fresh, (h.alloc ⟨s, space, none⟩).block i = h.block i := fun i hi => by rw [Heap.alloc_block, if_neg hi.ne]
  refine ⟨rfl, ?_, ?_, ?_, ?_, ?_⟩
  · intro i hi hne
    rw [Heap.setNext, Heap.set_block, if_neg hne, hold i hi]
  · intro i hi
    rw [Heap.setNext_data, hold i hi]
  · intro i hi
    rw [Heap.setNext_space, hold i hi]
  · rw [Heap.setNext, Heap.set_block, if_neg hw.ne', Heap.alloc_block, if_pos rfl]
  · rw [Heap.setNext_next, if_pos rfl]

section Link

variable {l : List ℕ} {s : Bytes} {space : ℕ} {h' : Heap}

theorem Linked.link (hl : Linked h w s space h') (hh : Holds h b (l ++ [w]) post) :
    LSeg h'.next ((l ++ [w]) ++ [h.fresh]).head? ((l ++ [w]) ++ [h.fresh]) none := by
  have hlink := hh.link
  have hhead : ((l ++ [w]) ++ post).head? = ((l ++ [w]) ++ [h.fresh]).head? := by cases l <;> rfl
  rw [hhead] at hlink
  obtain ⟨k, h1, -⟩ := lseg_append.1 hlink
  have hnd : (l ++ [w]).Nodup := (List.nodup_append.mp hh.nodup).1
  have hnext : ∀ i ∈ l, h'.next i = h.next i := by
    intro i hi
    have hiw : i ≠ w := (List.nodup_append.mp hnd).2.2 i hi w (by simp)
    rw [Heap.next, hl.block i (hh.lt i (by simp [hi])) hiw]
    rfl
  refine lseg_append.2 ⟨some h.fresh, h1.redirect hnext hl.next, rfl, ?_⟩
  rw [Heap.next, hl.new]
  rfl

/-- the chain with the new block, whichever block is the write block -/
theorem Linked.grows (hl : Linked h w s space h') (hh : Holds h b (l ++ [w]) post) {b' : MIOBuffer} {L' post' : List ℕ}
    (hcase : s = [] ∧ 0 < space ∧ L' = l ++ [w] ∧ post' = [h.fresh] ∨ s ≠ [] ∧ L' = (l ++ [w]) ++ [h.fresh] ∧ post' = [])
    (hb : b' = { b with writer := L'.getLast? }) : Grows h b (l ++ [w]) post h' b' L' post' s := by
  have hall : L' ++ post' = (l ++ [w]) ++ [h.fresh] := by
    rcases hcase with ⟨-, -, rfl, rfl⟩ | ⟨-, rfl, rfl⟩
    · rfl
    · rw [List.append_nil]
  obtain ⟨M, hM⟩ : ∃ M, L' = (l ++ [w]) ++ M := by
    rcases hcase with ⟨-, -, rfl, -⟩ | ⟨-, rfl, -⟩
    · exact ⟨[], (List.append_nil _).symm⟩
    · exact ⟨_, rfl⟩
  have hold : ∀ i ∈ l ++ [w], i < h.fresh := fun i hi => hh.lt i (List.mem_append_left _ hi)
  have hcw : content h' (l ++ [w]) = content h (l ++ [w]) := content_congr fun i hi => hl.data i (hold i hi)
  have hbytes : content h' L' = content h (l ++ [w]) ++ s := by
    rcases hcase with ⟨hs, -, rfl, -⟩ | ⟨-, rfl, -⟩
    · rw [hcw, hs, List.append_nil]
    · rw [content_append, hcw, content_cons, content_nil, hl.new, List.append_nil]
  have hkept : ∀ i ∈ (l ++ [w]).dropLast, (h'.block i).data = (h.block i).data :=
    fun i hi => hl.data i (hold i (List.dropLast_subset _ hi))
  refine ⟨⟨by rw [hall]; exact hl.link hh, ?_, by rw [hb], ?_, ?_, ?_, by rw [hb]; exact hh.size⟩, hbytes, ⟨M, hM⟩, hkept,
    fun k hk => by rw [hb]; exact hk, ?_, by rw [hl.fresh]; exact Nat.le_succ _, ?_, ?_⟩
  · intro i hi
    rw [hall] at hi
    rw [hl.fresh]
    rcases List.mem_append.mp hi with hi | hi
    · exact (hold i hi).trans (Nat.lt_succ_self _)
    · rw [List.mem_singleton.mp hi]
      exact Nat.lt_succ_self _
  · intro i hi
    rcases hcase with ⟨-, -, rfl, -⟩ | ⟨hs, rfl, -⟩
    · rw [hl.data i (hold i (List.mem_of_mem_tail hi))]
      exact hh.filled i hi
    · have htail : ((l ++ [w]) ++ [h.fresh]).tail = (l ++ [w]).tail ++ [h.fresh] := by cases l <;> rfl
      rw [htail] at hi
      rcases List.mem_append.mp hi with hi | hi
      · rw [hl.data i (hold i (List.mem_of_mem_tail hi))]
        exact hh.filled i hi
      · rw [List.mem_singleton.mp hi, hl.new]
        exact hs
  · intro i hi
    rcases hcase with ⟨hs, hsp, -, rfl⟩ | ⟨-, -, rfl⟩
    · rw [List.mem_singleton.mp hi, hl.new]
      exact ⟨hs, hsp⟩
    · simp at hi
  · intro he
    rw [hM] at he
    simp at he
  · intro k r pos hk hr
    refine ⟨r, by rw [hb]; exact hk, ?_⟩
    rw [hM] at hbytes ⊢
    refine hr.grow (by simp) hkept ?_
    rw [hbytes, List.length_append]
    exact Nat.le_add_right _ _
  · intro i hi hmem
    refine hl.block i hi ?_
    rintro rfl
    exact hmem (by simp)
  · intro i hi
    rw [hall] at hi
    rcases List.mem_append.mp hi with hi | hi
    · exact Or.inl (List.mem_append_left _ hi)
    · exact Or.inr (List.mem_singleton.mp hi).ge

/-- a block with bytes becomes the write block, one without is put behind it -/
theorem append_behind (hh : Holds h b (l ++ [w]) post) (hs : s = [] → 0 < space) :
    ∃ h' b' L' post', MIOBuffer.appendBlockInternal (h.alloc ⟨s, space, none⟩) b h.fresh = some (h', b') ∧
      Grows h b (l ++ [w]) post h' b' L' post' s ∧ Linked h w s space h' ∧
      (s = [] ∧ 0 < space ∧ L' = l ++ [w] ∧ post' = [h.fresh] ∨ s ≠ [] ∧ L' = (l ++ [w]) ++ [h.fresh] ∧ post' = []) := by
  have hw : b.writer = some w := by rw [hh.writer, List.getLast?_concat]
  have hwlt : w < h.fresh := hh.lt w (by simp)
  have hl := linked hwlt s space
  have hlink := hh.link
  have hnext : (h.alloc ⟨s, space, none⟩).next w = post.head? := by
    rw [List.append_assoc, List.singleton_append] at hlink
    rw [← hlink.suffix.head, Heap.next, Heap.alloc_block, if_neg hwlt.ne]
    rfl
  have hassert : ((h.alloc ⟨s, space, none⟩).next w).all
      (fun n => decide (((h.alloc ⟨s, space, none⟩).block n).readAvail = 0)) = true := by
    rw [hnext]
    cases post with
    | nil => rfl
    | cons p post =>
      have hp : p < h.fresh := hh.lt p (by simp)
      simp only [List.head?_cons, Option.all_some, Heap.alloc_block, if_neg hp.ne, decide_eq_true_iff, IOBufferBlock.readAvail]
      rw [(hh.room p (by simp)).1]
      rfl
  obtain ⟨h', hh'⟩ : ∃ h', h' = (h.alloc ⟨s, space, none⟩).setNext w h.fresh := ⟨_, rfl⟩
  rw [← hh'] at hl
  have hnew : h'.next h.fresh = none := by rw [Heap.next, hl.new]
  have hchain : h'.chain (some h.fresh) = [h.fresh] := Heap.chain_single hnew (by rw [hl.fresh]; exact Nat.lt_succ_self _)
  have havail : (h'.block h.fresh).readAvail = s.length := by rw [IOBufferBlock.readAvail, hl.new]
  rw [MIOBuffer.appendBlockInternal, hw]
  dsimp only
  rw [if_pos hassert, ← hh', hchain]
  by_cases he : s = []
  · have hcase : s = [] ∧ 0 < space ∧ l ++ [w] = l ++ [w] ∧ [h.fresh] = [h.fresh] ∨
        s ≠ [] ∧ l ++ [w] = (l ++ [w]) ++ [h.fresh] ∧ [h.fresh] = [] := Or.inl ⟨he, hs he, rfl, rfl⟩
    have hloop : MIOBuffer.writerLoop h' w [h.fresh] = w := by
      rw [MIOBuffer.writerLoop, if_neg]
      rw [havail, he]
      exact fun hne => hne rfl
    have hadv : MIOBuffer.advanceLoop h' w (h'.chain (h'.next w)) = w := by
      rw [hl.next, hchain, MIOBuffer.advanceLoop, if_neg]
      rw [havail, he]
      exact fun hne => hne.2 rfl
    rw [hloop, hadv]
    refine ⟨h', _, l ++ [w], [h.fresh], rfl, hl.grows hh hcase ?_, hl, hcase⟩
    rw [List.getLast?_concat]
  · have hcase : s = [] ∧ 0 < space ∧ (l ++ [w]) ++ [h.fresh] = l ++ [w] ∧ [] = [h.fresh] ∨
        s ≠ [] ∧ (l ++ [w]) ++ [h.fresh] = (l ++ [w]) ++ [h.fresh] ∧ ([] : List ℕ) = [] := Or.inr ⟨he, rfl, rfl⟩
    have hlen : s.length ≠ 0 := fun h0 => he (List.length_eq_zero_iff.mp h0)
    have hloop : MIOBuffer.writerLoop h' w [h.fresh] = h.fresh := by
      rw [MIOBuffer.writerLoop, if_pos (by rw [havail]; exact hlen), MIOBuffer.writerLoop]
    rw [hloop, hnew, Heap.chain_none, MIOBuffer.advanceLoop]
    refine ⟨h', _, (l ++ [w]) ++ [h.fresh], [], rfl, hl.grows hh hcase ?_, hl, hcase⟩
    rw [List.getLast?_concat]

end Link

/-- a block with bytes: it becomes the write block, and only the old write block is linked to it -/
theorem appendBlock_spec (hh : Holds h b L post) {s : Bytes} (hs : s ≠ []) (space : ℕ) :
    ∃ h' b', MIOBuffer.appendBlock h b s space = some (h', b') ∧ Grows h b L post h' b' (L ++ [h.fresh]) [] s ∧
      (∀ i < h.fresh, (h'.block i).data = (h.block i).data) ∧ ∀ i < h.fresh, L.getLast? ≠ some i → h'.block i = h.block i := by
  rw [MIOBuffer.appendBlock, if_neg hs]
  rcases List.eq_nil_or_concat' L with rfl | ⟨l, w, rfl⟩
  · obtain ⟨h', b', happ, hg, -⟩ := append_first hh s space
    have hold : ∀ i < h.fresh, h'.block i = h.block i := by
      intro i hi
      exact hg.frame.block i hi (by rw [hh.start rfl]; simp)
    exact ⟨h', b', happ, hg, fun i hi => by rw [hold i hi], fun i hi _ => hold i hi⟩
  · obtain ⟨h', b', L', post', happ, hg, hl, hcase⟩ := append_behind hh fun he : s = [] => (absurd he hs : 0 < space)
    obtain ⟨-, rfl, rfl⟩ := hcase.resolve_left fun hc => hs hc.1
    refine ⟨h', b', happ, hg, hl.data, fun i hi hne => hl.block i hi ?_⟩
    rintro rfl
    exact hne (List.getLast?_concat ..)

/-- a fresh block: it is put behind the write block, unless it is the first one -/
theorem appendFresh_spec (hh : Holds h b L post) {sizeIndex : ℤ} (hi : bufferSizeAllocated sizeIndex = true) :
    ∃ h' b' L' post', MIOBuffer.appendFresh h b sizeIndex = some (h', b') ∧ Grows h b L post h' b' L' post' [] ∧
      (L = [] ∧ L' ≠ [] ∨ L ≠ [] ∧ L' = L ∧ ∃ p, post' = [p]) := by
  have hsize : 0 < indexToBufferSize sizeIndex := by
    rw [bufferSizeAllocated, decide_eq_true_iff] at hi
    unfold indexToBufferSize
    split_ifs
    · omega
    · positivity
  rw [MIOBuffer.appendFresh, if_pos hi]
  rcases List.eq_nil_or_concat' L with rfl | ⟨l, w, rfl⟩
  · obtain ⟨h', b', happ, hg, -⟩ := append_first hh [] (indexToBufferSize sizeIndex)
    exact ⟨h', b', [h.fresh], [], happ, hg, Or.inl ⟨rfl, List.cons_ne_nil _ _⟩⟩
  · obtain ⟨h', b', L', post', happ, hg, -, hcase⟩ := append_behind hh (s := []) fun _ => hsize
    obtain ⟨-, -, hL', hpost'⟩ := hcase.resolve_right fun hc => hc.1 rfl
    exact ⟨h', b', L', post', happ, hg, Or.inr ⟨by simp, hL', h.fresh, hpost'⟩⟩

end

end TrafficServer.IOBuffer
