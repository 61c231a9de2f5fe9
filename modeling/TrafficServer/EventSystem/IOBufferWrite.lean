/-
The loops of `write`, of `fill` and of `write` from a reader.

`write` and `fill` go on in the block behind the write block when that is full; there is a byte for it then, so it becomes a filled block.
-/
import Mathlib
import TrafficServer.EventSystem.IOBufferOps

namespace TrafficServer.IOBuffer

open TrafficServer.LinkSeg

variable {h : Heap} {b : MIOBuffer} {L l post : List ℕ} {w p : ℕ}

/-- the operation succeeds and adds the bytes `added` -/
def Adds (h : Heap) (b : MIOBuffer) (L post : List ℕ) (res : Option (Heap × MIOBuffer)) (added : Bytes) : Prop :=
  ∃ h' b' L' post', res = some (h', b') ∧ Grows h b L post h' b' L' post' added

theorem Grows.adds {h' : Heap} {b' : MIOBuffer} {L' post' : List ℕ} {res : Option (Heap × MIOBuffer)} {s t : Bytes}
    (h1 : Grows h b L post h' b' L' post' s) (h2 : Adds h' b' L' post' res t) : Adds h b L post res (s ++ t) := by
  obtain ⟨h'', b'', L'', post'', hres, hg⟩ := h2
  exact ⟨h'', b'', L'', post'', hres, h1.trans hg⟩

/-- bytes for the write block -/
theorem grows_fill_writer (hh : Holds h b (l ++ [w]) post) (s : Bytes) :
    Grows h b (l ++ [w]) post (h.fill w s) b (l ++ [w]) post s := by
  have hb : b = { b with writer := some w } := by
    have hw := hh.writer
    rw [List.getLast?_concat] at hw
    rw [← hw]
  exact grows_fill hh (by simp) (by simp) (Or.inl rfl) hb

/-- bytes for the block behind the write block -/
theorem grows_fill_behind (hh : Holds h b L (p :: post)) (hL : L ≠ []) {s : Bytes} (hs : s ≠ []) :
    Grows h b L (p :: post) (h.fill p s) { b with writer := some p } (L ++ [p]) post s :=
  grows_fill hh hL rfl (Or.inr ⟨rfl, hs⟩) rfl

/-- the block behind the write block -/
theorem Holds.next_writer (hh : Holds h b (l ++ [w]) post) : h.next w = post.head? := by
  have hlink := hh.link
  rw [List.append_assoc, List.singleton_append] at hlink
  exact hlink.suffix.head

/-! ## `fill` -/

/-- `fill` in the block behind the write block -/
theorem fillLoop_behind (fuel : ℕ) {s : Bytes} (hh : Holds h b L (p :: post)) (hL : L ≠ []) (hs : s ≠ [])
    (hroom : s.length ≤ ((p :: post).map fun i => (h.block i).space).sum) (hf : post.length < fuel) :
    Adds h b L (p :: post) (MIOBuffer.fillLoop fuel h { b with writer := some p } s) s := by
  induction post generalizing h b L p s fuel with
  | nil =>
    obtain ⟨fuel, rfl⟩ := Nat.exists_eq_succ_of_ne_zero (Nat.ne_zero_of_lt hf)
    simp only [List.map_cons, List.map_nil, List.sum_cons, List.sum_nil, Nat.add_zero] at hroom
    refine ⟨_, _, _, _, ?_, grows_fill_behind hh hL hs⟩
    simp only [MIOBuffer.fillLoop, Option.bind_eq_bind, Option.bind_some, if_neg (Nat.not_lt.mpr hroom)]
  | cons q post ih =>
    obtain ⟨fuel, rfl⟩ := Nat.exists_eq_succ_of_ne_zero (Nat.ne_zero_of_lt hf)
    by_cases hlt : (h.block p).space < s.length
    · have hpos : 0 < (h.block p).space := (hh.room p List.mem_cons_self).2
      have htake : s.take (h.block p).space ≠ [] := by
        intro he
        rw [List.take_eq_nil_iff] at he
        rcases he with he | he
        · omega
        · exact hs he
      have hdrop : s.drop (h.block p).space ≠ [] := by
        intro he
        rw [List.drop_eq_nil_iff] at he
        omega
      have hg := grows_fill_behind hh hL htake
      have hnext : (h.fill p (s.take (h.block p).space)).next p = some q := by
        have := hg.holds.next_writer
        simpa using this
      -- the room behind it is as it was
      have hqp : p ∉ q :: post := by
        have hnd := hh.nodup
        rw [List.nodup_append] at hnd
        exact (List.nodup_cons.mp hnd.2.1).1
      have hspaces : ((q :: post).map fun i => ((h.fill p (s.take (h.block p).space)).block i).space) =
          (q :: post).map fun i => (h.block i).space := by
        refine List.map_congr_left fun i hi => ?_
        rw [Heap.fill_space, if_neg]
        rintro rfl
        exact hqp hi
      have hrest := ih fuel hg.holds (by simp) hdrop (by
        rw [hspaces, List.length_drop]
        rw [List.map_cons, List.sum_cons] at hroom
        omega) (Nat.lt_of_succ_lt_succ hf)
      have hall := hg.adds hrest
      rw [List.take_append_drop] at hall
      simp only [MIOBuffer.fillLoop, Option.bind_eq_bind, Option.bind_some, if_pos hlt, hnext]
      exact hall
    · refine ⟨_, _, _, _, ?_, grows_fill_behind hh hL hs⟩
      simp only [MIOBuffer.fillLoop, Option.bind_eq_bind, Option.bind_some, if_neg hlt]

theorem currentWriteAvail_eq (hh : Holds h b (l ++ [w]) post) :
    b.currentWriteAvail h = (h.block w).space + (post.map fun i => (h.block i).space).sum := by
  have hw : b.writer = [w].head? := by rw [hh.writer, List.getLast?_concat]; rfl
  rw [MIOBuffer.currentWriteAvail, Heap.chainBlocks, hw, hh.chain_suffix rfl (by simp)]
  simp [Function.comp_def]

/-- `fill` of no more than the space available adds the bytes -/
theorem fill_spec (hh : Holds h b L post) (hw : b.writer ≠ none) {s : Bytes} (hs : s.length ≤ b.currentWriteAvail h) :
    Adds h b L post (b.fill h s) s := by
  rcases List.eq_nil_or_concat' L with rfl | ⟨l, w, rfl⟩
  · exact absurd hh.writer hw
  · rw [currentWriteAvail_eq hh] at hs
    have hbw : b.writer = some w := by rw [hh.writer, List.getLast?_concat]
    rw [MIOBuffer.fill, MIOBuffer.fillLoop]
    simp only [hbw, Option.bind_eq_bind, Option.bind_some]
    by_cases hlt : (h.block w).space < s.length
    · rw [if_pos hlt]
      cases post with
      | nil =>
        simp only [List.map_nil, List.sum_nil, Nat.add_zero] at hs
        exact absurd hlt (Nat.not_lt.mpr hs)
      | cons p post =>
        have hg := grows_fill_writer hh (s.take (h.block w).space)
        have hdrop : s.drop (h.block w).space ≠ [] := by
          intro he
          rw [List.drop_eq_nil_iff] at he
          omega
        have hnext : (h.fill w (s.take (h.block w).space)).next w = some p := by
          rw [Heap.fill_next, hh.next_writer]
          rfl
        have hwp : w ∉ p :: post := by
          intro hm
          exact (List.nodup_append.mp hh.nodup).2.2 w (by simp) w hm rfl
        have hspaces : ((p :: post).map fun i => ((h.fill w (s.take (h.block w).space)).block i).space) =
            (p :: post).map fun i => (h.block i).space := by
          refine List.map_congr_left fun i hi => ?_
          rw [Heap.fill_space, if_neg]
          rintro rfl
          exact hwp hi
        have hfuel : post.length < h.fresh := by
          have hle := Heap.length_le_fresh hh.link hh.lt
          simp only [List.length_append, List.length_cons, List.length_nil] at hle
          omega
        have hrest := fillLoop_behind h.fresh hg.holds (by simp) hdrop (by
          rw [hspaces, List.length_drop]
          omega) hfuel
        have hall := hg.adds hrest
        rw [List.take_append_drop] at hall
        simp only [hnext, Option.bind_some]
        exact hall
    · rw [if_neg hlt]
      exact ⟨_, _, _, _, rfl, grows_fill_writer hh s⟩

/-! ## `write` of bytes -/

theorem writeLoop_nil {fuel : ℕ} (hf : 0 < fuel) (h : Heap) (b : MIOBuffer) : MIOBuffer.writeLoop fuel h b [] = some (h, b) := by
  obtain ⟨fuel, rfl⟩ := Nat.exists_eq_succ_of_ne_zero hf.ne'
  rfl

/-- a round with a write block -/
theorem writeLoop_round {fuel : ℕ} {s : Bytes} (hs : s ≠ []) (hw : b.writer = some w) :
    MIOBuffer.writeLoop (fuel + 1) h b s =
      let f := min (h.block w).space s.length
      let h' := h.fill w (s.take f)
      if s.drop f = [] then MIOBuffer.writeLoop fuel h' b (s.drop f)
      else
        match h'.next w with
        | none => (MIOBuffer.addBlock h' b).bind fun (h', b) => MIOBuffer.writeLoop fuel h' b (s.drop f)
        | some n => MIOBuffer.writeLoop fuel h' { b with writer := some n } (s.drop f) := by
  rw [MIOBuffer.writeLoop, if_neg hs]
  simp only [Option.bind_eq_bind, Option.bind_some, hw]
  rfl

/-- the rest of at most `n` bytes is written when the write block has been moved to a block without bytes -/
def WritesBehind (n : ℕ) : Prop :=
  ∀ {h : Heap} {b : MIOBuffer} {L post : List ℕ} {p : ℕ} {s : Bytes} {fuel : ℕ}, Holds h b L (p :: post) → L ≠ [] → s ≠ [] →
    s.length ≤ n → 2 * s.length ≤ fuel → Adds h b L (p :: post) (MIOBuffer.writeLoop fuel h { b with writer := some p } s) s

/-- the write block has a block behind it -/
theorem WritesBehind.linked {n : ℕ} (hn : WritesBehind n) (hh : Holds h b (l ++ [w]) (p :: post)) {s : Bytes} (hs : s.length ≤ n)
    {fuel : ℕ} (hf : 2 * s.length + 1 ≤ fuel) : Adds h b (l ++ [w]) (p :: post) (MIOBuffer.writeLoop fuel h b s) s := by
  obtain ⟨fuel, rfl⟩ := Nat.exists_eq_succ_of_ne_zero (Nat.ne_zero_of_lt hf)
  by_cases hne : s = []
  · subst hne
    exact ⟨h, b, _, _, writeLoop_nil (Nat.succ_pos _) h b, Grows.refl hh⟩
  · have hw : b.writer = some w := by rw [hh.writer, List.getLast?_concat]
    have hg := grows_fill_writer hh (s.take (min (h.block w).space s.length))
    have hlen : (s.drop (min (h.block w).space s.length)).length ≤ s.length := by
      rw [List.length_drop]
      exact Nat.sub_le _ _
    have hpos := List.length_pos_iff.mpr hne
    suffices hrest : Adds _ _ _ _ (MIOBuffer.writeLoop (fuel + 1) h b s) (s.drop (min (h.block w).space s.length)) by
      have hall := hg.adds hrest
      rwa [List.take_append_drop] at hall
    rw [writeLoop_round hne hw]
    dsimp only
    by_cases hdrop : s.drop (min (h.block w).space s.length) = []
    · rw [if_pos hdrop, hdrop, writeLoop_nil (by omega)]
      exact ⟨_, _, _, _, rfl, Grows.refl hg.holds⟩
    · rw [if_neg hdrop, hg.holds.next_writer]
      exact hn hg.holds (by simp) hdrop (hlen.trans hs) (by omega)

/-- the write block has just been filled and a block is added behind it -/
theorem WritesBehind.added {n : ℕ} (hn : WritesBehind n) (hh : Holds h b (l ++ [w]) []) {s : Bytes} (hs : s.length ≤ n) {fuel : ℕ}
    (hf : 2 * s.length + 1 ≤ fuel) :
    Adds h b (l ++ [w]) [] ((MIOBuffer.addBlock h b).bind fun (h', b') => MIOBuffer.writeLoop fuel h' b' s) s := by
  obtain ⟨h', b', L', post', happ, hg, hcase⟩ := appendFresh_spec hh hh.size
  obtain ⟨-, rfl, q, rfl⟩ := hcase.resolve_left fun hc => absurd hc.1 (by simp)
  rw [MIOBuffer.addBlock, happ, Option.bind_some]
  exact hg.adds (hn.linked hg.holds hs hf)

theorem writesBehind (n : ℕ) : WritesBehind n := by
  induction n with
  | zero =>
    intro h b L post p s fuel _ _ hs hlen
    exact absurd (List.length_eq_zero_iff.mp (Nat.le_zero.mp hlen)) hs
  | succ n ih =>
    intro h b L post p s fuel hh hL hs hlen hf
    have hpos := List.length_pos_iff.mpr hs
    obtain ⟨fuel, rfl⟩ := Nat.exists_eq_succ_of_ne_zero (Nat.ne_zero_of_lt (show 0 < fuel by omega))
    have hroom : 0 < (h.block p).space := (hh.room p List.mem_cons_self).2
    have htake : s.take (min (h.block p).space s.length) ≠ [] := by
      intro he
      rw [List.take_eq_nil_iff] at he
      rcases he with he | he
      · omega
      · exact hs he
    have hg := grows_fill_behind hh hL htake
    have hlen' : (s.drop (min (h.block p).space s.length)).length < s.length := by
      rw [List.length_drop]
      omega
    suffices hrest : Adds _ _ _ _ (MIOBuffer.writeLoop (fuel + 1) h { b with writer := some p } s)
        (s.drop (min (h.block p).space s.length)) by
      have hall := hg.adds hrest
      rwa [List.take_append_drop] at hall
    rw [writeLoop_round hs rfl]
    dsimp only
    by_cases hdrop : s.drop (min (h.block p).space s.length) = []
    · rw [if_pos hdrop, hdrop, writeLoop_nil (by omega)]
      exact ⟨_, _, _, _, rfl, Grows.refl hg.holds⟩
    · rw [if_neg hdrop, hg.holds.next_writer]
      cases post with
      | nil => exact ih.added hg.holds (by omega) (by omega)
      | cons q post => exact ih hg.holds (by simp) hdrop (by omega) (by omega)

/-- the write block is there -/
theorem writeLoop_spec (hh : Holds h b (l ++ [w]) post) {s : Bytes} {fuel : ℕ} (hf : 2 * s.length + 3 ≤ fuel) :
    Adds h b (l ++ [w]) post (MIOBuffer.writeLoop fuel h b s) s := by
  obtain ⟨fuel, rfl⟩ := Nat.exists_eq_succ_of_ne_zero (Nat.ne_zero_of_lt hf)
  cases post with
  | cons p post => exact WritesBehind.linked (writesBehind s.length) hh le_rfl (by omega)
  | nil =>
    by_cases hne : s = []
    · subst hne
      exact ⟨h, b, _, _, writeLoop_nil (Nat.succ_pos _) h b, Grows.refl hh⟩
    · have hw : b.writer = some w := by rw [hh.writer, List.getLast?_concat]
      have hg := grows_fill_writer hh (s.take (min (h.block w).space s.length))
      have hlen : (s.drop (min (h.block w).space s.length)).length ≤ s.length := by
        rw [List.length_drop]
        exact Nat.sub_le _ _
      suffices hrest : Adds _ _ _ _ (MIOBuffer.writeLoop (fuel + 1) h b s) (s.drop (min (h.block w).space s.length)) by
        have hall := hg.adds hrest
        rwa [List.take_append_drop] at hall
      rw [writeLoop_round hne hw]
      dsimp only
      by_cases hdrop : s.drop (min (h.block w).space s.length) = []
      · rw [if_pos hdrop, hdrop, writeLoop_nil (by omega)]
        exact ⟨_, _, _, _, rfl, Grows.refl hg.holds⟩
      · rw [if_neg hdrop, hg.holds.next_writer]
        exact WritesBehind.added (writesBehind _) hg.holds le_rfl (by omega)

/-- `write` adds the bytes -/
theorem write_spec (hh : Holds h b L post) (s : Bytes) : Adds h b L post (b.write h s) s := by
  rw [MIOBuffer.write]
  rcases List.eq_nil_or_concat' L with rfl | ⟨l, w, rfl⟩
  · by_cases hne : s = []
    · subst hne
      exact ⟨h, b, _, _, writeLoop_nil (Nat.succ_pos _) h b, Grows.refl hh⟩
    · -- the first block
      obtain ⟨h', b', L', post', happ, hg, hcase⟩ := appendFresh_spec hh hh.size
      obtain ⟨-, hL'⟩ := hcase.resolve_right fun hc => hc.1 rfl
      obtain ⟨l, w, rfl⟩ := (List.eq_nil_or_concat' L').resolve_left hL'
      have hnone : b.writer.isNone = true := by rw [hh.writer]; rfl
      have hw : b'.writer = some w := by rw [hg.holds.writer, List.getLast?_concat]
      have hsome : b'.writer.isNone = false := by rw [hw]; rfl
      have hfirst : MIOBuffer.writeLoop (2 * s.length + 3) h b s = MIOBuffer.writeLoop (2 * s.length + 3) h' b' s := by
        rw [MIOBuffer.writeLoop, MIOBuffer.writeLoop, if_neg hne, if_neg hne]
        simp only [hnone, hsome, if_true, Bool.false_eq_true, if_false, MIOBuffer.addBlock, happ, Option.bind_eq_bind, Option.bind_some]
      rw [hfirst]
      exact hg.adds (writeLoop_spec hg.holds le_rfl)
  · exact writeLoop_spec hh le_rfl

/-! ## `write` from a reader -/

/-- a segment in a heap where only the last of its links may have changed -/
theorem lseg_keep {h h' : Heap} {o k : Option ℕ} {A : List ℕ} (hl : LSeg h.next o A k) (hA : ∀ a ∈ A.dropLast, h'.next a = h.next a) :
    ∃ k', LSeg h'.next o A k' ∧ ((∀ a ∈ A, h'.next a = h.next a) → k' = k) := by
  rcases List.eq_nil_or_concat' A with rfl | ⟨l, a, rfl⟩
  · exact ⟨k, hl, fun _ => rfl⟩
  · rw [List.dropLast_concat] at hA
    refine ⟨h'.next a, hl.redirect hA rfl, fun hall => ?_⟩
    obtain ⟨m, -, -, hk⟩ := lseg_append.1 hl
    rw [hall a (by simp)]
    exact hk

/-- The blocks `A` are still to be read. They end the chain of another buffer, or they hold all the bytes that are wanted; the write block
is not among them, unless it is the last. -/
structure Source (h : Heap) (L : List ℕ) (o : Option ℕ) (A : List ℕ) (len offset : ℕ) : Prop where
  lt : ∀ a ∈ A, a < h.fresh
  before : ∀ a ∈ A.dropLast, L.getLast? ≠ some a
  link : (LSeg h.next o A none ∧ ∀ a ∈ A, L.getLast? ≠ some a) ∨
    (∃ k, LSeg h.next o A k) ∧ (len = 0 ∨ len + offset ≤ (content h A).length)

theorem Source.seg {o : Option ℕ} {A : List ℕ} {len offset : ℕ} (hs : Source h L o A len offset) : ∃ k, LSeg h.next o A k := by
  rcases hs.link with ⟨hl, -⟩ | ⟨hl, -⟩
  · exact ⟨none, hl⟩
  · exact hl

theorem writeReaderLoop_spec (fuel : ℕ) {A : List ℕ} {o : Option ℕ} {len offset : ℕ} (hh : Holds h b L post)
    (hs : Source h L o A len offset) (hf : A.length < fuel) :
    ∃ len', ∃ h' b' L' post', MIOBuffer.writeReaderLoop fuel h b o len offset = some (h', b', len') ∧
      Grows h b L post h' b' L' post' (((content h A).drop offset).take len) ∧
      len' + (((content h A).drop offset).take len).length = len := by
  induction A generalizing h b L post o len offset fuel with
  | nil =>
    obtain ⟨fuel, rfl⟩ := Nat.exists_eq_succ_of_ne_zero (Nat.ne_zero_of_lt hf)
    have hnil : ((content h []).drop offset).take len = [] := by simp
    have hstop : MIOBuffer.writeReaderLoop (fuel + 1) h b o len offset = some (h, b, len) := by
      rcases hs.link with ⟨hl, -⟩ | ⟨⟨k, hl⟩, hlen⟩
      · obtain rfl : o = none := hl
        rfl
      · have h0 : len = 0 := by
          rcases hlen with h0 | hlen
          · exact h0
          · rw [content_nil, List.length_nil] at hlen
            omega
        rw [MIOBuffer.writeReaderLoop.eq_def]
        cases o with
        | none => rfl
        | some i => exact if_pos h0
    rw [hnil]
    exact ⟨len, h, b, L, post, hstop, Grows.refl hh, Nat.add_zero len⟩
  | cons i A ih =>
    obtain ⟨fuel, rfl⟩ := Nat.exists_eq_succ_of_ne_zero (Nat.ne_zero_of_lt hf)
    have hfuel : A.length < fuel := Nat.lt_of_succ_lt_succ hf
    obtain ⟨k, rfl, hl⟩ := hs.seg
    rw [MIOBuffer.writeReaderLoop]
    dsimp only
    by_cases h0 : len = 0
    · subst h0
      rw [if_pos rfl, List.take_zero]
      exact ⟨0, h, b, L, post, rfl, Grows.refl hh, rfl⟩
    · rw [if_neg h0]
      have hi : i < h.fresh := hs.lt i List.mem_cons_self
      have hAlt : ∀ a ∈ A, a < h.fresh := fun a ha => hs.lt a (List.mem_cons_of_mem i ha)
      have hbefore : ∀ a ∈ A.dropLast, L.getLast? ≠ some a := by
        intro a ha
        refine hs.before a ?_
        cases A with
        | nil => simp at ha
        | cons c A => exact List.mem_cons_of_mem i ha
      by_cases hoff : (h.block i).readAvail ≤ offset
      · -- the block is skipped
        rw [if_pos hoff]
        have hdrop : (content h (i :: A)).drop offset = (content h A).drop (offset - (h.block i).readAvail) := by
          rw [content_cons]
          exact IOBufferReader.drop_block hoff _
        rw [hdrop]
        refine ih fuel hh ⟨hAlt, hbefore, ?_⟩ hfuel
        rw [IOBufferBlock.readAvail] at hoff ⊢
        rcases hs.link with ⟨hn, hw⟩ | ⟨-, hlen⟩
        · exact Or.inl ⟨hn.2, fun a ha => hw a (List.mem_cons_of_mem i ha)⟩
        · refine Or.inr ⟨⟨k, hl⟩, Or.inr ?_⟩
          have := hlen.resolve_left h0
          rw [content_cons, List.length_append] at this
          omega
      · rw [if_neg hoff]
        have hlt : offset < (h.block i).data.length := Nat.lt_of_not_le hoff
        have hclone : ((h.block i).data.drop offset).take (min len ((h.block i).readAvail - offset)) =
            ((h.block i).data.drop offset).take len := by
          rw [IOBufferBlock.readAvail, ← List.length_drop, List.take_eq_take_iff]
          omega
        have hclonelen : (((h.block i).data.drop offset).take len).length = min len ((h.block i).readAvail - offset) := by
          rw [List.length_take, List.length_drop, IOBufferBlock.readAvail]
        have hne : ((h.block i).data.drop offset).take len ≠ [] := by
          intro he
          rw [he, List.length_nil, IOBufferBlock.readAvail] at hclonelen
          omega
        obtain ⟨h', b', happ, hg, hdata, hkeep⟩ := appendBlock_spec hh hne 0
        have hnext : ∀ a < h.fresh, L.getLast? ≠ some a → h'.next a = h.next a := by
          intro a ha hla
          rw [Heap.next, hkeep a ha hla]
          rfl
        have hcontent : content h' A = content h A := content_congr fun a ha => hdata a (hAlt a ha)
        have hbytes : ((content h (i :: A)).drop offset).take len =
            ((h.block i).data.drop offset).take len ++
              ((content h' A).drop 0).take (len - min len ((h.block i).readAvail - offset)) := by
          rw [content_cons, List.drop_append_of_le_length hlt.le, List.take_append, hcontent, List.drop_zero, List.length_drop,
            IOBufferBlock.readAvail]
          congr 2
          omega
        have hlast : ∀ a ∈ A, (L ++ [h.fresh]).getLast? ≠ some a := by
          intro a ha he
          rw [List.getLast?_concat] at he
          exact (hAlt a ha).ne (Option.some.inj he).symm
        -- the blocks behind `i`, after the clone has been appended
        obtain ⟨k', hl', hk'⟩ := lseg_keep (show LSeg h.next (some i) (i :: A) _ from ⟨rfl, hl⟩) fun a ha =>
          hnext a (hs.lt a (List.dropLast_subset _ ha)) (hs.before a ha)
        have hsource : Source h' (L ++ [h.fresh]) (h'.next i) A (len - min len ((h.block i).readAvail - offset)) 0 := by
          refine ⟨fun a ha => (hAlt a ha).trans_le hg.frame.fresh, fun a ha => hlast a (List.dropLast_subset _ ha), ?_⟩
          rcases hs.link with ⟨hn, hw⟩ | ⟨-, hlen⟩
          · have hkn : LSeg h'.next (some i) (i :: A) none := hn.congr fun a ha => hnext a (hs.lt a ha) (hw a ha)
            exact Or.inl ⟨hkn.2, hlast⟩
          · refine Or.inr ⟨⟨k', hl'.2⟩, Or.inr ?_⟩
            have := hlen.resolve_left h0
            rw [content_cons, List.length_append] at this
            rw [hcontent, IOBufferBlock.readAvail]
            omega
        obtain ⟨len', h'', b'', L'', post'', hloop, hg', hlen'⟩ := ih fuel hg.holds hsource hfuel
        rw [hbytes]
        refine ⟨len', h'', b'', L'', post'', ?_, hg.trans hg', ?_⟩
        · simp only [hclone, happ, Option.bind_eq_bind, Option.bind_some]
          exact hloop
        · rw [List.length_append, hclonelen]
          omega

end TrafficServer.IOBuffer
