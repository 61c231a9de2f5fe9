/-
Invariant of a write VC over its runs.

`Stream`: the bytes taken from the client are those in the fragments on disk, in order, then those in `blocks`; the counters
of the VC agree with this, no fragment is empty and fragment `i` is under the `i`-th key of the chain. `Table`: the table of
an alternate that is not an update holds the starts of the fragments from the second on. `Stage` says what else holds in each
handler; its last entry is what a call of `openWriteCloseDir` can rely on: with a positive `closed`, no refused write and an
alternate, the head has been written and holds what was left in `blocks`.

The client keeps to the contract of `do_io_close` in I_VConnection.h: after it, it does not use the VC (`ClientOk`).

Results: `step_inv`, `run_inv`.
-/
import TrafficServer.Lib.Pieces
import TrafficServer.Lib.Run
import TrafficServer.Cache.WriteVC

namespace TrafficServer.Cache.WriteVC

open TrafficServer.Run TrafficServer.Pieces

/-! ## Fragments of an object -/

/-- the position in the object of the first byte of fragment `i` -/
def fragStart (docs : List Doc) (i : ℕ) : ℕ := start (docs.map Doc.data) i

/-- the starts of all fragments but the first -/
def fragStarts (docs : List Doc) : List ℕ := (List.range' 1 (docs.length - 1)).map (fragStart docs)

theorem fragStart_length (docs : List Doc) : fragStart docs docs.length = (docs.map Doc.data).flatten.length := by
  unfold fragStart
  rw [← start_length, List.length_map]

theorem fragStart_append (docs : List Doc) (d : Doc) {i : ℕ} (hi : i ≤ docs.length) :
    fragStart (docs ++ [d]) i = fragStart docs i := by
  unfold fragStart
  rw [List.map_append]
  exact start_append _ (by rwa [List.length_map])

/-- a further fragment adds its own start to the starts -/
theorem fragStarts_append (docs : List Doc) (d : Doc) (h : docs ≠ []) :
    fragStarts (docs ++ [d]) = fragStarts docs ++ [fragStart docs docs.length] := by
  have hpos := List.length_pos_iff.2 h
  have hlen : (docs ++ [d]).length - 1 = (docs.length - 1) + 1 := by
    rw [List.length_append, List.length_singleton]
    omega
  have hlast : 1 + 1 * (docs.length - 1) = docs.length := by omega
  unfold fragStarts
  rw [hlen, List.range'_concat, List.map_append, List.map_singleton, hlast, fragStart_append docs d le_rfl]
  congr 1
  apply List.map_congr_left
  intro i hi
  have hi' := (List.mem_range'_1.1 hi).2
  exact fragStart_append docs d (by omega)

/-! ## The invariant -/

/-- bytes, fragments and counters of a VC -/
structure StreamOk (earliestKey key : CacheKey) (docs : List Doc) (consumed blocks : List UInt8)
    (totalLen fragment writePos : ℕ) : Prop where
  taken : consumed = (docs.map Doc.data).flatten ++ blocks
  total : totalLen = consumed.length
  short : blocks.length ≤ MAX_FRAG_SIZE
  nonempty : ∀ d ∈ docs, d.data ≠ []
  no_header : ∀ d ∈ docs, d.hlen = 0
  count : fragment = docs.length
  position : writePos = (docs.map Doc.data).flatten.length
  chain : key = fragmentKey earliestKey docs.length
  keys : docs.map Doc.key = (List.range docs.length).map (fragmentKey earliestKey)

def Stream (v : VC) : Prop :=
  StreamOk v.earliestKey v.key v.docs v.consumed v.blocks v.totalLen v.fragment v.writePos

/-- an update may replace the table by another alternate's, and keeps the other's key if it has no body -/
def Table (v : VC) : Prop :=
  v.update = false → ∀ a, v.alternate = some a → a.objectKey = v.earliestKey ∧ a.fragOffsets = fragStarts v.docs

/-- no head has been begun and none has been admitted -/
def Fresh (v : VC) : Prop := v.admits = [] ∧ v.head = none ∧ v.rewriteResidentAlt = false ∧ v.dataDone = false

/-- the fragment that is being written is not empty, and its bytes are there -/
def Writing (v : VC) : Prop := 0 < v.writeLen ∧ v.writeLen ≤ v.blocks.length

/-- the head takes all that is left; nothing is left if there are fragments -/
def HeadReady (v : VC) : Prop :=
  v.admits = [] ∧ v.head = none ∧ v.rewriteResidentAlt = false ∧ v.blocks.length ≤ v.writeLen ∧
    (v.fragment ≠ 0 → v.blocks = [])

/-- the alternate in the vector has the size of the object -/
def SizeOk (v : VC) : Prop := v.http = true → v.update = false → ∀ a, v.alternate = some a → a.objectSize = v.totalLen

/-- the head is being written: with all that is left, or with another alternate and nothing left -/
def HeadWriting (v : VC) : Prop :=
  v.admits = [] ∧ v.head = none ∧ (v.rewriteResidentAlt = true → v.blocks = []) ∧
    (v.rewriteResidentAlt = false → v.blocks.length ≤ v.writeLen) ∧ (v.fragment ≠ 0 → v.blocks = []) ∧ SizeOk v

/-- a head holds what was left, which is nothing if there are fragments, and the alternate with its size -/
def HeadOk (v : VC) : Prop := ∀ h, v.head = some h → h = v.blocks ∧ (v.fragment ≠ 0 → v.blocks = []) ∧ SizeOk v

/-- what a call of `openWriteCloseDir` finds -/
def Closing (v : VC) : Prop :=
  v.admits = [] ∧ HeadOk v ∧ (0 < v.closed → v.ioOk = true → v.alternate.isSome → v.head.isSome)

def Stage (v : VC) : Prop :=
  match v.handler with
  | .openWriteMain => Fresh v ∧ v.ioInProgress = false
  | .openWriteWriteDone => Fresh v ∧ Writing v
  | .openWriteClose => Fresh v ∧ v.ioInProgress = false ∧ v.closed ≠ 0
  | .openWriteCloseDataDone => Fresh v ∧ Writing v ∧ v.closed ≠ 0
  | .updateVector => HeadReady v ∧ v.closed ≠ 0
  | .openWriteCloseHeadDone => HeadWriting v ∧ v.closed ≠ 0
  | .openWriteCloseDir => Closing v ∧ v.closed ≠ 0
  | .freed => False

/-- the invariant of a VC in use -/
structure Inv (v : VC) : Prop where
  stream : Stream v
  table : Table v
  stage : Stage v

/-- what is left of it when the VC has been freed -/
structure Freed (v : VC) : Prop where
  handler : v.handler = .freed
  stream : Stream v
  table : Table v
  head : HeadOk v

/-- after `do_io_close` the client does not use the VC -/
def ClientOk (v : VC) : Op → Prop
  | .fill _ => True
  | .event _ _ => True
  | _ => v.closed = 0

instance (v : VC) : DecidablePred (ClientOk v)
  | .event _ _ => isTrue trivial
  | .fill _ => isTrue trivial
  | .setHttpInfo _ _ => inferInstanceAs (Decidable (_ = _))
  | .doIoWrite _ _ => inferInstanceAs (Decidable (_ = _))
  | .setNbytes _ => inferInstanceAs (Decidable (_ = _))
  | .doIoClose _ _ => inferInstanceAs (Decidable (_ = _))

/-! ## Fragments -/

variable {cfg : Config} {w : World} {v v' : VC}

/-- no byte taken, so no fragment written -/
theorem Stream.docs_nil (h : Stream v) (h0 : v.totalLen = 0) : v.docs = [] ∧ v.blocks = [] := by
  have hlen : v.consumed.length = 0 := by rw [← h.total, h0]
  have happ : (v.docs.map Doc.data).flatten ++ v.blocks = [] := by rw [← h.taken, List.length_eq_zero_iff.1 hlen]
  obtain ⟨hdocs, hblocks⟩ := List.append_eq_nil_iff.1 happ
  refine ⟨?_, hblocks⟩
  rw [List.flatten_eq_nil_iff] at hdocs
  rw [List.eq_nil_iff_forall_not_mem]
  intro d hd
  exact h.nonempty d hd (hdocs _ (List.mem_map_of_mem hd))

theorem Stream.fragmentDone (h : Stream v) (hw : Writing v) : Stream v.fragmentDone := by
  have htake : (v.blocks.take v.writeLen).length = v.writeLen := by rw [List.length_take, min_eq_left hw.2]
  have hflat : ((v.docs ++ [(⟨v.key, 0, v.blocks.take v.writeLen⟩ : Doc)]).map Doc.data).flatten =
      (v.docs.map Doc.data).flatten ++ v.blocks.take v.writeLen := by
    simp
  constructor
  · calc v.consumed = (v.docs.map Doc.data).flatten ++ v.blocks := h.taken
      _ = (v.docs.map Doc.data).flatten ++ (v.blocks.take v.writeLen ++ v.blocks.drop v.writeLen) := by
        rw [List.take_append_drop]
      _ = _ := by rw [← List.append_assoc, ← hflat]; rfl
  · exact h.total
  · calc (v.blocks.drop v.writeLen).length = v.blocks.length - v.writeLen := List.length_drop
      _ ≤ v.blocks.length := Nat.sub_le _ _
      _ ≤ MAX_FRAG_SIZE := h.short
  · intro d hd
    rcases List.mem_append.1 hd with hd | hd
    · exact h.nonempty d hd
    · rw [List.mem_singleton.1 hd]
      intro hnil
      have hzero : v.writeLen = 0 := htake.symm.trans (congrArg List.length hnil)
      exact hw.1.ne' hzero
  · intro d hd
    rcases List.mem_append.1 hd with hd | hd
    · exact h.no_header d hd
    · rw [List.mem_singleton.1 hd]
  · change v.fragment + 1 = (v.docs ++ [_]).length
    rw [h.count, List.length_append, List.length_singleton]
  · change v.writePos + v.writeLen = _
    simp only [VC.fragmentDone]
    rw [hflat, List.length_append, htake, h.position]
  · change nextCacheKey v.key = fragmentKey v.earliestKey (v.docs ++ [_]).length
    rw [h.chain, next_fragmentKey, List.length_append, List.length_singleton]
  · change (v.docs ++ [_]).map Doc.key = _
    simp only [VC.fragmentDone, List.map_append, List.map_singleton, List.length_append, List.length_singleton,
      List.range_succ]
    rw [h.keys, ← h.chain]

theorem Table.fragmentDone (h : Table v) (hs : Stream v) : Table v.fragmentDone := by
  intro hup a ha
  simp only [VC.fragmentDone] at hup ha ⊢
  split_ifs at ha with h0
  · -- the first fragment has no place in the table
    have hdocs : v.docs = [] := List.length_eq_zero_iff.1 (by rw [← hs.count, h0])
    obtain ⟨hkey, hoff⟩ := h hup a ha
    refine ⟨hkey, ?_⟩
    rw [hoff, hdocs]
    rfl
  · obtain ⟨b, hb, rfl⟩ := Option.map_eq_some_iff.1 ha
    obtain ⟨hkey, hoff⟩ := h hup b hb
    have hne : v.docs ≠ [] := by
      intro hnil
      rw [hs.count, hnil] at h0
      exact h0 rfl
    refine ⟨hkey, ?_⟩
    rw [fragStarts_append v.docs _ hne, fragStart_length, ← hs.position, ← hoff]
    rfl

/-! ## Closing -/

theorem ioDone_some {aio : Option Bool} (h : v.ioDone aio = some v') :
    ∃ ok, v' = { v with ioInProgress := false, ioOk := ok } := by
  unfold VC.ioDone at h
  split_ifs at h with hio
  · obtain ⟨ok, -, rfl⟩ := Option.map_eq_some_iff.1 h
    exact ⟨_, rfl⟩
  · refine ⟨v.ioOk, ?_⟩
    rw [← Option.some.inj h, ← Bool.eq_false_of_not_eq_true hio]

theorem ioDone_idle {aio : Option Bool} (h : v.ioInProgress = false) : v.ioDone aio = some v := by
  unfold VC.ioDone
  rw [h]
  rfl

theorem headOk_of_none (h : v.head = none) : HeadOk v := by
  intro d hd
  rw [h] at hd
  exact absurd hd.symm (Option.some_ne_none d)

/-- a close that failed has nothing to show -/
theorem closing_of_failed (hadmits : v.admits = []) (hhead : v.head = none)
    (h : ¬ (0 < v.closed ∧ v.ioOk = true ∧ v.alternate.isSome)) : Closing v :=
  ⟨hadmits, headOk_of_none hhead, fun hc hio ha => absurd ⟨hc, hio, ha⟩ h⟩

theorem Inv.callCloseDir (hs : Stream v) (ht : Table v) (hc : Closing v) (h0 : v.closed ≠ 0) : Inv v.callCloseDir :=
  ⟨hs, ht, hc, h0⟩

theorem Inv.headDone (hs : Stream v) (ht : Table v) (hh : HeadWriting v) (h0 : v.closed ≠ 0)
    (hhandler : v.handler = .openWriteCloseHeadDone) (aio : Option Bool) (w : World) :
    Inv (v.openWriteCloseHeadDone aio w) := by
  have hstage : Stage v := by
    unfold Stage
    rw [hhandler]
    exact ⟨hh, h0⟩
  unfold VC.openWriteCloseHeadDone
  cases hdone : v.ioDone aio with
  | none => exact ⟨hs, ht, hstage⟩
  | some v' =>
    obtain ⟨ok, rfl⟩ := ioDone_some hdone
    dsimp only
    obtain ⟨hadmits, hhead, hmoved, hlen, hrest⟩ := hh
    split_ifs with hbusy hok hres
    · refine ⟨hs, ht, ?_⟩
      unfold Stage
      simp only [hhandler]
      exact ⟨⟨hadmits, hhead, hmoved, hlen, hrest⟩, h0⟩
    · -- another alternate was written with the head; of this object nothing was left
      refine Inv.callCloseDir hs ht ⟨hadmits, fun d hd => ⟨?_, hrest⟩, fun _ _ _ => rfl⟩ h0
      exact (Option.some.inj hd).symm.trans (hmoved hres).symm
    · refine Inv.callCloseDir hs ht ⟨hadmits, fun d hd => ⟨?_, hrest⟩, fun _ _ _ => rfl⟩ h0
      have hall := List.take_of_length_le (hlen (Bool.eq_false_of_not_eq_true hres))
      exact (Option.some.inj hd).symm.trans hall
    · exact Inv.callCloseDir hs ht (closing_of_failed hadmits hhead fun h => hok h.2.1) h0

theorem Table.vectorInfo (h : Table v) (w : World) : Table { v with alternate := v.alternate.map (v.vectorInfo w) } := by
  intro hup a ha
  obtain ⟨b, hb, rfl⟩ := Option.map_eq_some_iff.1 ha
  have hup' : v.update = false := hup
  obtain ⟨hkey, hoff⟩ := h hup' b hb
  simp only [VC.vectorInfo, hup']
  exact ⟨hkey, hoff⟩

theorem Inv.updateVector (hs : Stream v) (ht : Table v) (hr : HeadReady v) (h0 : v.closed ≠ 0) (hstage : Stage v)
    (w : World) : Inv (v.updateVector w) := by
  obtain ⟨hadmits, hhead, hres, hlen, hfrag⟩ := hr
  unfold VC.updateVector
  split_ifs with hbusy hgone
  · exact ⟨hs, ht, hstage⟩
  · refine Inv.callCloseDir hs ht (closing_of_failed hadmits hhead ?_) h0
    intro h
    rw [Option.isNone_iff_eq_none.1 hgone.2.1] at h
    exact Bool.false_ne_true h.2.2
  · refine ⟨hs, ht.vectorInfo w, ⟨hadmits, hhead, fun hmoved => ?_, fun hmoved => ?_, hfrag, ?_⟩, h0⟩
    · dsimp only at hmoved
      rw [hres, Bool.false_or, decide_eq_true_iff] at hmoved
      rcases hmoved.2 with hf | ⟨-, h00⟩
      · exact hfrag hf
      · exact (hs.docs_nil h00).2
    · dsimp only at hmoved ⊢
      rw [hres, Bool.false_or, decide_eq_false_iff_not] at hmoved
      rw [if_neg hmoved]
      exact hlen
    · intro _ hup a ha
      obtain ⟨b, -, rfl⟩ := Option.map_eq_some_iff.1 ha
      have hup' : v.update = false := hup
      simp only [VC.vectorInfo, hup', Bool.false_eq_true, not_false_eq_true, true_or, if_true]

/-- the head takes `length` bytes, or none if the rest has been written before it -/
theorem Inv.closeHead (hs : Stream v) (ht : Table v) (hadmits : v.admits = []) (hhead : v.head = none)
    (hres : v.rewriteResidentAlt = false) (h0 : v.closed ≠ 0) (hdata : v.dataDone = true → v.blocks = [])
    (hfrag : v.fragment ≠ 0 → v.blocks = []) (w : World) : Inv (v.openWriteCloseHead w) := by
  have hlen : v.blocks.length ≤ if v.dataDone then 0 else v.length := by
    split_ifs with hd
    · rw [hdata hd, List.length_nil]
    · exact le_rfl
  unfold VC.openWriteCloseHead
  by_cases hok : v.ioOk = true
  · rw [if_pos hok]
    dsimp only
    by_cases hhttp : v.http = true
    · rw [if_pos hhttp]
      apply Inv.updateVector
      · exact hs
      · exact ht
      · exact ⟨hadmits, hhead, hres, hlen, hfrag⟩
      · exact h0
      · exact ⟨⟨hadmits, hhead, hres, hlen, hfrag⟩, h0⟩
    · rw [if_neg hhttp]
      refine ⟨hs, ht, ⟨hadmits, hhead, fun hmoved => ?_, fun _ => hlen, hfrag, fun hhttp' => absurd hhttp' hhttp⟩, h0⟩
      exact absurd (hres.symm.trans hmoved) Bool.false_ne_true
  · rw [if_neg hok]
    exact Inv.callCloseDir hs ht (closing_of_failed hadmits hhead fun h => hok h.2.1) h0

theorem Inv.dataDone (hs : Stream v) (ht : Table v) (hf : Fresh v) (hw : Writing v) (h0 : v.closed ≠ 0)
    (hhandler : v.handler = .openWriteCloseDataDone) (aio : Option Bool) (w : World) :
    Inv (v.openWriteCloseDataDone aio w) := by
  unfold VC.openWriteCloseDataDone
  cases hdone : v.ioDone aio with
  | none =>
    refine ⟨hs, ht, ?_⟩
    unfold Stage
    rw [hhandler]
    exact ⟨hf, hw, h0⟩
  | some v' =>
    obtain ⟨ok, rfl⟩ := ioDone_some hdone
    dsimp only
    by_cases hok : ok = true
    swap
    · rw [if_pos hok]
      exact Inv.callCloseDir hs ht (closing_of_failed hf.1 hf.2.1 fun h => hok h.2.1) h0
    rw [if_neg (not_not.2 hok)]
    split_ifs with hbusy hmore
    · refine ⟨hs, ht, ?_⟩
      unfold Stage
      simp only [hhandler]
      exact ⟨hf, hw, h0⟩
    · -- a further fragment
      refine ⟨hs.fragmentDone hw, ht.fragmentDone hs, ?_⟩
      simp only [Stage, VC.writeRest, VC.fragmentDone, hhandler]
      have hpos : 0 < (v.blocks.drop v.writeLen).length := Nat.pos_of_ne_zero hmore
      exact ⟨hf, ⟨lt_min hpos (by decide), min_le_left _ _⟩, h0⟩
    · have hnil : v.blocks.drop v.writeLen = [] := List.length_eq_zero_iff.1 (not_not.1 hmore)
      apply Inv.closeHead
      · exact hs.fragmentDone hw
      · exact ht.fragmentDone hs
      · exact hf.1
      · exact hf.2.1
      · exact hf.2.2.1
      · exact h0
      · exact fun _ => hnil
      · exact fun _ => hnil

theorem Inv.closeNow (hs : Stream v) (ht : Table v) (hf : Fresh v) (h0 : v.closed ≠ 0) (hio : v.ioInProgress = false)
    (hhandler : v.handler = .openWriteClose) (w : World) : Inv (v.closeNow w) := by
  have hstage : Stage v := by
    unfold Stage
    rw [hhandler]
    exact ⟨hf, hio, h0⟩
  obtain ⟨hadmits, hhead, hres, hdata⟩ := hf
  unfold VC.closeNow
  split_ifs with hclose htotal hempty hrest
  · have hnil := (hs.docs_nil htotal).2
    have hlen : v.blocks.length ≤ v.writeLen := by rw [hnil]; exact Nat.zero_le _
    exact Inv.updateVector hs ht ⟨hadmits, hhead, hres, hlen, fun _ => hnil⟩ h0 hstage w
  · have hneg : ¬ (0 : ℤ) < -1 := by decide
    have hne : (-1 : ℤ) ≠ 0 := by decide
    exact Inv.callCloseDir hs ht (closing_of_failed hadmits hhead fun h => hneg h.1) hne
  · refine ⟨hs, ht, ⟨⟨hadmits, hhead, hres, hdata⟩, ?_, h0⟩⟩
    exact ⟨lt_min (Nat.pos_of_ne_zero hrest.1) (by decide), min_le_left _ _⟩
  · refine Inv.closeHead hs ht hadmits hhead hres h0 (fun hd => ?_) (fun hfrag => ?_) w
    · rw [hdata] at hd
      exact absurd hd Bool.false_ne_true
    · by_contra hne
      exact hrest ⟨fun hz => hne (List.length_eq_zero_iff.1 hz), Or.inl hfrag⟩
  · exact Inv.callCloseDir hs ht (closing_of_failed hadmits hhead fun h => hclose (Or.inl h.1)) h0

theorem Inv.openWriteClose (hs : Stream v) (ht : Table v) (hf : Fresh v) (h0 : v.closed ≠ 0) (hio : v.ioInProgress = false)
    (hhandler : v.handler = .openWriteClose) (aio : Option Bool) (w : World) : Inv (v.openWriteClose aio w) := by
  unfold VC.openWriteClose
  rw [ioDone_idle hio]
  dsimp only
  rw [if_neg fun h => absurd (hio.symm.trans h.1) Bool.false_ne_true]
  exact Inv.closeNow hs ht hf h0 hio hhandler w

/-- an update with a body takes the key of its first fragment -/
theorem Table.die (h : Table v) :
    Table { v with alternate :=
      if v.update ∧ v.totalLen ≠ 0 then v.alternate.map fun a => { a with objectKey := v.earliestKey } else v.alternate } := by
  intro hup a ha
  have hup' : v.update = false := hup
  dsimp only at ha
  rw [if_neg fun hc => absurd (hup'.symm.trans hc.1) Bool.false_ne_true] at ha
  exact h hup' a ha

/-- closing with a write in progress waits for it; otherwise the close begins -/
theorem Inv.die (hs : Stream v) (ht : Table v) (hf : Fresh v) (h0 : v.closed ≠ 0)
    (hwriting : v.ioInProgress = true → v.handler = .openWriteWriteDone ∧ Writing v) (w : World) : Inv (v.die w) := by
  unfold VC.die
  dsimp only
  by_cases hio : v.ioInProgress = true
  · rw [if_pos hio]
    obtain ⟨hhandler, hw⟩ := hwriting hio
    refine ⟨hs, ht.die, ?_⟩
    unfold Stage
    simp only [hhandler]
    exact ⟨hf, hw⟩
  · rw [if_neg hio]
    apply Inv.openWriteClose
    · exact hs
    · exact ht.die
    · exact hf
    · exact h0
    · exact Bool.eq_false_of_not_eq_true hio
    · rfl

/-! ## Writing -/

/-- both cuts take the same from `avail` and `towrite` -/
theorem clip_sub (limit : ℤ) (p : ℤ × ℤ) : (VC.clip limit p).2 - (VC.clip limit p).1 = p.2 - p.1 := by
  unfold VC.clip
  split_ifs with hcut
  · ring
  · rfl

theorem clip_snd (limit : ℤ) (p : ℤ × ℤ) : (VC.clip limit p).2 = min p.2 limit := by
  unfold VC.clip
  split_ifs with hcut
  · exact (min_eq_right hcut.le).symm
  · exact (min_eq_left (not_lt.1 hcut)).symm

/-- what `writeSome` takes: `avail` bytes of the buffer, with which `blocks` has `towrite` -/
structure Cut (v : VC) (avail towrite : ℕ) : Prop where
  le_buffer : avail ≤ v.buffer.length
  sum : towrite = v.length + avail
  short : towrite ≤ MAX_FRAG_SIZE

theorem Stream.consume (h : Stream v) {avail towrite : ℕ} (hc : Cut v avail towrite) :
    Stream (v.consume avail towrite) := by
  have hblocks : (v.blocks ++ v.buffer).take towrite = v.blocks ++ v.buffer.take avail := by
    rw [hc.sum, VC.length, List.take_length_add_append]
  constructor
  · calc v.consumed ++ v.buffer.take avail
        = (v.docs.map Doc.data).flatten ++ v.blocks ++ v.buffer.take avail := by rw [h.taken]
      _ = _ := by rw [List.append_assoc, ← hblocks]; rfl
  · change v.totalLen + (v.buffer.take avail).length = (v.consumed ++ v.buffer.take avail).length
    rw [List.length_append, h.total]
  · calc ((v.blocks ++ v.buffer).take towrite).length ≤ towrite := List.length_take_le _ _
      _ ≤ MAX_FRAG_SIZE := hc.short
  · exact h.nonempty
  · exact h.no_header
  · exact h.count
  · exact h.position
  · exact h.chain
  · exact h.keys

theorem consume_length {avail towrite : ℕ} (hc : Cut v avail towrite) : (v.consume avail towrite).length = towrite := by
  change ((v.blocks ++ v.buffer).take towrite).length = towrite
  have hsum := hc.sum
  have hle := hc.le_buffer
  unfold VC.length at hsum
  rw [List.length_take, List.length_append, min_eq_left (by omega)]

/-- with something left to do, the cuts leave `avail` at least 0 -/
theorem cut_exists (hs : Stream v) (htodo : 0 < v.ntodo) :
    ∃ avail towrite : ℕ, Cut v avail towrite ∧
      VC.clip MAX_FRAG_SIZE (VC.clip (v.ntodo + v.length) (v.buffer.length, v.buffer.length + v.length)) =
        (↑avail, ↑towrite) := by
  have hshort : v.length ≤ MAX_FRAG_SIZE := hs.short
  set p := VC.clip MAX_FRAG_SIZE (VC.clip (v.ntodo + v.length) (v.buffer.length, v.buffer.length + v.length)) with hp
  have hsub : p.2 - p.1 = v.length := by
    rw [hp, clip_sub, clip_sub]
    dsimp only
    ring
  have hsnd : p.2 = min (min (v.buffer.length + v.length : ℤ) (v.ntodo + v.length)) MAX_FRAG_SIZE := by
    rw [hp, clip_snd, clip_snd]
  have hge : (v.length : ℤ) ≤ p.2 := by
    rw [hsnd]
    exact le_min (le_min (by omega) (by omega)) (by exact_mod_cast hshort)
  have hle : p.2 ≤ v.buffer.length + v.length := by
    rw [hsnd]
    exact (min_le_left _ _).trans (min_le_left _ _)
  have hmax : p.2 ≤ MAX_FRAG_SIZE := by
    rw [hsnd]
    exact min_le_right _ _
  refine ⟨p.1.toNat, p.2.toNat, ⟨by omega, by omega, by omega⟩, ?_⟩
  apply Prod.ext
  · change p.1 = ((p.1.toNat : ℕ) : ℤ)
    omega
  · change p.2 = ((p.2.toNat : ℕ) : ℤ)
    omega

theorem pickWriteLen_bounds (cfg : Config) {n : ℕ} (h : 0 < n) : 0 < VC.pickWriteLen cfg n ∧ VC.pickWriteLen cfg n ≤ n := by
  have htarget : 0 < cfg.target_fragment_size := Nat.sub_pos_of_lt cfg.above_doc
  unfold VC.pickWriteLen
  split_ifs with hcut
  · exact ⟨htarget, hcut.1.le⟩
  · exact ⟨h, le_rfl⟩

/-- an idle VC in `openWriteMain` -/
structure Idle (v : VC) : Prop where
  stream : Stream v
  table : Table v
  fresh : Fresh v
  io : v.ioInProgress = false
  handler : v.handler = .openWriteMain

theorem Idle.inv (h : Idle v) : Inv v := by
  refine ⟨h.stream, h.table, ?_⟩
  unfold Stage
  rw [h.handler]
  exact ⟨h.fresh, h.io⟩

theorem Idle.callback (h : Idle v) (c : Callback) : Idle { v with callback := c } :=
  ⟨h.stream, h.table, h.fresh, h.io, h.handler⟩

theorem Idle.writeOrWait (h : Idle v) {ntodo towrite : ℤ} (hntodo : 0 < ntodo) (hwriting : 0 < towrite → Writing v)
    (cfg : Config) (w : World) (calledUser : Bool) : Inv (v.writeOrWait cfg w calledUser ntodo towrite) := by
  have htarget : 0 < cfg.target_fragment_size := Nat.sub_pos_of_lt cfg.above_doc
  unfold VC.writeOrWait
  dsimp only
  split_ifs with hready hcomplete hnot hclose
  · exact (h.callback _).inv
  · exact (h.callback _).inv
  · exact h.inv
  · apply Inv.openWriteClose
    · exact h.stream
    · exact h.table
    · exact h.fresh
    · exact one_ne_zero
    · exact h.io
    · rfl
  · refine ⟨h.stream, h.table, h.fresh, hwriting ?_⟩
    -- a piece is written if it is the last one or has the target's length
    by_contra hzero
    exact hnot ⟨by omega, by omega⟩

theorem Idle.writeSome (h : Idle v) (htodo : 0 < v.ntodo) (cfg : Config) (w : World) (calledUser : Bool) :
    Inv (v.writeSome cfg w calledUser) := by
  obtain ⟨avail, towrite, hcut, hp⟩ := cut_exists h.stream htodo
  have hlen := consume_length hcut
  unfold VC.writeSome
  dsimp only
  rw [hp]
  apply Idle.writeOrWait
  · exact ⟨h.stream.consume hcut, h.table, h.fresh, h.io, h.handler⟩
  · exact Int.add_pos_of_pos_of_nonneg htodo (Int.natCast_nonneg _)
  · intro hpos
    have hpos' : (0 : ℤ) < towrite := hpos
    have hlen' : 0 < (v.consume avail towrite).length := by
      rw [hlen]
      exact_mod_cast hpos'
    exact pickWriteLen_bounds cfg hlen'

theorem Idle.afterBuffer (h : Idle v) (cfg : Config) (w : World) (calledUser : Bool) :
    Inv (v.afterBuffer cfg w calledUser) := by
  unfold VC.afterBuffer
  split_ifs with htodo
  · exact (h.callback _).inv
  · exact h.writeSome (not_le.1 htodo) cfg w calledUser

theorem Idle.lagain (h : Idle v) (cfg : Config) (w : World) (calledUser : Bool) : Inv (v.lagain cfg w calledUser) := by
  unfold VC.lagain
  split_ifs with hbuffer
  · exact h.afterBuffer cfg w calledUser
  · exact (h.callback _).inv

theorem Idle.openWriteMain (h : Idle v) (cfg : Config) (w : World) : Inv (v.openWriteMain cfg w) := by
  have h' := h.callback .none
  unfold VC.openWriteMain
  dsimp only
  by_cases hclosed : v.callback ≠ .none ∧ v.closed ≠ 0
  · rw [if_pos hclosed]
    apply Inv.die
    · exact h'.stream
    · exact h'.table
    · exact h'.fresh
    · exact hclosed.2
    · exact fun hio => absurd (h.io.symm.trans hio) Bool.false_ne_true
  · rw [if_neg hclosed]
    cases v.callback with
    | none => exact h'.lagain cfg w false
    | noBuffer calledUser =>
      dsimp only
      split_ifs with hbuffer
      · exact h'.afterBuffer cfg w calledUser
      · exact h'.inv
    | complete =>
      dsimp only
      split_ifs with htodo
      · exact h'.inv
      · exact h'.writeSome (not_le.1 htodo) cfg w true
    | ready => exact h'.lagain cfg w true
    | error => exact h'.inv

theorem Inv.writeDone (hs : Stream v) (ht : Table v) (hf : Fresh v) (hw : Writing v)
    (hhandler : v.handler = .openWriteWriteDone) (cfg : Config) (aio : Option Bool) (w : World) :
    Inv (v.openWriteWriteDone cfg aio w) := by
  have hstage : Stage v := by
    unfold Stage
    rw [hhandler]
    exact ⟨hf, hw⟩
  unfold VC.openWriteWriteDone
  cases hdone : v.ioDone aio with
  | none => exact ⟨hs, ht, hstage⟩
  | some v' =>
    obtain ⟨ok, rfl⟩ := ioDone_some hdone
    dsimp only
    split_ifs with hok hbusy hclosed hclosed
    · refine ⟨hs, ht, ?_⟩
      unfold Stage
      simp only [hhandler]
      exact ⟨hf, hw⟩
    · apply Inv.die
      · exact hs.fragmentDone hw
      · exact ht.fragmentDone hs
      · exact hf
      · exact hclosed
      · exact fun hio => absurd hio Bool.false_ne_true
    · apply Idle.openWriteMain
      exact ⟨hs.fragmentDone hw, ht.fragmentDone hs, hf, rfl, rfl⟩
    · have habort : (-1 : ℤ) ≠ 0 := by decide
      apply Inv.die
      · exact hs
      · exact ht
      · exact hf
      · exact habort
      · exact fun hio => absurd hio Bool.false_ne_true
    · apply Idle.inv
      exact ⟨hs, ht, hf, rfl, rfl⟩

/-! ## Steps and runs -/

/-- what `openWriteCloseDir` does: try again later, or free the VC -/
theorem Inv.closeDir (h : Inv v) (hhandler : v.handler = .openWriteCloseDir) (cfg : Config) (w : World) :
    if w.volBusy then v.openWriteCloseDir cfg w = v else Freed (v.openWriteCloseDir cfg w) := by
  have hstage := h.stage
  simp only [Stage, hhandler] at hstage
  unfold VC.openWriteCloseDir
  by_cases hbusy : w.volBusy = true
  · rw [if_pos hbusy, if_pos hbusy]
  · rw [if_neg hbusy, if_neg hbusy]
    exact ⟨rfl, h.stream, h.table, hstage.1.2.1⟩

/-- an event to a VC that does not wait in `openWriteCloseDir` -/
theorem Inv.handleEvent (h : Inv v) (hdir : v.handler ≠ .openWriteCloseDir) (cfg : Config) (aio : Option Bool) (w : World) :
    Inv (handleEvent cfg aio w v) := by
  obtain ⟨hs, ht, hstage⟩ := h
  have hstage' := hstage
  unfold Stage at hstage
  unfold WriteVC.handleEvent
  generalize hhandler : v.handler = handler at hstage hdir
  cases handler with
  | openWriteMain => exact Idle.openWriteMain ⟨hs, ht, hstage.1, hstage.2, hhandler⟩ cfg w
  | openWriteWriteDone => exact Inv.writeDone hs ht hstage.1 hstage.2 hhandler cfg aio w
  | openWriteClose => exact Inv.openWriteClose hs ht hstage.1 hstage.2.2 hstage.2.1 hhandler aio w
  | openWriteCloseDataDone => exact Inv.dataDone hs ht hstage.1 hstage.2.1 hstage.2.2 hhandler aio w
  | updateVector => exact Inv.updateVector hs ht hstage.1 hstage.2 hstage' w
  | openWriteCloseHeadDone => exact Inv.headDone hs ht hstage.1 hstage.2 hhandler aio w
  | openWriteCloseDir => exact absurd rfl hdir
  | freed => exact hstage.elim

/-- a VC that is not closed yet is in `openWriteMain` or waits for a fragment -/
theorem Inv.open_cases (h : Inv v) (h0 : v.closed = 0) :
    Fresh v ∧ (v.handler = .openWriteMain ∧ v.ioInProgress = false ∨ v.handler = .openWriteWriteDone ∧ Writing v) := by
  have hstage := h.stage
  unfold Stage at hstage
  generalize hhandler : v.handler = handler at hstage
  cases handler with
  | openWriteMain => exact ⟨hstage.1, Or.inl ⟨rfl, hstage.2⟩⟩
  | openWriteWriteDone => exact ⟨hstage.1, Or.inr ⟨rfl, hstage.2⟩⟩
  | openWriteClose => exact absurd h0 hstage.2.2
  | openWriteCloseDataDone => exact absurd h0 hstage.2.2
  | updateVector => exact absurd h0 hstage.2
  | openWriteCloseHeadDone => exact absurd h0 hstage.2
  | openWriteCloseDir => exact absurd h0 hstage.2
  | freed => exact hstage.elim

/-- an open VC keeps its invariant when only `closed`, the alternate or a flag of the client changes -/
theorem Inv.of_open (hs : Stream v') (ht : Table v') (hf : Fresh v')
    (hcases : v'.handler = .openWriteMain ∧ v'.ioInProgress = false ∨ v'.handler = .openWriteWriteDone ∧ Writing v') :
    Inv v' := by
  refine ⟨hs, ht, ?_⟩
  unfold Stage
  rcases hcases with ⟨hhandler, hio⟩ | ⟨hhandler, hw⟩
  · rw [hhandler]
    exact ⟨hf, hio⟩
  · rw [hhandler]
    exact ⟨hf, hw⟩

theorem Inv.setHttpInfo (h : Inv v) (h0 : v.closed = 0) (size : ℕ) (allowEmptyDoc : Bool) :
    Inv (v.setHttpInfo size allowEmptyDoc) := by
  obtain ⟨hf, hcases⟩ := h.open_cases h0
  unfold VC.setHttpInfo
  by_cases htotal : v.totalLen = 0
  · rw [if_pos htotal]
    apply Inv.of_open
    · exact h.stream
    · intro hup a ha
      have hup' : v.update = false := hup
      simp only [hup', Bool.false_eq_true, if_false, Option.some.injEq] at ha
      subst ha
      refine ⟨rfl, ?_⟩
      change [] = fragStarts v.docs
      rw [(h.stream.docs_nil htotal).1]
      rfl
    · exact hf
    · exact hcases
  · rw [if_neg htotal]
    exact h

theorem Inv.doIoClose (h : Inv v) (h0 : v.closed = 0) (alerrno : ℤ) (w : World) : Inv (v.doIoClose alerrno w) := by
  have hclosed : (if alerrno = -1 then 1 else -1 : ℤ) ≠ 0 := by split_ifs <;> decide
  obtain ⟨hf, hcases⟩ := h.open_cases h0
  unfold VC.doIoClose
  dsimp only
  by_cases hdie : v.closed = 0 ∧ v.callback = .none
  · rw [if_pos hdie]
    apply Inv.die
    · exact h.stream
    · exact h.table
    · exact hf
    · exact hclosed
    · intro hio
      rcases hcases with ⟨-, hidle⟩ | hwriting
      · exact absurd (hidle.symm.trans hio) Bool.false_ne_true
      · exact hwriting
  · -- inside a callback the close waits for its return
    rw [if_neg hdie]
    exact Inv.of_open h.stream h.table hf hcases

/-- the step in which a VC gets the lock for `openWriteCloseDir` -/
def LastStep (v : VC) (op : Op) : Prop :=
  v.handler = .openWriteCloseDir ∧ ∃ aio w, op = .event aio w ∧ w.volBusy = false

/-- a step keeps the VC in use, or it is its last one -/
theorem step_cases (cfg : Config) (op : Op) (h : Inv v) (hc : ClientOk v op) :
    Inv (step cfg v op) ∨ LastStep v op ∧ Freed (step cfg v op) := by
  have hfreed : v.handler ≠ .freed := by
    intro hfreed
    have hstage := h.stage
    simp only [Stage, hfreed] at hstage
  unfold step
  rw [if_neg hfreed]
  cases op with
  | setHttpInfo size allowEmptyDoc => exact Or.inl (h.setHttpInfo hc size allowEmptyDoc)
  | doIoWrite nbytes buffer => exact Or.inl ⟨h.stream, h.table, h.stage⟩
  | setNbytes nbytes => exact Or.inl ⟨h.stream, h.table, h.stage⟩
  | fill data => exact Or.inl ⟨h.stream, h.table, h.stage⟩
  | doIoClose alerrno w => exact Or.inl (h.doIoClose hc alerrno w)
  | event aio w =>
    by_cases hdir : v.handler = .openWriteCloseDir
    · have hclose := h.closeDir hdir cfg w
      simp only [handleEvent, hdir]
      split_ifs at hclose with hbusy
      · rw [hclose]
        exact Or.inl h
      · exact Or.inr ⟨⟨hdir, aio, w, rfl, Bool.eq_false_of_not_eq_true hbusy⟩, hclose⟩
    · exact Or.inl (h.handleEvent hdir cfg aio w)

theorem Freed.step (h : Freed v) (cfg : Config) (op : Op) : step cfg v op = v := by
  unfold WriteVC.step
  rw [if_pos h.handler]

/-- the invariant of every VC -/
def RunInv (v : VC) : Prop := Inv v ∨ Freed v

theorem RunInv.stream (h : RunInv v) : Stream v := by
  rcases h with h | h
  · exact h.stream
  · exact h.stream

theorem RunInv.table (h : RunInv v) : Table v := by
  rcases h with h | h
  · exact h.table
  · exact h.table

theorem RunInv.headOk (h : RunInv v) : HeadOk v := by
  rcases h with h | h
  · have hstage := h.stage
    unfold Stage at hstage
    generalize v.handler = handler at hstage
    cases handler with
    | openWriteCloseDir => exact hstage.1.2.1
    | freed => exact hstage.elim
    | _ => exact headOk_of_none hstage.1.2.1
  · exact h.head

theorem step_inv (cfg : Config) (v : VC) (op : Op) (h : RunInv v) (hc : ClientOk v op) : RunInv (step cfg v op) := by
  rcases h with h | h
  · rcases step_cases cfg op h hc with h' | ⟨-, h'⟩
    · exact Or.inl h'
    · exact Or.inr h'
  · rw [h.step cfg op]
    exact Or.inr h

theorem init_inv (update http closeComplete : Bool) (key updateKey : CacheKey) (updateLen : ℕ) :
    Inv (init update http closeComplete key updateKey updateLen) := by
  refine ⟨⟨rfl, rfl, Nat.zero_le _, ?_, ?_, rfl, rfl, rfl, rfl⟩, ?_, ⟨rfl, rfl, rfl, rfl⟩, rfl⟩
  · intro d hd
    exact absurd hd List.not_mem_nil
  · intro d hd
    exact absurd hd List.not_mem_nil
  · intro _ a ha
    exact absurd ha.symm (Option.some_ne_none a)

theorem run_inv (cfg : Config) {ops : List Op} (h : Inv v) (hc : Along (step cfg) ClientOk v ops) :
    RunInv (run cfg v ops) :=
  hc.inv (step_inv cfg) (Or.inl h)

end TrafficServer.Cache.WriteVC
