/-
The cooked values of a header over its runs (`proxy/hdrs/MIME.cc`).

Each operation that changes a Cache-Control or Pragma field calls `recompute_cooked_stuff` for that one header. `Coherent` says that the
values it keeps are those that are computed from the live fields. `reached_coherent` is about every header that is reached by runs whose
operations meet `Allowed`, and `attach_stale` shows why there is a condition: `mime_hdr_field_attach` does not compute anything when the field
has no value, although as the first of its list such a field hides the values behind it.
-/
import TrafficServer.Hdrs.CommaValues
import TrafficServer.Hdrs.MimeHdrOps

namespace TrafficServer.Hdrs.MimeHdr

open HttpParse Cooked NextIndex

namespace MIMEHdrImpl

variable {mh mh' : MIMEHdrImpl} {i : ℕ} {f : MIMEField ℕ}

/-! ## The values of a name -/

/-- the value in a slot; without one the pointer is null -/
def fieldValue (mh : MIMEHdrImpl) (i : ℕ) : Option Bytes := (mh.slots[i]?).bind MIMEField.value

/-- the values of the live fields of a name -/
def valuesOf (mh : MIMEHdrImpl) (k : Key) : List (Option Bytes) := ((List.range mh.slots.length).filter (mh.atKey k)).map mh.fieldValue

/-- the walk down the list meets the fields in the order of their slots -/
theorem dupValues_eq (hwf : mh.WellFormed) {k : Key} :
    ∀ n i, ((List.range mh.slots.length).filter (after (mh.atKey k) i)).length ≤ n →
      mh.dupValues n (mh.nextOf k i) = ((List.range mh.slots.length).filter (after (mh.atKey k) i)).map mh.fieldValue := by
  intro n
  induction n with
  | zero =>
    intro i hn
    rw [List.length_eq_zero_iff.mp (Nat.le_zero.mp hn)]
    rfl
  | succ n ih =>
    intro i hn
    cases hnext : mh.nextOf k i with
    | none =>
      rw [filter_range_of_first_none (show first (after (mh.atKey k) i) mh.slots.length = none from hnext)]
      rfl
    | some j =>
      obtain ⟨hij, hat, -⟩ := (next_eq_some_iff (bounded_atKey mh k)).mp hnext
      obtain ⟨g, hg, hlive, rfl⟩ := atKey_iff.mp hat
      have hfilter := filter_range_of_first (show first (after (mh.atKey g.key) i) mh.slots.length = some j from hnext)
      rw [after_after hij] at hfilter
      rw [hfilter, List.length_cons] at hn
      rw [hfilter, dupValues, hg, List.map_cons, fieldValue, hg, Option.bind_some]
      dsimp only
      rw [hwf.linked j g hg hlive]
      exact congrArg _ (ih j (Nat.le_of_succ_le_succ hn))

theorem found_eq (hwf : mh.WellFormed) (idx : ℕ) :
    mh.found idx = match mh.valuesOf (.wks idx) with
      | [] => none
      | v :: vs => some (v, vs) := by
  rw [found, fieldFindWks_eq hwf, valuesOf]
  cases hfirst : mh.firstOf (.wks idx) with
  | none =>
    rw [filter_range_of_first_none hfirst]
    rfl
  | some i =>
    obtain ⟨hat, -⟩ := (first_eq_some_iff (bounded_atKey mh _)).mp hfirst
    obtain ⟨g, hg, hlive, hkey⟩ := atKey_iff.mp hat
    have hlength : ((List.range mh.slots.length).filter (after (mh.atKey (.wks idx)) i)).length ≤ mh.slots.length :=
      (List.length_filter_le _ _).trans List.length_range.le
    rw [filter_range_of_first hfirst, List.map_cons, Option.bind_some, hg, Option.map_some, hwf.linked i g hg hlive, hkey,
      dupValues_eq hwf _ i hlength, fieldValue, hg, Option.bind_some]

theorem valuesOf_congr {k : Key} (hat : ∀ j, mh'.atKey k j = mh.atKey k j)
    (hvalue : ∀ j, mh.atKey k j = true → mh'.fieldValue j = mh.fieldValue j) : mh'.valuesOf k = mh.valuesOf k := by
  have hfun : mh'.atKey k = mh.atKey k := funext hat
  have hbounded' : Bounded (mh.atKey k) mh'.slots.length := hfun ▸ bounded_atKey mh' k
  have hfilter : (List.range mh'.slots.length).filter (mh.atKey k) = (List.range mh.slots.length).filter (mh.atKey k) := by
    rcases Nat.le_total mh.slots.length mh'.slots.length with hle | hle
    · exact filter_range_bounded (bounded_atKey mh k) hle
    · exact (filter_range_bounded hbounded' hle).symm
  rw [valuesOf, valuesOf, hfun, hfilter]
  exact List.map_congr_left fun j hj => hvalue j (List.mem_filter.mp hj).2

theorem found_congr (hwf : mh.WellFormed) (hwf' : mh'.WellFormed) {idx : ℕ} (hat : ∀ j, mh'.atKey (.wks idx) j = mh.atKey (.wks idx) j)
    (hvalue : ∀ j, mh.atKey (.wks idx) j = true → mh'.fieldValue j = mh.fieldValue j) : mh'.found idx = mh.found idx := by
  rw [found_eq hwf, found_eq hwf', valuesOf_congr hat hvalue]

/-! ## Coherence -/

/-- the values that are kept are those that are computed for both headers -/
def Coherent (mh : MIMEHdrImpl) : Prop := mh.cookedStuff = (mh.recomputeCookedStuff none).cookedStuff

theorem coherent_iff : mh.Coherent ↔ mh.cookedStuff.cacheControl = cookCacheControl (mh.found MIME_WKSIDX_CACHE_CONTROL) ∧
    mh.cookedStuff.noCache = cookPragma (mh.found MIME_WKSIDX_PRAGMA) := by
  rw [Coherent, MIMECooked.ext_iff]
  exact Iff.rfl

/-- a Cache-Control or Pragma field has the flag -/
def Flagged (mh : MIMEHdrImpl) : Prop :=
  ∀ g ∈ mh.slots, g.wksIdx = some MIME_WKSIDX_CACHE_CONTROL ∨ g.wksIdx = some MIME_WKSIDX_PRAGMA → g.cooked = true

structure Sound (mh : MIMEHdrImpl) : Prop where
  wellFormed : mh.WellFormed
  flagged : mh.Flagged
  coherent : mh.Coherent

theorem cacheControl_ne_pragma : MIME_WKSIDX_CACHE_CONTROL ≠ MIME_WKSIDX_PRAGMA := by decide +kernel

theorem dupValues_congr (hslots : mh'.slots = mh.slots) : ∀ n i, mh'.dupValues n i = mh.dupValues n i
  | 0, _ => rfl
  | _ + 1, none => rfl
  | n + 1, some i => by
    rw [dupValues, dupValues, hslots]
    cases mh.slots[i]? with
    | none => rfl
    | some f => exact congrArg (f.value :: ·) (dupValues_congr hslots n f.nextDup)

theorem found_recomputeFor (mh : MIMEHdrImpl) (f : MIMEField ℕ) (idx : ℕ) : (mh.recomputeFor f).found idx = mh.found idx := by
  unfold recomputeFor
  split_ifs
  · have hslots : (mh.recomputeCookedStuff (some f.wksIdx)).slots = mh.slots := rfl
    have hfind : (mh.recomputeCookedStuff (some f.wksIdx)).fieldFindWks idx = mh.fieldFindWks idx := rfl
    simp only [found, hfind, hslots, dupValues_congr hslots]
  · rfl

/-- One header has changed, and is computed again; the other one is what it was. -/
theorem recomputeFor_coherent (hcoherent : mh.Coherent) (hcooked : mh'.cookedStuff = mh.cookedStuff)
    (hflag : f.wksIdx = some MIME_WKSIDX_CACHE_CONTROL ∨ f.wksIdx = some MIME_WKSIDX_PRAGMA → f.cooked = true)
    (hframe : ∀ idx, f.wksIdx ≠ some idx → mh'.found idx = mh.found idx) : (mh'.recomputeFor f).Coherent := by
  obtain ⟨hcc, hpragma⟩ := coherent_iff.mp hcoherent
  rw [coherent_iff, found_recomputeFor, found_recomputeFor, recomputeFor]
  split_ifs with hf
  · constructor
    · change (if some f.wksIdx = some (some MIME_WKSIDX_PRAGMA) then mh'.cookedStuff.cacheControl else _) = _
      split_ifs with heq
      · have hne : f.wksIdx ≠ some MIME_WKSIDX_CACHE_CONTROL := by
          rw [Option.some.inj heq]
          exact fun h => cacheControl_ne_pragma (Option.some.inj h).symm
        rw [hcooked, hcc, hframe _ hne]
      · rfl
    · change (if some f.wksIdx = some (some MIME_WKSIDX_CACHE_CONTROL) then mh'.cookedStuff.noCache else _) = _
      split_ifs with heq
      · have hne : f.wksIdx ≠ some MIME_WKSIDX_PRAGMA := by
          rw [Option.some.inj heq]
          exact fun h => cacheControl_ne_pragma (Option.some.inj h)
        rw [hcooked, hpragma, hframe _ hne]
      · rfl
  · have hcc' : f.wksIdx ≠ some MIME_WKSIDX_CACHE_CONTROL := fun h => hf (hflag (Or.inl h))
    have hpragma' : f.wksIdx ≠ some MIME_WKSIDX_PRAGMA := fun h => hf (hflag (Or.inr h))
    rw [hcooked, hframe _ hcc', hframe _ hpragma']
    exact ⟨hcc, hpragma⟩

theorem recomputeFor_flagged (h : mh.Flagged) (f : MIMEField ℕ) : (mh.recomputeFor f).Flagged := by
  unfold recomputeFor
  split_ifs
  · exact h
  · exact h

/-- nothing is cooked again, and nothing has to be -/
theorem coherent_of_found (hcoherent : mh.Coherent) (hcooked : mh'.cookedStuff = mh.cookedStuff)
    (hcc : cookCacheControl (mh'.found MIME_WKSIDX_CACHE_CONTROL) = cookCacheControl (mh.found MIME_WKSIDX_CACHE_CONTROL))
    (hpragma : cookPragma (mh'.found MIME_WKSIDX_PRAGMA) = cookPragma (mh.found MIME_WKSIDX_PRAGMA)) : mh'.Coherent := by
  rw [coherent_iff, hcooked, hcc, hpragma]
  exact coherent_iff.mp hcoherent

/-! ## What an operation on one field does to the values of the other names -/

theorem fieldValue_eq {j : ℕ} {g : MIMEField ℕ} (h : mh.slots[j]? = some g) : mh.fieldValue j = g.value := by
  rw [fieldValue, h, Option.bind_some]

theorem Inserted.fieldValue (h : mh.Inserted i f mh') {j : ℕ} (hj : j ≠ i) (hat : ∃ g, mh.slots[j]? = some g) :
    mh'.fieldValue j = mh.fieldValue j := by
  obtain ⟨g, hg⟩ := hat
  obtain ⟨g', hg'⟩ := exists_of_length h.length hg
  obtain ⟨g₀, hg₀, hkept, -⟩ := h.other j hj g' hg'
  rw [fieldValue_eq hg', fieldValue_eq hg₀, hkept.value]

theorem Inserted.found (h : mh.Inserted i f mh') (hwf : mh.WellFormed) (hi : mh.slots[i]? = some f) (hdetached : f.isDetached = true) {idx : ℕ}
    (hidx : f.wksIdx ≠ some idx) : mh'.found idx = mh.found idx := by
  have hnot := isLive_eq_false hdetached
  refine found_congr hwf (h.wellFormed hwf hi hnot) (fun j => ?_) fun j hat => ?_
  · rw [Bool.eq_iff_iff, h.atKey_iff hi hnot, or_iff_left fun hor => hidx (key_eq_wks.mp hor.1.symm)]
  · have hj : j ≠ i := by
      intro heq
      rw [heq, not_atKey hi hdetached] at hat
      cases hat
    obtain ⟨g, hg, -⟩ := MIMEHdrImpl.atKey_iff.mp hat
    exact h.fieldValue hj ⟨g, hg⟩

theorem Inserted.flagged (h : mh.Inserted i f mh') (hflagged : mh.Flagged) (hi : mh.slots[i]? = some f) : mh'.Flagged := by
  intro g' hmem
  obtain ⟨j, hj⟩ := List.mem_iff_getElem?.mp hmem
  by_cases hji : j = i
  · subst hji
    obtain ⟨f', hf', hkept, -⟩ := h.field
    obtain rfl := Option.some.inj (hf'.symm.trans hj)
    rw [hkept.wksIdx, hkept.cooked]
    exact hflagged f (List.mem_of_getElem? hi)
  · obtain ⟨g, hg, hkept, -⟩ := h.other j hji g' hj
    rw [hkept.wksIdx, hkept.cooked]
    exact hflagged g (List.mem_of_getElem? hg)

theorem Erased.found (h : mh.Erased i f mh') (hwf : mh.WellFormed) (hi : mh.slots[i]? = some f) {idx : ℕ} (hidx : f.wksIdx ≠ some idx) :
    mh'.found idx = mh.found idx := by
  have hne : ∀ j, mh.atKey (.wks idx) j = true → j ≠ i := by
    intro j hat heq
    subst heq
    exact hidx (key_eq_wks.mp (key_of_atKey hi hat).symm)
  refine found_congr hwf (h.wellFormed hwf hi) (fun j => ?_) fun j hat => ?_
  · rw [Bool.eq_iff_iff, h.atKey_iff, and_iff_left_of_imp (hne j)]
  · obtain ⟨g, hg, -⟩ := MIMEHdrImpl.atKey_iff.mp hat
    obtain ⟨g', hg'⟩ := exists_of_length h.length hg
    obtain ⟨g₀, hg₀, hkept, -⟩ := h.other j (hne j hat) g' hg'
    rw [fieldValue_eq hg', fieldValue_eq hg₀, hkept.value]

theorem Erased.flagged (h : mh.Erased i f mh') (hflagged : mh.Flagged) (hi : mh.slots[i]? = some f) : mh'.Flagged := by
  intro g' hmem
  obtain ⟨j, hj⟩ := List.mem_iff_getElem?.mp hmem
  by_cases hji : j = i
  · subst hji
    obtain ⟨f', hf', hkept, -⟩ := h.field
    obtain rfl := Option.some.inj (hf'.symm.trans hj)
    rw [hkept.wksIdx, hkept.cooked]
    exact hflagged f (List.mem_of_getElem? hi)
  · obtain ⟨g, hg, hkept, -⟩ := h.other j hji g' hj
    rw [hkept.wksIdx, hkept.cooked]
    exact hflagged g (List.mem_of_getElem? hg)

/-- a field that is not live may change, and of a live one the value: that of another name is not touched -/
theorem modify_found (hwf : mh.WellFormed) {g : MIMEField ℕ → MIMEField ℕ} (hwf' : (mh.modify i g).WellFormed) (hi : mh.slots[i]? = some f)
    (hlive : (g f).isLive = f.isLive) (hkey : f.isLive = true → (g f).key = f.key) {idx : ℕ}
    (hvalue : f.isLive = true → f.wksIdx = some idx → (g f).value = f.value) : (mh.modify i g).found idx = mh.found idx := by
  refine found_congr hwf hwf' (modify_atKey hi hlive hkey (.wks idx)) fun j hat => ?_
  by_cases hj : j = i
  · subst hj
    obtain ⟨f₀, hf₀, hl, hk⟩ := atKey_iff.mp hat
    obtain rfl := Option.some.inj (hi.symm.trans hf₀)
    rw [fieldValue_eq (modify_self hi), fieldValue_eq hi]
    exact hvalue hl (key_eq_wks.mp hk)
  · rw [fieldValue, fieldValue, modify_ne hj]

theorem modify_flagged (hflagged : mh.Flagged) (hi : mh.slots[i]? = some f) {g : MIMEField ℕ → MIMEField ℕ}
    (hf : (g f).wksIdx = some MIME_WKSIDX_CACHE_CONTROL ∨ (g f).wksIdx = some MIME_WKSIDX_PRAGMA → (g f).cooked = true) :
    (mh.modify i g).Flagged := by
  intro g' hmem
  obtain ⟨j, hj⟩ := List.mem_iff_getElem?.mp hmem
  by_cases hji : j = i
  · subst hji
    rw [modify_self hi] at hj
    obtain rfl := Option.some.inj hj
    exact hf
  · rw [modify_ne hji] at hj
    exact hflagged g' (List.mem_of_getElem? hj)

/-! ## Each operation keeps the values coherent -/

theorem init_sound : init.Sound := by
  refine ⟨init_wellFormed, fun g hg => absurd hg List.not_mem_nil, ?_⟩
  rw [coherent_iff, found_eq init_wellFormed, found_eq init_wellFormed]
  exact ⟨rfl, rfl⟩

theorem fieldCreate_sound (h : mh.Sound) : mh.fieldCreate.Sound := by
  have hwf := fieldCreate_wellFormed h.wellFormed
  have hfound : ∀ idx, mh.fieldCreate.found idx = mh.found idx := by
    intro idx
    refine found_congr h.wellFormed hwf (mh.fieldCreate_atKey _) fun j hat => ?_
    have hlt := bounded_atKey mh _ j hat
    rw [fieldValue, fieldValue, fieldCreate_slots, if_neg hlt.ne]
  refine ⟨hwf, fun g hg => ?_, coherent_of_found h.coherent rfl (by rw [hfound]) (by rw [hfound])⟩
  rcases List.mem_append.mp hg with hold | hnew
  · exact h.flagged g hold
  · rw [List.mem_singleton.mp hnew]
    exact fun hor => absurd hor (by simp [MIMEField.init])

/-- a field that is not live, and is not afterwards -/
theorem modify_sound (h : mh.Sound) (hi : mh.slots[i]? = some f) (hnot : f.isLive = false) {g : MIMEField ℕ → MIMEField ℕ}
    (hnot' : (g f).isLive = false) (hnamed : (g f).wksIdx = hdrtokenTokenize (g f).name) (hnext : (g f).isDetached = true → (g f).nextDup = none)
    (hflag : (g f).wksIdx = some MIME_WKSIDX_CACHE_CONTROL ∨ (g f).wksIdx = some MIME_WKSIDX_PRAGMA → (g f).cooked = true) :
    (mh.modify i g).Sound := by
  have hno : ¬ f.isLive = true := by simp [hnot]
  have hlive : (g f).isLive = f.isLive := hnot'.trans hnot.symm
  have hwf := modify_wellFormed h.wellFormed hi hlive (fun hl => absurd hl hno) hnamed hnext
  have hfound : ∀ idx, (mh.modify i g).found idx = mh.found idx := fun idx =>
    modify_found h.wellFormed hwf hi hlive (fun hl => absurd hl hno) fun hl => absurd hl hno
  exact ⟨hwf, modify_flagged h.flagged hi hflag, coherent_of_found h.coherent rfl (by rw [hfound]) (by rw [hfound])⟩

theorem flag_of_wksIdx {idx : Option ℕ} (cooked : Bool) (h : idx = some MIME_WKSIDX_CACHE_CONTROL ∨ idx = some MIME_WKSIDX_PRAGMA) :
    (cooked || idx = some MIME_WKSIDX_CACHE_CONTROL || idx = some MIME_WKSIDX_PRAGMA) = true := by
  rcases h with hcc | hpragma
  · simp [hcc]
  · simp [hpragma]

theorem fieldNameSet_sound (h : mh.Sound) (hi : mh.slots[i]? = some f) (hdetached : f.isDetached = true) (name : Bytes) :
    (mh.fieldNameSet i name).Sound := by
  refine modify_sound h hi (isLive_eq_false hdetached) (isLive_eq_false hdetached) rfl (h.wellFormed.alone f (List.mem_of_getElem? hi)) fun hor => ?_
  exact flag_of_wksIdx f.cooked hor

theorem fieldNameValueSet_sound (h : mh.Sound) (hi : mh.slots[i]? = some f) (hdetached : f.isDetached = true) (name value : Bytes)
    (rawPrintable : Bool) : (mh.fieldNameValueSet i name value rawPrintable).Sound := by
  refine modify_sound h hi (isLive_eq_false hdetached) (isLive_eq_false hdetached) rfl (h.wellFormed.alone f (List.mem_of_getElem? hi)) fun hor => ?_
  exact flag_of_wksIdx f.cooked hor

theorem fieldDestroy_sound (h : mh.Sound) (hi : mh.slots[i]? = some f) (hnot : f.isLive = false) : (mh.fieldDestroy i).Sound :=
  modify_sound h hi hnot rfl (h.wellFormed.named f (List.mem_of_getElem? hi)) nofun (h.flagged f (List.mem_of_getElem? hi))

theorem fieldValueSet_sound (h : mh.Sound) (hi : mh.slots[i]? = some f) (value : Option Bytes) : (mh.fieldValueSet i value).Sound := by
  have hmem := List.mem_of_getElem? hi
  have hwf := modify_wellFormed h.wellFormed hi (g := fun f => { f with value := value.map fun s => s.take (s.length % 2 ^ 24), rawPrintable := false })
    rfl (fun _ => ⟨rfl, rfl, rfl⟩) (h.wellFormed.named f hmem) (h.wellFormed.alone f hmem)
  have hflagged := modify_flagged h.flagged hi
    (g := fun f => { f with value := value.map fun s => s.take (s.length % 2 ^ 24), rawPrintable := false }) (h.flagged f hmem)
  rw [fieldValueSet, modify_self hi]
  dsimp only
  split_ifs with hlive
  · refine ⟨recomputeFor_wellFormed hwf _, recomputeFor_flagged hflagged _, recomputeFor_coherent h.coherent rfl (h.flagged f hmem) fun idx hidx => ?_⟩
    exact modify_found h.wellFormed hwf hi rfl (fun _ => rfl) fun _ heq => absurd heq hidx
  · have hfound : ∀ idx, (mh.modify i fun f => { f with value := value.map fun s => s.take (s.length % 2 ^ 24), rawPrintable := false }).found idx =
        mh.found idx := fun idx => modify_found h.wellFormed hwf hi rfl (fun _ => rfl) fun hl => absurd hl hlive
    exact ⟨hwf, hflagged, coherent_of_found h.coherent rfl (by rw [hfound]) (by rw [hfound])⟩

theorem fieldDetach_sound (h : mh.Sound) (hi : mh.slots[i]? = some f) (hlive : f.isLive = true) :
    ∃ mh', mh.fieldDetach i = some mh' ∧ mh.Erased i f mh' ∧ mh'.Sound := by
  obtain ⟨mh₁, herased, hcooked, hdetach⟩ := fieldDetach_erased h.wellFormed hi hlive
  refine ⟨_, hdetach, herased.recompute f, (herased.recompute f).wellFormed h.wellFormed hi, recomputeFor_flagged (herased.flagged h.flagged hi) f, ?_⟩
  exact recomputeFor_coherent h.coherent hcooked (h.flagged f (List.mem_of_getElem? hi)) fun idx hidx => herased.found h.wellFormed hi hidx

/-- there was no field of the name, and the new one has no value -/
theorem Inserted.found_alone (h : mh.Inserted i f mh') (hwf : mh.WellFormed) (hi : mh.slots[i]? = some f) (hdetached : f.isDetached = true)
    {idx : ℕ} (hidx : f.wksIdx = some idx) (hnone : ∀ j, mh.atKey f.key j = false) (hvalue : f.value = none) :
    mh.found idx = none ∧ ∃ dups, mh'.found idx = some (none, dups) := by
  have hkey := key_eq_wks.mpr hidx
  have hfirst : mh.firstOf (.wks idx) = none := (first_eq_none_iff (bounded_atKey mh _)).mpr (hkey ▸ hnone)
  have hnot := isLive_eq_false hdetached
  refine ⟨by rw [MIMEHdrImpl.found, fieldFindWks_eq hwf, hfirst]; rfl, ?_⟩
  have hfirst' : mh'.firstOf (.wks idx) = some i := by
    classical
    have hhead : mh.IsHead f.key i := by
      intro y hy
      rw [hkey, hfirst] at hy
      cases hy
    rw [← hkey, h.firstOf_self hi hnot, if_pos hhead]
  obtain ⟨f', hf', hkept, -⟩ := h.field
  rw [MIMEHdrImpl.found, fieldFindWks_eq (h.wellFormed hwf hi hnot), hfirst', Option.bind_some, hf', Option.map_some, hkept.value]
  exact ⟨_, by rw [hvalue]⟩

theorem fieldAttach_sound (h : mh.Sound) (hi : mh.slots[i]? = some f) (hdetached : f.isDetached = true) (horder : mh.InOrder f.key i)
    {checkForDups : Bool} (hcheck : checkForDups = true ∨ mh.firstOf f.key = none)
    (hvalue : f.wksIdx = some MIME_WKSIDX_CACHE_CONTROL ∨ f.wksIdx = some MIME_WKSIDX_PRAGMA → f.value = none → ∀ j, mh.atKey f.key j = false) :
    ∃ mh', mh.fieldAttach i checkForDups = some mh' ∧ mh'.Sound := by
  obtain ⟨mh₁, hins, hcooked, hattach⟩ := fieldAttach_inserted h.wellFormed hi hdetached horder hcheck
  have hwf₁ := hins.wellFormed h.wellFormed hi (isLive_eq_false hdetached)
  have hflagged₁ := hins.flagged h.flagged hi
  have hframe : ∀ idx, f.wksIdx ≠ some idx → mh₁.found idx = mh.found idx := fun idx hidx => hins.found h.wellFormed hi hdetached hidx
  refine ⟨_, hattach, ?_⟩
  split_ifs with hsome
  · exact ⟨recomputeFor_wellFormed hwf₁ f, recomputeFor_flagged hflagged₁ f,
      recomputeFor_coherent h.coherent hcooked (h.flagged f (List.mem_of_getElem? hi)) hframe⟩
  · have hnone : f.value = none := Option.not_isSome_iff_eq_none.mp hsome
    refine ⟨hwf₁, hflagged₁, coherent_of_found h.coherent hcooked ?_ ?_⟩
    · by_cases hidx : f.wksIdx = some MIME_WKSIDX_CACHE_CONTROL
      · obtain ⟨hold, dups, hnew⟩ := hins.found_alone h.wellFormed hi hdetached hidx (hvalue (Or.inl hidx) hnone) hnone
        rw [hold, hnew, cookCacheControl_null]
        rfl
      · rw [hframe _ hidx]
    · by_cases hidx : f.wksIdx = some MIME_WKSIDX_PRAGMA
      · obtain ⟨hold, dups, hnew⟩ := hins.found_alone h.wellFormed hi hdetached hidx (hvalue (Or.inr hidx) hnone) hnone
        rw [hold, hnew, cookPragma_null]
        rfl
      · rw [hframe _ hidx]

theorem fieldDelete_sound (h : mh.Sound) (hi : mh.slots[i]? = some f) (hlive : f.isLive = true) (hdelete : mh.fieldDelete i = some mh') :
    mh'.Sound := by
  obtain ⟨mh₁, hdetach, herased, hsound⟩ := fieldDetach_sound h hi hlive
  obtain ⟨f₁, hf₁, -⟩ := herased.field
  rw [fieldDelete, hdetach, Option.map_some, Option.some.injEq] at hdelete
  rw [← hdelete]
  exact fieldDestroy_sound hsound hf₁ (herased.not_isLive hf₁)

/-- the next field of a list is live, and stays so when the one before it is detached -/
theorem Erased.next_live (h : mh.Erased i f mh') (hwf : mh.WellFormed) (hi : mh.slots[i]? = some f) (hlive : f.isLive = true) {next : ℕ}
    (hnext : f.nextDup = some next) : ∃ g, mh'.slots[next]? = some g ∧ g.isLive = true := by
  rw [hwf.linked i f hi hlive] at hnext
  obtain ⟨hlt, hat, -⟩ := (next_eq_some_iff (bounded_atKey mh _)).mp hnext
  obtain ⟨g, hg, hglive, -⟩ := MIMEHdrImpl.atKey_iff.mp ((h.atKey_iff f.key next).mpr ⟨hat, hlt.ne'⟩)
  exact ⟨g, hg, hglive⟩

theorem fieldDetachAll_sound :
    ∀ n {i : ℕ} {f : MIMEField ℕ} {mh mh' : MIMEHdrImpl}, mh.Sound → mh.slots[i]? = some f → f.isLive = true →
      fieldDetachAll n i mh = some mh' → mh'.Sound := by
  intro n
  induction n with
  | zero => exact fun _ _ _ h => absurd h nofun
  | succ n ih =>
    intro i f mh mh' h hi hlive hall
    obtain ⟨mh₁, hdetach, herased, hsound⟩ := fieldDetach_sound h hi hlive
    rw [fieldDetachAll, hi, Option.bind_some, hdetach, Option.bind_some, if_neg (not_isDetached hlive)] at hall
    cases hnext : f.nextDup with
    | none =>
      rw [hnext] at hall
      exact Option.some.inj hall ▸ hsound
    | some next =>
      rw [hnext] at hall
      obtain ⟨g, hg, hglive⟩ := herased.next_live h.wellFormed hi hlive hnext
      exact ih hsound hg hglive hall

theorem fieldDeleteAll_sound :
    ∀ n {i : ℕ} {f : MIMEField ℕ} {mh mh' : MIMEHdrImpl}, mh.Sound → mh.slots[i]? = some f → f.isLive = true →
      fieldDeleteAll n (some i) mh = some mh' → mh'.Sound := by
  intro n
  induction n with
  | zero =>
    intro i f mh mh' _ _ _ hall
    cases hall
  | succ n ih =>
    intro i f mh mh' h hi hlive hall
    obtain ⟨mh₁, hdelete, -, -, hat₁⟩ := fieldDelete_spec h.wellFormed hi hlive
    have hsound := fieldDelete_sound h hi hlive hdelete
    rw [fieldDeleteAll, hi, Option.bind_some, hdelete, Option.bind_some] at hall
    cases hnext : f.nextDup with
    | none =>
      cases n with
      | zero =>
        rw [hnext] at hall
        cases hall
      | succ n =>
        rw [hnext] at hall
        exact Option.some.inj hall ▸ hsound
    | some next =>
      rw [hnext] at hall
      have hlinked := (h.wellFormed.linked i f hi hlive).symm.trans hnext
      obtain ⟨hlt, hat, -⟩ := (next_eq_some_iff (bounded_atKey mh _)).mp hlinked
      obtain ⟨g, hg, hglive, -⟩ := atKey_iff.mp ((hat₁ f.key next).mpr ⟨hat, hlt.ne'⟩)
      exact ih hsound hg hglive hall

/-! ## Runs -/

/-- the operations on a header; a field is given by its slot -/
inductive Op where
  | parseField (name value : Bytes) (rawPrintable : Bool)
  | create
  | nameSet (i : ℕ) (name : Bytes)
  | attach (i : ℕ) (checkForDups : Bool)
  | detach (i : ℕ) (detachAllDups : Bool)
  | delete (i : ℕ) (deleteAllDups : Bool)
  | valueSet (i : ℕ) (value : Option Bytes)
  | setCommaVal (i : ℕ) (idx : ℤ) (newPiece : Bytes)
  | deleteCommaVal (i : ℕ) (idx : ℤ)
  | insertCommaVal (i : ℕ) (idx : ℤ) (newPiece : Bytes)
  | extendCommaVal (i : ℕ) (idx : ℤ) (newPiece : Bytes)

/-- One operation. A field is named while it is detached, and what is detached or deleted is live: the code asserts both. To detach a field that
is detached does nothing, and to delete it leaves the slot. -/
def step (mh : MIMEHdrImpl) : Op → Option MIMEHdrImpl
  | .parseField name value rawPrintable => mh.parseField name value rawPrintable
  | .create => some mh.fieldCreate
  | .nameSet i name => (mh.slots[i]?).bind fun f => if f.isDetached then some (mh.fieldNameSet i name) else none
  | .attach i checkForDups => mh.fieldAttach i checkForDups
  | .detach i detachAllDups =>
    (mh.slots[i]?).bind fun f =>
      if f.isDetached then some mh
      else if !f.isLive then none
      else if detachAllDups then fieldDetachAll (mh.slots.length + 1) i mh
      else mh.fieldDetach i
  | .delete i deleteAllDups =>
    (mh.slots[i]?).bind fun f =>
      if f.isDetached then some (mh.fieldDestroy i)
      else if !f.isLive then none
      else if deleteAllDups then fieldDeleteAll (mh.slots.length + 1) (some i) mh
      else mh.fieldDelete i
  | .valueSet i value => (mh.slots[i]?).map fun _ => mh.fieldValueSet i value
  | .setCommaVal i idx newPiece => (mh.slots[i]?).map fun _ => mh.fieldValueSetCommaVal i idx newPiece
  | .deleteCommaVal i idx => (mh.slots[i]?).map fun _ => mh.fieldValueDeleteCommaVal i idx
  | .insertCommaVal i idx newPiece => (mh.slots[i]?).map fun _ => mh.fieldValueInsertCommaVal i idx newPiece
  | .extendCommaVal i idx newPiece => (mh.slots[i]?).map fun _ => mh.fieldValueExtendCommaVal i idx newPiece

/-- What an operation may do. Who attaches a field without a look at the list knows that there is none. The walk down the list finds the right
place. And a Cache-Control or Pragma field without a value is the only one of its name. -/
def Allowed (mh : MIMEHdrImpl) : Op → Prop
  | .attach i checkForDups => ∀ f, mh.slots[i]? = some f → f.isDetached = true →
    (checkForDups = true ∨ ∀ j, mh.atKey f.key j = false) ∧ mh.InOrder f.key i ∧
    (f.wksIdx = some MIME_WKSIDX_CACHE_CONTROL ∨ f.wksIdx = some MIME_WKSIDX_PRAGMA → f.value = none → ∀ j, mh.atKey f.key j = false)
  | _ => True

theorem parseField_sound (h : mh.Sound) (name value : Bytes) (rawPrintable : Bool) :
    ∃ mh', mh.parseField name value rawPrintable = some mh' ∧ mh'.Sound := by
  have hcreated : mh.fieldCreate.slots[mh.slots.length]? = some MIMEField.init := by rw [fieldCreate_slots, if_pos rfl]
  have hset := fieldNameValueSet_sound (fieldCreate_sound h) hcreated rfl name value rawPrintable
  obtain ⟨f, hi, hdetached, hvalue⟩ := fieldNameValueSet_self hcreated name value rawPrintable
  have horder := inOrder_last hi hdetached (fieldNameValueSet_length mh name value rawPrintable) f.key
  exact fieldAttach_sound hset hi hdetached horder (Or.inl rfl) fun _ hnone => absurd hnone hvalue

theorem commaVal_sound (h : mh.Sound) (hi : mh.slots[i]? = some f) {p : Prop} [Decidable p] (value : Option Bytes) :
    (if p then mh else mh.fieldValueSet i value).Sound := by
  split_ifs
  · exact h
  · exact fieldValueSet_sound h hi value

theorem step_sound (h : mh.Sound) {op : Op} (hallowed : mh.Allowed op) (hstep : mh.step op = some mh') : mh'.Sound := by
  cases op with
  | parseField name value rawPrintable =>
    obtain ⟨mh₁, hparse, hsound⟩ := parseField_sound h name value rawPrintable
    exact Option.some.inj (hparse.symm.trans hstep) ▸ hsound
  | create => exact Option.some.inj hstep ▸ fieldCreate_sound h
  | nameSet i name =>
    obtain ⟨f, hi, hset⟩ := Option.bind_eq_some_iff.mp hstep
    split_ifs at hset with hdetached
    exact Option.some.inj hset ▸ fieldNameSet_sound h hi hdetached name
  | attach i checkForDups =>
    obtain ⟨f, hi, hattach⟩ := Option.bind_eq_some_iff.mp hstep
    by_cases hdetached : f.isDetached = true
    · obtain ⟨hcheck, horder, hvalue⟩ := hallowed f hi hdetached
      have hcheck' := hcheck.imp_right fun hnone => (first_eq_none_iff (bounded_atKey mh f.key)).mpr hnone
      obtain ⟨mh₁, heq, hsound⟩ := fieldAttach_sound h hi hdetached horder hcheck' hvalue
      exact Option.some.inj (heq.symm.trans hstep) ▸ hsound
    · rw [if_pos (by simpa using hdetached)] at hattach
      exact Option.some.inj hattach ▸ h
  | detach i detachAllDups =>
    obtain ⟨f, hi, hdetach⟩ := Option.bind_eq_some_iff.mp hstep
    split_ifs at hdetach with hdetached hlive hall
    · exact Option.some.inj hdetach ▸ h
    · exact fieldDetachAll_sound _ h hi (by simpa using hlive) hdetach
    · obtain ⟨mh₁, heq, -, hsound⟩ := fieldDetach_sound h hi (by simpa using hlive)
      exact Option.some.inj (heq.symm.trans hdetach) ▸ hsound
  | delete i deleteAllDups =>
    obtain ⟨f, hi, hdelete⟩ := Option.bind_eq_some_iff.mp hstep
    split_ifs at hdelete with hdetached hlive hall
    · exact Option.some.inj hdelete ▸ fieldDestroy_sound h hi (isLive_eq_false hdetached)
    · exact fieldDeleteAll_sound _ h hi (by simpa using hlive) hdelete
    · exact fieldDelete_sound h hi (by simpa using hlive) hdelete
  | valueSet i value =>
    obtain ⟨f, hi, rfl⟩ := Option.map_eq_some_iff.mp hstep
    exact fieldValueSet_sound h hi value
  | setCommaVal i idx newPiece =>
    obtain ⟨f, hi, rfl⟩ := Option.map_eq_some_iff.mp hstep
    exact commaVal_sound h hi _
  | deleteCommaVal i idx =>
    obtain ⟨f, hi, rfl⟩ := Option.map_eq_some_iff.mp hstep
    exact commaVal_sound h hi _
  | insertCommaVal i idx newPiece =>
    obtain ⟨f, hi, rfl⟩ := Option.map_eq_some_iff.mp hstep
    exact commaVal_sound h hi _
  | extendCommaVal i idx newPiece =>
    obtain ⟨f, hi, rfl⟩ := Option.map_eq_some_iff.mp hstep
    exact commaVal_sound h hi _

/-- the headers that are reached from the empty one by operations that are allowed -/
inductive Reached : MIMEHdrImpl → Prop
  | init : Reached init
  | step {mh mh' : MIMEHdrImpl} {op : Op} : Reached mh → mh.Allowed op → mh.step op = some mh' → Reached mh'

theorem Reached.sound (h : Reached mh) : mh.Sound := by
  induction h with
  | init => exact init_sound
  | step _ hallowed hstep ih => exact step_sound ih hallowed hstep

/-- In every header that is reached the cooked values are those of its live fields. -/
theorem reached_coherent (h : Reached mh) : mh.Coherent := h.sound.coherent

/-- a field that is read, and whose only value is deleted -/
theorem reached_parsed : ∃ mh mh', init.step (.parseField (text "Cache-Control") (text "no-store") true) = some mh ∧
    mh.step (.deleteCommaVal 0 0) = some mh' ∧ mh'.Coherent := by
  obtain ⟨mh, hparse, -⟩ := parseField_sound init_sound (text "Cache-Control") (text "no-store") true
  have hslot : ((init.parseField (text "Cache-Control") (text "no-store") true).bind fun mh => mh.slots[0]?).isSome = true := by decide +kernel
  rw [hparse, Option.bind_some] at hslot
  obtain ⟨f, hf⟩ := Option.isSome_iff_exists.mp hslot
  have hstep : mh.step (.deleteCommaVal 0 0) = some (mh.fieldValueDeleteCommaVal 0 0) := congrArg (Option.map _) hf
  have hparsed : Reached mh := .step .init (show init.Allowed (.parseField (text "Cache-Control") (text "no-store") true) from trivial) hparse
  have hdeleted : Reached (mh.fieldValueDeleteCommaVal 0 0) := .step hparsed (show mh.Allowed (.deleteCommaVal 0 0) from trivial) hstep
  exact ⟨mh, _, hparse, hstep, reached_coherent hdeleted⟩

/-- the first of two fields is detached, loses its only value, and is attached again -/
def staleOps : List Op :=
  [.parseField (text "Cache-Control") (text "public") true, .parseField (text "Cache-Control") (text "no-store") true, .detach 0 false,
    .deleteCommaVal 0 0, .attach 0 true]

/-- the bit of no-store is kept, but computed from the fields there is none -/
theorem attach_stale : ¬ ∀ (ops : List Op) (mh : MIMEHdrImpl), ops.foldlM step init = some mh → mh.Coherent := by
  intro h
  have hstale : (staleOps.foldlM step init).map (fun mh => decide (mh.cookedStuff = (mh.recomputeCookedStuff none).cookedStuff)) =
      some false := by decide +kernel
  obtain ⟨mh, hrun, hnot⟩ := Option.map_eq_some_iff.mp hstale
  exact of_decide_eq_false hnot (h staleOps mh hrun)

end MIMEHdrImpl

end TrafficServer.Hdrs.MimeHdr
